/-
The values of the consensus code: opaque hashes, scripts, money, transactions and blocks
(`uintBIG.h`, `script/script.h`, `amount.h`, `primitives/transaction.h`, `primitives/block.h`).
-/
import Mathlib.Tactic

namespace Catoshi

/-- `MAX_SIZE`, of any serialized object and of the counts in it. -/
def maxSize : ℕ := 0x02000000

/-- `base_blob`: opaque bytes of one fixed width. -/
structure BaseBlob (width : ℕ) where
  data : List UInt8
  size_eq : data.length = width
deriving DecidableEq, Repr

/-- The all-zero blob a default constructor builds. -/
def BaseBlob.null (width : ℕ) : BaseBlob width :=
  ⟨List.replicate width 0, List.length_replicate⟩

def BaseBlob.isNull {width : ℕ} (blob : BaseBlob width) : Bool :=
  decide (blob = BaseBlob.null width)

/-- From a byte vector. The source asserts that the sizes agree, so only the first branch runs. -/
def BaseBlob.ofVector (width : ℕ) (vch : List UInt8) : BaseBlob width :=
  if h : vch.length = width then ⟨vch, h⟩ else BaseBlob.null width

abbrev Uint256 := BaseBlob 32

/-- The identity proof of hash comparison, under its own name. -/
instance lawfulBEqUint256 : LawfulBEq Uint256 := inferInstance

abbrev Uint160 := BaseBlob 20

abbrev CScript := List UInt8

/-- An `int64_t` the range checks keep far from its ends. -/
abbrev CAmount := ℤ

def maxScriptSize : ℕ := 10000

def opReturn : UInt8 := 0x6a

def opDup : UInt8 := 0x76

def opEqual : UInt8 := 0x87

def opEqualVerify : UInt8 := 0x88

def opHash160 : UInt8 := 0xa9

def opCheckSig : UInt8 := 0xac

variable (script : CScript)

/-- Outputs never spendable are not kept in the coin set. -/
def CScript.isUnspendable : Bool :=
  (decide (0 < script.length) && script[0]? == some opReturn) ||
    decide (maxScriptSize < script.length)

def CScript.isPayToPublicKeyHash : Bool :=
  script.length == 25 && script[0]? == some opDup &&
    script[1]? == some opHash160 && script[2]? == some 0x14 &&
    script[23]? == some opEqualVerify && script[24]? == some opCheckSig

def CScript.isPayToScriptHash : Bool :=
  script.length == 23 && script[0]? == some opHash160 &&
    script[1]? == some 0x14 && script[22]? == some opEqual

/-- The type and hash the index reads off a script: 2 for pay-to-script-hash, 1 for
pay-to-public-key-hash, else nothing. -/
def CScript.address : Option (ℕ × Uint160) :=
  if script.isPayToScriptHash then
    some (2, BaseBlob.ofVector 20 ((script.drop 2).take 20))
  else if script.isPayToPublicKeyHash then
    some (1, BaseBlob.ofVector 20 ((script.drop 3).take 20))
  else
    none

theorem CScript.spendable_of_first {script : CScript} {op : UInt8}
    (hfst : script[0]? = some op) (hop : op ≠ opReturn)
    (hsize : script.length ≤ maxScriptSize) : script.isUnspendable = false := by
  rw [CScript.isUnspendable, hfst]
  simp [hop, hsize]

/-- An indexed script is one the coin set does not leave out. -/
theorem CScript.spendable_of_address {script : CScript} {address : ℕ × Uint160}
    (haddr : script.address = some address) : script.isUnspendable = false := by
  by_cases hsh : script.isPayToScriptHash = true
  · simp only [CScript.isPayToScriptHash, Bool.and_eq_true, beq_iff_eq] at hsh
    obtain ⟨⟨⟨hlen, hfst⟩, -⟩, -⟩ := hsh
    apply CScript.spendable_of_first hfst (by decide)
    simp [hlen, maxScriptSize]
  · by_cases hpkh : script.isPayToPublicKeyHash = true
    · simp only [CScript.isPayToPublicKeyHash, Bool.and_eq_true, beq_iff_eq] at hpkh
      obtain ⟨⟨⟨⟨⟨hlen, hfst⟩, -⟩, -⟩, -⟩, -⟩ := hpkh
      apply CScript.spendable_of_first hfst (by decide)
      simp [hlen, maxScriptSize]
    · simp [CScript.address, hsh, hpkh] at haddr

/-- A transaction hash and an output index, below `2 ^ 32` for every output in a block. -/
structure COutPoint where
  hash : Uint256
  n : ℕ
deriving DecidableEq, Repr

/-- `(uint32_t) -1`, the index of the null outpoint. -/
def nullIndex : ℕ := 4294967295

def COutPoint.isNull (outpoint : COutPoint) : Bool :=
  outpoint.hash.isNull && outpoint.n == nullIndex

structure CTxIn where
  prevout : COutPoint
  scriptSig : CScript
  nSequence : UInt32
  scriptWitness : List (List UInt8)
deriving DecidableEq, Repr

structure CTxOut where
  nValue : CAmount
  scriptPubKey : CScript
deriving DecidableEq, Repr

/-- `SetNull`: the value -1 marks a missing output. -/
def CTxOut.null : CTxOut := ⟨-1, []⟩

def CTxOut.isNull (out : CTxOut) : Bool := out.nValue == -1

/-- A transaction with its cached hash, a double SHA-256 taken never to be zero. -/
structure CTransaction where
  nVersion : ℤ
  vin : List CTxIn
  vout : List CTxOut
  nLockTime : UInt32
  hash : Uint256
  hash_ne_null : hash ≠ BaseBlob.null 32
deriving DecidableEq

variable (tx : CTransaction)

def CTransaction.getHash : Uint256 := tx.hash

def CTransaction.isCoinBase : Bool :=
  match tx.vin with
  | [txin] => txin.prevout.isNull
  | _ => false

def CTransaction.prevouts : List COutPoint :=
  tx.vin.map CTxIn.prevout

/-- A block with its cached hash. `fChecked` only remembers a passed check and is left out. -/
structure CBlock where
  hash : Uint256
  hashMerkleRoot : Uint256
  nTime : UInt32
  vtx : List CTransaction
deriving DecidableEq

def CBlock.getHash (block : CBlock) : Uint256 := block.hash

/-- The hash that repeats one byte, for concrete values. -/
def hashOf (byte : UInt8) : Uint256 := ⟨List.replicate 32 byte, rfl⟩

end Catoshi
