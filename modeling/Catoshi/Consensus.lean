/-
The rules for a block and its transactions alone (`consensus/tx_verify.cpp`, `validation.cpp`,
`foodchain/trust.cpp`), the block index, and how a check reports a failure.
-/
import Catoshi.CoinsDB
import Catoshi.Lib.Outcome

namespace Catoshi

open Outcome

def coinUnit : CAmount := 100000000

def maxMoney : CAmount := 21000000 * coinUnit

def coinbaseMaturity : ℤ := 100

def maxBlockWeight : ℕ := 4000000

def witnessScaleFactor : ℕ := 4

def maxBlockSigopsCost : ℕ := 80000

def moneyRange (nValue : CAmount) : Bool :=
  decide (0 ≤ nValue) && decide (nValue ≤ maxMoney)

theorem moneyRange_iff {nValue : CAmount} :
    moneyRange nValue = true ↔ 0 ≤ nValue ∧ nValue ≤ maxMoney := by
  simp [moneyRange]

/-- The consensus parameters the modelled functions read. -/
structure ConsensusParams where
  hashGenesisBlock : Uint256
  nSubsidyHalvingInterval : ℕ
  bip34Height : ℕ
  bip34Hash : Uint256

def getBlockSubsidy (nHeight : ℕ) (params : ConsensusParams) : CAmount :=
  if 64 ≤ nHeight / params.nSubsidyHalvingInterval then 0
  else 50 * coinUnit / 2 ^ (nHeight / params.nSubsidyHalvingInterval)

theorem getBlockSubsidy_nonneg (nHeight : ℕ) (params : ConsensusParams) :
    0 ≤ getBlockSubsidy nHeight params := by
  unfold getBlockSubsidy
  split
  · exact le_rfl
  · exact Int.ediv_nonneg (by decide) (by positivity)

/-- A block's place in the tree: its hash and time and the blocks before it. -/
inductive CBlockIndex where
  | genesis (hash : Uint256) (nTime : UInt32)
  | child (pprev : CBlockIndex) (hash : Uint256) (nTime : UInt32)
deriving DecidableEq

namespace CBlockIndex

def getBlockHash : CBlockIndex → Uint256
  | genesis hash _ => hash
  | child _ hash _ => hash

def nTime : CBlockIndex → UInt32
  | genesis _ nTime => nTime
  | child _ _ nTime => nTime

def pprev : CBlockIndex → Option CBlockIndex
  | genesis _ _ => none
  | child pprev _ _ => some pprev

def nHeight : CBlockIndex → ℕ
  | genesis _ _ => 0
  | child pprev _ _ => pprev.nHeight + 1

/-- The hash of the previous block, zero at the genesis. -/
def hashPrevBlock (pindex : CBlockIndex) : Uint256 :=
  (pindex.pprev.map getBlockHash).getD (BaseBlob.null 32)

/-- The ancestor of the given height. -/
def getAncestor (pindex : CBlockIndex) (height : ℕ) : Option CBlockIndex :=
  match pindex with
  | genesis hash time => if height = 0 then some (genesis hash time) else none
  | child pprev hash time =>
    if height = pprev.nHeight + 1 then some (child pprev hash time)
    else pprev.getAncestor height

end CBlockIndex

/-- What `CValidationState` records of an invalid block. -/
structure Reject where
  nDoS : ℕ
  chRejectCode : ℕ
  strRejectReason : String
  corruptionPossible : Bool
deriving DecidableEq, Repr

def rejectInvalid : ℕ := 0x10

/-- `state.DoS(level, false, REJECT_INVALID, reason)`. -/
def dos (level : ℕ) (reason : String) : Reject := ⟨level, rejectInvalid, reason, false⟩

/-- `state.DoS` for a block whose data may be corrupt. -/
def dosCorrupt (level : ℕ) (reason : String) : Reject :=
  ⟨level, rejectInvalid, reason, true⟩

/-- The checks not modelled inside: any functions of their data. -/
structure OpaqueChecks where
  checkProofOfWork : CBlock → Bool
  blockMerkleRoot : CBlock → Uint256 × Bool
  txSize : CTransaction → ℕ
  blockSize : CBlock → ℕ
  legacySigOpCount : CTransaction → ℕ
  sequenceLocks : CTransaction → List ℕ → CBlockIndex → Bool
  transactionSigOpCost : CTransaction → List Coin → CBlockIndex → ℕ
  checkInputs : CTransaction → List Coin → CBlockIndex → Option Reject
  checkQueue : CBlock → CBlockIndex → Bool

/-- The loop of `CheckTransaction` over the outputs. -/
def checkTxOuts : CAmount → List CTxOut → Except Reject Unit
  | _, [] => .ok ()
  | nValueOut, txout :: rest =>
    if txout.nValue < 0 then .error (dos 100 "bad-txns-vout-negative")
    else if maxMoney < txout.nValue then .error (dos 100 "bad-txns-vout-toolarge")
    else if !moneyRange (nValueOut + txout.nValue) then
      .error (dos 100 "bad-txns-txouttotal-toolarge")
    else
      checkTxOuts (nValueOut + txout.nValue) rest

section

variable (checks : OpaqueChecks) (tx : CTransaction)

/-- The end of `CheckTransaction`, over the inputs. -/
def checkTxIns : Except Reject Unit :=
  match tx.isCoinBase, tx.vin with
  | true, txin :: _ =>
    if txin.scriptSig.length < 2 || 100 < txin.scriptSig.length then
      .error (dos 100 "bad-cb-length")
    else
      .ok ()
  | _, vin =>
    if vin.any fun txin => txin.prevout.isNull then
      .error (dos 10 "bad-txns-prevout-null")
    else
      .ok ()

def checkTransaction (fCheckDuplicateInputs : Bool) : Except Reject Unit :=
  if tx.vin.isEmpty then .error (dos 10 "bad-txns-vin-empty")
  else if tx.vout.isEmpty then .error (dos 10 "bad-txns-vout-empty")
  else if maxBlockWeight < checks.txSize tx * witnessScaleFactor then
    .error (dos 100 "bad-txns-oversize")
  else
    match checkTxOuts 0 tx.vout with
    | .error reject => .error reject
    | .ok () =>
      if fCheckDuplicateInputs && !decide tx.prevouts.Nodup then
        .error (dos 100 "bad-txns-inputs-duplicate")
      else
        checkTxIns tx

/-- The loop of `CheckBlock` over the transactions, without the duplicate input check. -/
def checkTransactions (checks : OpaqueChecks) : List CTransaction → Except Reject Unit
  | [] => .ok ()
  | tx :: rest =>
    match checkTransaction checks tx false with
    | .error reject => .error reject
    | .ok () => checkTransactions checks rest

def checkBlock (block : CBlock) (fCheckPOW fCheckMerkleRoot : Bool) : Except Reject Unit :=
  if fCheckPOW && !checks.checkProofOfWork block then .error (dos 50 "high-hash")
  else if fCheckMerkleRoot && decide (block.hashMerkleRoot ≠ (checks.blockMerkleRoot block).1)
  then .error (dosCorrupt 100 "bad-txnmrklroot")
  else if fCheckMerkleRoot && (checks.blockMerkleRoot block).2 then
    .error (dosCorrupt 100 "bad-txns-duplicate")
  else if block.vtx.isEmpty ||
      decide (maxBlockWeight < block.vtx.length * witnessScaleFactor) ||
      decide (maxBlockWeight < checks.blockSize block * witnessScaleFactor) then
    .error (dos 100 "bad-blk-length")
  else
    match block.vtx with
    | [] => .error (dos 100 "bad-cb-missing")
    | coinbase :: rest =>
      if !coinbase.isCoinBase then .error (dos 100 "bad-cb-missing")
      else if rest.any CTransaction.isCoinBase then .error (dos 100 "bad-cb-multiple")
      else
        match checkTransactions checks block.vtx with
        | .error reject => .error reject
        | .ok () =>
          if maxBlockSigopsCost <
              (block.vtx.map checks.legacySigOpCount).sum * witnessScaleFactor then
            .error (dos 100 "bad-blk-sigops")
          else
            .ok ()

/-- The loop of `GetValueOut`. -/
def sumValueOut : CAmount → List CTxOut → Except Fault CAmount
  | nValueOut, [] => .ok nValueOut
  | nValueOut, txout :: rest =>
    if !moneyRange txout.nValue || !moneyRange (nValueOut + txout.nValue) then
      .error (.runtimeError "GetValueOut: value out of range")
    else
      sumValueOut (nValueOut + txout.nValue) rest

def CTransaction.getValueOut : Except Fault CAmount :=
  sumValueOut 0 tx.vout

def CTransaction.valueOut : CAmount := (tx.vout.map CTxOut.nValue).sum

end

variable {start total : CAmount} {vout : List CTxOut} {tx : CTransaction} {checks : OpaqueChecks}

theorem sumValueOut_eq (hsum : sumValueOut start vout = .ok total) :
    total = start + (vout.map CTxOut.nValue).sum := by
  induction vout generalizing start with
  | nil =>
    simp only [sumValueOut, Except.ok.injEq] at hsum
    simp [← hsum]
  | cons txout rest ih =>
    simp only [sumValueOut] at hsum
    split_ifs at hsum
    rw [ih hsum, List.map_cons, List.sum_cons, add_assoc]

theorem CTransaction.getValueOut_eq (hval : tx.getValueOut = .ok total) : total = tx.valueOut := by
  simpa [CTransaction.valueOut] using sumValueOut_eq hval

theorem checkTxOuts_nonneg (hcheck : checkTxOuts start vout = .ok ()) :
    ∀ txout ∈ vout, 0 ≤ txout.nValue := by
  induction vout generalizing start with
  | nil => simp
  | cons txout rest ih =>
    simp only [checkTxOuts, ite_error_ok_iff] at hcheck
    obtain ⟨hnonneg, -, -, hcheck⟩ := hcheck
    exact List.forall_mem_cons.2 ⟨not_lt.1 hnonneg, ih hcheck⟩

/-- A transaction that passed `CheckTransaction`. -/
structure CTransaction.Checked (tx : CTransaction) : Prop where
  vin_ne : tx.vin ≠ []
  vout_nonneg : ∀ txout ∈ tx.vout, 0 ≤ txout.nValue

theorem checked_of_checkTransaction {fCheckDuplicateInputs : Bool}
    (hcheck : checkTransaction checks tx fCheckDuplicateInputs = .ok ()) : tx.Checked := by
  simp only [checkTransaction, ite_error_ok_iff] at hcheck
  obtain ⟨hvin, -, -, hcheck⟩ := hcheck
  split at hcheck
  · cases hcheck
  · next houts => exact ⟨by simpa using hvin, checkTxOuts_nonneg houts⟩

theorem checked_of_checkTransactions {txs : List CTransaction}
    (hcheck : checkTransactions checks txs = .ok ()) : ∀ tx ∈ txs, tx.Checked := by
  induction txs with
  | nil => simp
  | cons tx rest ih =>
    simp only [checkTransactions] at hcheck
    split at hcheck
    · cases hcheck
    · next hhead =>
      exact List.forall_mem_cons.2 ⟨checked_of_checkTransaction hhead, ih hcheck⟩

/-- A block that passed `CheckBlock`: one coinbase in front of transactions that are none. -/
structure CBlock.Checked (block : CBlock) : Prop where
  shape : ∃ coinbase rest, block.vtx = coinbase :: rest ∧ coinbase.isCoinBase = true ∧
    ∀ tx ∈ rest, tx.isCoinBase = false
  txs : ∀ tx ∈ block.vtx, tx.Checked

theorem checked_of_checkBlock {block : CBlock} {fCheckPOW fCheckMerkleRoot : Bool}
    (hcheck : checkBlock checks block fCheckPOW fCheckMerkleRoot = .ok ()) : block.Checked := by
  simp only [checkBlock, ite_error_ok_iff] at hcheck
  obtain ⟨-, -, -, -, hcheck⟩ := hcheck
  split at hcheck
  · cases hcheck
  · next coinbase rest hvtx =>
    rw [ite_error_ok_iff, ite_error_ok_iff] at hcheck
    obtain ⟨hcbase, hrest, hcheck⟩ := hcheck
    split at hcheck
    · cases hcheck
    · next htxs =>
      refine ⟨⟨coinbase, rest, hvtx, by simpa using hcbase, ?_⟩, checked_of_checkTransactions htxs⟩
      simpa using hrest

end Catoshi
