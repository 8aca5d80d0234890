/-
Scripts as sequences of instructions (`script/script.h`, `script/script.cpp`), signature
operations, and numbers on the stack.
-/
import Catoshi.Primitives
import Catoshi.Lib.ByteOrder
import Catoshi.Lib.Outcome

namespace Catoshi

open ByteOrder List

def maxScriptElementSize : ℕ := 520

def maxOpsPerScript : ℕ := 201

def maxPubkeysPerMultisig : ℕ := 20

def maxStackSize : ℕ := 1000

def op0 : UInt8 := 0x00

def opPushData1 : UInt8 := 0x4c

def opPushData2 : UInt8 := 0x4d

def opPushData4 : UInt8 := 0x4e

def op1Negate : UInt8 := 0x4f

def op1 : UInt8 := 0x51

def op16 : UInt8 := 0x60

def opIf : UInt8 := 0x63

def opEndIf : UInt8 := 0x68

def opCheckSigVerify : UInt8 := 0xad

def opCheckMultiSig : UInt8 := 0xae

def opCheckMultiSigVerify : UInt8 := 0xaf

def opInvalidOpcode : UInt8 := 0xff

/-- One instruction: the opcode, the data it pushes (none unless a push opcode) and the script
after it. -/
structure Instruction where
  opcode : UInt8
  data : Bytes
  rest : CScript
deriving DecidableEq, Repr

/-- A number of the given width, least significant byte first, and the rest. -/
def readLE (width : ℕ) (pc : CScript) : Option (ℕ × CScript) :=
  if pc.length < width then none else some (ofLittleEndian (pc.take width), pc.drop width)

def pushSize (opcode : UInt8) (pc : CScript) : Option (ℕ × CScript) :=
  if opcode < opPushData1 then some (opcode.toNat, pc)
  else if opcode = opPushData1 then readLE 1 pc
  else if opcode = opPushData2 then readLE 2 pc
  else readLE 4 pc

namespace CScript

/-- `GetOp2`: the instruction a script begins with. -/
def getOp : CScript → Option Instruction
  | [] => none
  | opcode :: pc =>
    if opcode ≤ opPushData4 then
      match pushSize opcode pc with
      | none => none
      | some (nSize, pc) =>
        if pc.length < nSize then none else some ⟨opcode, pc.take nSize, pc.drop nSize⟩
    else
      some ⟨opcode, [], pc⟩

/-- The instructions until the script or the fuel is used up, and whether all was read. -/
def readOps : ℕ → CScript → List Instruction × Bool
  | _, [] => ([], true)
  | 0, _ :: _ => ([], false)
  | fuel + 1, script@(_ :: _) =>
    match script.getOp with
    | none => ([], false)
    | some op => (op :: (readOps fuel op.rest).1, (readOps fuel op.rest).2)

/-- What `while (pc < end) GetOp(pc, ..)` reads. -/
def ops (script : CScript) : List Instruction := (readOps script.length script).1

def wellFormed (script : CScript) : Bool := (readOps script.length script).2

variable {opcode : UInt8} {script : CScript} {op : Instruction}

theorem pushSize_suffix {pc rest : CScript} {nSize : ℕ}
    (hsize : pushSize opcode pc = some (nSize, rest)) : rest <:+ pc := by
  have hread {width : ℕ} (hread : readLE width pc = some (nSize, rest)) : rest <:+ pc := by
    rw [readLE] at hread
    split_ifs at hread
    cases hread
    exact drop_suffix _ _
  rw [pushSize] at hsize
  split_ifs at hsize with hdirect hone htwo
  · cases hsize
    exact suffix_rfl
  · exact hread hsize
  · exact hread hsize
  · exact hread hsize

/-- An instruction is at least one byte. -/
theorem getOp_length_lt (hop : script.getOp = some op) : op.rest.length < script.length := by
  cases script with
  | nil => cases hop
  | cons opcode pc =>
    rw [getOp] at hop
    split_ifs at hop with hpush
    · split at hop
      · cases hop
      · next nSize rest hsize =>
        split_ifs at hop with hshort
        cases hop
        have hle := (pushSize_suffix hsize).length_le
        simp only [length_drop, length_cons]
        omega
    · cases hop
      exact Nat.lt_succ_self _

/-- More fuel than the script is long changes nothing. -/
theorem readOps_of_le {fuel more : ℕ} (hfuel : script.length ≤ fuel)
    (hmore : script.length ≤ more) : readOps fuel script = readOps more script := by
  induction fuel generalizing more script with
  | zero =>
    obtain rfl := eq_nil_of_length_eq_zero (Nat.le_zero.1 hfuel)
    cases more <;> rfl
  | succ fuel ih =>
    cases script with
    | nil => cases more <;> rfl
    | cons opcode pc =>
      obtain ⟨more, rfl⟩ : ∃ n, more = n + 1 := ⟨more - 1, by rw [length_cons] at hmore; omega⟩
      rw [readOps, readOps]
      split
      · rfl
      · next op hop =>
        have hrest : op.rest.length < (opcode :: pc).length := getOp_length_lt hop
        have heq : readOps fuel op.rest = readOps more op.rest := ih (by omega) (by omega)
        rw [heq]

theorem readOps_eq (hop : script.getOp = some op) :
    readOps script.length script = (op :: op.rest.ops, op.rest.wellFormed) := by
  cases script with
  | nil => cases hop
  | cons opcode pc =>
    have hrest := getOp_length_lt hop
    rw [length_cons, readOps, hop]
    have heq : readOps pc.length op.rest = readOps op.rest.length op.rest :=
      readOps_of_le (Nat.lt_succ_iff.1 hrest) le_rfl
    simp only [heq]
    rfl

theorem ops_of_getOp (hop : script.getOp = some op) : script.ops = op :: op.rest.ops := by
  rw [ops, readOps_eq hop]

/-- `operator<<` on bytes: the instruction that pushes them. -/
def push (data : Bytes) : CScript :=
  if data.length < opPushData1.toNat then UInt8.ofNat data.length :: data
  else if data.length ≤ 0xff then opPushData1 :: UInt8.ofNat data.length :: data
  else if data.length ≤ 0xffff then opPushData2 :: (littleEndian 2 data.length ++ data)
  else opPushData4 :: (littleEndian 4 data.length ++ data)

def pushOpcode (data : Bytes) : UInt8 :=
  if data.length < opPushData1.toNat then UInt8.ofNat data.length
  else if data.length ≤ 0xff then opPushData1
  else if data.length ≤ 0xffff then opPushData2
  else opPushData4

theorem getOp_of_pushSize {pc data rest : CScript} (hpush : opcode ≤ opPushData4)
    (hsize : pushSize opcode pc = some (data.length, data ++ rest)) :
    getOp (opcode :: pc) = some ⟨opcode, data, rest⟩ := by
  simp [getOp, hpush, hsize]

theorem readLE_littleEndian {width n : ℕ} (hn : n < 256 ^ width) (rest : CScript) :
    readLE width (littleEndian width n ++ rest) = some (n, rest) := by
  simp [readLE, ofLittleEndian_littleEndian hn]

/-- Reading back what was pushed. -/
theorem getOp_push {data : Bytes} (hdata : data.length < 2 ^ 32) (rest : CScript) :
    getOp (push data ++ rest) = some ⟨pushOpcode data, data, rest⟩ := by
  rw [push, pushOpcode]
  split_ifs with hdirect hone htwo
  · have hlen : (UInt8.ofNat data.length).toNat = data.length := by
      exact Nat.mod_eq_of_lt (hdirect.trans (by decide))
    apply getOp_of_pushSize
    · rw [UInt8.le_iff_toNat_le, hlen]
      exact (hdirect.trans (by decide)).le
    · rw [pushSize, if_pos (UInt8.lt_iff_toNat_lt.2 (hlen.trans_lt hdirect)), hlen]
      rfl
  · have hsize : data.length < 256 ^ 1 := by omega
    exact getOp_of_pushSize (by decide) (readLE_littleEndian hsize (data ++ rest))
  · have hsize : data.length < 256 ^ 2 := by omega
    exact getOp_of_pushSize (by decide) (readLE_littleEndian hsize (data ++ rest))
  · have hsize : data.length < 256 ^ 4 := by omega
    exact getOp_of_pushSize (by decide) (readLE_littleEndian hsize (data ++ rest))

theorem getOp_opcode (hop : ¬opcode ≤ opPushData4) (rest : CScript) :
    getOp (opcode :: rest) = some ⟨opcode, [], rest⟩ := by
  rw [getOp, if_neg hop]

theorem ops_push {data : Bytes} (hdata : data.length < 2 ^ 32) (rest : CScript) :
    ops (push data ++ rest) = ⟨pushOpcode data, data, rest⟩ :: ops rest :=
  ops_of_getOp (getOp_push hdata rest)

theorem ops_opcode (hop : ¬opcode ≤ opPushData4) (rest : CScript) :
    ops (opcode :: rest) = ⟨opcode, [], rest⟩ :: ops rest :=
  ops_of_getOp (getOp_opcode hop rest)

/-- `FindAndDelete` of a nonempty pattern: at each instruction the pattern is cut out as often as
it stands there, then the instruction is kept. -/
def deleteFrom (b : CScript) : ℕ → CScript → CScript
  | 0, pc => pc
  | fuel + 1, pc =>
    if b.isPrefixOf pc then deleteFrom b fuel (pc.drop b.length)
    else
      match pc.getOp with
      | none => pc
      | some op => pc.take (pc.length - op.rest.length) ++ deleteFrom b fuel op.rest

def findAndDelete (script b : CScript) : CScript :=
  if b.isEmpty then script else deleteFrom b script.length script

def isPushOnly (script : CScript) : Bool :=
  script.wellFormed && script.ops.all fun op => op.opcode ≤ op16

/-- `DecodeOP_N` of the opcodes it is called for. -/
def decodeOpN (opcode : UInt8) : ℕ :=
  if opcode = op0 then 0 else opcode.toNat - (op1.toNat - 1)

/-- `IsWitnessProgram`: the version and the program. -/
def witnessProgram (script : CScript) : Option (ℕ × Bytes) :=
  match script with
  | version :: size :: program =>
    if script.length < 4 ∨ 42 < script.length then none
    else if version ≠ op0 ∧ (version < op1 ∨ op16 < version) then none
    else if size.toNat + 2 = script.length then some (decodeOpN version, program)
    else none
  | _ => none

/-- What one instruction adds to the sigop count. -/
def sigOpsOf (fAccurate : Bool) (lastOpcode opcode : UInt8) : ℕ :=
  if opcode = opCheckSig ∨ opcode = opCheckSigVerify then 1
  else if opcode = opCheckMultiSig ∨ opcode = opCheckMultiSigVerify then
    if fAccurate ∧ op1 ≤ lastOpcode ∧ lastOpcode ≤ op16 then decodeOpN lastOpcode
    else maxPubkeysPerMultisig
  else 0

def countSigOps (fAccurate : Bool) : UInt8 → List Instruction → ℕ
  | _, [] => 0
  | lastOpcode, op :: ops =>
    sigOpsOf fAccurate lastOpcode op.opcode + countSigOps fAccurate op.opcode ops

/-- `GetSigOpCount(bool)`. -/
def getSigOpCount (script : CScript) (fAccurate : Bool) : ℕ :=
  countSigOps fAccurate opInvalidOpcode script.ops

/-- The data of the last instruction, empty for a number. -/
def lastData (script : CScript) : Bytes := (script.ops.getLast?.map Instruction.data).getD []

/-- `GetSigOpCount(const CScript&)`: the count of the script a pay-to-script-hash input pushes
last, none if it is not all pushes. -/
def getSigOpCountOf (scriptPubKey scriptSig : CScript) : ℕ :=
  if scriptPubKey.isPayToScriptHash then
    if scriptSig.isPushOnly then getSigOpCount scriptSig.lastData true else 0
  else
    scriptPubKey.getSigOpCount true

end CScript

namespace CScriptNum

/-- A magnitude, least significant byte first and without leading zeros. -/
def magnitude : ℕ → ℕ → Bytes
  | 0, _ => []
  | width + 1, n => if n = 0 then [] else UInt8.ofNat n :: magnitude width (n / 256)

/-- `serialize`: sign and magnitude of an `int64_t`, the sign highest in the last byte. -/
def serialize (value : ℤ) : Bytes :=
  if value = 0 then []
  else
    let result := magnitude 8 value.natAbs
    let back := result.getLast?.getD 0
    if back &&& 0x80 ≠ 0 then result ++ [if value < 0 then 0x80 else 0]
    else if value < 0 then result.dropLast ++ [back ||| 0x80]
    else result

def setVch (vch : Bytes) : ℤ :=
  match vch.getLast? with
  | none => 0
  | some back =>
    if back &&& 0x80 ≠ 0 then
      -((ofLittleEndian vch - 0x80 * 256 ^ (vch.length - 1) : ℕ) : ℤ)
    else ofLittleEndian vch

/-- The last byte is needed: it has bits besides the sign, or the byte before has its highest bit
set. -/
def isMinimal (vch : Bytes) : Bool :=
  match vch.reverse with
  | [] => true
  | [back] => back &&& 0x7f ≠ 0
  | back :: before :: _ => back &&& 0x7f ≠ 0 || before &&& 0x80 ≠ 0

/-- `nDefaultMaxNumSize`. -/
def defaultMaxNumSize : ℕ := 4

/-- `getint`: cut off at the ends of an `int`. -/
def getInt (value : ℤ) : ℤ :=
  if value > 2 ^ 31 - 1 then 2 ^ 31 - 1 else if value < -(2 ^ 31) then -(2 ^ 31) else value

end CScriptNum

end Catoshi
