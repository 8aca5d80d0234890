/-
The script interpreter (`script/interpreter.cpp`): `EvalScript` with every opcode and
`VerifyScript`, for any hash functions and signature checker. Stacks have the top in front, and
calls of `checker.CheckSig` are counted, also in a script that fails later.
-/
import Catoshi.Script
import Catoshi.Lib.Metered
import Mathlib.Data.Finset.Basic

namespace Catoshi

open Outcome CScriptNum CScript

/-- `SCRIPT_VERIFY_*`. -/
inductive ScriptFlag where
  | p2sh | strictEnc | derSig | lowS | nullDummy | sigPushOnly | minimalData
  | discourageUpgradableNops | cleanStack | checkLockTimeVerify | checkSequenceVerify
  | witness | discourageUpgradableWitnessProgram | minimalIf | nullFail | witnessPubkeyType
deriving DecidableEq, Repr

abbrev ScriptFlags := Finset ScriptFlag

/-- `SCRIPT_ERR_*`. A thrown exception is reported as `unknownError`; `assertFailed` is an `assert`
that stops the process. -/
inductive ScriptError where
  | unknownError | evalFalse | opReturn
  | scriptSize | pushSize | opCount | stackSize | sigCount | pubkeyCount
  | verify | equalVerify | checkMultiSigVerify | checkSigVerify | numEqualVerify
  | badOpcode | disabledOpcode | invalidStackOperation | invalidAltStackOperation
  | unbalancedConditional
  | negativeLockTime | unsatisfiedLockTime
  | sigHashType | sigDer | minimalData | sigPushOnly | sigHighS | sigNullDummy | pubkeyType
  | cleanStack | minimalIf | sigNullFail
  | discourageUpgradableNops | discourageUpgradableWitnessProgram
  | witnessProgramWrongLength | witnessProgramWitnessEmpty | witnessProgramMismatch
  | witnessMalleated | witnessMalleatedP2SH | witnessUnexpected | witnessPubkeyType
  | assertFailed
deriving DecidableEq, Repr

inductive SigVersion where
  | base | witnessV0
deriving DecidableEq, Repr

/-- The hash functions scripts can call. -/
structure HashFunctions where
  ripemd160 : Bytes → Bytes
  sha1 : Bytes → Bytes
  sha256 : Bytes → Bytes

def HashFunctions.hash160 (hashes : HashFunctions) (vch : Bytes) : Bytes :=
  hashes.ripemd160 (hashes.sha256 vch)

def HashFunctions.hash256 (hashes : HashFunctions) (vch : Bytes) : Bytes :=
  hashes.sha256 (hashes.sha256 vch)

/-- What the interpreter asks about the spending transaction. -/
structure SignatureChecker where
  checkSig : Bytes → Bytes → CScript → SigVersion → Bool
  checkLockTime : ℤ → Bool
  checkSequence : ℤ → Bool

/-- What a script is verified with.  `checkLowS` is `CPubKey::CheckLowS`. -/
structure ScriptContext where
  hashes : HashFunctions
  checkLowS : Bytes → Bool
  checker : SignatureChecker
  flags : ScriptFlags

/-- What stays the same while one script runs. -/
structure EvalContext extends ScriptContext where
  sigversion : SigVersion

variable (hashes : HashFunctions) (ctx : EvalContext) (vch : Bytes) (verify : Bool) (vchSig : Bytes)
  (vchPubKey : Bytes) (op : Instruction)

abbrev Stack := List Bytes

def ScriptContext.has (ctx : ScriptContext) (flag : ScriptFlag) : Bool :=
  decide (flag ∈ ctx.flags)

def ScriptContext.forVersion (ctx : ScriptContext) (sigversion : SigVersion) : EvalContext :=
  ⟨ctx, sigversion⟩

def checkWhen (wanted : Bool) (check : Except ScriptError Unit) : Except ScriptError Unit :=
  if wanted then check else .ok ()

/-- Any byte but zero is true, except a sign bit alone in the last. -/
def castToBool : Bytes → Bool
  | [] => false
  | [byte] => byte ≠ 0 && byte ≠ 0x80
  | byte :: rest => byte ≠ 0 || castToBool rest

def vchFalse : Bytes := []

def vchTrue : Bytes := [1]

def isCompressedOrUncompressedPubKey : Bool :=
  if vchPubKey.length < 33 then false
  else if vchPubKey.head? = some 0x04 then vchPubKey.length = 65
  else if vchPubKey.head? = some 0x02 ∨ vchPubKey.head? = some 0x03 then vchPubKey.length = 33
  else false

def isCompressedPubKey : Bool :=
  vchPubKey.length = 33 && (vchPubKey.head? = some 0x02 || vchPubKey.head? = some 0x03)

/-- The strict DER encoding of a signature, and a byte for the hash type. -/
def isValidSignatureEncoding (sig : Bytes) : Bool :=
  let byte := fun i => sig.getD i 0
  let lenR := (byte 3).toNat
  let lenS := (byte (5 + lenR)).toNat
  9 ≤ sig.length && sig.length ≤ 73 && byte 0 = 0x30 && (byte 1).toNat = sig.length - 3 &&
    5 + lenR < sig.length && lenR + lenS + 7 = sig.length &&
    byte 2 = 0x02 && lenR ≠ 0 && byte 4 &&& 0x80 = 0 &&
    !(1 < lenR && byte 4 = 0 && byte 5 &&& 0x80 = 0) &&
    byte (lenR + 4) = 0x02 && lenS ≠ 0 && byte (lenR + 6) &&& 0x80 = 0 &&
    !(1 < lenS && byte (lenR + 6) = 0 && byte (lenR + 7) &&& 0x80 = 0)

def isLowDERSignature : Except ScriptError Unit := do
  require (isValidSignatureEncoding vchSig) .sigDer
  require (ctx.checkLowS vchSig.dropLast) .sigHighS

/-- All, none or single, with or without the anyone-can-pay bit. -/
def isDefinedHashtypeSignature : Bool :=
  match vchSig.getLast? with
  | none => false
  | some back => 1 ≤ back &&& 0x7f && back &&& 0x7f ≤ 3

def checkSignatureEncoding : Except ScriptError Unit :=
  if vchSig.length = 0 then .ok ()
  else do
    checkWhen (ctx.has .derSig || ctx.has .lowS || ctx.has .strictEnc)
      (require (isValidSignatureEncoding vchSig) .sigDer)
    checkWhen (ctx.has .lowS) (isLowDERSignature ctx vchSig)
    checkWhen (ctx.has .strictEnc) (require (isDefinedHashtypeSignature vchSig) .sigHashType)

def checkPubKeyEncoding : Except ScriptError Unit := do
  checkWhen (ctx.has .strictEnc) (require (isCompressedOrUncompressedPubKey vchPubKey) .pubkeyType)
  checkWhen (ctx.has .witnessPubkeyType && ctx.sigversion = .witnessV0)
    (require (isCompressedPubKey vchPubKey) .witnessPubkeyType)

/-- No shorter instruction could have pushed the data. -/
def checkMinimalPush (data : Bytes) (opcode : UInt8) : Bool :=
  match data with
  | [] => opcode = op0
  | [byte] =>
    if 1 ≤ byte ∧ byte ≤ 16 then opcode = op1 + (byte - 1)
    else if byte = 0x81 then opcode = op1Negate
    else opcode = 1
  | _ =>
    if data.length ≤ 75 then opcode.toNat = data.length
    else if data.length ≤ 255 then opcode = opPushData1
    else if data.length ≤ 65535 then opcode = opPushData2
    else true

/-- `CScriptNum` from bytes; its exception ends the script. -/
def scriptNum (maxNumSize : ℕ) : Except ScriptError ℤ := do
  require (vch.length ≤ maxNumSize) .unknownError
  checkWhen (ctx.has .minimalData) (require (isMinimal vch) .unknownError)
  pure (setVch vch)

/-- Opcodes that move or copy stack elements or push a size. -/
inductive StackOp where
  | twoDrop | twoDup | threeDup | twoOver | twoRot | twoSwap | ifDup | depth | drop | dup | nip
  | over | rot | swap | tuck | size
deriving DecidableEq, Repr

inductive UnaryOp where
  | add1 | sub1 | negate | abs | not | notEqual0
deriving DecidableEq, Repr

inductive BinaryOp where
  | add | sub | boolAnd | boolOr | numEqual | numEqualVerify | numNotEqual | lessThan
  | greaterThan | lessThanOrEqual | greaterThanOrEqual | min | max
deriving DecidableEq, Repr

inductive HashOp where
  | ripemd160 | sha1 | sha256 | hash160 | hash256
deriving DecidableEq, Repr

/-- The cases of the `switch`; the last is its `default`. -/
inductive Operation where
  | pushNumber (n : ℤ)
  | nop
  | checkLockTimeVerify
  | checkSequenceVerify
  | upgradableNop
  | conditional (negated : Bool)
  | elseBranch
  | endIf
  | verify
  | opReturn
  | toAltStack
  | fromAltStack
  | stackOp (op : StackOp)
  | pick (roll : Bool)
  | equal (verify : Bool)
  | unary (op : UnaryOp)
  | binary (op : BinaryOp)
  | within
  | hash (op : HashOp)
  | codeSeparator
  | checkSig (verify : Bool)
  | checkMultiSig (verify : Bool)
  | bad
deriving DecidableEq, Repr

/-- The opcodes that do not push a value. -/
def operations : List (UInt8 × Operation) :=
  [(0x61, .nop),
    (0x63, .conditional false), (0x64, .conditional true),
    (0x67, .elseBranch), (0x68, .endIf), (0x69, .verify), (0x6a, .opReturn),
    (0x6b, .toAltStack), (0x6c, .fromAltStack),
    (0x6d, .stackOp .twoDrop), (0x6e, .stackOp .twoDup), (0x6f, .stackOp .threeDup),
    (0x70, .stackOp .twoOver), (0x71, .stackOp .twoRot), (0x72, .stackOp .twoSwap),
    (0x73, .stackOp .ifDup), (0x74, .stackOp .depth), (0x75, .stackOp .drop),
    (0x76, .stackOp .dup), (0x77, .stackOp .nip), (0x78, .stackOp .over),
    (0x79, .pick false), (0x7a, .pick true),
    (0x7b, .stackOp .rot), (0x7c, .stackOp .swap), (0x7d, .stackOp .tuck),
    (0x82, .stackOp .size),
    (0x87, .equal false), (0x88, .equal true),
    (0x8b, .unary .add1), (0x8c, .unary .sub1), (0x8f, .unary .negate), (0x90, .unary .abs),
    (0x91, .unary .not), (0x92, .unary .notEqual0),
    (0x93, .binary .add), (0x94, .binary .sub), (0x9a, .binary .boolAnd),
    (0x9b, .binary .boolOr), (0x9c, .binary .numEqual), (0x9d, .binary .numEqualVerify),
    (0x9e, .binary .numNotEqual), (0x9f, .binary .lessThan), (0xa0, .binary .greaterThan),
    (0xa1, .binary .lessThanOrEqual), (0xa2, .binary .greaterThanOrEqual),
    (0xa3, .binary .min), (0xa4, .binary .max), (0xa5, .within),
    (0xa6, .hash .ripemd160), (0xa7, .hash .sha1), (0xa8, .hash .sha256),
    (0xa9, .hash .hash160), (0xaa, .hash .hash256),
    (0xab, .codeSeparator), (0xac, .checkSig false), (0xad, .checkSig true),
    (0xae, .checkMultiSig false), (0xaf, .checkMultiSig true),
    (0xb0, .upgradableNop), (0xb1, .checkLockTimeVerify), (0xb2, .checkSequenceVerify),
    (0xb3, .upgradableNop), (0xb4, .upgradableNop), (0xb5, .upgradableNop),
    (0xb6, .upgradableNop), (0xb7, .upgradableNop), (0xb8, .upgradableNop),
    (0xb9, .upgradableNop)]

def operation (opcode : UInt8) : Operation :=
  if opcode = op1Negate ∨ op1 ≤ opcode ∧ opcode ≤ op16 then
    .pushNumber (opcode.toNat - (op1.toNat - 1))
  else (operations.lookup opcode).getD .bad

/-- `OP_CAT`, `OP_SUBSTR`, `OP_LEFT`, `OP_RIGHT`, `OP_INVERT`, `OP_AND`, `OP_OR`, `OP_XOR`,
`OP_2MUL`, `OP_2DIV`, `OP_MUL`, `OP_DIV`, `OP_MOD`, `OP_LSHIFT` and `OP_RSHIFT`. -/
def disabledOpcodes : List UInt8 :=
  [0x7e, 0x7f, 0x80, 0x81, 0x83, 0x84, 0x85, 0x86, 0x8d, 0x8e, 0x95, 0x96, 0x97, 0x98, 0x99]

/-- The source writes the top on the right: `(x1 x2 -- x2 x1)` takes `x2 :: x1 :: stack` to `x1 ::
x2 :: stack` here. -/
def StackOp.apply : StackOp → Stack → Option Stack
  | .twoDrop, _ :: _ :: stack => some stack
  | .twoDup, x2 :: x1 :: stack => some (x2 :: x1 :: x2 :: x1 :: stack)
  | .threeDup, x3 :: x2 :: x1 :: stack => some (x3 :: x2 :: x1 :: x3 :: x2 :: x1 :: stack)
  | .twoOver, x4 :: x3 :: x2 :: x1 :: stack => some (x2 :: x1 :: x4 :: x3 :: x2 :: x1 :: stack)
  | .twoRot, x6 :: x5 :: x4 :: x3 :: x2 :: x1 :: stack =>
    some (x2 :: x1 :: x6 :: x5 :: x4 :: x3 :: stack)
  | .twoSwap, x4 :: x3 :: x2 :: x1 :: stack => some (x2 :: x1 :: x4 :: x3 :: stack)
  | .ifDup, vch :: stack => some (if castToBool vch then vch :: vch :: stack else vch :: stack)
  | .depth, stack => some (serialize stack.length :: stack)
  | .drop, _ :: stack => some stack
  | .dup, vch :: stack => some (vch :: vch :: stack)
  | .nip, x2 :: _ :: stack => some (x2 :: stack)
  | .over, x2 :: x1 :: stack => some (x1 :: x2 :: x1 :: stack)
  | .rot, x3 :: x2 :: x1 :: stack => some (x1 :: x3 :: x2 :: stack)
  | .swap, x2 :: x1 :: stack => some (x1 :: x2 :: stack)
  | .tuck, x2 :: x1 :: stack => some (x2 :: x1 :: x2 :: stack)
  | .size, vch :: stack => some (serialize vch.length :: vch :: stack)
  | _, _ => none

def UnaryOp.apply (op : UnaryOp) (bn : ℤ) : ℤ :=
  match op with
  | .add1 => bn + 1
  | .sub1 => bn - 1
  | .negate => -bn
  | .abs => if bn < 0 then -bn else bn
  | .not => if bn = 0 then 1 else 0
  | .notEqual0 => if bn ≠ 0 then 1 else 0

def BinaryOp.apply (op : BinaryOp) (bn1 bn2 : ℤ) : ℤ :=
  match op with
  | .add => bn1 + bn2
  | .sub => bn1 - bn2
  | .boolAnd => if bn1 ≠ 0 ∧ bn2 ≠ 0 then 1 else 0
  | .boolOr => if bn1 ≠ 0 ∨ bn2 ≠ 0 then 1 else 0
  | .numEqual => if bn1 = bn2 then 1 else 0
  | .numEqualVerify => if bn1 = bn2 then 1 else 0
  | .numNotEqual => if bn1 ≠ bn2 then 1 else 0
  | .lessThan => if bn1 < bn2 then 1 else 0
  | .greaterThan => if bn1 > bn2 then 1 else 0
  | .lessThanOrEqual => if bn1 ≤ bn2 then 1 else 0
  | .greaterThanOrEqual => if bn1 ≥ bn2 then 1 else 0
  | .min => if bn1 < bn2 then bn1 else bn2
  | .max => if bn1 > bn2 then bn1 else bn2

def HashOp.apply : HashOp → Bytes → Bytes
  | .ripemd160 => hashes.ripemd160
  | .sha1 => hashes.sha1
  | .sha256 => hashes.sha256
  | .hash160 => hashes.hash160
  | .hash256 => hashes.hash256

/-- A truth value is pushed; the verify form takes it off or fails. -/
def pushBool (verify fSuccess : Bool) (failure : ScriptError) (stack : Stack) :
    Except ScriptError Stack :=
  if verify then do
    require fSuccess failure
    pure stack
  else
    pure ((if fSuccess then vchTrue else vchFalse) :: stack)

def evalPick (roll : Bool) : Stack → Except ScriptError Stack
  | vch :: x0 :: rest => do
      let bn ← scriptNum ctx vch defaultMaxNumSize
      let n := getInt bn
      let stack := x0 :: rest
      require (0 ≤ n && n < stack.length) .invalidStackOperation
      pure (stack.getD n.toNat [] :: if roll then stack.eraseIdx n.toNat else stack)
  | _ => .error .invalidStackOperation

def evalEqual : Stack → Except ScriptError Stack
  | vch2 :: vch1 :: stack => pushBool verify (vch1 = vch2) .equalVerify stack
  | _ => .error .invalidStackOperation

def evalUnary (op : UnaryOp) : Stack → Except ScriptError Stack
  | vch :: stack => do
      let bn ← scriptNum ctx vch defaultMaxNumSize
      pure (serialize (op.apply bn) :: stack)
  | [] => .error .invalidStackOperation

def evalBinary (op : BinaryOp) : Stack → Except ScriptError Stack
  | vch2 :: vch1 :: stack => do
      let bn1 ← scriptNum ctx vch1 defaultMaxNumSize
      let bn2 ← scriptNum ctx vch2 defaultMaxNumSize
      let vch := serialize (op.apply bn1 bn2)
      if op = .numEqualVerify then do
        require (castToBool vch) .numEqualVerify
        pure stack
      else
        pure (vch :: stack)
  | _ => .error .invalidStackOperation

def evalWithin : Stack → Except ScriptError Stack
  | vch3 :: vch2 :: vch1 :: stack => do
      let bn1 ← scriptNum ctx vch1 defaultMaxNumSize
      let bn2 ← scriptNum ctx vch2 defaultMaxNumSize
      let bn3 ← scriptNum ctx vch3 defaultMaxNumSize
      pure ((if bn2 ≤ bn1 ∧ bn1 < bn3 then vchTrue else vchFalse) :: stack)
  | _ => .error .invalidStackOperation

/-- `OP_CHECKLOCKTIMEVERIFY`, once it is enabled. -/
def evalLockTime : Stack → Except ScriptError Unit
  | vch :: _ => do
      let nLockTime ← scriptNum ctx vch 5
      require (0 ≤ nLockTime) .negativeLockTime
      require (ctx.checker.checkLockTime nLockTime) .unsatisfiedLockTime
  | [] => .error .invalidStackOperation

/-- `OP_CHECKSEQUENCEVERIFY`, if enabled. Bit 31 is `SEQUENCE_LOCKTIME_DISABLE_FLAG`. -/
def evalSequence : Stack → Except ScriptError Unit
  | vch :: _ => do
      let nSequence ← scriptNum ctx vch 5
      require (0 ≤ nSequence) .negativeLockTime
      checkWhen (!nSequence.toNat.testBit 31)
        (require (ctx.checker.checkSequence nSequence) .unsatisfiedLockTime)
  | [] => .error .invalidStackOperation

/-- The condition of `OP_IF` and `OP_NOTIF`, when executed. -/
def evalCondition (negated : Bool) : Stack → Except ScriptError (Bool × Stack)
  | vch :: stack => do
      checkWhen (ctx.sigversion = .witnessV0 && ctx.has .minimalIf)
        (require (vch = [] || vch = [1]) .minimalIf)
      pure (castToBool vch != negated, stack)
  | [] => .error .unbalancedConditional

/-- What changes while a script runs: the stacks, the conditions of open branches, innermost in
front, the operations counted, and the script from the last code separator on. -/
structure EvalState where
  stack : Stack
  altstack : Stack
  vfExec : List Bool
  nOpCount : ℕ
  codeHash : CScript

namespace EvalState

/-- `fExec`: no open branch is switched off. -/
def fExec (state : EvalState) : Bool := state.vfExec.all id

def push (state : EvalState) (vch : Bytes) : EvalState :=
  { state with stack := vch :: state.stack }

def onStack (state : EvalState) (f : Stack → Except ScriptError Stack) :
    Except ScriptError EvalState := do
  let stack ← f state.stack
  pure { state with stack := stack }

end EvalState

/-- The script code the given signatures sign: before witness programs they are cut out of it. -/
def scriptCode (codeHash : CScript) (sigs : List Bytes) : CScript :=
  match ctx.sigversion with
  | .base => sigs.foldl (fun code vchSig => code.findAndDelete (push vchSig)) codeHash
  | .witnessV0 => codeHash

/-- Check the encodings, then ask the checker. -/
def checkOne (code : CScript) (vchSig vchPubKey : Bytes) : Metered ScriptError Bool := do
  .ofExcept (checkSignatureEncoding ctx vchSig)
  .ofExcept (checkPubKeyEncoding ctx vchPubKey)
  .call (ctx.checker.checkSig vchSig vchPubKey code ctx.sigversion)

def evalCheckSig (codeHash : CScript) : Stack → Metered ScriptError Stack
  | vchPubKey :: vchSig :: stack => do
      let fSuccess ← checkOne ctx (scriptCode ctx codeHash [vchSig]) vchSig vchPubKey
      .ofExcept (checkWhen (ctx.has .nullFail)
        (require (fSuccess || vchSig.length = 0) .sigNullFail))
      .ofExcept (pushBool verify fSuccess .checkSigVerify stack)
  | _ => .ofExcept (.error .invalidStackOperation)

/-- The loop of `OP_CHECKMULTISIG`: each key is tried on the first signature left, until more
signatures than keys are left. -/
def matchSigs (ctx : EvalContext) (code : CScript) :
    List Bytes → List Bytes → Metered ScriptError Bool
  | [], _ => pure true
  | _ :: _, [] => pure false
  | vchSig :: sigs, vchPubKey :: keys => do
      let fOk ← checkOne ctx code vchSig vchPubKey
      let left := if fOk then sigs else vchSig :: sigs
      if left.length > keys.length then pure false else matchSigs ctx code left keys

/-- The arguments of `OP_CHECKMULTISIG`: the keys, the signatures, the extra element and the stack
below. -/
structure MultiSigArgs where
  keys : List Bytes
  sigs : List Bytes
  dummy : Bytes
  stack : Stack

/-- The number of keys, with its limit and that on operations. -/
def readKeysCount (nOpCount : ℕ) : Stack → Except ScriptError (ℕ × Stack)
  | vch :: stack => do
      let bn ← scriptNum ctx vch defaultMaxNumSize
      let nKeysCount := getInt bn
      require (0 ≤ nKeysCount && nKeysCount ≤ maxPubkeysPerMultisig) .pubkeyCount
      require (nOpCount + nKeysCount.toNat ≤ maxOpsPerScript) .opCount
      pure (nKeysCount.toNat, stack)
  | [] => .error .invalidStackOperation

/-- The keys, the number of signatures and the signatures. -/
def readMultiSigArgs (nKeysCount : ℕ) (stack : Stack) : Except ScriptError MultiSigArgs :=
  match stack.drop nKeysCount with
  | vch :: below => do
      let bn ← scriptNum ctx vch defaultMaxNumSize
      let nSigsCount := getInt bn
      require (0 ≤ nSigsCount && nSigsCount ≤ nKeysCount) .sigCount
      match below.drop nSigsCount.toNat with
      | dummy :: rest =>
        pure ⟨stack.take nKeysCount, below.take nSigsCount.toNat, dummy, rest⟩
      | [] => .error .invalidStackOperation
  | [] => .error .invalidStackOperation

section

variable (state : EvalState)

def evalCheckMultiSig : Metered ScriptError EvalState := do
  let counted ← .ofExcept (readKeysCount ctx state.nOpCount state.stack)
  let args ← .ofExcept (readMultiSigArgs ctx counted.1 counted.2)
  let fSuccess ← matchSigs ctx (scriptCode ctx state.codeHash args.sigs) args.sigs args.keys
  .ofExcept (checkWhen (ctx.has .nullFail)
    (require (fSuccess || args.sigs.all fun vchSig => vchSig.length = 0) .sigNullFail))
  .ofExcept (checkWhen (ctx.has .nullDummy) (require (args.dummy.length = 0) .sigNullDummy))
  let stack ← .ofExcept (pushBool verify fSuccess .checkMultiSigVerify args.stack)
  pure { state with stack := stack, nOpCount := state.nOpCount + counted.1 }

/-- The `switch` on the opcode. -/
def execute : Metered ScriptError EvalState :=
  match operation op.opcode with
  | .pushNumber n => pure (state.push (serialize n))
  | .nop => pure state
  | .checkLockTimeVerify => .ofExcept do
      checkWhen (ctx.has .checkLockTimeVerify) (evalLockTime ctx state.stack)
      pure state
  | .checkSequenceVerify => .ofExcept do
      checkWhen (ctx.has .checkSequenceVerify) (evalSequence ctx state.stack)
      pure state
  | .upgradableNop => .ofExcept do
      checkWhen (ctx.has .discourageUpgradableNops) (.error .discourageUpgradableNops)
      pure state
  | .conditional negated =>
    if state.fExec then .ofExcept do
      let (fValue, stack) ← evalCondition ctx negated state.stack
      pure { state with stack := stack, vfExec := fValue :: state.vfExec }
    else
      pure { state with vfExec := false :: state.vfExec }
  | .elseBranch =>
    match state.vfExec with
    | [] => .ofExcept (.error .unbalancedConditional)
    | fValue :: vfExec => pure { state with vfExec := (!fValue) :: vfExec }
  | .endIf =>
    match state.vfExec with
    | [] => .ofExcept (.error .unbalancedConditional)
    | _ :: vfExec => pure { state with vfExec := vfExec }
  | .verify =>
    match state.stack with
    | [] => .ofExcept (.error .invalidStackOperation)
    | vch :: stack => .ofExcept do
        require (castToBool vch) .verify
        pure { state with stack := stack }
  | .opReturn => .ofExcept (.error .opReturn)
  | .toAltStack =>
    match state.stack with
    | [] => .ofExcept (.error .invalidStackOperation)
    | vch :: stack => pure { state with stack := stack, altstack := vch :: state.altstack }
  | .fromAltStack =>
    match state.altstack with
    | [] => .ofExcept (.error .invalidAltStackOperation)
    | vch :: altstack => pure { state with stack := vch :: state.stack, altstack := altstack }
  | .stackOp stackOp =>
    match stackOp.apply state.stack with
    | none => .ofExcept (.error .invalidStackOperation)
    | some stack => pure { state with stack := stack }
  | .pick roll => .ofExcept (state.onStack (evalPick ctx roll))
  | .equal verify => .ofExcept (state.onStack (evalEqual verify))
  | .unary unary => .ofExcept (state.onStack (evalUnary ctx unary))
  | .binary binary => .ofExcept (state.onStack (evalBinary ctx binary))
  | .within => .ofExcept (state.onStack (evalWithin ctx))
  | .hash hash =>
    match state.stack with
    | [] => .ofExcept (.error .invalidStackOperation)
    | vch :: stack => pure { state with stack := hash.apply ctx.hashes vch :: stack }
  | .codeSeparator => pure { state with codeHash := op.rest }
  | .checkSig verify => do
      let stack ← evalCheckSig ctx verify state.codeHash state.stack
      pure { state with stack := stack }
  | .checkMultiSig verify => evalCheckMultiSig ctx verify state
  | .bad => .ofExcept (.error .badOpcode)

/-- The checks before an instruction is looked at. -/
def countOp : Except ScriptError EvalState := do
  require (op.data.length ≤ maxScriptElementSize) .pushSize
  let nOpCount := if op.opcode > op16 then state.nOpCount + 1 else state.nOpCount
  require (op.opcode ≤ op16 || nOpCount ≤ maxOpsPerScript) .opCount
  require (op.opcode ∉ disabledOpcodes) .disabledOpcode
  pure { state with nOpCount := nOpCount }

/-- Push data, execute the opcode, or skip it in a branch switched off. -/
def dispatch : Metered ScriptError EvalState :=
  if state.fExec && op.opcode ≤ opPushData4 then .ofExcept do
    checkWhen (ctx.has .minimalData) (require (checkMinimalPush op.data op.opcode) .minimalData)
    pure (state.push op.data)
  else if state.fExec || (opIf ≤ op.opcode && op.opcode ≤ opEndIf) then execute ctx op state
  else pure state

/-- One round of the loop of `EvalScript`. -/
def evalStep (op : Instruction) : Metered ScriptError EvalState := do
  let state ← .ofExcept (countOp op state)
  let state ← dispatch ctx op state
  .ofExcept (require (state.stack.length + state.altstack.length ≤ maxStackSize) .stackSize)
  pure state

/-- `EvalScript`: the stack it leaves. -/
def evalScript (script : CScript) (stack : Stack) : Metered ScriptError Stack := do
  .ofExcept (require (script.length ≤ maxScriptSize) .scriptSize)
  let state ← script.ops.foldlM (evalStep ctx) ⟨stack, [], [], 0, script⟩
  .ofExcept (require script.wellFormed .badOpcode)
  .ofExcept (require state.vfExec.isEmpty .unbalancedConditional)
  pure state.stack

def endsTrue : Stack → Bool
  | [] => false
  | vch :: _ => castToBool vch

/-- `stack.resize(1)` leaves the bottom of the stack. -/
def resizeToOne (stack : Stack) : Stack := [stack.getLast?.getD []]

/-- The script of a version 0 witness program and its stack. The witness has the top last. -/
def witnessScript (witness : List Bytes) (program : Bytes) : Except ScriptError (CScript × Stack) :=
  if program.length = 32 then
    match witness.reverse with
    | [] => .error .witnessProgramWitnessEmpty
    | scriptPubKey :: stack => do
        require (hashes.sha256 scriptPubKey = program) .witnessProgramMismatch
        pure (scriptPubKey, stack)
  else if program.length = 20 then do
    require (witness.length = 2) .witnessProgramMismatch
    pure (opDup :: opHash160 :: push program ++ [opEqualVerify, opCheckSig], witness.reverse)
  else
    .error .witnessProgramWrongLength

def verifyWitnessProgram (ctx : ScriptContext) (witness : List Bytes) (witversion : ℕ)
    (program : Bytes) : Metered ScriptError Unit :=
  if witversion = 0 then do
    let (scriptPubKey, stack) ← .ofExcept (witnessScript ctx.hashes witness program)
    .ofExcept (require (stack.all fun vch => vch.length ≤ maxScriptElementSize) .pushSize)
    let stack ← evalScript (ctx.forVersion .witnessV0) scriptPubKey stack
    .ofExcept (require (stack.length = 1) .evalFalse)
    .ofExcept (require (endsTrue stack) .evalFalse)
  else
    .ofExcept (checkWhen (ctx.has .discourageUpgradableWitnessProgram)
      (.error .discourageUpgradableWitnessProgram))

/-- The witness part of `VerifyScript` for an output or redeem script: the input script has to be
as expected. Returns whether there was a witness program, and the stack. -/
def verifyWitness (ctx : ScriptContext) (scriptSig expected pubKey : CScript)
    (malleated : ScriptError) (witness : List Bytes) (stack : Stack) :
    Metered ScriptError (Bool × Stack) :=
  if ctx.has .witness then
    match pubKey.witnessProgram with
    | some (witversion, program) => do
        .ofExcept (require (scriptSig = expected) malleated)
        verifyWitnessProgram ctx witness witversion program
        pure (true, resizeToOne stack)
    | none => pure (false, stack)
  else
    pure (false, stack)

/-- Pay-to-script-hash in `VerifyScript`, on the stack the input script left. -/
def verifyRedeemScript (ctx : ScriptContext) (scriptSig : CScript) (witness : List Bytes)
    (stackCopy : Stack) : Metered ScriptError (Bool × Stack) := do
  .ofExcept (require scriptSig.isPushOnly .sigPushOnly)
  match stackCopy with
  | [] => .ofExcept (.error .assertFailed)
  | pubKey2 :: stack => do
      let stack ← evalScript (ctx.forVersion .base) pubKey2 stack
      .ofExcept (require (endsTrue stack) .evalFalse)
      verifyWitness ctx scriptSig (push pubKey2) pubKey2 .witnessMalleatedP2SH witness stack

/-- The redeem script runs on the stack the input script left. Other outputs keep theirs. -/
def verifyScriptHash (ctx : ScriptContext) (scriptSig scriptPubKey : CScript)
    (witness : List Bytes) (stackCopy stack : Stack) : Metered ScriptError (Bool × Stack) :=
  if ctx.has .p2sh && scriptPubKey.isPayToScriptHash then
    verifyRedeemScript ctx scriptSig witness stackCopy
  else
    pure (false, stack)

/-- The last checks of `VerifyScript`. -/
def verifyEnd (ctx : ScriptContext) (witness : List Bytes) (hadWitness : Bool) (stack : Stack) :
    Except ScriptError Unit := do
  checkWhen (ctx.has .cleanStack) do
    require (ctx.has .p2sh) .assertFailed
    require (ctx.has .witness) .assertFailed
    require (stack.length = 1) .cleanStack
  checkWhen (ctx.has .witness) do
    require (ctx.has .p2sh) .assertFailed
    require (hadWitness || witness.isEmpty) .witnessUnexpected

def verifyScript (ctx : ScriptContext) (scriptSig scriptPubKey : CScript) (witness : List Bytes) :
    Metered ScriptError Unit := do
  .ofExcept (checkWhen (ctx.has .sigPushOnly) (require scriptSig.isPushOnly .sigPushOnly))
  let stackCopy ← evalScript (ctx.forVersion .base) scriptSig []
  let stack ← evalScript (ctx.forVersion .base) scriptPubKey stackCopy
  .ofExcept (require (endsTrue stack) .evalFalse)
  let (bareWitness, stack) ←
    verifyWitness ctx scriptSig [] scriptPubKey .witnessMalleated witness stack
  let (redeemWitness, stack) ←
    verifyScriptHash ctx scriptSig scriptPubKey witness stackCopy stack
  .ofExcept (verifyEnd ctx witness (bareWitness || redeemWitness) stack)

def witnessSigOps (witversion : ℕ) (witprogram : Bytes) (witness : List Bytes) : ℕ :=
  if witversion = 0 then
    if witprogram.length = 20 then 1
    else if witprogram.length = 32 then
      match witness.getLast? with
      | some subscript => getSigOpCount subscript true
      | none => 0
    else 0
  else 0

def countWitnessSigOps (scriptSig scriptPubKey : CScript) (witness : List Bytes)
    (flags : ScriptFlags) : ℕ :=
  if .witness ∈ flags then
    match scriptPubKey.witnessProgram with
    | some (witversion, program) => witnessSigOps witversion program witness
    | none =>
      if scriptPubKey.isPayToScriptHash ∧ scriptSig.isPushOnly then
        match witnessProgram scriptSig.lastData with
        | some (witversion, program) => witnessSigOps witversion program witness
        | none => 0
      else 0
  else 0

end

end Catoshi
