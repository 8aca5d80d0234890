/-
Verification flags only take scripts away, for sensible sets of flags: witness programs need
pay-to-script-hash, a clean stack both. The interpreter is followed with two sets at once.
-/
import Catoshi.Interpreter

namespace Catoshi

open Outcome Metered

theorem Admits.checkWhen {strict loose : Bool} {check check' : Except ScriptError Unit}
    (himp : loose = true → strict = true) (hcheck : Admits check check') :
    Admits (checkWhen strict check) (checkWhen loose check') := by
  cases loose with
  | false => exact fun _ _ => rfl
  | true =>
    rw [himp rfl]
    exact hcheck

def ScriptContext.withFlags (ctx : ScriptContext) (flags : ScriptFlags) : ScriptContext :=
  { ctx with flags := flags }

def EvalContext.withFlags (ctx : EvalContext) (flags : ScriptFlags) : EvalContext :=
  ⟨ctx.toScriptContext.withFlags flags, ctx.sigversion⟩

theorem onStack_admits {state : EvalState} {f g : Stack → Except ScriptError Stack}
    (hadmits : ∀ stack, Admits (f stack) (g stack)) :
    Admits (state.onStack f) (state.onStack g) :=
  (hadmits state.stack).bind_same

theorem has_withFlags (ctx : ScriptContext) {flags : ScriptFlags} (hflags : ctx.flags ⊆ flags)
    {flag : ScriptFlag} (hflag : ctx.has flag = true) :
    (ctx.withFlags flags).has flag = true :=
  decide_eq_true (hflags (of_decide_eq_true hflag))

section steps

variable (ctx : EvalContext) {flags : ScriptFlags} (hflags : ctx.flags ⊆ flags)
include hflags

theorem checkWhen_admits (flag : ScriptFlag) (check : Except ScriptError Unit) :
    Admits (checkWhen ((ctx.withFlags flags).has flag) check) (checkWhen (ctx.has flag) check) :=
  Admits.checkWhen (has_withFlags ctx.toScriptContext hflags) (.refl _)

theorem checkSignatureEncoding_admits (vchSig : Bytes) :
    Admits (checkSignatureEncoding (ctx.withFlags flags) vchSig)
      (checkSignatureEncoding ctx vchSig) := by
  rw [checkSignatureEncoding, checkSignatureEncoding]
  split
  · exact .refl _
  · apply Admits.bind
    · apply Admits.checkWhen _ (.refl _)
      simp only [Bool.or_eq_true]
      rintro ((hder | hlow) | hstrict)
      · exact .inl (.inl (has_withFlags ctx.toScriptContext hflags hder))
      · exact .inl (.inr (has_withFlags ctx.toScriptContext hflags hlow))
      · exact .inr (has_withFlags ctx.toScriptContext hflags hstrict)
    intro _ _
    apply (checkWhen_admits ctx hflags _ _).bind
    intro _ _
    exact checkWhen_admits ctx hflags _ _

theorem checkPubKeyEncoding_admits (vchPubKey : Bytes) :
    Admits (checkPubKeyEncoding (ctx.withFlags flags) vchPubKey)
      (checkPubKeyEncoding ctx vchPubKey) := by
  apply (checkWhen_admits ctx hflags _ _).bind
  intro _ _
  apply Admits.checkWhen _ (.refl _)
  simp only [Bool.and_eq_true]
  exact fun hboth => ⟨has_withFlags ctx.toScriptContext hflags hboth.1, hboth.2⟩

theorem scriptNum_admits (vch : Bytes) (maxNumSize : ℕ) :
    Admits (scriptNum (ctx.withFlags flags) vch maxNumSize) (scriptNum ctx vch maxNumSize) := by
  apply (Admits.refl _).bind
  intro _ _
  exact (checkWhen_admits ctx hflags _ _).bind_same

theorem evalPick_admits (roll : Bool) (stack : Stack) :
    Admits (evalPick (ctx.withFlags flags) roll stack) (evalPick ctx roll stack) := by
  match stack with
  | [] | [_] => exact .refl _
  | vch :: x0 :: rest => exact (scriptNum_admits ctx hflags vch _).bind_same

theorem evalUnary_admits (op : UnaryOp) (stack : Stack) :
    Admits (evalUnary (ctx.withFlags flags) op stack) (evalUnary ctx op stack) := by
  cases stack with
  | nil => exact .refl _
  | cons vch stack => exact (scriptNum_admits ctx hflags vch _).bind_same

theorem evalBinary_admits (op : BinaryOp) (stack : Stack) :
    Admits (evalBinary (ctx.withFlags flags) op stack) (evalBinary ctx op stack) := by
  match stack with
  | [] | [_] => exact .refl _
  | vch2 :: vch1 :: stack =>
    apply (scriptNum_admits ctx hflags vch1 _).bind
    intro bn1 _
    exact (scriptNum_admits ctx hflags vch2 _).bind_same

theorem evalWithin_admits (stack : Stack) :
    Admits (evalWithin (ctx.withFlags flags) stack) (evalWithin ctx stack) := by
  match stack with
  | [] | [_] | [_, _] => exact .refl _
  | vch3 :: vch2 :: vch1 :: stack =>
    apply (scriptNum_admits ctx hflags vch1 _).bind
    intro bn1 _
    apply (scriptNum_admits ctx hflags vch2 _).bind
    intro bn2 _
    exact (scriptNum_admits ctx hflags vch3 _).bind_same

theorem evalLockTime_admits (stack : Stack) :
    Admits (evalLockTime (ctx.withFlags flags) stack) (evalLockTime ctx stack) := by
  cases stack with
  | nil => exact .refl _
  | cons vch stack => exact (scriptNum_admits ctx hflags vch _).bind_same

theorem evalSequence_admits (stack : Stack) :
    Admits (evalSequence (ctx.withFlags flags) stack) (evalSequence ctx stack) := by
  cases stack with
  | nil => exact .refl _
  | cons vch stack => exact (scriptNum_admits ctx hflags vch _).bind_same

theorem evalCondition_admits (negated : Bool) (stack : Stack) :
    Admits (evalCondition (ctx.withFlags flags) negated stack)
      (evalCondition ctx negated stack) := by
  cases stack with
  | nil => exact .refl _
  | cons vch stack =>
    refine (Admits.checkWhen ?_ (.refl _)).bind_same
    simp only [Bool.and_eq_true]
    exact fun hboth => ⟨hboth.1, has_withFlags ctx.toScriptContext hflags hboth.2⟩

theorem checkOne_admits (code : CScript) (vchSig vchPubKey : Bytes) :
    Admits (checkOne (ctx.withFlags flags) code vchSig vchPubKey).outcome
      (checkOne ctx code vchSig vchPubKey).outcome := by
  simp only [checkOne, outcome_bind, outcome_ofExcept]
  apply (checkSignatureEncoding_admits ctx hflags vchSig).bind
  intro _ _
  exact (checkPubKeyEncoding_admits ctx hflags vchPubKey).bind_same

theorem evalCheckSig_admits (verify : Bool) (codeHash : CScript) (stack : Stack) :
    Admits (evalCheckSig (ctx.withFlags flags) verify codeHash stack).outcome
      (evalCheckSig ctx verify codeHash stack).outcome := by
  match stack with
  | [] | [_] => exact .refl _
  | vchPubKey :: vchSig :: stack =>
    simp only [evalCheckSig, outcome_bind, outcome_ofExcept]
    apply (checkOne_admits ctx hflags _ vchSig vchPubKey).bind
    intro fSuccess _
    exact (checkWhen_admits ctx hflags _ _).bind_same

theorem matchSigs_admits (code : CScript) (sigs keys : List Bytes) :
    Admits (matchSigs (ctx.withFlags flags) code sigs keys).outcome
      (matchSigs ctx code sigs keys).outcome := by
  induction keys generalizing sigs with
  | nil => cases sigs <;> exact .refl _
  | cons vchPubKey keys ih =>
    cases sigs with
    | nil => exact .refl _
    | cons vchSig sigs =>
      simp only [matchSigs, outcome_bind]
      apply (checkOne_admits ctx hflags code vchSig vchPubKey).bind
      intro fOk _
      generalize (if fOk then sigs else vchSig :: sigs) = left
      split
      · exact .refl _
      · exact ih left

theorem readKeysCount_admits (nOpCount : ℕ) (stack : Stack) :
    Admits (readKeysCount (ctx.withFlags flags) nOpCount stack)
      (readKeysCount ctx nOpCount stack) := by
  cases stack with
  | nil => exact .refl _
  | cons vch stack => exact (scriptNum_admits ctx hflags vch _).bind_same

theorem readMultiSigArgs_admits (nKeysCount : ℕ) (stack : Stack) :
    Admits (readMultiSigArgs (ctx.withFlags flags) nKeysCount stack)
      (readMultiSigArgs ctx nKeysCount stack) := by
  rw [readMultiSigArgs, readMultiSigArgs]
  cases stack.drop nKeysCount with
  | nil => exact .refl _
  | cons vch below => exact (scriptNum_admits ctx hflags vch _).bind_same

theorem evalCheckMultiSig_admits (verify : Bool) (state : EvalState) :
    Admits (evalCheckMultiSig (ctx.withFlags flags) verify state).outcome
      (evalCheckMultiSig ctx verify state).outcome := by
  simp only [evalCheckMultiSig, outcome_bind, outcome_ofExcept]
  apply (readKeysCount_admits ctx hflags _ _).bind
  intro counted _
  apply (readMultiSigArgs_admits ctx hflags _ _).bind
  intro args _
  apply (matchSigs_admits ctx hflags _ _ _).bind
  intro fSuccess _
  apply (checkWhen_admits ctx hflags _ _).bind
  intro _ _
  exact (checkWhen_admits ctx hflags _ _).bind_same

/-- A flag adds a failure or leaves the result of an opcode. -/
theorem execute_admits (op : Instruction) (state : EvalState) :
    Admits (execute (ctx.withFlags flags) op state).outcome (execute ctx op state).outcome := by
  rw [execute, execute]
  cases operation op.opcode with
  | checkLockTimeVerify =>
    apply Admits.bind (Admits.checkWhen (has_withFlags ctx.toScriptContext hflags) _)
    · exact fun _ _ => .refl _
    · exact evalLockTime_admits ctx hflags state.stack
  | checkSequenceVerify =>
    apply Admits.bind (Admits.checkWhen (has_withFlags ctx.toScriptContext hflags) _)
    · exact fun _ _ => .refl _
    · exact evalSequence_admits ctx hflags state.stack
  | upgradableNop =>
    exact (checkWhen_admits ctx hflags _ _).bind_same
  | conditional negated =>
    dsimp only
    split
    · exact (evalCondition_admits ctx hflags negated state.stack).bind_same
    · exact .refl _
  | pick roll => exact onStack_admits (evalPick_admits ctx hflags roll)
  | unary unary => exact onStack_admits (evalUnary_admits ctx hflags unary)
  | binary binary => exact onStack_admits (evalBinary_admits ctx hflags binary)
  | within => exact onStack_admits (evalWithin_admits ctx hflags)
  | checkSig verify =>
    simp only [outcome_bind]
    exact (evalCheckSig_admits ctx hflags verify _ _).bind_same
  | checkMultiSig verify => exact evalCheckMultiSig_admits ctx hflags verify state
  | pushNumber | nop | elseBranch | endIf | verify | opReturn | toAltStack | fromAltStack
  | stackOp | equal | hash | codeSeparator | bad => exact .refl _

theorem evalStep_admits (state : EvalState) (op : Instruction) :
    Admits (evalStep (ctx.withFlags flags) state op).outcome (evalStep ctx state op).outcome := by
  simp only [evalStep, outcome_bind, outcome_ofExcept]
  apply (Admits.refl _).bind
  intro state _
  apply Admits.bind_same
  rw [dispatch, dispatch]
  split_ifs
  · exact (checkWhen_admits ctx hflags _ _).bind_same
  · exact execute_admits ctx hflags op state
  · exact .refl _

theorem evalScript_admits (script : CScript) (stack : Stack) :
    Admits (evalScript (ctx.withFlags flags) script stack).outcome
      (evalScript ctx script stack).outcome := by
  simp only [evalScript, outcome_bind, outcome_ofExcept, outcome_foldlM]
  apply (Admits.refl _).bind
  intro _ _
  exact (Admits.foldlM (evalStep_admits ctx hflags) _ _).bind_same

end steps

/-- Witness programs need pay-to-script-hash, and a clean stack both. -/
structure ScriptFlags.Sensible (flags : ScriptFlags) : Prop where
  witness : ScriptFlag.witness ∈ flags → ScriptFlag.p2sh ∈ flags
  cleanStack : ScriptFlag.cleanStack ∈ flags → ScriptFlag.p2sh ∈ flags ∧ ScriptFlag.witness ∈ flags

section verify

variable (ctx : ScriptContext) {flags : ScriptFlags} (hflags : ctx.flags ⊆ flags)
include hflags

theorem verifyWitnessProgram_admits (witness : List Bytes) (witversion : ℕ) (program : Bytes) :
    Admits (verifyWitnessProgram (ctx.withFlags flags) witness witversion program).outcome
      (verifyWitnessProgram ctx witness witversion program).outcome := by
  rw [verifyWitnessProgram, verifyWitnessProgram]
  split
  · simp only [outcome_bind, outcome_ofExcept]
    apply (Admits.refl _).bind
    intro start _
    apply (Admits.refl _).bind
    intro _ _
    exact (evalScript_admits (ctx.forVersion .witnessV0) hflags _ _).bind_same
  · exact Admits.checkWhen (has_withFlags ctx hflags) (.refl _)

variable {stack : Stack} {witness : List Bytes} {result : Bool × Stack}
  {scriptSig scriptPubKey : CScript} {stackCopy stack' : Stack}

/-- The witness part passes under fewer flags. -/
theorem verifyWitness_of_withFlags {expected pubKey : CScript} {malleated : ScriptError}
    (hstrict : (verifyWitness (ctx.withFlags flags) scriptSig expected pubKey malleated witness
      stack).outcome = .ok result) :
    ∃ left, (verifyWitness ctx scriptSig expected pubKey malleated witness stack).outcome =
      .ok left ∧ (ctx.has .witness = true → left = result) := by
  rw [verifyWitness] at hstrict ⊢
  by_cases hwit : ctx.has .witness = true
  · rw [if_pos (has_withFlags ctx hflags hwit)] at hstrict
    rw [if_pos hwit]
    refine ⟨result, ?_, fun _ => rfl⟩
    revert hstrict
    cases pubKey.witnessProgram with
    | none => exact id
    | some found =>
      simp only [outcome_bind, outcome_ofExcept]
      apply (Admits.refl _).bind
      intro _ _
      exact (verifyWitnessProgram_admits ctx hflags witness _ _).bind_same
  · rw [if_neg hwit]
    exact ⟨(false, stack), rfl, fun h => absurd h hwit⟩

theorem verifyRedeemScript_of_withFlags
    (hstrict : (verifyRedeemScript (ctx.withFlags flags) scriptSig witness stackCopy).outcome =
      .ok result) :
    ∃ left, (verifyRedeemScript ctx scriptSig witness stackCopy).outcome = .ok left ∧
      (ctx.has .witness = true → left = result) := by
  cases stackCopy with
  | nil => simp [verifyRedeemScript] at hstrict
  | cons pubKey2 stack =>
    simp only [verifyRedeemScript, outcome_bind, outcome_ofExcept, bind_ok_iff] at hstrict ⊢
    obtain ⟨done, hpush, after, heval, done', htrue, hwit⟩ := hstrict
    obtain ⟨left, hleft, heq⟩ := verifyWitness_of_withFlags ctx hflags hwit
    have hrun := evalScript_admits (ctx.forVersion .base) hflags pubKey2 stack after heval
    exact ⟨left, ⟨done, hpush, after, hrun, done', htrue, hleft⟩, heq⟩

theorem verifyScriptHash_of_withFlags (hsensible : ctx.flags.Sensible)
    (heq : ctx.has .witness = true → stack' = stack)
    (hstrict : (verifyScriptHash (ctx.withFlags flags) scriptSig scriptPubKey witness stackCopy
      stack).outcome = .ok result) :
    ∃ left, (verifyScriptHash ctx scriptSig scriptPubKey witness stackCopy stack').outcome =
      .ok left ∧ (ctx.has .witness = true → left = result) := by
  rw [verifyScriptHash] at hstrict ⊢
  by_cases hp2sh : ctx.has .p2sh = true
  · rw [has_withFlags ctx hflags hp2sh] at hstrict
    rw [hp2sh]
    by_cases hpay : scriptPubKey.isPayToScriptHash = true
    · rw [hpay] at hstrict ⊢
      exact verifyRedeemScript_of_withFlags ctx hflags hstrict
    · simp only [Bool.not_eq_true] at hpay
      rw [hpay] at hstrict ⊢
      cases hstrict
      exact ⟨(false, stack'), rfl, fun hwit => by rw [heq hwit]⟩
  · have hwit : ctx.has .witness ≠ true := fun hwit =>
      hp2sh (decide_eq_true (hsensible.witness (of_decide_eq_true hwit)))
    exact ⟨(false, stack'), by simp [hp2sh], fun h => absurd h hwit⟩

/-- Without witness programs no check is left at the end. -/
theorem verifyEnd_of_withFlags (hsensible : ctx.flags.Sensible) {hadWitness hadWitness' : Bool}
    (heq : ctx.has .witness = true → hadWitness' = hadWitness ∧ stack' = stack)
    (hstrict : verifyEnd (ctx.withFlags flags) witness hadWitness stack = .ok ()) :
    verifyEnd ctx witness hadWitness' stack' = .ok () := by
  have hhas {flag : ScriptFlag} (hflag : ctx.has flag = true) := has_withFlags ctx hflags hflag
  by_cases hwit : ctx.has .witness = true
  · obtain ⟨rfl, rfl⟩ := heq hwit
    have hp2sh : ctx.has .p2sh = true := decide_eq_true (hsensible.witness (of_decide_eq_true hwit))
    have hp2sh' : (ctx.withFlags flags).has .p2sh = true := hhas hp2sh
    have hwitness' : (ctx.withFlags flags).has .witness = true := hhas hwit
    revert hstrict
    simp only [verifyEnd, hp2sh, hwit, hp2sh', hwitness']
    exact Admits.bind_same (Admits.checkWhen hhas (.refl _)) ()
  · have hclean : ctx.has .cleanStack ≠ true := fun hclean =>
      hwit (decide_eq_true (hsensible.cleanStack (of_decide_eq_true hclean)).2)
    simp [verifyEnd, checkWhen, hwit, hclean]

theorem verifyScript_of_withFlags (hsensible : ctx.flags.Sensible)
    (hstrict : (verifyScript (ctx.withFlags flags) scriptSig scriptPubKey witness).outcome =
      .ok ()) : (verifyScript ctx scriptSig scriptPubKey witness).outcome = .ok () := by
  have heval (script : CScript) (stack : Stack) :=
    evalScript_admits (ctx.forVersion .base) hflags script stack
  simp only [verifyScript, outcome_bind, outcome_ofExcept, bind_ok_iff] at hstrict ⊢
  obtain ⟨done, hpush, stackCopy, hsig, stack, hpub, done', htrue, bare, hbare, redeem, hredeem,
    hend⟩ := hstrict
  obtain ⟨bare', hbare', heq⟩ := verifyWitness_of_withFlags ctx hflags hbare
  obtain ⟨redeem', hredeem', hsame'⟩ := verifyScriptHash_of_withFlags ctx hflags hsensible
    (fun hwit => congrArg Prod.snd (heq hwit)) hredeem
  have hpush' := Admits.checkWhen (has_withFlags ctx hflags) (.refl _) done hpush
  have hend' := verifyEnd_of_withFlags ctx hflags hsensible
    (fun hwit => ⟨congrArg₂ _ (congrArg Prod.fst (heq hwit))
      (congrArg Prod.fst (hsame' hwit)), congrArg Prod.snd (hsame' hwit)⟩) hend
  exact ⟨done, hpush', stackCopy, heval _ _ _ hsig, stack, heval _ _ _ hpub, done', htrue,
    bare', hbare', redeem', hredeem', hend'⟩

end verify

/-- Flags are soft forks: what verifies under more flags verifies under fewer. -/
theorem verifyScript_of_subset (ctx : ScriptContext) {flags flags' : ScriptFlags}
    (hsubset : flags ⊆ flags') (hsensible : flags.Sensible)
    (scriptSig scriptPubKey : CScript) (witness : List Bytes)
    (hverify : (verifyScript (ctx.withFlags flags') scriptSig scriptPubKey witness).outcome =
      .ok ()) :
    (verifyScript (ctx.withFlags flags) scriptSig scriptPubKey witness).outcome = .ok () :=
  verifyScript_of_withFlags (ctx.withFlags flags) hsubset hsensible hverify

namespace SoftForksWitness

def fitTo (width : ℕ) (vch : Bytes) : Bytes :=
  vch.take width ++ List.replicate (width - vch.length) 0

/-- Hash functions that cut their argument off. -/
def hashes : HashFunctions where
  ripemd160 := fitTo 20
  sha1 := fitTo 20
  sha256 := fitTo 32

def ctx : ScriptContext where
  hashes := hashes
  checkLowS _ := true
  checker := ⟨fun _ _ _ _ => false, fun _ => true, fun _ => true⟩
  flags := ∅

/-- Pays to the hash of the script `OP_1`, which the input pushes. -/
def scriptPubKey : CScript := opHash160 :: 0x14 :: fitTo 20 [op1] ++ [opEqual]

def scriptSig : CScript := [1, op1]

theorem redeemed_under_fewer_flags :
    (verifyScript (ctx.withFlags {.p2sh}) scriptSig scriptPubKey []).outcome = .ok () := by
  have hsubset : ({.p2sh} : ScriptFlags) ⊆ {.p2sh, .witness, .cleanStack, .minimalData} := by
    decide
  exact verifyScript_of_subset ctx hsubset ⟨by decide, by decide⟩ scriptSig scriptPubKey []
    (by decide +kernel)

end SoftForksWitness

end Catoshi
