/-
Counting signature operations bounds the work of the interpreter. `OP_CHECKMULTISIG` tries at most
as many keys as the number on top of the stack says; where the count takes it from the opcode
before, both stand in one branch, so that has just pushed it.
-/
import Catoshi.Interpreter

namespace Catoshi

open Outcome Metered CScript CScriptNum List Nat

section oneOperation

variable (ctx : EvalContext)

theorem checkOne_calls_le (code : CScript) (vchSig vchPubKey : Bytes) :
    (checkOne ctx code vchSig vchPubKey).calls ≤ 1 := by
  apply calls_ofExcept_bind_le
  intro _ _
  apply calls_ofExcept_bind_le
  exact fun _ _ => le_rfl

theorem evalCheckSig_calls_le (verify : Bool) (codeHash : CScript) (stack : Stack) :
    (evalCheckSig ctx verify codeHash stack).calls ≤ 1 := by
  match stack with
  | [] | [_] => exact zero_le 1
  | vchPubKey :: vchSig :: stack =>
    apply calls_bind_le_left (checkOne_calls_le ctx _ vchSig vchPubKey)
    intro fSuccess _
    apply calls_ofExcept_bind_le
    exact fun _ _ => le_rfl

/-- Each key is tried once. -/
theorem matchSigs_calls_le (code : CScript) (sigs keys : List Bytes) :
    (matchSigs ctx code sigs keys).calls ≤ keys.length := by
  induction keys generalizing sigs with
  | nil => cases sigs <;> exact zero_le _
  | cons vchPubKey keys ih =>
    cases sigs with
    | nil => exact zero_le _
    | cons vchSig sigs =>
      rw [length_cons, add_comm]
      apply calls_bind_le (checkOne_calls_le ctx code vchSig vchPubKey)
      intro fOk _
      dsimp only
      generalize (if fOk then sigs else vchSig :: sigs) = left
      split
      · exact zero_le _
      · exact ih left

theorem readMultiSigArgs_keys {nKeysCount : ℕ} {stack : Stack} {args : MultiSigArgs}
    (hargs : readMultiSigArgs ctx nKeysCount stack = .ok args) :
    args.keys = stack.take nKeysCount := by
  rw [readMultiSigArgs] at hargs
  cases hdrop : stack.drop nKeysCount with
  | nil =>
    rw [hdrop] at hargs
    cases hargs
  | cons vch below =>
    simp only [hdrop, bind_ok_iff] at hargs
    obtain ⟨bn, -, done, -, hargs⟩ := hargs
    split at hargs
    · cases hargs
      rfl
    · cases hargs

theorem evalCheckMultiSig_calls_le (verify : Bool) (state : EvalState) {bound : ℕ}
    (hkeys : ∀ counted, readKeysCount ctx state.nOpCount state.stack = .ok counted →
      counted.1 ≤ bound) :
    (evalCheckMultiSig ctx verify state).calls ≤ bound := by
  apply calls_ofExcept_bind_le
  intro counted hcounted
  apply calls_ofExcept_bind_le
  intro args hargs
  have hlen : args.keys.length ≤ bound := by
    rw [readMultiSigArgs_keys ctx hargs]
    exact (length_take_le _ _).trans (hkeys counted hcounted)
  apply calls_bind_le_left ((matchSigs_calls_le ctx _ _ _).trans hlen)
  intro fSuccess _
  apply calls_ofExcept_bind_le
  intro _ _
  apply calls_ofExcept_bind_le
  intro _ _
  apply calls_ofExcept_bind_le
  exact fun _ _ => le_rfl

end oneOperation

section wholeScript

variable (ctx : EvalContext)

theorem setVch_serialize_small : ∀ n < 17, setVch (serialize (n : ℕ)) = n := by
  decide

variable {nOpCount : ℕ} {stack : Stack} {counted : ℕ × Stack} {verify : Bool}

/-- The number of keys is on top of the stack. -/
theorem readKeysCount_of_serialize {n : ℕ} (hn : n < 17) (htop : stack.head? = some (serialize n))
    (hcounted : readKeysCount ctx nOpCount stack = .ok counted) : counted.1 = n := by
  cases stack with
  | nil => cases htop
  | cons vch stack =>
    cases htop
    simp only [readKeysCount, scriptNum, bind_ok_iff] at hcounted
    obtain ⟨bn, ⟨_, -, _, -, hbn⟩, _, -, _, -, hcounted⟩ := hcounted
    cases hbn
    cases hcounted
    rw [setVch_serialize_small n hn, getInt]
    split_ifs <;> omega

theorem readKeysCount_le (hcounted : readKeysCount ctx nOpCount stack = .ok counted) :
    counted.1 ≤ maxPubkeysPerMultisig := by
  cases stack with
  | nil => cases hcounted
  | cons vch stack =>
    simp only [readKeysCount, bind_ok_iff, require_ok_iff, Bool.and_eq_true,
      decide_eq_true_eq] at hcounted
    obtain ⟨bn, -, _, ⟨-, hmax⟩, _, -, hcounted⟩ := hcounted
    cases hcounted
    exact Int.toNat_le.2 hmax

/-- After `OP_1` to `OP_16` its number is on top of the stack, unless in a branch switched off. -/
def Primed (lastOpcode : UInt8) (state : EvalState) : Prop :=
  op1 ≤ lastOpcode → lastOpcode ≤ op16 → state.fExec = true →
    state.stack.head? = some (serialize (CScript.decodeOpN lastOpcode))

variable {lastOpcode opcode : UInt8} {state : EvalState} {op : Instruction}

theorem mem_operations {found : Operation} (hf : operation opcode = found)
    (hpush : ∀ n, found ≠ .pushNumber n) (hbad : found ≠ .bad) :
    (opcode, found) ∈ operations := by
  rw [operation] at hf
  split at hf
  · exact absurd hf.symm (hpush _)
  · cases hlook : operations.lookup opcode with
    | none =>
      rw [hlook] at hf
      exact absurd hf.symm hbad
    | some other =>
      rw [hlook] at hf
      cases hf
      obtain ⟨before, after, hsplit, -⟩ := lookup_eq_some_iff.1 hlook
      rw [hsplit]
      exact mem_append_right before mem_cons_self

theorem sigOpsOf_checkSig (hop : operation opcode = .checkSig verify) (fAccurate : Bool)
    (lastOpcode : UInt8) : sigOpsOf fAccurate lastOpcode opcode = 1 := by
  have htable : ∀ entry ∈ operations, ∀ verify, entry.2 = .checkSig verify →
      entry.1 = opCheckSig ∨ entry.1 = opCheckSigVerify := by decide
  rw [sigOpsOf, if_pos]
  exact htable _ (mem_operations hop nofun nofun) verify rfl

theorem sigOpsOf_checkMultiSig (hop : operation opcode = .checkMultiSig verify) (lastOpcode : UInt8)
    :
    sigOpsOf true lastOpcode opcode = if op1 ≤ lastOpcode ∧ lastOpcode ≤ op16 then
      decodeOpN lastOpcode else maxPubkeysPerMultisig := by
  have htable : ∀ entry ∈ operations, ∀ verify, entry.2 = .checkMultiSig verify →
      (entry.1 ≠ opCheckSig ∧ entry.1 ≠ opCheckSigVerify) ∧
        (entry.1 = opCheckMultiSig ∨ entry.1 = opCheckMultiSigVerify) := by decide
  obtain ⟨hno, hyes⟩ := htable _ (mem_operations hop nofun nofun) verify rfl
  rw [sigOpsOf, if_neg (not_or.2 hno), if_pos hyes]
  simp

theorem decodeOpN_lt (hle : opcode ≤ op16) : decodeOpN opcode < 17 := by
  rw [UInt8.le_iff_toNat_le] at hle
  have h16 : op16.toNat = 96 := rfl
  have h1 : op1.toNat = 81 := rfl
  rw [decodeOpN]
  split_ifs <;> omega

theorem execute_calls_le (hprimed : Primed lastOpcode state)
    (hexec : state.fExec = true ∨ opIf ≤ op.opcode ∧ op.opcode ≤ opEndIf) :
    (execute ctx op state).calls ≤ sigOpsOf true lastOpcode op.opcode := by
  rw [execute]
  cases hop : operation op.opcode with
  | checkSig verify =>
    rw [sigOpsOf_checkSig hop]
    apply calls_bind_le_left (evalCheckSig_calls_le ctx verify _ _)
    exact fun _ _ => le_rfl
  | checkMultiSig verify =>
    rw [sigOpsOf_checkMultiSig hop]
    apply evalCheckMultiSig_calls_le
    intro counted hcounted
    split_ifs with hlast
    · have htable : ∀ entry ∈ operations, ∀ verify, entry.2 = .checkMultiSig verify →
          ¬(opIf ≤ entry.1 ∧ entry.1 ≤ opEndIf) := by decide
      have hoff := htable _ (mem_operations hop nofun nofun) verify rfl
      have htop := hprimed hlast.1 hlast.2 (hexec.resolve_right hoff)
      exact (readKeysCount_of_serialize ctx (decodeOpN_lt hlast.2) htop hcounted).le
    · exact readKeysCount_le ctx hcounted
  | conditional negated =>
    dsimp only
    split <;> exact zero_le _
  | elseBranch | endIf =>
    dsimp only
    split <;> exact zero_le _
  | verify | toAltStack | fromAltStack | stackOp | hash =>
    dsimp only
    split <;> exact zero_le _
  | pushNumber | nop | checkLockTimeVerify | checkSequenceVerify | upgradableNop | opReturn
  | pick | equal | unary | binary | within | codeSeparator | bad => exact zero_le _

theorem countOp_eq {counted : EvalState} (hcount : countOp op state = .ok counted) :
    counted = { state with nOpCount := counted.nOpCount } := by
  simp only [countOp, bind_ok_iff] at hcount
  obtain ⟨_, -, _, -, _, -, hcounted⟩ := hcount
  cases hcounted
  rfl

theorem operation_of_small (hlow : op1 ≤ opcode) (hhigh : opcode ≤ op16) :
    operation opcode = .pushNumber (decodeOpN opcode) := by
  rw [operation, if_pos (Or.inr ⟨hlow, hhigh⟩), decodeOpN]
  rw [UInt8.le_iff_toNat_le] at hlow
  have h1 : op1.toNat = 81 := rfl
  have hzero : opcode ≠ op0 := by
    rintro rfl
    exact absurd hlow (by decide)
  rw [if_neg hzero]
  congr 1
  omega

/-- An executed number opcode leaves its number on top, and no step switches the branch on again. -/
theorem primed_evalStep {next : EvalState} (hstep : (evalStep ctx state op).outcome = .ok next) :
    Primed op.opcode next := by
  intro hlow hhigh hexec
  simp only [evalStep, outcome_bind, outcome_ofExcept, bind_ok_iff] at hstep
  obtain ⟨counted, -, done, hdisp, _, -, hnext⟩ := hstep
  cases hnext
  have hpush : ¬op.opcode ≤ opPushData4 := fun hle => absurd (hlow.trans hle) (by decide)
  have hif : ¬opIf ≤ op.opcode := fun hle => absurd (hle.trans hhigh) (by decide)
  rw [dispatch] at hdisp
  simp only [hpush, hif, decide_false, Bool.and_false, Bool.false_and, Bool.or_false,
    Bool.false_eq_true, ↓reduceIte] at hdisp
  split at hdisp
  · rw [execute, operation_of_small hlow hhigh] at hdisp
    cases hdisp
    rfl
  · cases hdisp
    contradiction

theorem evalStep_calls_le (hprimed : Primed lastOpcode state) :
    (evalStep ctx state op).calls ≤ sigOpsOf true lastOpcode op.opcode := by
  apply calls_ofExcept_bind_le
  intro counted hcounted
  have heq : Primed lastOpcode counted := by
    rw [countOp_eq hcounted]
    exact hprimed
  apply calls_bind_le_left
  · rw [dispatch]
    split_ifs with hpush hexec
    · exact zero_le _
    · simp only [Bool.or_eq_true, Bool.and_eq_true, decide_eq_true_eq] at hexec
      exact execute_calls_le ctx heq hexec
    · exact zero_le _
  intro next _
  apply calls_ofExcept_bind_le
  exact fun _ _ => le_rfl

theorem foldlM_evalStep_calls_le {ops : List Instruction} (hprimed : Primed lastOpcode state) :
    (ops.foldlM (evalStep ctx) state).calls ≤ countSigOps true lastOpcode ops := by
  induction ops generalizing lastOpcode state with
  | nil => exact zero_le _
  | cons op ops ih =>
    apply calls_bind_le (evalStep_calls_le ctx hprimed)
    intro next hnext
    exact ih (primed_evalStep ctx hnext)

/-- `EvalScript` asks the checker at most as often as counted. -/
theorem evalScript_calls_le (script : CScript) (stack : Stack) :
    (evalScript ctx script stack).calls ≤ script.getSigOpCount true := by
  apply calls_ofExcept_bind_le
  intro _ _
  apply calls_bind_le_left
  · apply foldlM_evalStep_calls_le
    exact fun _ hhigh => absurd hhigh (by decide)
  intro state _
  apply calls_ofExcept_bind_le
  intro _ _
  apply calls_ofExcept_bind_le
  exact fun _ _ => le_rfl

end wholeScript

section pushes

variable (ctx : EvalContext)

/-- What an instruction of a script of pushes pushes. -/
def pushedBy (op : Instruction) : Bytes :=
  if op.opcode ≤ opPushData4 then op.data
  else serialize (op.opcode.toNat - (op1.toNat - 1))

theorem forall_numberOpcode (holds : UInt8 → Prop) (hall : ∀ n < 97, 78 < n → holds (UInt8.ofNat n))
    {opcode : UInt8} (hlow : ¬opcode ≤ opPushData4) (hhigh : opcode ≤ op16) : holds opcode := by
  rw [UInt8.le_iff_toNat_le] at hlow hhigh
  have hpush : opPushData4.toNat = 78 := rfl
  have h16 : op16.toNat = 96 := rfl
  rw [← UInt8.ofNat_toNat (x := opcode)]
  exact hall opcode.toNat (by omega) (by omega)

variable {state : EvalState} {stack : Stack}

/-- Up to `OP_16` only `OP_RESERVED` does not push, and it fails. -/
theorem evalStep_push {next : EvalState} {op : Instruction} (hop : op.opcode ≤ op16)
    (hexec : state.vfExec = []) (hstep : (evalStep ctx state op).outcome = .ok next) :
    next.stack = pushedBy op :: state.stack ∧ next.vfExec = [] := by
  simp only [evalStep, outcome_bind, outcome_ofExcept, bind_ok_iff] at hstep
  obtain ⟨counted, hcount, done, hdisp, _, -, hnext⟩ := hstep
  cases hnext
  rw [countOp_eq hcount] at hdisp
  have hfExec : EvalState.fExec { state with nOpCount := counted.nOpCount } = true := by
    rw [hexec]
    rfl
  rw [dispatch, hfExec, Bool.true_and, Bool.true_or] at hdisp
  rw [pushedBy]
  by_cases hpush : op.opcode ≤ opPushData4
  · simp only [hpush, decide_true, ↓reduceIte, outcome_ofExcept, bind_ok_iff] at hdisp ⊢
    obtain ⟨_, -, hdone⟩ := hdisp
    cases hdone
    exact ⟨rfl, hexec⟩
  · have hnumber := forall_numberOpcode (fun opcode => operation opcode = .bad ∨
      operation opcode = .pushNumber (opcode.toNat - (op1.toNat - 1))) (by decide) hpush hop
    simp only [hpush, decide_false, Bool.false_eq_true, ↓reduceIte] at hdisp ⊢
    rw [execute] at hdisp
    rcases hnumber with hbad | hnumber
    · rw [hbad] at hdisp
      cases hdisp
    · rw [hnumber] at hdisp
      cases hdisp
      exact ⟨rfl, hexec⟩

theorem foldlM_evalStep_push {ops : List Instruction} {last : EvalState}
    (hops : ∀ op ∈ ops, op.opcode ≤ op16) (hexec : state.vfExec = [])
    (hloop : (ops.foldlM (evalStep ctx) state).outcome = .ok last) :
    last.stack = (ops.map pushedBy).reverse ++ state.stack := by
  induction ops generalizing state with
  | nil =>
    cases hloop
    rfl
  | cons op ops ih =>
    rw [foldlM_cons, outcome_bind, bind_ok_iff] at hloop
    obtain ⟨next, hnext, hloop⟩ := hloop
    obtain ⟨hstack, hexec⟩ := evalStep_push ctx (hops op mem_cons_self) hexec hnext
    rw [ih (forall_mem_cons.1 hops).2 hexec hloop, hstack]
    simp

/-- A script made of pushes leaves what it pushes. -/
theorem evalScript_push {script : CScript} (hpush : script.isPushOnly = true)
    (heval : (evalScript ctx script []).outcome = .ok stack) :
    stack = (script.ops.map pushedBy).reverse := by
  simp only [isPushOnly, Bool.and_eq_true, all_eq_true, decide_eq_true_eq] at hpush
  simp only [evalScript, outcome_bind, outcome_ofExcept, bind_ok_iff] at heval
  obtain ⟨_, -, last, hloop, _, -, _, -, hstack⟩ := heval
  cases hstack
  rw [foldlM_evalStep_push ctx hpush.2 rfl hloop, append_nil]

/-- The redeem script is the data of the last push. A number in its place has no signature
operations and is no witness program. -/
theorem redeemScript_cases {scriptSig redeem : CScript} (hpush : scriptSig.isPushOnly = true)
    (heval : (evalScript ctx scriptSig []).outcome = .ok (redeem :: stack)) :
    scriptSig.lastData = redeem ∨ redeem.getSigOpCount true = 0 ∧ redeem.witnessProgram = none := by
  have hlast : (scriptSig.ops.getLast?).map pushedBy = some redeem := by
    rw [← List.getLast?_map, ← List.head?_reverse, ← evalScript_push ctx hpush heval]
    rfl
  obtain ⟨op, hop, hpushed⟩ := Option.map_eq_some_iff.1 hlast
  simp only [isPushOnly, Bool.and_eq_true, all_eq_true, decide_eq_true_eq] at hpush
  have hhigh : op.opcode ≤ op16 := hpush.2 op (mem_of_getLast? hop)
  rw [pushedBy] at hpushed
  split_ifs at hpushed with hdata
  · left
    rw [lastData, hop]
    exact hpushed
  · right
    rw [← hpushed]
    exact forall_numberOpcode (fun opcode =>
      getSigOpCount (serialize (opcode.toNat - (op1.toNat - 1))) true = 0 ∧
      witnessProgram (serialize (opcode.toNat - (op1.toNat - 1))) = none)
      (by decide) hdata hhigh

end pushes

section verify

variable (ctx : ScriptContext) {witness : List Bytes}

theorem witnessScript_sigOps {program : Bytes} {start : CScript × Stack}
    (hstart : witnessScript ctx.hashes witness program = .ok start) :
    start.1.getSigOpCount true = witnessSigOps 0 program witness := by
  rw [witnessScript] at hstart
  split_ifs at hstart with hscr hkey
  · have hlast : witness.reverse.head? = witness.getLast? := List.head?_reverse
    cases hreverse : witness.reverse with
    | nil =>
      rw [hreverse] at hstart
      cases hstart
    | cons scriptPubKey stack =>
      simp only [hreverse, bind_ok_iff] at hstart
      obtain ⟨_, -, hstart⟩ := hstart
      cases hstart
      rw [hreverse] at hlast
      simp [witnessSigOps, hscr, ← hlast]
  · simp only [bind_ok_iff] at hstart
    obtain ⟨_, -, hstart⟩ := hstart
    cases hstart
    have hsize : program.length < 2 ^ 32 := by omega
    have hopcode : pushOpcode program = 20 := by
      rw [pushOpcode, hkey]
      rfl
    rw [getSigOpCount, cons_append, cons_append,
      ops_opcode (by decide), ops_opcode (by decide), ops_push hsize,
      hopcode]
    simp only [witnessSigOps, hkey]
    rfl

theorem verifyWitnessProgram_calls_le (witness : List Bytes) (witversion : ℕ) (program : Bytes) :
    (verifyWitnessProgram ctx witness witversion program).calls ≤
      witnessSigOps witversion program witness := by
  rw [verifyWitnessProgram]
  split_ifs with hversion
  · subst hversion
    apply calls_ofExcept_bind_le
    intro start hstart
    apply calls_ofExcept_bind_le
    intro _ _
    rw [← witnessScript_sigOps ctx hstart]
    apply calls_bind_le_left (evalScript_calls_le _ _ _)
    intro stack _
    apply calls_ofExcept_bind_le
    exact fun _ _ => le_rfl
  · exact zero_le _

variable {scriptSig : CScript}

/-- Only a witness program makes calls here. -/
theorem verifyWitness_calls_le {expected pubKey : CScript} {malleated : ScriptError} {stack : Stack}
    {bound : ℕ} (hprogram : ∀ found, .witness ∈ ctx.flags → pubKey.witnessProgram = some found →
      witnessSigOps found.1 found.2 witness ≤ bound) :
    (verifyWitness ctx scriptSig expected pubKey malleated witness stack).calls ≤ bound := by
  rw [verifyWitness]
  split_ifs with hhas
  · cases hf : pubKey.witnessProgram with
    | none => exact zero_le _
    | some found =>
      have hbound := hprogram found (of_decide_eq_true hhas) hf
      apply calls_ofExcept_bind_le
      intro _ _
      apply calls_bind_le_left ((verifyWitnessProgram_calls_le ctx witness _ _).trans hbound)
      exact fun _ _ => le_rfl
  · exact zero_le _

theorem witnessProgram_of_isPayToScriptHash {script : CScript}
    (hpay : script.isPayToScriptHash = true) : script.witnessProgram = none := by
  simp only [isPayToScriptHash, Bool.and_eq_true, beq_iff_eq] at hpay
  obtain ⟨⟨⟨-, hfst⟩, -⟩, -⟩ := hpay
  rcases script with _ | ⟨version, _ | ⟨size, program⟩⟩
  · rfl
  · rfl
  · cases hfst
    rw [witnessProgram]
    split_ifs with hlen hversion
    · rfl
    · rfl
    · exact absurd (by decide) hversion
    · rfl

/-- The redeem script and its witness program, if any. -/
theorem verifyRedeemScript_calls_le {scriptPubKey : CScript} {stackCopy : Stack}
    (hpay : scriptPubKey.isPayToScriptHash = true)
    (heval : (evalScript (ctx.forVersion .base) scriptSig []).outcome = .ok stackCopy) :
    (verifyRedeemScript ctx scriptSig witness stackCopy).calls ≤
      scriptPubKey.getSigOpCountOf scriptSig +
        countWitnessSigOps scriptSig scriptPubKey witness ctx.flags := by
  apply calls_ofExcept_bind_le
  intro _ hpush
  rw [require_ok_iff] at hpush
  cases stackCopy with
  | nil => exact zero_le _
  | cons pubKey2 stack =>
    have hredeem := redeemScript_cases _ hpush heval
    apply calls_bind_le
    · apply (evalScript_calls_le _ pubKey2 stack).trans
      rw [getSigOpCountOf, if_pos hpay, if_pos hpush]
      rcases hredeem with hlast | ⟨hnone, -⟩
      · rw [hlast]
      · exact hnone.le.trans (zero_le _)
    intro after _
    apply calls_ofExcept_bind_le
    intro _ _
    apply verifyWitness_calls_le
    intro found hwit hf
    have hlast : scriptSig.lastData = pubKey2 := by
      apply hredeem.resolve_right
      rintro ⟨-, hnone⟩
      cases hf.symm.trans hnone
    rw [countWitnessSigOps, if_pos hwit, witnessProgram_of_isPayToScriptHash hpay]
    simp only [hpay, hpush, and_self, ↓reduceIte, hlast, hf, le_refl]

theorem verifyScript_calls_le (scriptSig scriptPubKey : CScript) (witness : List Bytes) :
    (verifyScript ctx scriptSig scriptPubKey witness).calls ≤
      scriptSig.getSigOpCount true + (scriptPubKey.getSigOpCount true +
        ((if scriptPubKey.isPayToScriptHash then scriptPubKey.getSigOpCountOf scriptSig else 0) +
          countWitnessSigOps scriptSig scriptPubKey witness ctx.flags)) := by
  apply calls_ofExcept_bind_le
  intro _ _
  apply calls_bind_le (evalScript_calls_le _ scriptSig [])
  intro stackCopy hsig
  apply calls_bind_le (evalScript_calls_le _ scriptPubKey stackCopy)
  intro stack _
  apply calls_ofExcept_bind_le
  intro _ _
  by_cases hpay : scriptPubKey.isPayToScriptHash = true
  · have hbare : (verifyWitness ctx scriptSig [] scriptPubKey .witnessMalleated witness
        stack).calls ≤ 0 := by
      apply verifyWitness_calls_le
      intro found _ hf
      cases hf.symm.trans (witnessProgram_of_isPayToScriptHash hpay)
    rw [← zero_add (_ + _)]
    apply calls_bind_le hbare
    intro bare _
    apply calls_bind_le_left
    · rw [verifyScriptHash]
      split
      · exact verifyRedeemScript_calls_le ctx hpay hsig
      · exact zero_le _
    · exact fun _ _ => le_rfl
  · apply calls_bind_le_left
    · apply verifyWitness_calls_le
      intro found hwit hf
      simp [countWitnessSigOps, hwit, hf]
    intro bare _
    apply calls_bind_le_left
    · rw [verifyScriptHash, if_neg (by simp [hpay])]
      exact le_rfl
    · exact fun _ _ => le_rfl

end verify

/-- The checker is asked at most as often as scripts are counted for: one script run on its
own, and the scripts and the witness of an input. -/
theorem sigOps_bound_calls :
    (∀ (ctx : EvalContext) (script : CScript) (stack : Stack),
      (evalScript ctx script stack).calls ≤ script.getSigOpCount true) ∧
    ∀ (ctx : ScriptContext) (scriptSig scriptPubKey : CScript) (witness : List Bytes),
      (verifyScript ctx scriptSig scriptPubKey witness).calls ≤
        scriptSig.getSigOpCount true + scriptPubKey.getSigOpCount true +
          (if scriptPubKey.isPayToScriptHash then scriptPubKey.getSigOpCountOf scriptSig else 0) +
          countWitnessSigOps scriptSig scriptPubKey witness ctx.flags := by
  constructor
  · exact evalScript_calls_le
  · intro ctx scriptSig scriptPubKey witness
    rw [add_assoc, add_assoc]
    exact verifyScript_calls_le ctx scriptSig scriptPubKey witness

end Catoshi
