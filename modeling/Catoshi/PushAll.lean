/-
`PushAll` (`script/sign.cpp`) against `EvalScript`: pushes under the rule of the shortest
instruction.
-/
import Catoshi.SigOps

namespace Catoshi

open Outcome Metered CScript

/-- What `PushAll` appends for a value. -/
def pushItem (v : Bytes) : CScript :=
  match v with
  | [] => [op0]
  | [byte] => if 1 ≤ byte ∧ byte ≤ 16 then [op1 + (byte - 1)] else CScript.push v
  | _ => CScript.push v

def pushAll (values : List Bytes) : CScript := values.flatMap pushItem

section Pushes

variable {ctx : EvalContext} {state : EvalState} {v : Bytes} {op : Instruction}

theorem toNat_ofNat_length {most : ℕ} (hsize : v.length < most) (hmost : most ≤ 256) :
    (UInt8.ofNat v.length).toNat = v.length :=
  Nat.mod_eq_of_lt (hsize.trans_le hmost)

theorem pushOpcode_le (v : Bytes) : pushOpcode v ≤ opPushData4 := by
  rw [pushOpcode]
  split_ifs with hdirect
  · rw [UInt8.le_iff_toNat_le, toNat_ofNat_length hdirect (by decide)]
    exact (hdirect.trans (by decide)).le
  all_goals decide

/-- The one value a shorter instruction could push. -/
theorem checkMinimalPush_pushOpcode (hsize : v.length ≤ 520)
    (hnumber : ∀ byte, v = [byte] → ¬(1 ≤ byte ∧ byte ≤ 16)) :
    checkMinimalPush v (pushOpcode v) = decide (v ≠ [0x81]) := by
  match v with
  | [] => rfl
  | [byte] =>
    rw [checkMinimalPush, if_neg (hnumber byte rfl)]
    by_cases heq : byte = 0x81
    · simp [heq, pushOpcode, opPushData1]
      decide
    · simp [heq, pushOpcode, opPushData1]
  | first :: second :: tail =>
    generalize hv : first :: second :: tail = v at hsize ⊢
    have hne : v ≠ [0x81] := by simp [← hv]
    have hmin (opcode : UInt8) : checkMinimalPush v opcode =
        if v.length ≤ 75 then decide (opcode.toNat = v.length)
        else if v.length ≤ 255 then decide (opcode = opPushData1)
        else if v.length ≤ 65535 then decide (opcode = opPushData2) else true := by
      rw [← hv]
      rfl
    have hdata : opPushData1.toNat = 76 := rfl
    rw [hmin, pushOpcode, hdata]
    split_ifs <;> simp [hne] <;> omega

/-- An instruction up to `OP_16` is not counted; it is executed and there must be room. -/
theorem evalStep_eq_ok_iff (hopcode : op.opcode ≤ op16) (hsize : op.data.length ≤ 520)
    {next : EvalState} : (evalStep ctx state op).outcome = .ok next ↔
      (dispatch ctx op state).outcome = .ok next ∧
        next.stack.length + next.altstack.length ≤ maxStackSize := by
  have hdisabled : op.opcode ∉ disabledOpcodes := by
    have hall : disabledOpcodes.all (op16 < ·) = true := rfl
    exact fun hmem => not_lt.2 hopcode (of_decide_eq_true (List.all_eq_true.1 hall _ hmem))
  have hcount : countOp op state = .ok state := by
    simp [countOp, hsize, hopcode, hdisabled, not_lt.2 hopcode, maxScriptElementSize, Bind.bind,
      Except.bind, require_true]
  simp [evalStep, hcount, ok_bind]

/-- The instruction of a value pushes it, or is refused if a shorter one would do. -/
theorem evalStep_pushItem (hflag : ctx.has .minimalData = true) (hexec : state.vfExec = [])
    (hroom : state.stack.length + state.altstack.length < maxStackSize) (hsize : v.length ≤ 520)
    (rest : CScript) : ∃ op, getOp (pushItem v ++ rest) = some op ∧ op.rest = rest ∧
      ∀ next, (evalStep ctx state op).outcome = .ok next ↔ v ≠ [0x81] ∧ state.push v = next := by
  have hfExec : state.fExec = true := by
    rw [EvalState.fExec, hexec]
    rfl
  have hfits : (state.push v).stack.length + (state.push v).altstack.length ≤ maxStackSize := by
    simp only [EvalState.push, List.length_cons]
    omega
  by_cases hnumber : ∃ byte, v = [byte] ∧ 1 ≤ byte ∧ byte ≤ 16
  · obtain ⟨byte, rfl, hlow, hhigh⟩ := hnumber
    have hall : ∀ n < 17, 0 < n → ¬op1 + (UInt8.ofNat n - 1) ≤ opPushData4 ∧
        op1 + (UInt8.ofNat n - 1) ≤ op16 ∧ [UInt8.ofNat n] ≠ [0x81] ∧
        operation (op1 + (UInt8.ofNat n - 1)) = .pushNumber n ∧
        CScriptNum.serialize n = [UInt8.ofNat n] := by decide
    have hfacts := hall byte.toNat (Nat.lt_succ_of_le hhigh) hlow
    rw [UInt8.ofNat_toNat] at hfacts
    obtain ⟨hpush, hopcode, hne, hoperation, hserialize⟩ := hfacts
    refine ⟨⟨op1 + (byte - 1), [], rest⟩, ?_, rfl, fun next => ?_⟩
    · rw [pushItem, if_pos ⟨hlow, hhigh⟩]
      exact getOp_opcode hpush rest
    · rw [evalStep_eq_ok_iff hopcode (Nat.zero_le _)]
      simp only [dispatch, hfExec, hpush, decide_false, Bool.and_false, Bool.false_eq_true,
        if_false, Bool.true_or, if_true, execute, hoperation, hserialize, outcome_pure,
        Except.ok.injEq]
      constructor
      · exact fun hnext => ⟨hne, hnext.1⟩
      · rintro ⟨-, rfl⟩
        exact ⟨rfl, hfits⟩
  · have hpush : pushItem v = CScript.push v := by
      unfold pushItem
      split
      · rfl
      · next byte => rw [if_neg fun hbyte => hnumber ⟨byte, rfl, hbyte⟩]
      · rfl
    have hminimal := checkMinimalPush_pushOpcode hsize fun byte hv hbyte =>
      hnumber ⟨byte, hv, hbyte⟩
    refine ⟨_, hpush ▸ getOp_push (by omega) rest, rfl, fun next => ?_⟩
    rw [evalStep_eq_ok_iff ((pushOpcode_le v).trans (by decide)) hsize]
    simp only [dispatch, hfExec, Bool.true_and, pushOpcode_le, decide_true, if_true,
      outcome_ofExcept, checkWhen, hflag, hminimal, bind_ok_iff, require_ok_iff,
      pure_ok_iff, decide_eq_true_eq]
    constructor
    · rintro ⟨⟨_, hne, hnext⟩, -⟩
      exact ⟨hne, hnext⟩
    · rintro ⟨hne, rfl⟩
      exact ⟨⟨(), hne, rfl⟩, hfits⟩

theorem foldlM_pushAll (hflag : ctx.has .minimalData = true) (hexec : state.vfExec = [])
    {values : List Bytes} (hsize : ∀ v ∈ values, v.length ≤ 520)
    (hroom : values.length + state.stack.length + state.altstack.length ≤ maxStackSize) :
    (pushAll values).wellFormed = true ∧ ∀ last,
      ((pushAll values).ops.foldlM (evalStep ctx) state).outcome = .ok last ↔
        [0x81] ∉ values ∧ { state with stack := values.reverse ++ state.stack } = last := by
  induction values generalizing state with
  | nil => exact ⟨rfl, by simp [pushAll, ops, readOps]⟩
  | cons v values ih =>
    rw [List.length_cons] at hroom
    obtain ⟨op, hop, hrest, hstep⟩ := evalStep_pushItem hflag hexec (by omega)
      (hsize v List.mem_cons_self) (pushAll values)
    obtain ⟨hformed, hloop⟩ := @ih (state.push v) hexec
      (List.forall_mem_cons.1 hsize).2 (by
        simp only [EvalState.push, List.length_cons]
        omega)
    have hop : (pushAll (v :: values)).getOp = some op := hop
    have hops : (pushAll (v :: values)).ops = op :: (pushAll values).ops := hrest ▸ ops_of_getOp hop
    constructor
    · rw [wellFormed, readOps_eq hop, hrest]
      exact hformed
    · intro last
      rw [hops, List.foldlM_cons, outcome_bind, bind_ok_iff]
      simp only [hstep, List.mem_cons, not_or]
      constructor
      · rintro ⟨_, ⟨hne, rfl⟩, hlast⟩
        obtain ⟨hmem, rfl⟩ := (hloop last).1 hlast
        exact ⟨⟨hne.symm, hmem⟩, by simp [EvalState.push]⟩
      · rintro ⟨⟨hne, hmem⟩, rfl⟩
        exact ⟨_, ⟨Ne.symm hne, rfl⟩, (hloop _).2 ⟨hmem, by simp [EvalState.push]⟩⟩

/-- Under the rule of minimal pushes the script of `PushAll` leaves its values on the stack, the
last one on top, unless one of them is the number minus one. -/
theorem pushAll_evaluates_iff (ctx : EvalContext) (hflag : ctx.has .minimalData = true)
    (values : List Bytes) (hsize : ∀ v ∈ values, v.length ≤ 520) (hcount : values.length ≤ 1000)
    (hscript : (pushAll values).length ≤ maxScriptSize) :
    (evalScript ctx (pushAll values) []).outcome = .ok values.reverse ↔ [0x81] ∉ values := by
  obtain ⟨hformed, hloop⟩ := @foldlM_pushAll ctx ⟨[], [], [], 0, pushAll values⟩ hflag rfl values
    hsize hcount
  simp only [evalScript, outcome_bind, outcome_ofExcept, bind_ok_iff, require_ok_iff, hloop]
  constructor
  · rintro ⟨_, -, last, ⟨hmem, -⟩, -⟩
    exact hmem
  · intro hmem
    exact ⟨(), decide_eq_true hscript, _, ⟨hmem, rfl⟩, (), hformed, (), rfl, by simp⟩

end Pushes

namespace PushAllWitness

def ctx : EvalContext where
  hashes := ⟨fun _ => List.replicate 20 0, fun _ => List.replicate 20 0,
    fun _ => List.replicate 32 0⟩
  checkLowS _ := true
  checker := ⟨fun _ _ _ _ => true, fun _ => true, fun _ => true⟩
  flags := {.minimalData}
  sigversion := .base

theorem pushAll_evaluates_number :
    (evalScript ctx (pushAll [[7], [], [1, 2]]) []).outcome = .ok [[1, 2], [], [7]] :=
  (pushAll_evaluates_iff ctx rfl [[7], [], [1, 2]] (by decide) (by decide) (by decide)).2
    (by decide)

theorem pushAll_refuses_negative_one :
    (evalScript ctx (pushAll [[0x81]]) []).outcome = .error .minimalData :=
  rfl

end PushAllWitness

end Catoshi
