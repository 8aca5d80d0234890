/-
Script numbers (`CScriptNum`, `CastToBool`): sign and magnitude, least significant byte first.
-/
import Catoshi.Interpreter
import Mathlib.Data.FinEnum

namespace Catoshi

open ByteOrder CScriptNum List

/-- What `serialize` does with the sign. -/
def withSign (neg : Bool) (result : Bytes) : Bytes :=
  let back := result.getLast?.getD 0
  if back &&& 0x80 ≠ 0 then result ++ [if neg then 0x80 else 0]
  else if neg then result.dropLast ++ [back ||| 0x80]
  else result

def signed (neg : Bool) (n : ℕ) : ℤ := if neg then -n else n

/-- The encodings of a nonzero magnitude of at most `width` bytes. -/
inductive Codes (neg : Bool) : (width n : ℕ) → Bytes → Prop
  | last {width : ℕ} {top : UInt8} {vch : Bytes} (htop : top ≠ 0)
    (hvch : withSign neg [top] = vch) : Codes neg (width + 1) top.toNat vch
  | more {width n : ℕ} {vch : Bytes} (low : UInt8) (hcodes : Codes neg width n vch) :
    Codes neg (width + 1) (low.toNat + 256 * n) (low :: vch)

theorem last_spec : ∀ neg (top : UInt8), top ≠ 0 → let vch := withSign neg [top]
    0 < top.toNat ∧ vch ≠ [] ∧ isMinimal vch = true ∧ castToBool vch = true ∧
      setVch vch = signed neg top.toNat := by
  decide +kernel

theorem byte_spec : ∀ byte : UInt8, (byte &&& 0x7f = 0 → byte = 0 ∨ byte = 0x80) ∧
    (byte &&& 0x7f ≠ 0 → withSign (byte &&& 0x80 ≠ 0) [byte &&& 0x7f] = [byte]) ∧
    (byte &&& 0x80 ≠ 0 → byte ≠ 0 ∧
      ∀ neg, withSign neg [byte] = [byte, if neg then 0x80 else 0]) := by
  decide +kernel

variable {neg : Bool} {n width : ℕ} {vch : Bytes} (low : UInt8)

theorem isMinimal_cons_iff (hne : vch ≠ []) : isMinimal (low :: vch) = true ↔
    isMinimal vch = true ∨ (vch = [0] ∨ vch = [0x80]) ∧ low &&& 0x80 ≠ 0 := by
  rw [isMinimal, isMinimal, reverse_cons]
  rcases hrev : vch.reverse with _ | ⟨back, _ | ⟨before, rest⟩⟩
  · exact absurd (reverse_eq_nil_iff.1 hrev) hne
  · obtain rfl : vch = [back] := reverse_eq_iff.1 hrev
    have hback := (byte_spec back).1
    simp
    tauto
  · have hlen := congrArg length hrev
    refine ⟨.inl, ?_⟩
    rintro (hmin | ⟨rfl | rfl, -⟩)
    · exact hmin
    · cases hlen
    · cases hlen

theorem setVch_cons (hne : vch ≠ []) (hpos : 0 < n) (hval : setVch vch = signed neg n) :
    setVch (low :: vch) = signed neg (low.toNat + 256 * n) := by
  obtain ⟨byte, rest, rfl⟩ := exists_cons_of_ne_nil hne
  have hback := getLast?_eq_some_getLast hne
  rw [setVch, hback] at hval
  rw [setVch, getLast?_cons_cons, hback]
  simp only [length_cons, Nat.add_sub_cancel, pow_succ, ofLittleEndian.eq_2 low, signed] at hval ⊢
  split_ifs at hval ⊢ <;> omega

theorem withSign_cons (byte : UInt8) (rest : Bytes) :
    withSign neg (low :: byte :: rest) = low :: withSign neg (byte :: rest) := by
  simp only [withSign, getLast?_cons_cons, dropLast_cons_cons, cons_append]
  split_ifs <;> rfl

theorem magnitude_pos (hpos : 0 < n) :
    magnitude (width + 1) n = UInt8.ofNat n :: magnitude width (n / 256) := by
  rw [magnitude, if_neg hpos.ne']

namespace Codes

theorem spec (hcodes : Codes neg width n vch) : 0 < n ∧ vch ≠ [] ∧ isMinimal vch = true ∧
    castToBool vch = true ∧ setVch vch = signed neg n := by
  induction hcodes with
  | last htop hvch => exact hvch ▸ last_spec neg _ htop
  | more low hcodes ih =>
    obtain ⟨hpos, hne, hmin, hcast, hval⟩ := ih
    refine ⟨by omega, cons_ne_nil _ _, (isMinimal_cons_iff low hne).2 (.inl hmin), ?_,
      setVch_cons low hne hpos hval⟩
    obtain ⟨byte, rest, rfl⟩ := exists_cons_of_ne_nil hne
    simp [castToBool, hcast]

theorem withSign_magnitude (hcodes : Codes neg width n vch) :
    withSign neg (magnitude width n) = vch := by
  induction hcodes with
  | @last width top vch htop hvch =>
    rw [magnitude_pos (last_spec neg top htop).1, Nat.div_eq_of_lt top.toNat_lt, UInt8.ofNat_toNat]
    cases width <;> exact hvch
  | @more width n vch low hcodes ih =>
    have hpos := hcodes.spec.1
    have hdiv : (low.toNat + 256 * n) / 256 = n := by
      have hlow := low.toNat_lt
      omega
    have hlow : UInt8.ofNat (low.toNat + 256 * n) = low := by
      simp [UInt8.ofNat_add, UInt8.ofNat_mul]
    rw [magnitude_pos (by omega), hdiv, hlow]
    cases width with
    | zero => cases hcodes
    | succ width =>
      rw [magnitude_pos hpos] at ih ⊢
      rw [withSign_cons, ih]

theorem serialize_eq (hcodes : Codes neg 8 n vch) : serialize (signed neg n) = vch := by
  have hpos := hcodes.spec.1
  have hnot : ¬ (n : ℤ) < 0 := by omega
  rw [← hcodes.withSign_magnitude]
  cases neg <;> simp [serialize, withSign, signed, hpos.ne', hpos, hnot]

end Codes

theorem exists_codes (neg : Bool) (hpos : 0 < n) (hn : n < 256 ^ width) :
    ∃ vch, Codes neg width n vch := by
  induction width generalizing n with
  | zero => omega
  | succ width ih =>
    have hbyte : (UInt8.ofNat n).toNat = n % 256 := UInt8.toNat_ofNat'
    by_cases hlast : n < 256
    · rw [Nat.mod_eq_of_lt hlast] at hbyte
      have hcodes := @Codes.last neg width (UInt8.ofNat n) _ (fun hzero => by simp_all) rfl
      exact ⟨_, hbyte ▸ hcodes⟩
    · rw [pow_succ] at hn
      obtain ⟨vch, hcodes⟩ := @ih (n / 256) (by omega) (by omega)
      have hmore := hcodes.more (UInt8.ofNat n)
      rw [hbyte, Nat.mod_add_div] at hmore
      exact ⟨_, hmore⟩

theorem codes_of_isMinimal (hne : vch ≠ []) (hmin : isMinimal vch = true)
    (hlen : vch.length ≤ width) : ∃ neg n, Codes neg width n vch := by
  induction vch generalizing width with
  | nil => exact absurd rfl hne
  | cons low vch ih =>
    obtain ⟨-, hone, htwo⟩ := byte_spec low
    cases width with
    | zero => cases hlen
    | succ width =>
      by_cases hlast : vch = []
      · subst hlast
        have hlow : low &&& 0x7f ≠ 0 := by simpa [isMinimal] using hmin
        exact ⟨_, _, Codes.last hlow (hone hlow)⟩
      · rcases (isMinimal_cons_iff low hlast).1 hmin with hmin | ⟨rfl | rfl, hbit⟩
        · obtain ⟨neg, n, hcodes⟩ := ih hlast hmin (Nat.succ_le_succ_iff.1 hlen)
          exact ⟨neg, _, hcodes.more low⟩
        · exact ⟨false, _, Codes.last (htwo hbit).1 ((htwo hbit).2 false)⟩
        · exact ⟨true, _, Codes.last (htwo hbit).1 ((htwo hbit).2 true)⟩

theorem serialize_spec {n : ℤ} (hn : n.natAbs < 2 ^ 63) : isMinimal (serialize n) = true ∧
    setVch (serialize n) = n ∧ (castToBool (serialize n) = true ↔ n ≠ 0) := by
  by_cases hzero : n = 0
  · subst hzero
    decide
  · have hsign : signed (decide (n < 0)) n.natAbs = n := by
      simp only [signed, decide_eq_true_eq]
      omega
    obtain ⟨vch, hcodes⟩ := @exists_codes n.natAbs 8 (decide (n < 0)) (by omega) (by omega)
    have hcode := hcodes.serialize_eq
    obtain ⟨-, -, hmin, hcast, hval⟩ := hcodes.spec
    rw [hsign] at hcode hval
    rw [hcode, hval]
    exact ⟨hmin, rfl, by simp [hcast, hzero]⟩

/-- Script numbers have one minimal encoding each, and zero is false however it is encoded. -/
theorem script_numbers_canonical :
    (∀ n : ℤ, n.natAbs < 2 ^ 63 → isMinimal (serialize n) = true ∧ setVch (serialize n) = n ∧
      (castToBool (serialize n) = true ↔ n ≠ 0)) ∧
    (∀ vch, vch.length ≤ 8 → isMinimal vch = true → serialize (setVch vch) = vch) ∧
    Set.InjOn serialize {n | n.natAbs < 2 ^ 63} ∧
    ∀ zeros, castToBool (replicate zeros 0 ++ [0x80]) = false := by
  refine ⟨fun n => serialize_spec, fun vch hlen hmin => ?_, fun n hn m hm hsame => ?_,
    fun zeros => ?_⟩
  · by_cases hnil : vch = []
    · subst hnil
      decide
    · obtain ⟨neg, n, hcodes⟩ := codes_of_isMinimal hnil hmin hlen
      rw [hcodes.spec.2.2.2.2, hcodes.serialize_eq]
  · rw [← (serialize_spec hn).2.1, hsame, (serialize_spec hm).2.1]
  · induction zeros with
    | zero => rfl
    | succ zeros ih => cases zeros <;> simp_all [castToBool, replicate_succ]

end Catoshi
