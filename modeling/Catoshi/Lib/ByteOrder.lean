/-
Byte strings in bytewise order. A key of parts of fixed size is ordered by its parts, a number with
the most significant byte first by its value.
-/
import Mathlib.Data.List.Lex
import Mathlib.Tactic

abbrev Bytes := List UInt8

instance linearOrderUInt8 : LinearOrder UInt8 where
  le_refl _ := UInt8.le_refl _
  le_trans _ _ _ := UInt8.le_trans
  le_antisymm _ _ := UInt8.le_antisymm
  le_total := UInt8.le_total
  lt_iff_le_not_ge first second := by
    rw [UInt8.lt_iff_toNat_lt, UInt8.le_iff_toNat_le, UInt8.le_iff_toNat_le]
    omega
  toDecidableLE := inferInstance
  toDecidableEq := inferInstance
  toDecidableLT := inferInstance

namespace ByteOrder

open List Nat

section Parts

variable {α : Type*} [LinearOrder α] {first second : List α}

theorem append_lt_append_iff (hlen : first.length = second.length) {rest rest' : List α} :
    first ++ rest < second ++ rest' ↔ first < second ∨ first = second ∧ rest < rest' := by
  induction first generalizing second with
  | nil =>
    obtain rfl := eq_nil_of_length_eq_zero hlen.symm
    simp
  | cons head tail ih =>
    cases second with
    | nil => cases hlen
    | cons head' tail' =>
      have hbelow := ih (Nat.succ.inj hlen)
      simp only [cons_append, cons_lt_cons_iff, List.cons.injEq, hbelow]
      tauto

/-- What follows the size of a shorter key does not count. -/
theorem append_lt_iff (hlen : first.length = second.length) {rest : List α} :
    first ++ rest < second ↔ first < second := by
  have hparts : first ++ rest < second ++ [] ↔ _ := append_lt_append_iff hlen
  simpa using hparts

theorem le_append_iff (hlen : first.length = second.length) {rest : List α} :
    second ≤ first ++ rest ↔ second ≤ first := by
  rw [← not_lt, ← not_lt, append_lt_iff hlen]

/-- Keys between two that begin alike begin like them. -/
theorem head_of_between {head : α} {tail tail' between : List α} (hlow : head :: tail ≤ between)
    (hhigh : between < head :: tail') : between.head? = some head := by
  cases between with
  | nil => exact absurd (nil_lt_cons head tail) (not_lt.2 hlow)
  | cons other rest =>
    rw [← not_lt, cons_lt_cons_iff] at hlow
    rw [cons_lt_cons_iff] at hhigh
    rcases hhigh with hless | ⟨heq, -⟩
    · exact absurd (Or.inl hless) hlow
    · rw [heq, List.head?_cons]

end Parts

/-- The lowest `width` bytes, the most significant first. -/
def bigEndian : ℕ → ℕ → Bytes
  | 0, _ => []
  | width + 1, n => UInt8.ofNat (n / 256 ^ width) :: bigEndian width (n % 256 ^ width)

/-- The lowest `width` bytes, the least significant first. -/
def littleEndian : ℕ → ℕ → Bytes
  | 0, _ => []
  | width + 1, n => UInt8.ofNat n :: littleEndian width (n / 256)

def ofBigEndian : Bytes → ℕ
  | [] => 0
  | byte :: rest => byte.toNat * 256 ^ rest.length + ofBigEndian rest

def ofLittleEndian : Bytes → ℕ
  | [] => 0
  | byte :: rest => byte.toNat + 256 * ofLittleEndian rest

@[simp]
theorem length_bigEndian (width n : ℕ) : (bigEndian width n).length = width := by
  induction width generalizing n with
  | zero => rfl
  | succ width ih => rw [bigEndian, length_cons, ih]

@[simp]
theorem length_littleEndian (width n : ℕ) : (littleEndian width n).length = width := by
  induction width generalizing n with
  | zero => rfl
  | succ width ih => rw [littleEndian, length_cons, ih]

variable {width n first second : ℕ}

theorem toNat_leading (hn : n < 256 ^ (width + 1)) :
    (UInt8.ofNat (n / 256 ^ width)).toNat = n / 256 ^ width := by
  have hbyte : n / 256 ^ width < 256 := by
    rw [div_lt_iff_lt_mul (by positivity), ← pow_succ']
    exact hn
  exact mod_eq_of_lt hbyte

theorem ofBigEndian_bigEndian (hn : n < 256 ^ width) : ofBigEndian (bigEndian width n) = n := by
  induction width generalizing n with
  | zero =>
    obtain rfl : n = 0 := by simpa using hn
    rfl
  | succ width ih =>
    rw [bigEndian, ofBigEndian, length_bigEndian, toNat_leading hn,
      ih (mod_lt n (by positivity)), mul_comm]
    exact div_add_mod n _

theorem ofLittleEndian_littleEndian (hn : n < 256 ^ width) :
    ofLittleEndian (littleEndian width n) = n := by
  induction width generalizing n with
  | zero =>
    obtain rfl : n = 0 := by simpa using hn
    rfl
  | succ width ih =>
    have hrest : n / 256 < 256 ^ width := by
      rw [div_lt_iff_lt_mul (by decide)]
      exact hn
    rw [littleEndian, ofLittleEndian, ih hrest, UInt8.toNat_ofNat']
    omega

theorem ofLittleEndian_lt (bytes : Bytes) : ofLittleEndian bytes < 256 ^ bytes.length := by
  induction bytes with
  | nil => decide
  | cons byte bytes ih =>
    have hbyte := byte.toNat_lt
    rw [ofLittleEndian, length_cons, pow_succ]
    omega

theorem littleEndian_ofLittleEndian (bytes : Bytes) :
    littleEndian bytes.length (ofLittleEndian bytes) = bytes := by
  induction bytes with
  | nil => rfl
  | cons byte bytes ih =>
    have hbyte := byte.toNat_lt
    have hrest : (byte.toNat + 256 * ofLittleEndian bytes) / 256 = ofLittleEndian bytes := by omega
    rw [ofLittleEndian, length_cons, littleEndian, hrest, ih]
    simp [UInt8.ofNat_add, UInt8.ofNat_mul]

theorem lt_iff_div_mod (first second base : ℕ) :
    first < second ↔ first / base < second / base ∨
      first / base = second / base ∧ first % base < second % base := by
  have hfst := div_add_mod first base
  have hsnd := div_add_mod second base
  constructor
  · intro hlt
    rcases (Nat.div_le_div_right hlt.le : first / base ≤ second / base).lt_or_eq with
      hless | heq
    · exact Or.inl hless
    · rw [heq] at hfst
      omega
  · rintro (hless | ⟨heq, hless⟩)
    · exact lt_of_div_lt_div hless
    · rw [heq] at hfst
      omega

/-- Big-endian numbers are ordered by value. -/
theorem bigEndian_lt_iff (hfst : first < 256 ^ width) (hsnd : second < 256 ^ width) :
    bigEndian width first < bigEndian width second ↔ first < second := by
  induction width generalizing first second with
  | zero =>
    obtain rfl : first = 0 := by simpa using hfst
    obtain rfl : second = 0 := by simpa using hsnd
    simp
  | succ width ih =>
    have hpos : 0 < 256 ^ width := by positivity
    rw [bigEndian, bigEndian, cons_lt_cons_iff, ih (mod_lt _ hpos) (mod_lt _ hpos),
      UInt8.lt_iff_toNat_lt, ← UInt8.toNat_inj, toNat_leading hfst, toNat_leading hsnd]
    exact (lt_iff_div_mod first second _).symm

theorem bigEndian_inj (hfst : first < 256 ^ width) (hsnd : second < 256 ^ width)
    (heq : bigEndian width first = bigEndian width second) : first = second := by
  rw [← ofBigEndian_bigEndian hfst, heq, ofBigEndian_bigEndian hsnd]

end ByteOrder
