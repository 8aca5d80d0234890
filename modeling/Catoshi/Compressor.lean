/-
The compact form of amounts (`compressor.cpp`) and the largest amount of each brand.
-/
import Mathlib.Tactic

namespace Catoshi

open Nat

/-- The brands whose header `codecoin.h` can include. -/
inductive Brand where
  | litecoin | bitcoin | grantcoin | foodchain | solarcoin | catcoin | kittycoin | uro | grantstake
deriving DecidableEq, Repr

def Brand.maxMoney : Brand → ℕ
  | litecoin => 84000000 * 100000000
  | grantcoin | grantstake => 50000000000 * 1000000
  | solarcoin => 100000000000 * 100000000
  | uro => 10000000 * 100000000
  | bitcoin | foodchain | catcoin | kittycoin => 21000000 * 100000000

/-- The loop of `CompressAmount`: the number without at most `most` last zeros, and how many were
dropped. -/
def stripZeros : (most n : ℕ) → ℕ × ℕ
  | 0, n => (n, 0)
  | most + 1, n =>
    if n % 10 = 0 then (stripZeros most (n / 10)).map id Nat.succ else (n, 0)

/-- `CompressAmount` over the naturals. -/
def compressExact (n : ℕ) : ℕ :=
  if n = 0 then 0
  else
    let (n, e) := stripZeros 9 n
    if e < 9 then 1 + (n / 10 * 9 + n % 10 - 1) * 10 + e else 1 + (n - 1) * 10 + 9

def decompressExact (x : ℕ) : ℕ :=
  if x = 0 then 0
  else
    let e := (x - 1) % 10
    let x := (x - 1) / 10
    (if e < 9 then x / 9 * 10 + (x % 9 + 1) else x + 1) * 10 ^ e

/-- The source calculates with 64 bits; after the divisions it only adds and multiplies, so the
remainder can be taken at the end. -/
def compressAmount (n : ℕ) : ℕ := compressExact n % 2 ^ 64

def decompressAmount (x : ℕ) : ℕ := decompressExact x % 2 ^ 64

section Amounts

variable {most n e : ℕ}

theorem stripZeros_mul (hmost : e ≤ most) (hlast : e < most → n % 10 ≠ 0) :
    stripZeros most (n * 10 ^ e) = (n, e) := by
  induction e generalizing most with
  | zero =>
    cases most with
    | zero => simp [stripZeros]
    | succ most => simp [stripZeros, hlast (succ_pos most)]
  | succ e ih =>
    obtain ⟨most, rfl⟩ := Nat.exists_eq_add_of_le' (Nat.one_le_of_lt hmost)
    have hnext := ih (Nat.le_of_succ_le_succ hmost) fun h => hlast (Nat.succ_lt_succ h)
    rw [stripZeros, pow_succ, ← mul_assoc, Nat.mul_mod_left, if_pos rfl,
      mul_div_left _ (by decide), hnext]
    rfl

theorem exists_stripped (most : ℕ) (hpos : 0 < n) :
    ∃ m e, n = m * 10 ^ e ∧ 0 < m ∧ e ≤ most ∧ (e < most → m % 10 ≠ 0) := by
  induction most generalizing n with
  | zero => exact ⟨n, 0, by simp, hpos, le_rfl, nofun⟩
  | succ most ih =>
    by_cases hzero : n % 10 = 0
    · obtain ⟨m, e, hn, hm, he, hlast⟩ := @ih (n / 10) (by omega)
      refine ⟨m, e + 1, ?_, hm, succ_le_succ he, fun h => hlast (lt_of_succ_lt_succ h)⟩
      rw [pow_succ, ← mul_assoc, ← hn]
      omega
    · exact ⟨n, 0, by simp, hpos, zero_le _, fun _ => hzero⟩

theorem compressExact_mul (hpos : 0 < n) (he : e ≤ 9) (hlast : e < 9 → n % 10 ≠ 0) :
    compressExact (n * 10 ^ e) =
      if e < 9 then 1 + (n / 10 * 9 + n % 10 - 1) * 10 + e else 1 + (n - 1) * 10 + 9 := by
  rw [compressExact, if_neg (by positivity), stripZeros_mul he hlast]

theorem decompressExact_compressExact (n : ℕ) : decompressExact (compressExact n) = n := by
  rcases Nat.eq_zero_or_pos n with rfl | hpos
  · rfl
  · obtain ⟨m, e, rfl, hm, he, hlast⟩ := exists_stripped 9 hpos
    rw [compressExact_mul hm he hlast]
    split_ifs with hless
    · have hexp : (1 + (m / 10 * 9 + m % 10 - 1) * 10 + e - 1) % 10 = e := by omega
      have hquot : (1 + (m / 10 * 9 + m % 10 - 1) * 10 + e - 1) / 10 =
          m / 10 * 9 + (m % 10 - 1) := by omega
      simp only [decompressExact, hexp, hquot, hless, if_true]
      rw [if_neg (by omega)]
      congr 1
      omega
    · obtain rfl : e = 9 := by omega
      have hexp : (1 + (m - 1) * 10 + 9 - 1) % 10 = 9 := by omega
      have hquot : (1 + (m - 1) * 10 + 9 - 1) / 10 = m - 1 := by omega
      simp only [decompressExact, hexp, hquot]
      rw [if_neg (by omega), if_neg (by decide), Nat.sub_add_cancel hm]

theorem compressExact_decompressExact (x : ℕ) : compressExact (decompressExact x) = x := by
  rw [decompressExact]
  split_ifs with hzero
  · rw [hzero]
    rfl
  · dsimp only
    rw [compressExact_mul (by split <;> omega) (by omega) (by intro h; rw [if_pos h]; omega)]
    split <;> omega

theorem compressExact_le (n : ℕ) : compressExact n ≤ 9 * n + 9 := by
  rcases Nat.eq_zero_or_pos n with rfl | hpos
  · exact zero_le _
  · obtain ⟨m, e, rfl, hm, he, hlast⟩ := exists_stripped 9 hpos
    have hle : m ≤ m * 10 ^ e := Nat.le_mul_of_pos_right m (by positivity)
    rw [compressExact_mul hm he hlast]
    split_ifs with hnine
    · omega
    · obtain rfl : e = 9 := by omega
      omega

/-- Compression and decompression of the amounts of a brand are inverse to each other, except
for the one brand whose largest amount is too large. -/
theorem amount_compression_bijective_iff (brand : Brand) :
    ((∀ n ≤ brand.maxMoney, compressExact n < 2 ^ 64 ∧ decompressAmount (compressAmount n) = n) ∧
        ∀ x < 2 ^ 64, decompressExact x ≤ brand.maxMoney →
          compressAmount (decompressAmount x) = x) ↔ brand ≠ .solarcoin := by
  constructor
  · rintro ⟨hamounts, -⟩ rfl
    exact absurd (hamounts 2100000000000000001 (by decide)).1 (by decide)
  · intro hbrand
    have hmax : brand.maxMoney ≤ 2 ^ 60 := by cases brand <;> first | decide | contradiction
    refine ⟨fun n hn => ?_, fun x hx hamount => ?_⟩
    · have hfits : compressExact n < 2 ^ 64 := by
        have hle := compressExact_le n
        omega
      refine ⟨hfits, ?_⟩
      rw [compressAmount, mod_eq_of_lt hfits, decompressAmount, decompressExact_compressExact]
      omega
    · have hfits : decompressExact x < 2 ^ 64 := by omega
      rw [decompressAmount, mod_eq_of_lt hfits, compressAmount, compressExact_decompressExact]
      exact mod_eq_of_lt hx

/-- An amount below the limit of solarcoin whose compact form does not fit. -/
theorem compressAmount_overflows :
    2100000000000000001 ≤ Brand.solarcoin.maxMoney ∧
      decompressAmount (compressAmount 2100000000000000001) ≠ 2100000000000000001 := by
  decide

end Amounts

end Catoshi
