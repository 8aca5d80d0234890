/-
The money blocks can create: the sum of `GetBlockSubsidy` (`foodchain/trust.cpp` and
`grantcoin/trust.cpp`) against `MAX_MONEY`.
-/
import Catoshi.Compressor
import Catoshi.Consensus

namespace Catoshi

/-- The cases `nHeight < limit` of grantcoin's `GetBlockSubsidy` in order, with what a block gets;
a coin has six decimals. -/
def grantcoinSchedule : List (ℕ × ℤ) :=
  [(50000, 10000), (51000, 6250000), (52000, 12500000), (53000, 25000000), (54000, 50000000),
    (55000, 100000000), (56000, 200000000), (100000, 400000000), (150000, 200000000),
    (200000, 100000000), (250000, 50000000), (300000, 25000000), (1100000, 10000000),
    (1200000, 5000000), (1300000, 2500000)]

def getBlockSubsidyGrantcoin (nHeight : ℕ) : ℤ :=
  if nHeight = 1 then 10000000000 * 1000000
  else
    match grantcoinSchedule.find? fun entry => nHeight < entry.1 with
    | some (_, nSubsidy) => nSubsidy
    | none => 1000000

/-- The subsidies up to a height, without the genesis block's. -/
def moneySupply (subsidy : ℕ → ℤ) : ℕ → ℤ
  | 0 => 0
  | height + 1 => moneySupply subsidy height + subsidy (height + 1)

theorem moneySupply_nonneg {subsidy : ℕ → ℤ} (hsubsidy : ∀ height, 0 ≤ subsidy height)
    (height : ℕ) : 0 ≤ moneySupply subsidy height := by
  induction height with
  | zero => exact le_rfl
  | succ height ih => exact add_nonneg ih (hsubsidy _)

theorem getBlockSubsidy_mul_le (nHeight : ℕ) (params : ConsensusParams) :
    getBlockSubsidy nHeight params * 2 ^ (nHeight / params.nSubsidyHalvingInterval) ≤
      5000000000 := by
  unfold getBlockSubsidy
  split
  · simp
  · exact Int.ediv_mul_le _ (by positivity)

theorem moneySupply_halving (params : ConsensusParams)
    (hinterval : params.nSubsidyHalvingInterval = 210000) (height : ℕ) :
    moneySupply (getBlockSubsidy · params) height * 2 ^ (height / 210000) +
        (420000 - height % 210000) * 5000000000 ≤ 2100000000000000 * 2 ^ (height / 210000) := by
  induction height with
  | zero => simp [moneySupply]
  | succ height ih =>
    have hsubsidy := getBlockSubsidy_mul_le (height + 1) params
    rw [hinterval] at hsubsidy
    rw [moneySupply, add_mul]
    by_cases hlast : height % 210000 = 209999
    · have hquot : (height + 1) / 210000 = height / 210000 + 1 := by omega
      have hrem : (height + 1) % 210000 = 0 := by omega
      rw [hquot] at hsubsidy
      zify at hlast
      zify [hquot, hrem]
      rw [hlast] at ih
      rw [pow_succ] at hsubsidy ⊢
      linarith
    · have hquot : (height + 1) / 210000 = height / 210000 := by omega
      have hrem : (height + 1) % 210000 = height % 210000 + 1 := by omega
      rw [hquot] at hsubsidy
      zify [hquot, hrem]
      linarith

theorem getBlockSubsidyGrantcoin_bounds (nHeight : ℕ) :
    0 ≤ getBlockSubsidyGrantcoin nHeight ∧ getBlockSubsidyGrantcoin nHeight ≤
      if nHeight = 1 then 10000000000000000
      else if nHeight < 1300000 then 400000000 else 1000000 := by
  have hschedule : ∀ entry ∈ grantcoinSchedule,
      entry.1 ≤ 1300000 ∧ 0 ≤ entry.2 ∧ entry.2 ≤ 400000000 := by decide
  unfold getBlockSubsidyGrantcoin
  split
  · exact ⟨by decide, le_rfl⟩
  · split
    · next limit nSubsidy hf =>
      obtain ⟨hlimit, hrange⟩ := hschedule _ (List.mem_of_find?_eq_some hf)
      have hless : nHeight < limit := by simpa using List.find?_some hf
      rwa [if_pos (hless.trans_le hlimit)]
    · exact ⟨by decide, by split <;> decide⟩

theorem moneySupply_grantcoin (height : ℕ) : moneySupply getBlockSubsidyGrantcoin height ≤
    10000000000000000 * min height 1 + 400000000 * min height 1300000 + 1000000 * height := by
  induction height with
  | zero => simp [moneySupply]
  | succ height ih =>
    have hsubsidy := (getBlockSubsidyGrantcoin_bounds (height + 1)).2
    rw [moneySupply]
    split at hsubsidy
    · omega
    · split at hsubsidy <;> omega

/-- No chain of foodchain or grantcoin creates more than `MAX_MONEY`, and no sum on the way
leaves the range of 64 bits. -/
theorem moneySupply_le_maxMoney (N : Int32) (params : ConsensusParams) :
    let foodchain := moneySupply
      (getBlockSubsidy · { params with nSubsidyHalvingInterval := 210000 }) N.toInt.toNat
    let grantcoin := moneySupply getBlockSubsidyGrantcoin N.toInt.toNat
    (0 ≤ foodchain ∧ foodchain ≤ Brand.foodchain.maxMoney ∧ foodchain < 2 ^ 63) ∧
      0 ≤ grantcoin ∧ grantcoin ≤ Brand.grantcoin.maxMoney ∧ grantcoin < 2 ^ 63 := by
  intro foodchain grantcoin
  have hfoodchain : foodchain ≤ 2100000000000000 := by
    have hhalving := moneySupply_halving { params with nSubsidyHalvingInterval := 210000 } rfl
      N.toInt.toNat
    have hrest : (N.toInt.toNat % 210000 : ℕ) < 210000 := Nat.mod_lt _ (by decide)
    apply le_of_mul_le_mul_right _ (pow_pos two_pos (N.toInt.toNat / 210000))
    refine le_trans ?_ hhalving
    zify at hrest
    linarith
  have hgrantcoin : grantcoin ≤ 15000000000000000 := by
    have hheight := N.toInt_lt
    have hsupply := moneySupply_grantcoin N.toInt.toNat
    omega
  have hnonneg := moneySupply_nonneg (getBlockSubsidy_nonneg ·
    { params with nSubsidyHalvingInterval := 210000 }) N.toInt.toNat
  have hnonneg' := moneySupply_nonneg (fun height => (getBlockSubsidyGrantcoin_bounds height).1)
    N.toInt.toNat
  refine ⟨⟨hnonneg, hfoodchain, hfoodchain.trans_lt (by decide)⟩, hnonneg',
    hgrantcoin.trans (by decide), hgrantcoin.trans_lt (by decide)⟩

end Catoshi
