/-
Compact targets (`arith_uint256.cpp`) and the retargeting of foodchain (`trust.cpp`).
-/
import Catoshi.ForkPoints
import Mathlib.Data.Nat.Size

namespace Catoshi

/-! ### Compact targets -/

/-- `GetCompact` of a target that is not negative. -/
def getCompact (target : ℕ) : UInt32 :=
  let nSize := (target.size + 7) / 8
  let nCompact :=
    (if nSize ≤ 3 then target % 2 ^ 64 * 2 ^ (8 * (3 - nSize))
      else target / 2 ^ (8 * (nSize - 3)) % 2 ^ 64) % 2 ^ 32
  if nCompact / 2 ^ 23 % 2 = 1 then .ofNat ((nSize + 1) <<< 24 ||| nCompact / 2 ^ 8)
  else .ofNat (nSize <<< 24 ||| nCompact)

/-- The bytes of a target, with room for the sign. -/
def signedSize (target : ℕ) : ℕ := if target = 0 then 0 else target.size / 8 + 1

/-- The three bytes at the top of a number of so many bytes. -/
def mantissa (target nSize : ℕ) : ℕ := target * 2 ^ (8 * (3 - nSize)) / 2 ^ (8 * (nSize - 3))

/-- The target without the bytes below the leading three, or two if the highest bit of the first is
set. -/
def rounded (target : ℕ) : ℕ :=
  target / 2 ^ (8 * (target.size / 8 - 2)) * 2 ^ (8 * (target.size / 8 - 2))

variable {target nSize : ℕ}

theorem mantissa_lt_iff {bits : ℕ} (hbits : 24 ≤ bits + 8 * nSize) :
    mantissa target nSize < 2 ^ bits ↔ target.size ≤ bits + 8 * nSize - 24 := by
  have hsplit : bits + 8 * (nSize - 3) = bits + 8 * nSize - 24 + 8 * (3 - nSize) := by omega
  rw [mantissa, Nat.div_lt_iff_lt_mul (Nat.two_pow_pos _), ← pow_add, hsplit, pow_add,
    Nat.mul_lt_mul_right (Nat.two_pow_pos _), Nat.size_le]

theorem mantissa_signedSize_lt (target : ℕ) : mantissa target (signedSize target) < 2 ^ 23 := by
  rw [signedSize]
  split_ifs with hzero
  · simp [hzero, mantissa]
  · exact (mantissa_lt_iff (by omega)).2 (by omega)

theorem mantissa_div (target nSize : ℕ) :
    mantissa target nSize / 2 ^ 8 = mantissa target (nSize + 1) := by
  rw [mantissa, mantissa, Nat.div_div_eq_div_mul, ← pow_add]
  rcases le_or_gt 3 nSize with hlong | hshort
  · congr 3 <;> omega
  · have hsplit : 8 * (3 - nSize) = 8 * (3 - (nSize + 1)) + 8 := by omega
    rw [hsplit, pow_add, ← mul_assoc, Nat.sub_eq_zero_of_le hshort.le, Nat.sub_eq_zero_of_le hshort]
    simp

theorem toNat_packed {nWord : ℕ} (hsize : nSize < 256) (hword : nWord < 2 ^ 24) :
    (UInt32.ofNat (nSize <<< 24 ||| nWord)).toNat = nSize * 2 ^ 24 + nWord := by
  rw [← Nat.shiftLeft_add_eq_or_of_lt hword, Nat.shiftLeft_eq, UInt32.toNat_ofNat',
    Nat.mod_eq_of_lt (by omega)]

theorem getCompact_toNat (htarget : target < 2 ^ 256) :
    (getCompact target).toNat =
      signedSize target * 2 ^ 24 + mantissa target (signedSize target) := by
  rcases Nat.eq_zero_or_pos target with rfl | hpos
  · rfl
  have hsize : target.size ≤ 256 := Nat.size_le.2 htarget
  have hnonzero : 0 < target.size := Nat.size_pos.2 hpos
  obtain ⟨nSize, hnSize⟩ : ∃ nSize, nSize = (target.size + 7) / 8 := ⟨_, rfl⟩
  have hlow : mantissa target nSize < 2 ^ 24 := (mantissa_lt_iff (by omega)).2 (by omega)
  have hword : (if nSize ≤ 3 then target % 2 ^ 64 * 2 ^ (8 * (3 - nSize))
      else target / 2 ^ (8 * (nSize - 3)) % 2 ^ 64) % 2 ^ 32 = mantissa target nSize := by
    split_ifs with hshort
    · have hsmall : target < 2 ^ 64 := Nat.size_le.1 (by omega)
      rw [mantissa, Nat.sub_eq_zero_of_le hshort, mul_zero, pow_zero, Nat.div_one] at hlow ⊢
      rw [Nat.mod_eq_of_lt hsmall, Nat.mod_eq_of_lt (by omega)]
    · rw [mantissa, Nat.sub_eq_zero_of_le (by omega : 3 ≤ nSize), mul_zero, pow_zero,
        mul_one] at hlow ⊢
      rw [Nat.mod_eq_of_lt (hlow.trans (by decide)), Nat.mod_eq_of_lt (hlow.trans (by decide))]
  have hsign : mantissa target nSize < 2 ^ 23 ↔ target.size ≤ 23 + 8 * nSize - 24 :=
    mantissa_lt_iff (by omega)
  rw [getCompact, signedSize, if_neg hpos.ne', ← hnSize, hword]
  split_ifs with hset
  · have hnext : target.size / 8 + 1 = nSize + 1 := by omega
    rw [toNat_packed (by omega) (by omega), mantissa_div, hnext]
  · have hsame : target.size / 8 + 1 = nSize := by omega
    rw [toNat_packed (by omega) hlow, hsame]

theorem setCompact_getCompact (htarget : target < 2 ^ 256) :
    setCompact (getCompact target) = (rounded target, false, false) := by
  have hsize : target.size ≤ 256 := Nat.size_le.2 htarget
  have hword := mantissa_signedSize_lt target
  have hbits := getCompact_toNat htarget
  have hnSize : (getCompact target).toNat / 2 ^ 24 = signedSize target := by omega
  have hmod : (getCompact target).toNat % 2 ^ 23 = mantissa target (signedSize target) := by omega
  have hsign : (getCompact target).toNat / 2 ^ 23 % 2 = 0 := by omega
  have hbytes : signedSize target = 0 ∧ target.size = 0 ∨
      signedSize target = target.size / 8 + 1 := by
    grind [signedSize, Nat.size_zero]
  have hlow : 32 < signedSize target → mantissa target (signedSize target) < 2 ^ 16 := fun hlong =>
    (mantissa_lt_iff (by omega)).2 (by omega)
  simp only [setCompact, hnSize, hmod, hsign]
  split_ifs with hshort
  · have hexact : mantissa target (signedSize target) / 2 ^ (8 * (3 - signedSize target)) =
        target := by
      simp [mantissa, Nat.sub_eq_zero_of_le hshort]
    have hall : target.size / 8 - 2 = 0 := by omega
    rw [hexact, rounded, hall]
    simp
    omega
  · have hshift : signedSize target - 3 = target.size / 8 - 2 := by omega
    have hle : rounded target ≤ target := Nat.div_mul_le_self ..
    have hexact : mantissa target (signedSize target) * 2 ^ (8 * (signedSize target - 3)) =
        rounded target := by
      rw [rounded, mantissa, Nat.sub_eq_zero_of_le (by omega), hshift]
      simp
    rw [hexact, Nat.mod_eq_of_lt (by omega)]
    simp
    omega

theorem getCompact_mono {low high : ℕ} (hle : low ≤ high) (hhigh : high < 2 ^ 256) :
    getCompact low ≤ getCompact high := by
  have hsize : signedSize low ≤ signedSize high := by
    grind [signedSize, Nat.size_le_size hle]
  have hword := mantissa_signedSize_lt low
  rw [UInt32.le_iff_toNat_le, getCompact_toNat hhigh, getCompact_toNat (hle.trans_lt hhigh)]
  rcases hsize.eq_or_lt with hsame | hlonger
  · rw [hsame]
    exact Nat.add_le_add_left (Nat.div_le_div_right (Nat.mul_le_mul_right _ hle)) _
  · omega

theorem rounded_of_dvd {bytes : ℕ} (hdvd : 2 ^ (8 * bytes) ∣ target)
    (hsize : target.size < 8 * (bytes + 3)) : rounded target = target :=
  Nat.div_mul_cancel ((pow_dvd_pow 2 (by omega)).trans hdvd)

theorem rounded_setCompact (nBits : UInt32) :
    (setCompact nBits).1 < 2 ^ 256 ∧ rounded (setCompact nBits).1 = (setCompact nBits).1 := by
  have hword : nBits.toNat % 2 ^ 23 < 2 ^ 23 := Nat.mod_lt _ (by decide)
  simp only [setCompact]
  split
  · have hle := Nat.div_le_self (nBits.toNat % 2 ^ 23) (2 ^ (8 * (3 - nBits.toNat / 2 ^ 24)))
    exact ⟨by omega, @rounded_of_dvd _ 0 (one_dvd _) (Nat.lt_succ_of_le (Nat.size_le.2 (by omega)))⟩
  · generalize nBits.toNat / 2 ^ 24 - 3 = bytes
    have hlt : nBits.toNat % 2 ^ 23 * 2 ^ (8 * bytes) % 2 ^ 256 < 2 ^ 256 :=
      Nat.mod_lt _ (by decide)
    have hsize := Nat.size_le.2 hlt
    refine ⟨hlt, ?_⟩
    rcases le_or_gt bytes 32 with hshort | hlong
    · have hsmall : (nBits.toNat % 2 ^ 23 * 2 ^ (8 * bytes) % 2 ^ 256).size ≤ 23 + 8 * bytes := by
        rw [Nat.size_le, pow_add]
        exact (Nat.mod_le ..).trans_lt (Nat.mul_lt_mul_of_pos_right hword (Nat.two_pow_pos _))
      exact rounded_of_dvd ((Nat.dvd_mod_iff (pow_dvd_pow 2 (by omega))).2 (dvd_mul_left ..))
        (by omega)
    · exact @rounded_of_dvd _ 32 ((Nat.dvd_mod_iff dvd_rfl).2
        ((pow_dvd_pow 2 (by omega)).mul_left _)) (by omega)

/-- Encoding a target rounds it down, keeps the order and never sets the sign; bits that stand
for a target are decoded and encoded again to the same target. -/
theorem compact_targets :
    (∀ target < 2 ^ 256, setCompact (getCompact target) = (rounded target, false, false) ∧
      rounded target ≤ target ∧
      (2 ^ (8 * (target.size / 8 - 2)) ∣ target → rounded target = target) ∧
      (getCompact target).toNat / 2 ^ 23 % 2 = 0) ∧
    (∀ low high, low ≤ high → high < 2 ^ 256 → getCompact low ≤ getCompact high) ∧
    ∀ nBits, (setCompact nBits).2 = (false, false) →
      setCompact (getCompact (setCompact nBits).1) = setCompact nBits ∧
      getCompact (setCompact (getCompact (setCompact nBits).1)).1 =
        getCompact (setCompact nBits).1 := by
  refine ⟨fun target htarget => ⟨setCompact_getCompact htarget, Nat.div_mul_le_self ..,
    Nat.div_mul_cancel, ?_⟩, fun _ _ => getCompact_mono, fun nBits hflags => ?_⟩
  · have hword := mantissa_signedSize_lt target
    rw [getCompact_toNat htarget]
    omega
  · obtain ⟨hlt, hexact⟩ := rounded_setCompact nBits
    rw [setCompact_getCompact hlt, hexact, ← hflags]
    exact ⟨rfl, rfl⟩

/-! ### Retargeting -/

/-- The proof-of-work parameters; there is an interval to look back over. -/
structure PowParams where
  powLimit : ℕ
  fPowAllowMinDifficultyBlocks : Bool
  fPowNoRetargeting : Bool
  nPowTargetSpacing : ℕ
  nPowTargetTimespan : ℕ
  interval_pos : 0 < nPowTargetTimespan / nPowTargetSpacing

namespace PowParams

variable (params : PowParams) (nBits : CBlockIndex → UInt32)

def difficultyAdjustmentInterval : ℕ := params.nPowTargetTimespan / params.nPowTargetSpacing

def calculateNextWorkRequired (pindexLast : CBlockIndex) (nFirstBlockTime : ℤ) : UInt32 :=
  if params.fPowNoRetargeting then nBits pindexLast
  else
    let timespan : ℤ := params.nPowTargetTimespan
    let nActualTimespan := pindexLast.nTime.toNat - nFirstBlockTime
    let nActualTimespan := if nActualTimespan < timespan / 4 then timespan / 4 else nActualTimespan
    let nActualTimespan := if timespan * 4 < nActualTimespan then timespan * 4 else nActualTimespan
    let bnNew := (setCompact (nBits pindexLast)).1
    let fShift := decide (235 < bnNew.size)
    let bnNew := if fShift then bnNew / 2 else bnNew
    -- the factor is converted to 32 bits
    let bnNew := bnNew * (nActualTimespan % 2 ^ 32).toNat % 2 ^ 256 / params.nPowTargetTimespan
    let bnNew := if fShift then bnNew * 2 % 2 ^ 256 else bnNew
    getCompact (if params.powLimit < bnNew then params.powLimit else bnNew)

/-- The last block whose bits are not the limit by the rule of test networks. -/
def lastOrdinary : CBlockIndex → CBlockIndex
  | .genesis hash time => .genesis hash time
  | .child pprev hash time =>
    if (pprev.nHeight + 1) % params.difficultyAdjustmentInterval ≠ 0 ∧
        nBits (.child pprev hash time) = getCompact params.powLimit then
      lastOrdinary pprev
    else .child pprev hash time

/-- `GetNextWorkRequired`; it fails without the first block of the interval. -/
def getNextWorkRequired (pindexLast : CBlockIndex) (blockTime : ℤ) : Option UInt32 :=
  let interval := params.difficultyAdjustmentInterval
  if (pindexLast.nHeight + 1) % interval ≠ 0 then
    if params.fPowAllowMinDifficultyBlocks then
      if pindexLast.nTime.toNat + params.nPowTargetSpacing * 2 < blockTime then
        some (getCompact params.powLimit)
      else some (nBits (params.lastOrdinary nBits pindexLast))
    else some (nBits pindexLast)
  else
    let blockstogoback := if pindexLast.nHeight + 1 ≠ interval then interval else interval - 1
    ((fun walk => walk.bind CBlockIndex.pprev)^[blockstogoback] (some pindexLast)).map
      fun pindexFirst => params.calculateNextWorkRequired nBits pindexLast pindexFirst.nTime.toNat

variable {params nBits} {pindexLast : CBlockIndex}

def nextTarget (params : PowParams) (target : ℕ) (nActualTimespan : ℤ) : ℕ :=
  let timespan : ℤ := params.nPowTargetTimespan
  min params.powLimit (target * (max (timespan / 4) (min (4 * timespan) nActualTimespan)).toNat /
    params.nPowTargetTimespan)

theorem exists_pindexFirst {interval : ℕ} (hinterval : 0 < interval)
    (hheight : (pindexLast.nHeight + 1) % interval = 0) : ∃ pindexFirst ∈ pindexLast.ancestors,
      pindexFirst.nHeight + (if pindexLast.nHeight + 1 ≠ interval then interval
        else interval - 1) = pindexLast.nHeight ∧
      (fun walk => walk.bind CBlockIndex.pprev)^[if pindexLast.nHeight + 1 ≠ interval then interval
        else interval - 1] (some pindexLast) = some pindexFirst := by
  have hback : ∃ back ≤ pindexLast.nHeight,
      (if pindexLast.nHeight + 1 ≠ interval then interval else interval - 1) = back := by
    refine ⟨_, ?_, rfl⟩
    split_ifs with hlater
    · obtain ⟨periods, hperiods⟩ := Nat.dvd_of_mod_eq_zero hheight
      have htwo : 2 ≤ periods := by
        by_contra hfew
        interval_cases periods <;> omega
      have hlong := Nat.mul_le_mul_left interval htwo
      omega
    · omega
  obtain ⟨back, hle, heq⟩ := hback
  have hwalk := iterate_pprev (Nat.sub_le pindexLast.nHeight back)
  rw [Nat.sub_sub_self hle] at hwalk
  obtain ⟨pindexFirst, hf, hmem, hfirst⟩ := CBlockIndex.exists_getAncestor (Nat.sub_le _ back)
  exact ⟨pindexFirst, hmem, by omega, heq ▸ hwalk.trans hf⟩

theorem clamp_eq {timespan : ℤ} (hpos : 0 ≤ timespan) (actual : ℤ) :
    (if timespan * 4 < if actual < timespan / 4 then timespan / 4 else actual then timespan * 4
      else if actual < timespan / 4 then timespan / 4 else actual) =
        max (timespan / 4) (min (4 * timespan) actual) := by
  grind

theorem calculateNextWorkRequired_eq (hretarget : params.fPowNoRetargeting = false)
    (hlimit : params.powLimit < 2 ^ 224) (hspan : params.nPowTargetTimespan = 1209600)
    (htarget : (setCompact (nBits pindexLast)).1 ≤ params.powLimit) (nFirstBlockTime : ℤ) :
    params.calculateNextWorkRequired nBits pindexLast nFirstBlockTime =
      getCompact (params.nextTarget (setCompact (nBits pindexLast)).1
        (pindexLast.nTime.toNat - nFirstBlockTime)) := by
  have hshort : ¬ 235 < (setCompact (nBits pindexLast)).1.size := by
    have hsize : (setCompact (nBits pindexLast)).1.size ≤ 224 := Nat.size_le.2 (by omega)
    omega
  simp only [calculateNextWorkRequired, nextTarget, hretarget, hspan, hshort, decide_false,
    Bool.false_eq_true, if_false]
  rw [clamp_eq (by decide)]
  generalize (setCompact (nBits pindexLast)).1 = target at *
  obtain ⟨span, hspan⟩ : ∃ span, span = max ((1209600 : ℕ) / 4 : ℤ)
    (min (4 * (1209600 : ℕ)) (pindexLast.nTime.toNat - nFirstBlockTime)) := ⟨_, rfl⟩
  have hfits : target * span.toNat < 2 ^ 256 :=
    calc target * span.toNat ≤ 2 ^ 224 * 4838400 := Nat.mul_le_mul (by omega) (by omega)
      _ < 2 ^ 256 := by decide
  rw [← hspan, Int.emod_eq_of_lt (by omega) (by omega), Nat.mod_eq_of_lt hfits, min_def_lt]

/-- Where foodchain retargets, the bits are those of the target over the integers, with the time
since the block an interval before, or since the genesis block for the first retarget; elsewhere
they stay, and the first block is always found. -/
theorem retarget_exact (params : PowParams) (nBits : CBlockIndex → UInt32)
    (pindexLast : CBlockIndex) (blockTime : ℤ) :
    ((pindexLast.nHeight + 1) % params.difficultyAdjustmentInterval = 0 →
      ∃ pindexFirst ∈ pindexLast.ancestors, pindexFirst.nHeight +
          (if pindexLast.nHeight + 1 ≠ params.difficultyAdjustmentInterval then
            params.difficultyAdjustmentInterval else params.difficultyAdjustmentInterval - 1) =
          pindexLast.nHeight ∧
        params.getNextWorkRequired nBits pindexLast blockTime =
          some (params.calculateNextWorkRequired nBits pindexLast pindexFirst.nTime.toNat)) ∧
    ((pindexLast.nHeight + 1) % params.difficultyAdjustmentInterval ≠ 0 →
      params.fPowAllowMinDifficultyBlocks = false →
        params.getNextWorkRequired nBits pindexLast blockTime = some (nBits pindexLast)) ∧
    ∀ target nFirstBlockTime, params.fPowNoRetargeting = false → params.powLimit < 2 ^ 224 →
      params.nPowTargetTimespan = 1209600 → (setCompact (nBits pindexLast)).1 = target →
      1 ≤ target → target ≤ params.powLimit →
        params.calculateNextWorkRequired nBits pindexLast nFirstBlockTime =
          getCompact (params.nextTarget target (pindexLast.nTime.toNat - nFirstBlockTime)) ∧
        (4 ≤ target → 0 < params.nextTarget target (pindexLast.nTime.toNat - nFirstBlockTime)) := by
  refine ⟨fun hheight => ?_, fun hheight hmin => ?_, ?_⟩
  · obtain ⟨pindexFirst, hmem, hback, hwalk⟩ := exists_pindexFirst params.interval_pos hheight
    refine ⟨pindexFirst, hmem, hback, ?_⟩
    rw [getNextWorkRequired, if_neg (not_not.2 hheight)]
    exact congrArg (Option.map _) hwalk
  · rw [getNextWorkRequired, if_pos hheight, hmin]
    rfl
  · rintro target nFirstBlockTime hretarget hlimit hspan rfl - hle
    refine ⟨calculateNextWorkRequired_eq hretarget hlimit hspan hle _, fun hfour => ?_⟩
    rw [nextTarget, hspan]
    refine lt_min (by omega) (Nat.div_pos ?_ (by decide))
    calc 1209600 = 4 * 302400 := rfl
      _ ≤ _ := Nat.mul_le_mul hfour (by omega)

end PowParams

end Catoshi
