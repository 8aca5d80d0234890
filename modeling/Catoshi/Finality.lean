/-
Lock times (`tx_verify.cpp`): what is final for a block is final for all later ones, because the
median time never goes back.
-/
import Catoshi.VersionBits

namespace Catoshi

open CBlockIndex List

def isFinalTx (tx : CTransaction) (nBlockHeight nBlockTime : ℤ) : Bool :=
  let nLockTime := tx.nLockTime.toNat
  decide (nLockTime = 0) ||
    decide ((nLockTime : ℤ) < if nLockTime < 500000000 then nBlockHeight else nBlockTime) ||
    tx.vin.all fun txin => txin.nSequence = 0xffffffff

/-- A round of `CalculateSequenceLocks`, for an input and the height of its coin. There is no
result without the block below the coin. -/
def lockInput (block : CBlockIndex) (locks : ℤ × ℤ) (input : CTxIn × ℤ) : Option (ℤ × ℤ) :=
  let nSequence := input.1.nSequence.toNat
  if nSequence / 2 ^ 31 % 2 = 1 then some locks
  else if nSequence / 2 ^ 22 % 2 = 1 then
    (block.getAncestor (input.2 - 1).toNat).map fun below =>
      (locks.1, max locks.2 (below.getMedianTimePast + (nSequence % 2 ^ 16 * 2 ^ 9 : ℕ) - 1))
  else some (max locks.1 (input.2 + (nSequence % 2 ^ 16 : ℕ) - 1), locks.2)

def calculateSequenceLocks (tx : CTransaction) (fVerifySequence : Bool) (prevHeights : List ℤ)
    (block : CBlockIndex) : Option (ℤ × ℤ) :=
  if prevHeights.length ≠ tx.vin.length then none
  else if 2 ≤ tx.nVersion % 2 ^ 32 ∧ fVerifySequence then
    (tx.vin.zip prevHeights).foldlM (lockInput block) (-1, -1)
  else some (-1, -1)

def evaluateSequenceLocks (block : CBlockIndex) (lockPair : ℤ × ℤ) : Option Bool :=
  block.pprev.map fun pprev =>
    decide (lockPair.1 < block.nHeight ∧ lockPair.2 < pprev.getMedianTimePast)

def sequenceLocks (tx : CTransaction) (fVerifySequence : Bool) (prevHeights : List ℤ)
    (block : CBlockIndex) : Option Bool :=
  (calculateSequenceLocks tx fVerifySequence prevHeights block).bind (evaluateSequenceLocks block)

/-- `IsFinalTx` for a block, with the median time before it. -/
def isFinalIn (tx : CTransaction) (block : CBlockIndex) : Bool :=
  block.pprev.any fun pprev => isFinalTx tx block.nHeight pprev.getMedianTimePast

/-! ### The median time -/

/-- A value is not above an entry of a sorted list if no more entries are below it than before it.
-/
theorem le_getD_iff {sorted : List ℤ} (hsort : sorted.Pairwise (· ≤ ·)) {place : ℕ}
    (hplace : place < sorted.length) (value : ℤ) :
    value ≤ sorted.getD place 0 ↔ sorted.countP (· < value) ≤ place := by
  induction sorted generalizing place with
  | nil => cases hplace
  | cons first rest ih =>
    obtain ⟨hfst, hrest⟩ := pairwise_cons.1 hsort
    by_cases hbelow : first < value
    · rw [countP_cons_of_pos (by simpa using hbelow)]
      cases place with
      | zero => simpa using hbelow
      | succ place => simpa using ih hrest (Nat.lt_of_succ_lt_succ hplace)
    · have hall : ∀ other ∈ first :: rest, value ≤ other :=
        forall_mem_cons.2 ⟨not_lt.1 hbelow, fun other ho =>
          (not_lt.1 hbelow).trans (hfst other ho)⟩
      have hno : (first :: rest).countP (· < value) = 0 :=
        countP_eq_zero.2 fun other ho => by simpa using hall other ho
      rw [hno, getD_eq_getElem?_getD, List.getElem?_eq_getElem hplace]
      exact iff_of_true (hall _ (getElem_mem hplace)) (Nat.zero_le _)

theorem le_median_iff {times : List ℤ} (hsome : times ≠ []) (value : ℤ) :
    value ≤ (times.insertionSort (· ≤ ·)).getD (times.length / 2) 0 ↔
      times.countP (· < value) ≤ times.length / 2 := by
  rw [le_getD_iff sortedLE_insertionSort.pairwise, (perm_insertionSort (· ≤ ·) times).countP_eq]
  have hlen := length_pos_of_ne_nil hsome
  rw [length_insertionSort]
  omega

/-- One block does not move the median time back. -/
theorem getMedianTimePast_le_of_pprev {pindex pprev : CBlockIndex}
    (hprev : pindex.pprev = some pprev) (hlater : pprev.getMedianTimePast < pindex.nTime.toNat) :
    pprev.getMedianTimePast ≤ pindex.getMedianTimePast := by
  obtain ⟨times, htimes⟩ : ∃ times, times = (pprev.ancestors.take nMedianTimeSpan).map
    fun other => (other.nTime.toNat : ℤ) := ⟨_, rfl⟩
  have hsome : times ≠ [] := by
    cases pprev <;> simp [htimes, ancestors, nMedianTimeSpan]
  have hlen : times.length ≤ 11 := by
    simp [htimes, nMedianTimeSpan]
  have hold : pprev.getMedianTimePast =
      (times.insertionSort (· ≤ ·)).getD (times.length / 2) 0 := by
    rw [htimes]
    rfl
  have hnew : pindex.getMedianTimePast =
      (((pindex.nTime.toNat : ℤ) :: times.take 10).insertionSort (· ≤ ·)).getD
        (((pindex.nTime.toNat : ℤ) :: times.take 10).length / 2) 0 := by
    rw [getMedianTimePast, ancestors_of_pprev hprev, htimes, ← map_take, take_take]
    rfl
  have hpre := (le_median_iff hsome _).1 hold.le
  have hfewer := (take_sublist 10 times).countP_le (p := (· < pprev.getMedianTimePast))
  rw [hnew, le_median_iff (cons_ne_nil _ _),
    countP_cons_of_neg (by simpa using hlater.le), length_cons, length_take]
  omega

/-! ### Locks -/

section step

variable {pprev : CBlockIndex} {hash : Uint256} {time : UInt32} {tx : CTransaction}
  {fVerifySequence : Bool} {prevHeights : List ℤ}

/-- A block and the one on top have the same blocks below the coins. -/
theorem foldlM_lockInput_child {inputs : List (CTxIn × ℤ)} {locks found : ℤ × ℤ}
    (hf : inputs.foldlM (lockInput pprev) locks = some found) :
    inputs.foldlM (lockInput (child pprev hash time)) locks = some found := by
  induction inputs generalizing locks with
  | nil => exact hf
  | cons input inputs ih =>
    rw [foldlM_cons, Option.bind_eq_bind, Option.bind_eq_some_iff] at hf ⊢
    obtain ⟨mid, hmid, hrest⟩ := hf
    refine ⟨mid, ?_, ih hrest⟩
    rw [lockInput] at hmid ⊢
    split_ifs at hmid ⊢
    · exact hmid
    · obtain ⟨below, hbelow, rfl⟩ := Option.map_eq_some_iff.1 hmid
      have hle : (input.2 - 1).toNat ≤ pprev.nHeight := by
        by_contra hhigh
        rw [getAncestor_of_lt (not_le.1 hhigh)] at hbelow
        cases hbelow
      rw [getAncestor_child hle, hbelow]
      rfl
    · exact hmid

theorem sequenceLocks_child
    (hmedian : ∀ below ∈ pprev.pprev, below.getMedianTimePast ≤ pprev.getMedianTimePast)
    (hlocks : sequenceLocks tx fVerifySequence prevHeights pprev = some true) :
    sequenceLocks tx fVerifySequence prevHeights (child pprev hash time) = some true := by
  obtain ⟨locks, hcalculate, hevaluate⟩ := Option.bind_eq_some_iff.1 hlocks
  obtain ⟨below, hbelow, hpassed⟩ := Option.map_eq_some_iff.1 hevaluate
  obtain ⟨hheight, htime⟩ := of_decide_eq_true hpassed
  refine Option.bind_eq_some_iff.2 ⟨locks, ?_, congrArg some (decide_eq_true ⟨?_, ?_⟩)⟩
  · rw [calculateSequenceLocks] at hcalculate ⊢
    split_ifs at hcalculate ⊢
    · exact foldlM_lockInput_child hcalculate
    · exact hcalculate
  · exact hheight.trans (by rw [nHeight]; omega)
  · exact htime.trans_le (hmedian below hbelow)

theorem isFinalIn_child
    (hmedian : ∀ below ∈ pprev.pprev, below.getMedianTimePast ≤ pprev.getMedianTimePast)
    (hfinal : isFinalIn tx pprev = true) : isFinalIn tx (child pprev hash time) = true := by
  obtain ⟨below, hbelow, hthen⟩ := (Option.any_eq_true ..).1 hfinal
  have hle := hmedian below hbelow
  refine (Option.any_eq_true ..).2 ⟨pprev, rfl, ?_⟩
  simp only [isFinalTx, Bool.or_eq_true, decide_eq_true_eq] at hthen ⊢
  refine hthen.imp_left (Or.imp_right fun hlocked => ?_)
  rw [nHeight]
  split at hlocked <;> omega

end step

/-- Along a chain of blocks that are each later than the median time before them, the median
time does not go back, and what is final or unlocked for a block is so for all later ones. -/
theorem finality_monotone {low tip : CBlockIndex}
    (hchain : ∀ block ∈ tip.ancestors, ∀ pprev ∈ block.pprev,
      pprev.getMedianTimePast < block.nTime.toNat) (hlow : low ∈ tip.ancestors) :
    low.getMedianTimePast ≤ tip.getMedianTimePast ∧
      ∀ tx, (isFinalIn tx low = true → isFinalIn tx tip = true) ∧
        ∀ fVerifySequence prevHeights,
          sequenceLocks tx fVerifySequence prevHeights low = some true →
            sequenceLocks tx fVerifySequence prevHeights tip = some true := by
  induction tip, hlow using ancestors_induction with
  | self => exact ⟨le_rfl, fun tx => ⟨id, fun _ _ => id⟩⟩
  | child pprev hash time hbelow ih =>
    obtain ⟨hle, hkept⟩ := ih (forall_mem_cons.1 hchain).2
    have hmedian : ∀ below ∈ pprev.pprev, below.getMedianTimePast ≤ pprev.getMedianTimePast :=
      fun below hprev => getMedianTimePast_le_of_pprev hprev
        (hchain pprev (mem_cons_of_mem _ (ancestors_self pprev)) below hprev)
    refine ⟨hle.trans (getMedianTimePast_le_of_pprev rfl (hchain _ (ancestors_self _) _ rfl)),
      fun tx => ⟨fun hfinal => isFinalIn_child hmedian ((hkept tx).1 hfinal), ?_⟩⟩
    exact fun _ _ hlocks => sequenceLocks_child hmedian ((hkept tx).2 _ _ hlocks)

namespace FinalityWitness

def low : CBlockIndex := .child (.genesis (hashOf 1) 5) (hashOf 2) 9

def tip : CBlockIndex := .child low (hashOf 3) 10

theorem finality_monotone_three_blocks :
    low.getMedianTimePast ≤ tip.getMedianTimePast ∧
      ∀ tx, (isFinalIn tx low = true → isFinalIn tx tip = true) ∧
        ∀ fVerifySequence prevHeights,
          sequenceLocks tx fVerifySequence prevHeights low = some true →
            sequenceLocks tx fVerifySequence prevHeights tip = some true :=
  finality_monotone (by decide) (by decide)

end FinalityWitness

end Catoshi
