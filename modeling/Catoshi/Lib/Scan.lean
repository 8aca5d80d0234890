/-
Range scans over a sorted list. The scan finds a range exactly if the test stops it at the first
record past it.
-/
import Mathlib.Data.List.Lex
import Mathlib.Tactic

namespace Scan

open List

universe u v

variable {α : Type u} {K : Type v} [LinearOrder K] {key : α → K}

/-- The list is strictly ascending in its keys. -/
def Ascending (key : α → K) (records : List α) : Prop :=
  records.Pairwise fun first second => key first < key second

/-- The records from the first not below a key on. -/
def seek (key : α → K) (low : K) (records : List α) : List α :=
  records.dropWhile fun record => decide (key record < low)

section

variable {records : List α}

/-- In a sorted list seeking drops the records below the key. -/
theorem seek_eq_filter (hsort : Ascending key records) (low : K) :
    seek key low records = records.filter fun record => decide (low ≤ key record) := by
  induction records with
  | nil => rfl
  | cons head tail ih =>
    obtain ⟨habove, htail⟩ := pairwise_cons.1 hsort
    rw [seek, dropWhile_cons]
    by_cases hlow : key head < low
    · rw [if_pos (by simpa using hlow), filter_cons_of_neg (by simpa using hlow)]
      exact ih htail
    · have hall : ∀ record ∈ tail, decide (low ≤ key record) = true := fun record hmem =>
        decide_eq_true ((not_lt.1 hlow).trans (habove record hmem).le)
      rw [if_neg (by simpa using hlow), filter_cons_of_pos (by simpa using hlow),
        filter_eq_self.2 hall]

/-- A record is taken if it and all below pass the test. -/
theorem mem_takeWhile (hsort : Ascending key records) {takes : α → Bool}
    {record : α} (hmem : record ∈ records) (htaken : takes record)
    (hbelow : ∀ other ∈ records, key other < key record → takes other) :
    record ∈ records.takeWhile takes := by
  induction records with
  | nil => cases hmem
  | cons head tail ih =>
    obtain ⟨habove, htail⟩ := pairwise_cons.1 hsort
    rcases mem_cons.1 hmem with rfl | hrest
    · rw [takeWhile_cons_of_pos htaken]
      exact mem_cons_self
    · rw [takeWhile_cons_of_pos (hbelow head mem_cons_self (habove record hrest))]
      apply mem_cons_of_mem
      exact ih htail hrest (forall_mem_cons.1 hbelow).2

/-- The test takes exactly an initial range just if it fails on the first record past it. -/
theorem takeWhile_eq_filter_iff (hsort : Ascending key records)
    {takes wanted : α → Bool} (htakes : ∀ record ∈ records, wanted record → takes record)
    (hinitial : ∀ record ∈ records, wanted record →
      ∀ other ∈ records, key other < key record → wanted other) :
    records.takeWhile takes = records.filter wanted ↔
      ∀ record ∈ records, ¬ wanted record →
        (∀ other ∈ records, key other < key record → wanted other) → ¬ takes record := by
  induction records with
  | nil => simp
  | cons head tail ih =>
    obtain ⟨habove, htail⟩ := pairwise_cons.1 hsort
    by_cases hwant : wanted head
    · have hbelow := ih htail (forall_mem_cons.1 htakes).2
        (fun record hmem hrecord other ho => hinitial record (mem_cons_of_mem _ hmem)
          hrecord other (mem_cons_of_mem _ ho))
      rw [takeWhile_cons_of_pos (htakes head mem_cons_self hwant),
        filter_cons_of_pos hwant, List.cons.injEq, eq_self, hbelow]
      simp [hwant]
    · have hno : tail.filter wanted = [] := by
        refine filter_eq_nil_iff.2 fun record hmem hrecord => hwant ?_
        exact hinitial record (mem_cons_of_mem _ hmem) hrecord head mem_cons_self
          (habove record hmem)
      rw [filter_cons_of_neg hwant, hno]
      constructor
      · intro hempty record hmem hrecord hfst
        rcases mem_cons.1 hmem with rfl | hbelow
        · intro htaken
          rw [takeWhile_cons_of_pos htaken] at hempty
          cases hempty
        · exact absurd (hfst head mem_cons_self (habove record hbelow)) hwant
      · intro hstops
        refine takeWhile_cons_of_neg (hstops head mem_cons_self hwant ?_)
        intro other ho hless
        rcases mem_cons.1 ho with rfl | hbelow
        · exact absurd hless (lt_irrefl _)
        · exact absurd hless (habove other hbelow).asymm

/-- The first record past a range from a key: it is outside, and all before it are inside. -/
def FirstPast (key : α → K) (records : List α) (low : K) (wanted : α → Bool) (record : α) :
    Prop :=
  record ∈ records ∧ low ≤ key record ∧ ¬ wanted record ∧
    ∀ other ∈ records, low ≤ key other → key other < key record → wanted other

/-- The scan takes the first record past the range if it passes. -/
theorem FirstPast.mem_scan (hsort : Ascending key records) {low : K}
    {takes wanted : α → Bool} {record : α} (hpast : FirstPast key records low wanted record)
    (htakes : ∀ other, wanted other → takes other) (htaken : takes record) :
    record ∈ (seek key low records).takeWhile takes := by
  obtain ⟨hmem, hlow, -, hpre⟩ := hpast
  rw [seek_eq_filter hsort]
  apply mem_takeWhile (hsort.sublist filter_sublist) (by simp [hmem, hlow]) htaken
  intro other ho hless
  obtain ⟨ho, hlowest⟩ := mem_filter.1 ho
  exact htakes other (hpre other ho (of_decide_eq_true hlowest) hless)

/-- A scan finds a range exactly just if the test fails on the first record past it. -/
theorem scan_eq_filter_iff (hsort : Ascending key records) {low : K}
    {takes wanted : α → Bool} (htakes : ∀ record ∈ records, wanted record → takes record)
    (hlow : ∀ record ∈ records, wanted record → low ≤ key record)
    (hinitial : ∀ record ∈ records, wanted record →
      ∀ other ∈ records, low ≤ key other → key other < key record → wanted other) :
    (seek key low records).takeWhile takes = records.filter wanted ↔
      ∀ record, FirstPast key records low wanted record → ¬ takes record := by
  have hmem : ∀ record, record ∈ seek key low records ↔ record ∈ records ∧ low ≤ key record := by
    simp [seek_eq_filter hsort]
  have hsorted' : Ascending key (seek key low records) :=
    List.Pairwise.sublist (dropWhile_sublist _) hsort
  have hfilter : records.filter wanted = (seek key low records).filter wanted := by
    rw [seek_eq_filter hsort, filter_filter]
    refine filter_congr fun record hrecord => ?_
    cases hwant : wanted record with
    | false => rfl
    | true => simp [hlow record hrecord hwant]
  rw [hfilter, takeWhile_eq_filter_iff hsorted']
  · simp only [hmem, FirstPast, and_imp]
  · intro record hrecord
    exact htakes record ((hmem record).1 hrecord).1
  · intro record hrecord hwant other ho
    obtain ⟨ho, hlowest⟩ := (hmem other).1 ho
    exact hinitial record ((hmem record).1 hrecord).1 hwant other ho hlowest

end

end Scan
