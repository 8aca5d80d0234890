/-
The orders of the memory pool (`txmempool.h`) and the miner (`miner.h`), their double arithmetic
read as exact.
-/
import Catoshi.Mempool
import Catoshi.Lib.ByteOrder

namespace Catoshi

/-- `operator<` of hashes compares their bytes. -/
def Uint256.less (a b : Uint256) : Bool := decide (a.data < b.data)

/-- An entry with positive totals of sizes, as its own is. -/
structure SizedEntry extends CTxMemPoolEntry where
  descendants_pos : 0 < nSizeWithDescendants
  ancestors_pos : 0 < nSizeWithAncestors

/-- The miner's copy of an entry's totals, without parents in the block. -/
structure CTxMemPoolModifiedEntry where
  iter : CTxMemPoolEntry
  nSizeWithAncestors : ℤ
  nModFeesWithAncestors : CAmount
  size_pos : 0 < nSizeWithAncestors

namespace SizedEntry

section

variable (a : SizedEntry)

def useDescendantScore : Bool :=
  let f1 := a.getModifiedFee * a.nSizeWithDescendants
  let f2 := a.nModFeesWithDescendants * a.nTxSize
  decide (f2 > f1)

def scoreFee : CAmount :=
  if a.useDescendantScore then a.nModFeesWithDescendants else a.getModifiedFee

def scoreSize : ℤ :=
  if a.useDescendantScore then a.nSizeWithDescendants else a.nTxSize

/-- `CompareTxMemPoolEntryByDescendantScore`. -/
def compareByDescendantScore (a b : SizedEntry) : Bool :=
  let f1 := a.scoreFee * b.scoreSize
  let f2 := a.scoreSize * b.scoreFee
  if f1 = f2 then decide (a.nTime ≥ b.nTime) else decide (f1 < f2)

/-- `CompareTxMemPoolEntryByScore`. -/
def compareByScore (a b : SizedEntry) : Bool :=
  let f1 := a.getModifiedFee * b.nTxSize
  let f2 := b.getModifiedFee * a.nTxSize
  if f1 = f2 then b.getHash.less a.getHash else decide (f1 > f2)

/-- `CompareTxMemPoolEntryByAncestorFee`. -/
def compareByAncestorFee (a b : SizedEntry) : Bool :=
  let f1 := a.nModFeesWithAncestors * b.nSizeWithAncestors
  let f2 := a.nSizeWithAncestors * b.nModFeesWithAncestors
  if f1 = f2 then a.getHash.less b.getHash else decide (f1 > f2)

theorem scoreSize_pos : 0 < a.scoreSize := by
  rw [scoreSize]
  split
  · exact a.descendants_pos
  · exact a.nTxSize_pos

def score : ℚ := a.scoreFee / a.scoreSize

end

end SizedEntry

/-- `CompareModifiedEntry`, with `CompareIteratorByHash` on ties. -/
def CTxMemPoolModifiedEntry.compare (a b : CTxMemPoolModifiedEntry) : Bool :=
  let f1 := a.nModFeesWithAncestors * b.nSizeWithAncestors
  let f2 := b.nModFeesWithAncestors * a.nSizeWithAncestors
  if f1 = f2 then a.iter.getHash.less b.iter.getHash else decide (f1 > f2)

section Rates

variable {aFee bFee aSize bSize : ℤ} (ha : 0 < aSize) (hb : 0 < bSize)
include ha hb

theorem rate_lt_iff : (aFee / aSize : ℚ) < bFee / bSize ↔ aFee * bSize < bFee * aSize := by
  rw [div_lt_div_iff₀ (Int.cast_pos.2 ha) (Int.cast_pos.2 hb)]
  norm_cast

theorem rate_eq_iff : (aFee / aSize : ℚ) = bFee / bSize ↔ aFee * bSize = bFee * aSize := by
  rw [div_eq_div_iff (Int.cast_ne_zero.2 ha.ne') (Int.cast_ne_zero.2 hb.ne')]
  norm_cast

/-- The higher feerate first, then by hash. -/
theorem higher_rate_iff {α : Type} [LinearOrder α] {x y : α} {tie : Bool}
    (htie : tie = true ↔ x < y) :
    (if aFee * bSize = bFee * aSize then tie else decide (aFee * bSize > bFee * aSize)) = true ↔
      toLex (-(aFee / aSize : ℚ), x) < toLex (-(bFee / bSize : ℚ), y) := by
  rw [Prod.Lex.toLex_lt_toLex, neg_lt_neg_iff, neg_inj, rate_lt_iff hb ha, rate_eq_iff ha hb]
  split_ifs with heq
  · simp [heq, htie]
  · simp [heq]

end Rates

/-- Comparing keys of a linear order is strict weak. -/
theorem isStrictWeakOrder_of_key {α κ : Type} [LinearOrder κ] {compare : α → α → Bool} (key : α → κ)
    (hkey : ∀ a b, compare a b = true ↔ key a < key b) :
    IsStrictWeakOrder α fun a b => compare a b = true := by
  have hsame : (fun a b => compare a b = true) = Function.onFun (· < ·) key := by
    funext a b
    exact propext (hkey a b)
  have hless : IsStrictWeakOrder κ (· < ·) := isStrictWeakOrder_of_isOrderConnected
  rw [hsame]
  infer_instance

/-- Three of the comparisons are strict weak orders.  That by descendant score puts an entry
before itself, so it is one on no entries but the empty set; two entries come before each
other exactly if they have the same score and time. -/
theorem mempool_orders_strict_weak_iff (entries : Set SizedEntry) :
    (IsStrictWeakOrder entries (fun a b => a.1.compareByDescendantScore b = true) ↔ entries = ∅) ∧
      (∀ a b : SizedEntry,
        a.compareByDescendantScore b = true ∧ b.compareByDescendantScore a = true ↔
          a.score = b.score ∧ a.nTime = b.nTime) ∧
      IsStrictWeakOrder SizedEntry (fun a b => a.compareByScore b = true) ∧
      IsStrictWeakOrder SizedEntry (fun a b => a.compareByAncestorFee b = true) ∧
      IsStrictWeakOrder CTxMemPoolModifiedEntry (fun a b => a.compare b = true) := by
  have hboth (a b : SizedEntry) :
      a.compareByDescendantScore b = true ∧ b.compareByDescendantScore a = true ↔
        a.score = b.score ∧ a.nTime = b.nTime := by
    rw [SizedEntry.score, SizedEntry.score, rate_eq_iff a.scoreSize_pos b.scoreSize_pos]
    simp only [SizedEntry.compareByDescendantScore]
    grind
  refine ⟨⟨fun horder => ?_, ?_⟩, hboth, ?_, ?_, ?_⟩
  · apply Set.eq_empty_of_forall_notMem
    intro a ha
    exact horder.irrefl ⟨a, ha⟩ ((hboth a a).2 ⟨rfl, rfl⟩).1
  · rintro rfl
    exact isStrictWeakOrder_of_key (fun _ => ()) fun a => a.2.elim
  · apply isStrictWeakOrder_of_key fun a => toLex (-(a.getModifiedFee / a.nTxSize : ℚ),
      OrderDual.toDual a.getHash.data)
    exact fun a b => higher_rate_iff a.nTxSize_pos b.nTxSize_pos decide_eq_true_iff
  · apply isStrictWeakOrder_of_key fun a => toLex (-(a.nModFeesWithAncestors /
      a.nSizeWithAncestors : ℚ), a.getHash.data)
    intro a b
    rw [SizedEntry.compareByAncestorFee, mul_comm a.nSizeWithAncestors]
    exact higher_rate_iff a.ancestors_pos b.ancestors_pos decide_eq_true_iff
  · apply isStrictWeakOrder_of_key fun a => toLex (-(a.nModFeesWithAncestors /
      a.nSizeWithAncestors : ℚ), a.iter.getHash.data)
    exact fun a b => higher_rate_iff a.size_pos b.size_pos decide_eq_true_iff

namespace MempoolOrderWitness

def entry : SizedEntry where
  toCTxMemPoolEntry := .ofData ⟨⟨1, [], [], 0, ⟨List.replicate 32 1, rfl⟩, by decide⟩,
    BaseBlob.null 32, 0, 100, by decide, 0, false, 4⟩ ⟨0, 0, none⟩
  descendants_pos := by decide
  ancestors_pos := by decide

theorem before_itself : entry.compareByDescendantScore entry = true := rfl

end MempoolOrderWitness

end Catoshi
