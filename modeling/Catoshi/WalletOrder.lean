/-
`CWallet::ReorderTransactions` (`wallet/wallet.cpp`), which gives positions to an old wallet's
entries.
-/
import Catoshi.Lib.Outcome

namespace Catoshi

open Outcome List

/-- `TxPair`: a wallet transaction or an accounting entry. -/
inductive TxPair (Hash : Type)
  | wtx (hash : Hash)
  | acentry (nEntryNo : ℕ)
  deriving DecidableEq

/-- What `txByTime` holds; the time is `nTimeReceived` or `nTime`. -/
structure TxItem (Hash : Type) where
  nTime : ℤ
  pair : TxPair Hash
  nOrderPos : ℤ
  deriving DecidableEq

/-- `DB_LOAD_FAIL`, or arithmetic past `int64_t`, which is not defined. -/
inductive ReorderError
  | loadFail
  | overflow
  deriving DecidableEq

/-- The variables of the loop, and every item passed with its position now. -/
structure Reordering (Hash : Type) where
  nOrderPosNext : ℤ := 0
  nOrderPosOffsets : List ℤ := []
  passed : List (TxItem Hash × ℤ) := []
  deriving DecidableEq

variable {Hash : Type}

def TxItem.placed (item : TxItem Hash) : Bool := item.nOrderPos ≠ -1

/-- The old position behind the given ones not above it. -/
def shifted (offsets : List ℤ) (pos : ℤ) : ℤ := pos + offsets.countP (· ≤ pos)

/-- A round of the loop. `write` is whether the database stores the item. -/
def Reordering.round (write : TxPair Hash → ℤ → Bool) (state : Reordering Hash)
    (item : TxItem Hash) : Except ReorderError (Reordering Hash) :=
  if item.nOrderPos = -1 then do
    let pos := state.nOrderPosNext
    require (pos < 2 ^ 63 - 1) .overflow
    require (write item.pair pos) .loadFail
    return ⟨pos + 1, state.nOrderPosOffsets ++ [pos], state.passed ++ [(item, pos)]⟩
  else do
    let pos := shifted state.nOrderPosOffsets item.nOrderPos
    require (pos < 2 ^ 63 - 1) .overflow
    require (pos = item.nOrderPos || write item.pair pos) .loadFail
    return ⟨max state.nOrderPosNext (pos + 1), state.nOrderPosOffsets,
      state.passed ++ [(item, pos)]⟩

/-- A wallet whose entries have distinct positions, or -1. -/
structure WalletEntries (Hash : Type) where
  mapWallet : List (TxItem Hash)
  acentries : List (TxItem Hash)
  valid : ∀ item ∈ mapWallet ++ acentries, -1 ≤ item.nOrderPos
  distinct : (((mapWallet ++ acentries).filter (·.placed)).map (·.nOrderPos)).Nodup

namespace WalletEntries

/-- `multimap::insert` puts an item behind those of its time. -/
def txByTime (wallet : WalletEntries Hash) : List (TxItem Hash) :=
  (wallet.mapWallet ++ wallet.acentries).foldl
    (fun items item => items.orderedInsert (fun a b => a.nTime < b.nTime) item) []

end WalletEntries

/-- Above the last of the slots and above where the highest of the positions moves to. -/
def nextSlot (slots positions : List ℤ) : ℤ :=
  max (slots.headD (-1)) (shifted slots (positions.foldr max (-1))) + 1

/-- The slots that entries with these positions, the latest in front, call for: one for each -1. -/
def slotsFor : List ℤ → List ℤ
  | [] => []
  | pos :: earlier =>
    if pos = -1 then nextSlot (slotsFor earlier) earlier :: slotsFor earlier else slotsFor earlier

/-- No old position moves to a slot: with `k` slots up to it there is none `k` above it. -/
def WalletEntries.Apart (wallet : WalletEntries Hash) : Prop :=
  let slots := slotsFor (wallet.txByTime.map (·.nOrderPos)).reverse
  ∀ item ∈ wallet.mapWallet ++ wallet.acentries, item.placed →
    item.nOrderPos + slots.countP (· ≤ item.nOrderPos) ∉ slots

theorem shifted_lt (offsets : List ℤ) {pos other : ℤ} (hlt : pos < other) :
    shifted offsets pos < shifted offsets other := by
  have hcount : offsets.countP (· ≤ pos) ≤ offsets.countP (· ≤ other) := by
    apply countP_mono_left
    intro offset _ hle
    simp only [decide_eq_true_eq] at hle ⊢
    omega
  rw [shifted, shifted]
  omega

theorem shifted_append {offsets : List ℤ} {pos next : ℤ} (hlt : pos < next) :
    shifted (offsets ++ [next]) pos = shifted offsets pos := by
  simp [shifted, hlt]

theorem nextSlot_new (slots positions : List ℤ) :
    nextSlot (nextSlot slots positions :: slots) (-1 :: positions) =
      nextSlot slots positions + 1 := by
  have hpos : -1 ≤ positions.foldr max (-1) := by
    induction positions with
    | nil => rfl
    | cons pos positions ih => exact le_max_of_le_right ih
  have hlow : shifted slots (positions.foldr max (-1)) < nextSlot slots positions :=
    Int.lt_add_one_of_le (le_max_right _ _)
  rw [shifted] at hlow
  have habove : ¬nextSlot slots positions ≤ positions.foldr max (-1) := by omega
  rw [nextSlot, foldr_cons, max_eq_right hpos, headD_cons, shifted,
    countP_cons_of_neg (by simpa using habove), max_eq_left hlow.le]

theorem nextSlot_old (slots positions : List ℤ) (pos : ℤ) :
    nextSlot slots (pos :: positions) = max (nextSlot slots positions) (shifted slots pos + 1) := by
  have hstrict : StrictMono (shifted slots) := fun _ _ => shifted_lt slots
  have hmono := hstrict.monotone
  rw [nextSlot, nextSlot, foldr_cons, hmono.map_max]
  omega

/-- Positions handed out after an item was passed exceed its old one, so it stays where all handed
out would shift it. -/
structure Reordering.Sound (state : Reordering Hash) : Prop where
  nonneg : 0 ≤ state.nOrderPosNext
  bounded : ∀ entry ∈ state.passed, 0 ≤ entry.2 ∧ entry.2 < state.nOrderPosNext
  assigned : (state.passed.filter (!·.1.placed)).map (·.2) = state.nOrderPosOffsets
  nodup : state.nOrderPosOffsets.Nodup
  moved : ∀ entry ∈ state.passed, entry.1.placed →
    entry.2 = shifted state.nOrderPosOffsets entry.1.nOrderPos
  slots : slotsFor (state.passed.map (·.1.nOrderPos)).reverse = state.nOrderPosOffsets.reverse
  next : nextSlot state.nOrderPosOffsets.reverse (state.passed.map (·.1.nOrderPos)).reverse =
    state.nOrderPosNext

variable {state last : Reordering Hash} {item : TxItem Hash} {write : TxPair Hash → ℤ → Bool}

theorem Reordering.Sound.lt_next (hsound : state.Sound) {pos : ℤ}
    (hpos : pos ∈ state.nOrderPosOffsets) : pos < state.nOrderPosNext := by
  rw [← hsound.assigned] at hpos
  obtain ⟨entry, hent, rfl⟩ := mem_map.1 hpos
  exact (hsound.bounded entry (mem_filter.1 hent).1).2

theorem Reordering.Sound.round (hsound : state.Sound) (hitem : -1 ≤ item.nOrderPos)
    (hround : state.round write item = .ok last) :
    last.Sound ∧ last.passed.map (·.1) = state.passed.map (·.1) ++ [item] := by
  rw [Reordering.round] at hround
  have hnext := hsound.nonneg
  split_ifs at hround with hnew
  · obtain ⟨-, -, hround⟩ := bind_ok_iff.1 hround
    obtain ⟨-, -, hlast⟩ := bind_ok_iff.1 hround
    cases hlast
    refine ⟨⟨by simp only; omega, ?_, ?_, ?_, ?_, ?_, ?_⟩, by simp⟩
    · refine forall_mem_append.2 ⟨fun entry hent => ?_, by simpa using hnext⟩
      have hbound := hsound.bounded entry hent
      exact ⟨hbound.1, hbound.2.trans (lt_add_one _)⟩
    · rw [filter_append, map_append, hsound.assigned]
      simp [TxItem.placed, hnew]
    · apply nodup_append.2 ⟨hsound.nodup, nodup_singleton _, ?_⟩
      intro pos hpos other ho
      rw [mem_singleton.1 ho]
      exact (hsound.lt_next hpos).ne
    · refine forall_mem_append.2 ⟨fun entry hent hplaced => ?_, by simp [TxItem.placed, hnew]⟩
      have hbound := hsound.bounded entry hent
      have hmoved := hsound.moved entry hent hplaced
      rw [hmoved, shifted_append]
      rw [shifted] at hmoved
      omega
    · simp [slotsFor, hnew, hsound.slots, hsound.next]
    · rw [← hsound.next]
      simp [hnew, nextSlot_new]
  · obtain ⟨-, -, hround⟩ := bind_ok_iff.1 hround
    obtain ⟨-, -, hlast⟩ := bind_ok_iff.1 hround
    cases hlast
    have hpos : item.nOrderPos ≤ shifted state.nOrderPosOffsets item.nOrderPos := by
      rw [shifted]
      omega
    refine ⟨⟨le_max_of_le_left hnext, ?_, ?_, hsound.nodup, ?_, ?_, ?_⟩, by simp⟩
    · refine forall_mem_append.2 ⟨fun entry hent => ?_, forall_mem_singleton.2 ?_⟩
      · have hbound := hsound.bounded entry hent
        exact ⟨hbound.1, lt_max_of_lt_left hbound.2⟩
      · exact ⟨by omega, lt_max_of_lt_right (by simp)⟩
    · rw [filter_append, map_append, hsound.assigned]
      simp [TxItem.placed, hnew]
    · exact forall_mem_append.2 ⟨hsound.moved, forall_mem_singleton.2 fun _ => rfl⟩
    · simp [slotsFor, hnew, hsound.slots]
    · rw [← hsound.next]
      simp [nextSlot_old, shifted]

theorem Reordering.Sound.rounds {items : List (TxItem Hash)} (hsound : state.Sound)
    (hitems : ∀ item ∈ items, -1 ≤ item.nOrderPos)
    (hloop : items.foldlM (Reordering.round write) state = .ok last) :
    last.Sound ∧ last.passed.map (·.1) = state.passed.map (·.1) ++ items := by
  induction items generalizing state with
  | nil =>
    cases hloop
    exact ⟨hsound, by simp⟩
  | cons item items ih =>
    obtain ⟨hitem, hrest⟩ := forall_mem_cons.1 hitems
    obtain ⟨next, hround, hloop⟩ := bind_ok_iff.1 hloop
    obtain ⟨hnext, hpassed⟩ := hsound.round hitem hround
    obtain ⟨hlast, hall⟩ := ih hnext hrest hloop
    exact ⟨hlast, by rw [hall, hpassed, append_assoc, singleton_append]⟩

/-- The items have distinct positions below the next one, and those that had one keep their order.
-/
structure Reordering.Ordered (wallet : WalletEntries Hash) (state : Reordering Hash) : Prop where
  all : (state.passed.map (·.1)).Perm (wallet.mapWallet ++ wallet.acentries)
  bounded : ∀ entry ∈ state.passed, 0 ≤ entry.2 ∧ entry.2 < state.nOrderPosNext
  distinct : (state.passed.map (·.2)).Nodup
  kept : ∀ entry ∈ state.passed, ∀ other ∈ state.passed, entry.1.placed → other.1.placed →
    entry.1.nOrderPos < other.1.nOrderPos → entry.2 < other.2

theorem Reordering.Sound.nodup_iff (hsound : state.Sound)
    (hold : ((state.passed.filter (·.1.placed)).map (·.1.nOrderPos)).Nodup) :
    (state.passed.map (·.2)).Nodup ↔
      ∀ entry ∈ state.passed, entry.1.placed → entry.2 ∉ state.nOrderPosOffsets := by
  have hsplit := (filter_append_perm (fun entry => entry.1.placed) state.passed).map (·.2)
  have hmoved : (state.passed.filter (·.1.placed)).map (·.2) =
      ((state.passed.filter (·.1.placed)).map (·.1.nOrderPos)).map
        (shifted state.nOrderPosOffsets) := by
    rw [map_map]
    apply map_congr_left
    intro entry hent
    obtain ⟨hent, hplaced⟩ := mem_filter.1 hent
    exact hsound.moved entry hent hplaced
  rw [← hsplit.nodup_iff, map_append, hsound.assigned, nodup_append]
  have hdist : ((state.passed.filter (·.1.placed)).map (·.2)).Nodup := by
    rw [hmoved]
    apply hold.map
    intro pos other hsame
    rcases lt_trichotomy pos other with hlt | heq | hlt
    · exact absurd hsame (shifted_lt _ hlt).ne
    · exact heq
    · exact absurd hsame (shifted_lt _ hlt).ne'
  constructor
  · rintro ⟨-, -, hapart⟩ entry hent hplaced hmem
    exact hapart entry.2 (mem_map_of_mem (mem_filter.2 ⟨hent, hplaced⟩)) entry.2 hmem rfl
  · intro hapart
    refine ⟨hdist, hsound.nodup, fun pos hpos other ho heq => ?_⟩
    obtain ⟨entry, hent, rfl⟩ := mem_map.1 hpos
    obtain ⟨hent, hplaced⟩ := mem_filter.1 hent
    exact hapart entry hent hplaced (heq ▸ ho)

namespace WalletOrderWitness

/-- An entry at position 0 and an earlier one without. -/
def wallet : WalletEntries ℕ where
  mapWallet := [⟨1, .wtx 0, -1⟩, ⟨2, .wtx 1, 0⟩]
  acentries := []
  valid := by decide
  distinct := by decide

end WalletOrderWitness

end Catoshi
