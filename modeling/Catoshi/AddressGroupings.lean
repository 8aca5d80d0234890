/-
`CWallet::GetAddressGroupings` (`wallet/wallet.cpp`): addresses that occur together are merged into
groups.
-/
import Mathlib.Tactic

namespace Catoshi

open Finset

/-- What `GetAddressGroupings` asks the wallet: its transactions, which inputs and outputs are its
own or change, and their destinations. -/
structure GroupingWallet (TxIn TxOut Dest : Type) where
  mapWallet : List (List TxIn × List TxOut)
  isMine : TxIn → Bool
  isMineOut : TxOut → Bool
  isChange : TxOut → Bool
  spentDestination : TxIn → Option Dest
  destination : TxOut → Option Dest

/-- The sets so far by their addresses in memory, and the map to the set of each address. -/
structure Merging (Dest : Type) where
  next : ℕ := 0
  heap : ℕ → Finset Dest := fun _ => ∅
  uniqueGroupings : Finset ℕ := ∅
  setmap : Dest → Option ℕ := fun _ => none

variable {TxIn TxOut Dest : Type} [DecidableEq Dest]

namespace GroupingWallet

variable (wallet : GroupingWallet TxIn TxOut Dest)

/-- The addresses of the inputs and, if any, of the change. -/
def inputGrouping (tx : List TxIn × List TxOut) : Finset Dest :=
  let grouping := ((tx.1.filter wallet.isMine).filterMap wallet.spentDestination).toFinset
  if grouping = ∅ then ∅
  else grouping ∪ ((tx.2.filter wallet.isChange).filterMap wallet.destination).toFinset

def groupings : Finset (Finset Dest) :=
  (wallet.mapWallet.flatMap fun tx => wallet.inputGrouping tx ::
    ((tx.2.filter wallet.isMineOut).filterMap wallet.destination).map ({·})).toFinset.erase ∅

end GroupingWallet

namespace Merging

variable (state : Merging Dest) (grouping : Finset Dest)

def hits : Finset ℕ := grouping.biUnion fun address => (state.setmap address).toFinset

def merged : Finset Dest := grouping ∪ (state.hits grouping).biUnion state.heap

/-- A group is merged with the sets it hits, which go away. -/
def merge : Merging Dest where
  next := state.next + 1
  heap := Function.update state.heap state.next (state.merged grouping)
  uniqueGroupings := insert state.next (state.uniqueGroupings \ state.hits grouping)
  setmap address := if address ∈ state.merged grouping then some state.next
    else state.setmap address

def result : Finset (Finset Dest) := state.uniqueGroupings.image state.heap

end Merging

/-- `order` is the order of the loop over the groups. -/
def getAddressGroupings (order : List (Finset Dest)) : Finset (Finset Dest) :=
  (order.foldl Merging.merge {}).result

/-- A chain of addresses, each in a group with the next. -/
inductive Linked (groups : Finset (Finset Dest)) : Dest → Dest → Prop
  | together {group a b} (hgroup : group ∈ groups) (ha : a ∈ group) (hb : b ∈ group) :
    Linked groups a b
  | trans {a b c} (hfst : Linked groups a b) (hsnd : Linked groups b c) : Linked groups a c

variable {groups : Finset (Finset Dest)} {group : Finset Dest} {a b : Dest}

theorem Linked.insert (hlinked : Linked groups a b) : Linked (insert group groups) a b := by
  induction hlinked with
  | together hgroup ha hb => exact .together (mem_insert_of_mem hgroup) ha hb
  | trans _ _ hfst hsnd => exact .trans hfst hsnd

omit [DecidableEq Dest] in
theorem Linked.symm (hlinked : Linked groups a b) : Linked groups b a := by
  induction hlinked with
  | together hgroup ha hb => exact .together hgroup hb ha
  | trans _ _ hfst hsnd => exact .trans hsnd hfst

namespace Merging

/-- An address is mapped to the set that has it, and the sets are the classes of addresses the
groups link. -/
structure Sound (groups : Finset (Finset Dest)) (state : Merging Dest) : Prop where
  made : ∀ set ∈ state.uniqueGroupings, set < state.next ∧ (state.heap set).Nonempty
  mapped : ∀ a set, state.setmap a = some set ↔ set ∈ state.uniqueGroupings ∧ a ∈ state.heap set
  classes : ∀ a b, (∃ set ∈ state.uniqueGroupings, a ∈ state.heap set ∧ b ∈ state.heap set) ↔
    Linked groups a b

variable {state : Merging Dest} {set other : ℕ}

theorem heap_next : (state.merge group).heap state.next = state.merged group :=
  Function.update_self ..

section

variable (hsound : state.Sound groups)

include hsound

omit [DecidableEq Dest] in
theorem Sound.eq_of_mem (hset : set ∈ state.uniqueGroupings) (ha : a ∈ state.heap set)
    (hother : other ∈ state.uniqueGroupings) (ha' : a ∈ state.heap other) : set = other := by
  have heq := (hsound.mapped a set).2 ⟨hset, ha⟩
  rw [(hsound.mapped a other).2 ⟨hother, ha'⟩] at heq
  exact (Option.some.inj heq).symm

omit [DecidableEq Dest] in
theorem Sound.mem_hits : set ∈ state.hits group ↔
    ∃ a ∈ group, set ∈ state.uniqueGroupings ∧ a ∈ state.heap set := by
  simp [hits, hsound.mapped]

/-- A set is merged as a whole or not at all. -/
theorem Sound.mem_merged_iff (hset : set ∈ state.uniqueGroupings) (ha : a ∈ state.heap set) :
    a ∈ state.merged group ↔ set ∈ state.hits group := by
  rw [merged, mem_union, mem_biUnion]
  constructor
  · rintro (hgroup | ⟨other, hhit, hmem⟩)
    · exact hsound.mem_hits.2 ⟨a, hgroup, hset, ha⟩
    · obtain ⟨-, -, hother, -⟩ := hsound.mem_hits.1 hhit
      exact hsound.eq_of_mem hset ha hother hmem ▸ hhit
  · exact fun hhit => .inr ⟨set, hhit, ha⟩

theorem Sound.linked_of_mem (ha : a ∈ state.merged group) :
    ∃ b ∈ group, Linked (insert group groups) a b := by
  rcases mem_union.1 ha with ha | hold
  · exact ⟨a, ha, .together (mem_insert_self _ _) ha ha⟩
  · obtain ⟨set, hhit, ha⟩ := mem_biUnion.1 hold
    obtain ⟨b, hgroup, hset, hb⟩ := hsound.mem_hits.1 hhit
    exact ⟨b, hgroup, ((hsound.classes a b).1 ⟨set, hset, ha, hb⟩).insert⟩

theorem Sound.heap_merge (hset : set ∈ state.uniqueGroupings) :
    (state.merge group).heap set = state.heap set :=
  Function.update_of_ne (hsound.made set hset).1.ne _ _

theorem Sound.mapped_merge (a : Dest) (set : ℕ) : (state.merge group).setmap a = some set ↔
    set ∈ (state.merge group).uniqueGroupings ∧ a ∈ (state.merge group).heap set := by
  change (if a ∈ state.merged group then some state.next else state.setmap a) = some set ↔
    set ∈ insert state.next (state.uniqueGroupings \ state.hits group) ∧ _
  rw [mem_insert, mem_sdiff]
  split_ifs with hmem
  · rw [Option.some.injEq]
    constructor
    · rintro rfl
      rw [heap_next]
      exact ⟨.inl rfl, hmem⟩
    · rintro ⟨rfl | ⟨hset, hmiss⟩, ha⟩
      · rfl
      · rw [hsound.heap_merge hset] at ha
        exact absurd ((hsound.mem_merged_iff hset ha).1 hmem) hmiss
  · rw [hsound.mapped]
    constructor
    · rintro ⟨hset, ha⟩
      rw [hsound.heap_merge hset, ← hsound.mem_merged_iff hset ha]
      exact ⟨.inr ⟨hset, hmem⟩, ha⟩
    · rintro ⟨rfl | ⟨hset, -⟩, ha⟩
      · rw [heap_next] at ha
        exact absurd ha hmem
      · exact ⟨hset, hsound.heap_merge hset ▸ ha⟩

theorem Sound.merge (hgroup : group.Nonempty) :
    (state.merge group).Sound (insert group groups) := by
  have hsub : group ⊆ state.merged group := subset_union_left
  have hnext : state.next ∈ (state.merge group).uniqueGroupings := mem_insert_self _ _
  refine ⟨fun set hset => ?_, hsound.mapped_merge, fun a b => ⟨?_, fun hlinked => ?_⟩⟩
  · rcases mem_insert.1 hset with rfl | hold
    · rw [heap_next]
      exact ⟨Nat.lt_succ_self _, hgroup.mono hsub⟩
    · have hset := (mem_sdiff.1 hold).1
      obtain ⟨hlt, hsome⟩ := hsound.made set hset
      exact ⟨Nat.lt_succ_of_lt hlt, hsound.heap_merge hset ▸ hsome⟩
  · rintro ⟨set, hset, ha, hb⟩
    rcases mem_insert.1 hset with rfl | hold
    · rw [heap_next] at ha hb
      obtain ⟨x, hx, hax⟩ := hsound.linked_of_mem ha
      obtain ⟨y, hy, hby⟩ := hsound.linked_of_mem hb
      exact hax.trans (.trans (.together (mem_insert_self _ _) hx hy) hby.symm)
    · have hset := (mem_sdiff.1 hold).1
      rw [hsound.heap_merge hset] at ha hb
      exact ((hsound.classes a b).1 ⟨set, hset, ha, hb⟩).insert
  · induction hlinked with
    | @together other a b hother ha hb =>
      rcases mem_insert.1 hother with rfl | hold
      · refine ⟨state.next, hnext, ?_⟩
        rw [heap_next]
        exact ⟨hsub ha, hsub hb⟩
      · -- an old group is in one set, which is merged or kept
        obtain ⟨set, hset, ha, hb⟩ := (hsound.classes a b).2 (.together hold ha hb)
        by_cases hhit : set ∈ state.hits group
        · refine ⟨state.next, hnext, ?_⟩
          rw [heap_next, hsound.mem_merged_iff hset ha, hsound.mem_merged_iff hset hb]
          exact ⟨hhit, hhit⟩
        · refine ⟨set, mem_insert_of_mem (mem_sdiff.2 ⟨hset, hhit⟩), ?_⟩
          rw [hsound.heap_merge hset]
          exact ⟨ha, hb⟩
    | trans _ _ hfst hsnd =>
      obtain ⟨set, hset, ha, hb⟩ := hfst
      obtain ⟨other, hother, hb', hc⟩ := hsnd
      have heq := (hsound.mapped_merge _ _).2 ⟨hset, hb⟩
      rw [(hsound.mapped_merge _ _).2 ⟨hother, hb'⟩, Option.some.injEq] at heq
      exact ⟨set, hset, ha, heq ▸ hc⟩

theorem Sound.foldl_merge {order : List (Finset Dest)} (horder : ∀ group ∈ order, group.Nonempty) :
    (order.foldl Merging.merge state).Sound (order.toFinset ∪ groups) := by
  induction order generalizing state groups with
  | nil => simpa using hsound
  | cons group order ih =>
    obtain ⟨hgroup, hrest⟩ := List.forall_mem_cons.1 horder
    have hall := ih (hsound.merge hgroup) hrest
    rwa [union_insert, ← insert_union, ← List.toFinset_cons] at hall

end

end Merging

/-- The sets returned are the classes of the addresses linked by the groups collected. -/
theorem getAddressGroupings_partition (wallet : GroupingWallet TxIn TxOut Dest)
    (order : List (Finset Dest)) (horder : order.toFinset = wallet.groupings) :
    (∀ set ∈ getAddressGroupings order, set.Nonempty) ∧
      (getAddressGroupings order : Set (Finset Dest)).PairwiseDisjoint id ∧
      ∀ a b, (∃ set ∈ getAddressGroupings order, a ∈ set ∧ b ∈ set) ↔
        Linked wallet.groupings a b := by
  have hgroups : ∀ group ∈ order, group.Nonempty := by
    intro group hgroup
    rw [← List.mem_toFinset, horder] at hgroup
    exact nonempty_iff_ne_empty.2 (mem_erase.1 hgroup).1
  have hstart : Merging.Sound ∅ ({} : Merging Dest) := by
    refine ⟨nofun, fun a set => ⟨nofun, nofun⟩, fun a b => ⟨nofun, fun hlinked => ?_⟩⟩
    induction hlinked with
    | together hgroup => exact absurd hgroup (notMem_empty _)
    | trans _ _ hfst => exact hfst.elim nofun
  have hsound := hstart.foldl_merge hgroups
  rw [union_empty, horder] at hsound
  refine ⟨forall_mem_image.2 fun set hset => (hsound.made set hset).2, ?_, fun a b => ?_⟩
  · rw [getAddressGroupings, Merging.result, coe_image]
    rintro _ ⟨set, hset, rfl⟩ _ ⟨other, hother, rfl⟩ hne
    refine disjoint_left.2 fun a ha ha' => hne ?_
    rw [hsound.eq_of_mem hset ha hother ha']
  · rw [getAddressGroupings, Merging.result, exists_mem_image, hsound.classes]

namespace GroupingWitness

/-- Three outputs are spent in pairs; inputs and outputs are the addresses. -/
def wallet : GroupingWallet ℕ ℕ ℕ where
  mapWallet := [([1, 2], [7]), ([2, 3], [8]), ([5], [6])]
  isMine address := address < 5
  isMineOut address := address == 6
  isChange address := address == 7
  spentDestination := some
  destination := some

theorem chained : Linked wallet.groupings 7 3 :=
  ((getAddressGroupings_partition wallet [{2, 3}, {6}, {1, 2, 7}] (by decide)).2.2 7 3).1
    ⟨{1, 2, 3, 7}, by decide, by decide, by decide⟩

end GroupingWitness

end Catoshi
