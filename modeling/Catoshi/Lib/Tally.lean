/-
How many rows of a table pass a test, and how many slots hold a value.
-/
import Catoshi.Lib.Table
import Mathlib.Algebra.BigOperators.Pi
import Mathlib.Algebra.Order.BigOperators.Group.Finset
import Mathlib.Tactic

namespace Slots

open Finset Function

universe u v w

variable {P : Type u} {V : Type v} [Fintype P]

/-- A sum over slots changes by what one is given. -/
theorem sum_update {M : Type w} [AddCommMonoid M] [DecidableEq P] (share : V → M) (slots : P → V)
    (slot : P) (next : V) :
    (∑ other, share (update slots slot next other)) + share (slots slot) =
      (∑ other, share (slots other)) + share next := by
  have hnext := add_sum_erase univ
    (fun other => share (update slots slot next other)) (mem_univ slot)
  have hpre := add_sum_erase univ (fun other => share (slots other)) (mem_univ slot)
  have hothers : ∑ other ∈ univ.erase slot,
      share (update slots slot next other) = ∑ other ∈ univ.erase slot, share (slots other) := by
    apply sum_congr rfl
    intro other ho
    rw [update_of_ne (ne_of_mem_erase ho)]
  rw [← hnext, ← hpre, hothers]
  simp only [update_self]
  abel

variable [DecidableEq V]

def count (slots : P → V) (value : V) : ℤ :=
  ∑ slot, if slots slot = value then 1 else 0

/-- One slot more or less. -/
theorem count_update [DecidableEq P] (slots : P → V) (slot : P) (next value : V) :
    count (update slots slot next) value + (if slots slot = value then 1 else 0) =
      count slots value + if next = value then 1 else 0 :=
  sum_update (fun held => if held = value then (1 : ℤ) else 0) slots slot next

theorem count_eq_card (slots : P → V) (value : V) :
    count slots value = (univ.filter fun slot => slots slot = value).card := by
  rw [count, sum_boole]

theorem count_nonneg (slots : P → V) (value : V) : 0 ≤ count slots value := by
  rw [count_eq_card]
  exact Nat.cast_nonneg _

variable {slots : P → V} {value : V}

theorem count_pos {slot : P} (hslot : slots slot = value) : 0 < count slots value := by
  rw [count_eq_card, Nat.cast_pos]
  exact card_pos.2 ⟨slot, mem_filter.2 ⟨mem_univ slot, hslot⟩⟩

theorem count_eq_zero (hno : ∀ slot, slots slot ≠ value) : count slots value = 0 := by
  rw [count_eq_card, Nat.cast_eq_zero]
  exact card_eq_zero.2 (filter_eq_empty_iff.2 fun slot _ => hno slot)

theorem count_eq_countP {order : List P} (hnd : order.Nodup) (hall : ∀ slot, slot ∈ order)
    (slots : P → V) (value : V) :
    count slots value = (order.countP fun slot => slots slot = value : ℕ) := by
  classical
  have hfilter : (univ.filter fun slot => slots slot = value) =
      (order.filter fun slot => slots slot = value).toFinset := by
    ext slot
    simp [hall slot]
  rw [count_eq_card, hfilter, List.toFinset_card_of_nodup (hnd.filter _),
    List.countP_eq_length_filter]

end Slots

namespace Table

open List

universe u v

variable {K : Type u} {V : Type v} [DecidableEq K]

/-- The number of rows whose value passes the test. -/
def tally (test : V → Bool) (table : Rows K V) : ℕ :=
  table.entries.countP fun row => test row.2

/-- What one key contributes to the tally. -/
def share (test : V → Bool) (table : Rows K V) (key : K) : ℕ :=
  (table.lookup key).elim 0 fun value => (test value).toNat

omit [DecidableEq K] in
@[simp] theorem tally_empty (test : V → Bool) : tally test (∅ : Rows K V) = 0 :=
  rfl

variable {key : K} {value : V} {table : Rows K V} {test : V → Bool}

theorem share_of_lookup (hval : table.lookup key = some value) :
    share test table key = (test value).toNat := by
  rw [share, hval, Option.elim_some]

theorem share_of_not_mem (hkey : key ∉ table) : share test table key = 0 := by
  rw [share, AList.lookup_eq_none.2 hkey, Option.elim_none]

theorem tally_erase (test : V → Bool) (table : Rows K V) (key : K) :
    tally test (table.erase key) + share test table key = tally test table := by
  by_cases hkey : key ∈ table
  · obtain ⟨value, before, after, hnot, hsplit, herase⟩ := exists_of_kerase hkey
    have hlook : table.lookup key = some value := by
      rw [AList.lookup, hsplit, dlookup_append, dlookup_eq_none.2 hnot, Option.none_or,
        dlookup_cons_eq]
    have herased : (table.erase key).entries = before ++ after := herase
    rw [share_of_lookup hlook, tally, tally, herased, hsplit]
    simp only [countP_append, countP_cons]
    cases test value <;> simp [Nat.add_assoc]
  · rw [share_of_not_mem hkey, Nat.add_zero, tally, tally]
    have heq : (table.erase key).entries = table.entries := kerase_of_notMem_keys hkey
    rw [heq]

theorem tally_insert (test : V → Bool) (table : Rows K V) (key : K) (value : V) :
    tally test (table.insert key value) + share test table key =
      tally test table + (test value).toNat := by
  have hentries : (table.insert key value).entries = ⟨key, value⟩ :: (table.erase key).entries :=
    rfl
  have herase := tally_erase test table key
  rw [tally] at herase ⊢
  rw [hentries, countP_cons]
  cases test value <;> simp <;> omega

theorem tally_insert_of_lookup (test : V → Bool) (hval : table.lookup key = some value)
    (changed : V) :
    (tally test (table.insert key changed) : ℤ) =
      tally test table - (test value).toNat + (test changed).toNat := by
  have hinsert := tally_insert test table key changed
  rw [share_of_lookup hval] at hinsert
  omega

theorem tally_erase_of_lookup (test : V → Bool) (hval : table.lookup key = some value) :
    (tally test (table.erase key) : ℤ) = tally test table - (test value).toNat := by
  have herase := tally_erase test table key
  rw [share_of_lookup hval] at herase
  omega

/-- A new row failing the test changes nothing. -/
theorem tally_insertNew (htest : test value = false) (table : Rows K V) (key : K) :
    tally test (insertNew key value table) = tally test table := by
  rw [insertNew]
  split_ifs with hkey
  · rfl
  · have hinsert := tally_insert test table key value
    rw [share_of_not_mem hkey, htest] at hinsert
    exact hinsert

omit [DecidableEq K] in
theorem tally_eq_length (test : V → Bool) (table : Rows K V) :
    tally test table = ((table.entries.filter fun row => test row.2).map Sigma.fst).length := by
  rw [length_map, ← countP_eq_length_filter, tally]

/-- The keys of the rows passing the test are distinct. -/
theorem mem_filter_keys :
    key ∈ (table.entries.filter fun row => test row.2).map Sigma.fst ↔
      (table.lookup key).map test = some true := by
  rw [mem_map, Option.map_eq_some_iff]
  constructor
  · rintro ⟨⟨_, value⟩, hrow, rfl⟩
    obtain ⟨hmem, htest⟩ := mem_filter.1 hrow
    exact ⟨value, AList.mem_lookup_iff.2 hmem, htest⟩
  · rintro ⟨value, hval, htest⟩
    exact ⟨⟨key, value⟩, mem_filter.2 ⟨AList.mem_lookup_iff.1 hval, htest⟩, rfl⟩

omit [DecidableEq K] in
theorem nodup_filter_keys (test : V → Bool) (table : Rows K V) :
    ((table.entries.filter fun row => test row.2).map Sigma.fst).Nodup :=
  List.Nodup.sublist (filter_sublist.map _) table.nodupKeys

omit [DecidableEq K] in
theorem tally_add_tally_not (test : V → Bool) (table : Rows K V) :
    tally test table + tally (fun value => !test value) table = table.entries.length := by
  rw [tally, tally, length_eq_countP_add_countP fun row => test row.2]
  simp only [Bool.not_eq_true, Bool.decide_eq_false]

/-- A list of just the keys that pass the test. -/
theorem length_eq_tally {keys : List K} (hnd : keys.Nodup)
    (hkeys : ∀ key, key ∈ keys ↔ (table.lookup key).map test = some true) :
    keys.length = tally test table := by
  rw [tally_eq_length]
  apply List.Perm.length_eq
  apply (perm_ext_iff_of_nodup hnd (nodup_filter_keys _ _)).2
  intro key
  rw [mem_filter_keys, hkeys]

theorem length_eq_of_mem_iff {keys : List K} (hnd : keys.Nodup)
    (hkeys : ∀ key, key ∈ keys ↔ key ∈ table) : keys.length = table.entries.length := by
  have htally : tally (fun _ => true) table = table.entries.length := by
    rw [tally, countP_true]
  rw [← htally]
  apply length_eq_tally hnd
  intro key
  rw [hkeys, mem_iff]
  simp

/-- The tally depends only on what keys find. -/
theorem tally_congr {test' : V → Bool} {table' : Rows K V}
    (heq : ∀ key, (table'.lookup key).map test' = (table.lookup key).map test) :
    tally test' table' = tally test table := by
  rw [tally_eq_length test']
  apply length_eq_tally (nodup_filter_keys _ _)
  intro key
  rw [mem_filter_keys, heq]

theorem tally_modify_of_lookup (test : V → Bool) (hval : table.lookup key = some value)
    (change : V → V) :
    (tally test (modify key change table) : ℤ) =
      tally test table - (test value).toNat + (test (change value)).toNat := by
  rw [modify, hval]
  exact tally_insert_of_lookup test hval (change value)

theorem length_erase_lt (hkey : key ∈ table) :
    (table.erase key).entries.length < table.entries.length := by
  obtain ⟨value, hval⟩ := mem_iff.1 hkey
  have herase := tally_erase (fun _ => true) table key
  rw [share_of_lookup hval, Bool.toNat_true, tally, tally, countP_true] at herase
  omega

end Table
