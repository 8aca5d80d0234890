/-
Finite tables: what is found after updates of one row or many.
-/
import Mathlib.Data.List.AList
import Mathlib.Tactic

namespace Table

universe u v w

/-- A finite map from keys to values. -/
abbrev Rows (K : Type u) (V : Type v) := AList fun _ : K => V

variable {K : Type u} {V : Type v} {ε : Type w} [DecidableEq K] {key : K} {table : Rows K V}

theorem mem_iff : key ∈ table ↔ ∃ value, table.lookup key = some value := by
  rw [← AList.lookup_isSome, Option.isSome_iff_exists]

theorem mem_of_lookup {value : V} (hval : table.lookup key = some value) : key ∈ table :=
  mem_iff.2 ⟨value, hval⟩

theorem lookup_insert (key : K) (value : V) (table : Rows K V) (other : K) :
    (table.insert key value).lookup other =
      if other = key then some value else table.lookup other := by
  split_ifs with heq
  · rw [heq, AList.lookup_insert]
  · exact AList.lookup_insert_ne heq

theorem lookup_erase (key : K) (table : Rows K V) (other : K) :
    (table.erase key).lookup other = if other = key then none else table.lookup other := by
  split_ifs with heq
  · rw [heq, AList.lookup_erase]
  · exact AList.lookup_erase_ne heq

/-- `insert` of an ordered map: an existing key keeps its value. -/
def insertNew (key : K) (value : V) (table : Rows K V) : Rows K V :=
  if key ∈ table then table else table.insert key value

theorem lookup_insertNew (key : K) (value : V) (table : Rows K V) (other : K) :
    (insertNew key value table).lookup other =
      if other = key then some ((table.lookup key).getD value) else table.lookup other := by
  by_cases hkey : key ∈ table
  · obtain ⟨held, hheld⟩ := mem_iff.1 hkey
    rw [insertNew, if_pos hkey]
    split_ifs with heq
    · rw [heq, hheld, Option.getD_some]
    · rfl
  · rw [insertNew, if_neg hkey, lookup_insert, AList.lookup_eq_none.2 hkey, Option.getD_none]

/-- Insert rows, each only if its key is new. -/
def insertAll (rows : List (K × V)) (table : Rows K V) : Rows K V :=
  rows.foldl (fun table row => insertNew row.1 row.2 table) table

def eraseAll (keys : List K) (table : Rows K V) : Rows K V :=
  keys.foldl (fun table key => table.erase key) table

theorem lookup_eraseAll (keys : List K) (table : Rows K V) (other : K) :
    (eraseAll keys table).lookup other = if other ∈ keys then none else table.lookup other := by
  induction keys generalizing table with
  | nil => simp [eraseAll]
  | cons key keys ih =>
    rw [eraseAll, List.foldl_cons, ← eraseAll, ih, lookup_erase]
    by_cases hkey : other = key <;> by_cases hrest : other ∈ keys <;> simp [hkey, hrest]

/-- Change the value of a key that is there. -/
def modify (key : K) (change : V → V) (table : Rows K V) : Rows K V :=
  match table.lookup key with
  | none => table
  | some value => table.insert key (change value)

theorem lookup_modify (key : K) (change : V → V) (table : Rows K V) (other : K) :
    (modify key change table).lookup other =
      if other = key then (table.lookup other).map change else table.lookup other := by
  rw [modify]
  split
  · next hno =>
    split_ifs with heq
    · rw [heq, hno, Option.map_none]
    · rfl
  · next value hval =>
    rw [lookup_insert]
    split_ifs with heq
    · rw [heq, hval, Option.map_some]
    · rfl

theorem mem_modify {other : K} {change : V → V} :
    other ∈ modify key change table ↔ other ∈ table := by
  rw [← AList.lookup_isSome, ← AList.lookup_isSome, lookup_modify]
  split <;> simp

/-- Change the value of an existing key by a call that can fail. -/
def amend (missing : ε) (key : K) (change : V → Except ε V) (table : Rows K V) :
    Except ε (Rows K V) :=
  match table.lookup key with
  | none => .error missing
  | some value =>
    match change value with
    | .error failure => .error failure
    | .ok changed => .ok (table.insert key changed)

/-- Change the values of a list of keys in turn. -/
def amendAll (missing : ε) (change : V → Except ε V) :
    List K → Rows K V → Except ε (Rows K V)
  | [], table => .ok table
  | key :: keys, table =>
    match amend missing key change table with
    | .error failure => .error failure
    | .ok table => amendAll missing change keys table

theorem lookup_amend {missing : ε} {change : V → Except ε V} {table' : Rows K V}
    (hamend : amend missing key change table = .ok table') :
    ∃ value changed, table.lookup key = some value ∧ change value = .ok changed ∧
      ∀ other, table'.lookup other = if other = key then some changed else table.lookup other := by
  rw [amend] at hamend
  split at hamend
  · cases hamend
  · next value hval =>
    split at hamend
    · cases hamend
    · next changed hchanged =>
      cases hamend
      exact ⟨value, changed, hval, hchanged, lookup_insert key changed table⟩

/-! ### A table kept as the inverse of what places hold -/

variable {P : Type v} {table : Rows K P} {held held' : P → Option K}

/-- The table finds the one place that holds a key. -/
def Inverse (table : Rows K P) (held : P → Option K) : Prop :=
  ∀ key place, table.lookup key = some place ↔ held place = some key

theorem inverse_empty (hno : ∀ place, held place = none) : Inverse (∅ : Rows K P) held := by
  intro key place
  simp [hno]

section

variable (hinverse : Inverse table held)

include hinverse

theorem Inverse.congr (hsame : ∀ place, held' place = held place) : Inverse table held' := by
  intro key place
  rw [hsame]
  exact hinverse key place

variable {key : K} {place : P}

theorem Inverse.place_eq {other : P}
    (hplace : held place = some key) (ho : held other = some key) : place = other := by
  rw [← hinverse] at hplace ho
  exact Option.some.inj (hplace.symm.trans ho)

theorem Inverse.not_mem_iff : key ∉ table ↔ ∀ place, held place ≠ some key := by
  rw [mem_iff, not_exists]
  exact forall_congr' fun place => not_congr (hinverse key place)

/-- Places are emptied, and their keys erased. -/
theorem Inverse.eraseAll {gone : P → Prop} [DecidablePred gone]
    {keys : List K} (hkeys : ∀ key, key ∈ keys ↔ ∃ place, gone place ∧ held place = some key)
    (hheld : ∀ place, held' place = if gone place then none else held place) :
    Inverse (Table.eraseAll keys table) held' := by
  intro key place
  rw [lookup_eraseAll, hheld]
  by_cases hgone : gone place
  · rw [if_pos hgone]
    constructor
    · intro hlook
      split_ifs at hlook with hnot
      exact absurd ((hkeys key).2 ⟨place, hgone, (hinverse key place).1 hlook⟩) hnot
    · intro hno
      cases hno
  · rw [if_neg hgone, ← hinverse]
    split_ifs with hkey
    · obtain ⟨other, ho, hholds⟩ := (hkeys key).1 hkey
      constructor
      · intro hno
        cases hno
      · intro hlook
        have heq := hinverse.place_eq ((hinverse key place).1 hlook) hholds
        exact absurd (heq ▸ ho) hgone
    · exact Iff.rfl

theorem Inverse.erase [DecidableEq P] (hplace : held place = some key)
    (hheld : ∀ other, held' other = if other = place then none else held other) :
    Inverse (table.erase key) held' := by
  have hkeys : ∀ other, other ∈ [key] ↔ ∃ p, p = place ∧ held p = some other := by
    simp [hplace, eq_comm]
  exact hinverse.eraseAll hkeys hheld

/-- An empty place is filled with a key no place held. -/
theorem Inverse.insertNew [DecidableEq P] (hempty : held place = none) (hkey : key ∉ table)
    (hheld : ∀ other, held' other = if other = place then some key else held other) :
    Inverse (Table.insertNew key place table) held' := by
  intro other target
  rw [lookup_insertNew, hheld, AList.lookup_eq_none.2 hkey]
  by_cases htgt : target = place
  · rw [htgt]
    split
    · next heq => simp [heq]
    · next hne =>
      rw [hinverse, hempty]
      simp [Ne.symm hne]
  · rw [if_neg htgt, ← hinverse]
    split_ifs with heq
    · rw [heq, AList.lookup_eq_none.2 hkey]
      simp [Ne.symm htgt]
    · exact Iff.rfl

theorem Inverse.insert [DecidableEq P] (hempty : held place = none) (hkey : key ∉ table)
    (hheld : ∀ other, held' other = if other = place then some key else held other) :
    Inverse (table.insert key place) held' := by
  have hinsert := hinverse.insertNew hempty hkey hheld
  rwa [Table.insertNew, if_neg hkey] at hinsert

end

end Table
