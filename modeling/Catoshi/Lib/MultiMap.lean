/-
A map from keys to sets of values, without entry for a key without values.
-/
import Catoshi.Lib.Table

namespace MultiMap

open Table List

universe u v

variable {K : Type u} {V : Type v} [DecidableEq K] [DecidableEq V]

/-- The values of a key, as a list kept free of repetitions. -/
def values (map : Rows K (List V)) (key : K) : List V :=
  (map.lookup key).getD []

/-- `map[key].insert(value)` -/
def add (key : K) (value : V) (map : Rows K (List V)) : Rows K (List V) :=
  map.insert key ((values map key).insert value)

/-- Erase a value of a key, and the key with its last. -/
def remove (key : K) (value : V) (map : Rows K (List V)) : Rows K (List V) :=
  match map.lookup key with
  | none => map
  | some held =>
    let rest := held.filter (· ≠ value)
    if rest.isEmpty then map.erase key else map.insert key rest

/-- Every key that is there has values, each once. -/
def Proper (map : Rows K (List V)) : Prop :=
  ∀ key held, map.lookup key = some held → held ≠ [] ∧ held.Nodup

variable {other : K} {map : Rows K (List V)} {key : K} {value held : V} {keys : List K}

theorem mem_values_add :
    held ∈ values (add key value map) other ↔
      (other = key ∧ held = value) ∨ held ∈ values map other := by
  rw [values, add, lookup_insert]
  split_ifs with heq
  · rw [Option.getD_some, heq]
    simp
  · simp [heq, values]

theorem values_remove (key other : K) (value : V) (map : Rows K (List V)) :
    values (remove key value map) other =
      if other = key then (values map other).filter (· ≠ value) else values map other := by
  rw [remove]
  split
  · next hno =>
    split
    · next heq =>
      subst heq
      simp [values, hno]
    · rfl
  · next found hf =>
    dsimp only
    split
    · next hempty =>
      rw [values, lookup_erase]
      split_ifs with heq
      · subst heq
        rw [values, hf, Option.getD_some, List.isEmpty_iff.1 hempty, Option.getD_none]
      · rfl
    · rw [values, lookup_insert]
      split_ifs with heq
      · subst heq
        rw [values, hf, Option.getD_some, Option.getD_some]
      · rfl

theorem mem_values_remove :
    held ∈ values (remove key value map) other ↔
      held ∈ values map other ∧ ¬(other = key ∧ held = value) := by
  rw [values_remove]
  split_ifs with heq
  · simp [heq]
  · simp [heq]

theorem Proper.add (hproper : Proper map) (key : K) (value : V) :
    Proper (MultiMap.add key value map) := by
  intro other held hheld
  rw [MultiMap.add, lookup_insert] at hheld
  split at hheld
  · rw [← Option.some.inj hheld]
    refine ⟨ne_nil_of_mem mem_insert_self, List.Nodup.insert ?_⟩
    rw [values]
    cases hkey : map.lookup key with
    | none => exact nodup_nil
    | some found => exact (hproper key found hkey).2
  · exact hproper other held hheld

theorem Proper.remove (hproper : Proper map) (key : K) (value : V) :
    Proper (MultiMap.remove key value map) := by
  intro other held hheld
  rw [MultiMap.remove] at hheld
  split at hheld
  · exact hproper other held hheld
  · next found hf =>
    dsimp only at hheld
    split_ifs at hheld with hsome
    · rw [lookup_erase] at hheld
      split_ifs at hheld
      exact hproper other held hheld
    · rw [lookup_insert] at hheld
      split at hheld
      · rw [← Option.some.inj hheld]
        exact ⟨fun hnil => hsome (List.isEmpty_iff.2 hnil), (hproper key found hf).2.filter _⟩
      · exact hproper other held hheld

def addAll (keys : List K) (value : V) (map : Rows K (List V)) : Rows K (List V) :=
  keys.foldl (fun map key => add key value map) map

def removeAll (keys : List K) (value : V) (map : Rows K (List V)) : Rows K (List V) :=
  keys.foldl (fun map key => remove key value map) map

theorem mem_values_addAll :
    held ∈ values (addAll keys value map) other ↔
      (other ∈ keys ∧ held = value) ∨ held ∈ values map other := by
  induction keys generalizing map with
  | nil => simp [addAll]
  | cons key keys ih =>
    rw [addAll, foldl_cons, ← addAll, ih, mem_values_add, mem_cons]
    tauto

theorem mem_values_removeAll :
    held ∈ values (removeAll keys value map) other ↔
      held ∈ values map other ∧ ¬(other ∈ keys ∧ held = value) := by
  induction keys generalizing map with
  | nil => simp [removeAll]
  | cons key keys ih =>
    rw [removeAll, foldl_cons, ← removeAll, ih, mem_values_remove, mem_cons]
    tauto

theorem Proper.addAll (hproper : Proper map) (keys : List K) (value : V) :
    Proper (MultiMap.addAll keys value map) := by
  induction keys generalizing map with
  | nil => exact hproper
  | cons key keys ih => exact ih (hproper.add key value)

theorem Proper.removeAll (hproper : Proper map) (keys : List K) (value : V) :
    Proper (MultiMap.removeAll keys value map) := by
  induction keys generalizing map with
  | nil => exact hproper
  | cons key keys ih => exact ih (hproper.remove key value)

end MultiMap
