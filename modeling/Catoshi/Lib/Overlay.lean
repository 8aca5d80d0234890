/-
A write-back layer over a parent map. An entry may be dirty (it can differ from the parent) and
fresh (the parent has no value).
-/
import Mathlib.Logic.Function.Basic
import Mathlib.Tactic

namespace Overlay

open Function

universe u v

variable {K : Type u} {V : Type v}

/-- A cached key: the value seen through the layer and its two flags. -/
structure Entry (V : Type v) where
  value : Option V
  dirty : Bool
  fresh : Bool

/-- Reads fall through to the parent without an entry. -/
def view (layer : K → Option (Entry V)) (parent : K → Option V) : K → Option V :=
  fun key => match layer key with
    | some entry => entry.value
    | none => parent key

/-- What an entry's flags promise about the parent's value. -/
structure Entry.Coherent (entry : Entry V) (parent : Option V) : Prop where
  fresh_absent : entry.fresh = true → parent = none
  clean_eq : entry.dirty = false → entry.value = parent

/-- Every entry of the layer keeps its promise. -/
def Coherent (layer : K → Option (Entry V)) (parent : K → Option V) : Prop :=
  ∀ key entry, layer key = some entry → entry.Coherent (parent key)

/-- The layer knows the key, or there is nothing below. -/
def Covered (layer : K → Option (Entry V)) (parent : K → Option V) (key : K) : Prop :=
  layer key = none → parent key = none

variable {key : K} {parent : K → Option V} {layer : K → Option (Entry V)}

theorem view_of_none (hno : layer key = none) : view layer parent key = parent key := by
  simp [view, hno]

variable {entry child : Entry V}

theorem view_of_some (hsome : layer key = some entry) : view layer parent key = entry.value := by
  simp [view, hsome]

theorem coherent_empty (parent : K → Option V) :
    Coherent (fun _ : K => (none : Option (Entry V))) parent := by
  intro key entry hent
  cases hent

variable [DecidableEq K]

/-- A coherent entry changes the view at its key only. -/
theorem view_update_some (layer : K → Option (Entry V)) (parent : K → Option V)
    (key : K) (entry : Entry V) :
    view (update layer key (some entry)) parent = update (view layer parent) key entry.value := by
  funext other
  by_cases heq : other = key
  · subst heq
    simp [view]
  · simp [view, update_of_ne heq]

/-- Dropping an entry uncovers the parent's value. -/
theorem view_update_none (layer : K → Option (Entry V)) (parent : K → Option V) (key : K) :
    view (update layer key none) parent = update (view layer parent) key (parent key) := by
  funext other
  by_cases heq : other = key
  · subst heq
    simp [view]
  · simp [view, update_of_ne heq]

theorem Coherent.update_some (hlayer : Coherent layer parent) (hent : entry.Coherent (parent key)) :
    Coherent (update layer key (some entry)) parent := by
  intro other found hf
  by_cases heq : other = key
  · subst heq
    simp only [update_self, Option.some.injEq] at hf
    exact hf ▸ hent
  · rw [update_of_ne heq] at hf
    exact hlayer other found hf

theorem Coherent.update_none (hlayer : Coherent layer parent) (key : K) :
    Coherent (update layer key none) parent := by
  intro other found hf
  by_cases heq : other = key
  · subst heq
    simp at hf
  · rw [update_of_ne heq] at hf
    exact hlayer other found hf

theorem Covered.update_some (hkey : Covered layer parent key) (other : K) (entry : Entry V) :
    Covered (update layer other (some entry)) parent key := by
  intro hno
  by_cases heq : key = other
  · subst heq
    simp at hno
  · rw [update_of_ne heq] at hno
    exact hkey hno

theorem Covered.update_none (hkey : Covered layer parent key) {other : K}
    (ho : parent other = none) :
    Covered (update layer other none) parent key := by
  intro hno
  by_cases heq : key = other
  · exact heq ▸ ho
  · rw [update_of_ne heq] at hno
    exact hkey hno

omit [DecidableEq K] in
theorem Covered.of_view_none (hview : view layer parent key = none) : Covered layer parent key := by
  intro hno
  rwa [view_of_none hno] at hview

/-- The entry kept when a child's dirty entry is pushed down. -/
def mergeEntry (own : Option (Entry V)) (child : Entry V) : Option (Entry V) :=
  match own with
  | none =>
    if child.fresh = true ∧ child.value = none then none
    else some ⟨child.value, true, child.fresh⟩
  | some entry =>
    if entry.fresh = true ∧ child.value = none then none
    else some ⟨child.value, true, entry.fresh⟩

omit [DecidableEq K] in
/-- Pushing a dirty child entry down leaves a coherent entry that shows its value. -/
theorem mergeEntry_spec (hlayer : Coherent layer parent)
    (hchild : child.Coherent (view layer parent key)) :
    (match mergeEntry (layer key) child with
      | some entry => entry.value
      | none => parent key) = child.value ∧
    ∀ entry, mergeEntry (layer key) child = some entry → entry.Coherent (parent key) := by
  have hmerged : ∃ fresh : Bool, (fresh = true → parent key = none) ∧
      mergeEntry (layer key) child = if fresh = true ∧ child.value = none then none
        else some ⟨child.value, true, fresh⟩ := by
    cases hown : layer key with
    | none =>
      rw [view_of_none hown] at hchild
      exact ⟨child.fresh, hchild.fresh_absent, rfl⟩
    | some own => exact ⟨own.fresh, (hlayer key own hown).fresh_absent, rfl⟩
  obtain ⟨fresh, habsent, hmerged⟩ := hmerged
  rw [hmerged]
  split_ifs with hdrop
  · exact ⟨(habsent hdrop.1).trans hdrop.2.symm, nofun⟩
  · refine ⟨rfl, ?_⟩
    rintro entry ⟨⟩
    exact ⟨habsent, by simp⟩

omit [DecidableEq K] in
/-- A coherent fresh child never meets a value below. -/
theorem fresh_child_meets_no_value {own : Entry V} (hchild : child.Coherent (view layer parent key))
    (hown : layer key = some own) (hfresh : child.fresh = true) : own.value = none := by
  rw [← view_of_some hown]
  exact hchild.fresh_absent hfresh

end Overlay
