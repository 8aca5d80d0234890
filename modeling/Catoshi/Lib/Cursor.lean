/-
Ranges handed out one after the other behind a cursor, in files with a cursor each.
-/
import Mathlib

namespace Cursor

universe u

structure Range (φ : Type u) where
  file : φ
  start : ℕ
  size : ℕ
deriving DecidableEq, Repr

variable {φ : Type u}

namespace Range

def stop (range : Range φ) : ℕ := range.start + range.size

def bytes (range : Range φ) : Set ℕ := Set.Ico range.start range.stop

/-- Two ranges share no byte. -/
def Apart (first second : Range φ) : Prop :=
  first.file = second.file → Disjoint first.bytes second.bytes

theorem apart_of_stop_le {first second : Range φ}
    (hstop : first.file = second.file → first.stop ≤ second.start) : second.Apart first := by
  intro hfile
  exact (Set.Ico_disjoint_Ico.2 (by
    simp only [inf_le_iff, le_sup_iff]
    tauto)).symm

end Range

/-- The ranges handed out, the last first: they share no byte and end below the cursors. -/
structure Below (cursor : φ → ℕ) (given : List (Range φ)) : Prop where
  stop_le : ∀ range ∈ given, range.stop ≤ cursor range.file
  apart : given.Pairwise Range.Apart

theorem below_nil (cursor : φ → ℕ) : Below cursor [] := ⟨nofun, List.Pairwise.nil⟩

/-- Cursors may move on with nothing handed out. -/
theorem Below.mono {cursor next : φ → ℕ} {given : List (Range φ)} (hbelow : Below cursor given)
    (hle : ∀ file, cursor file ≤ next file) : Below next given :=
  ⟨fun range hrange => (hbelow.stop_le range hrange).trans (hle range.file), hbelow.apart⟩

/-- A range at the cursor that the cursor moves behind. -/
theorem Below.give {cursor next : φ → ℕ} {given : List (Range φ)} (hbelow : Below cursor given)
    {range : Range φ} (hle : ∀ file, cursor file ≤ next file)
    (hstart : cursor range.file ≤ range.start) (hstop : range.stop ≤ next range.file) :
    Below next (range :: given) := by
  constructor
  · exact List.forall_mem_cons.2 ⟨hstop, (hbelow.mono hle).stop_le⟩
  · refine List.pairwise_cons.2 ⟨fun other ho => ?_, hbelow.apart⟩
    refine Range.apart_of_stop_le fun hfile => ?_
    rw [← hfile] at hstart
    exact (hbelow.stop_le other ho).trans hstart

end Cursor
