/-
A list whose iterators stay valid while other elements come and go.
-/
import Mathlib.Data.List.Nodup
import Mathlib.Tactic

universe u

/-- An iterator is the number its element got when put in. -/
structure LinkedList (α : Type u) where
  elements : List (ℕ × α)
  next : ℕ
  nodup : (elements.map Prod.fst).Nodup
  fresh : ∀ it ∈ elements.map Prod.fst, it < next

namespace LinkedList

open List

variable {α : Type u}

def empty : LinkedList α where
  elements := []
  next := 0
  nodup := nodup_nil
  fresh := by simp

variable (test : α → Bool) (list : LinkedList α)

def begin? : Option ℕ :=
  list.elements.head?.map Prod.fst

/-- The element of an iterator, unless erased. -/
def get? (it : ℕ) : Option α :=
  list.elements.lookup it

def size : ℕ :=
  list.elements.length

/-- How many elements pass the test. -/
def count : ℕ :=
  list.elements.countP fun element => test element.2

/-- Put an element at the end.  Its iterator is `list.next`. -/
def pushBack (value : α) : LinkedList α where
  elements := list.elements ++ [(list.next, value)]
  next := list.next + 1
  nodup := by
    rw [map_append, nodup_append]
    refine ⟨list.nodup, nodup_singleton _, ?_⟩
    rintro it hit other hother rfl
    rw [map_singleton, mem_singleton] at hother
    exact absurd (list.fresh it hit) (by simp [hother])
  fresh it hit := by
    rw [map_append, mem_append, map_singleton, mem_singleton] at hit
    rcases hit with hold | hnew
    · exact Nat.lt_succ_of_lt (list.fresh it hold)
    · exact hnew ▸ Nat.lt_succ_self _

def erase (it : ℕ) : LinkedList α where
  elements := list.elements.filter fun element => element.1 ≠ it
  next := list.next
  nodup := list.nodup.sublist (filter_sublist.map _)
  fresh other hother := list.fresh other ((filter_sublist.map _).subset hother)

variable {it : ℕ}

theorem lookup_eq_some_iff_mem {elements : List (ℕ × α)} (hnd : (elements.map Prod.fst).Nodup)
    {value : α} : elements.lookup it = some value ↔ (it, value) ∈ elements := by
  induction elements with
  | nil => simp
  | cons element rest ih =>
    obtain ⟨other, held⟩ := element
    rw [map_cons, nodup_cons] at hnd
    rw [lookup_cons]
    by_cases heq : it = other
    · subst heq
      have hrest : (it, value) ∉ rest := fun hmem =>
        hnd.1 (mem_map.2 ⟨(it, value), hmem, rfl⟩)
      simp [hrest, eq_comm]
    · have hbeq : (it == other) = false := beq_eq_false_iff_ne.2 heq
      simp [heq, hbeq, ih hnd.2]

theorem get?_eq_some_iff {list : LinkedList α} {value : α} :
    list.get? it = some value ↔ (it, value) ∈ list.elements :=
  lookup_eq_some_iff_mem list.nodup

theorem get?_pushBack (value : α) (it : ℕ) :
    (list.pushBack value).get? it = if it = list.next then some value else list.get? it := by
  apply Option.ext
  intro held
  have hnext : (list.next, held) ∉ list.elements := fun hmem =>
    absurd (list.fresh _ (mem_map_of_mem hmem)) (Nat.lt_irrefl _)
  rw [get?_eq_some_iff, pushBack, mem_append, mem_singleton]
  split_ifs with heq
  · subst heq
    simp [hnext, eq_comm]
  · simp [heq, get?_eq_some_iff]

/-- The next element's iterator refers to none now. -/
theorem get?_next : list.get? list.next = none := by
  rw [Option.eq_none_iff_forall_ne_some]
  intro held hheld
  have hfresh := list.fresh _ (mem_map_of_mem (get?_eq_some_iff.1 hheld))
  exact absurd hfresh (Nat.lt_irrefl _)

theorem get?_erase (it other : ℕ) :
    (list.erase it).get? other = if other = it then none else list.get? other := by
  apply Option.ext
  intro held
  rw [get?_eq_some_iff, erase]
  split_ifs with heq
  · simp [heq]
  · simp [heq, get?_eq_some_iff]

theorem count_pushBack (value : α) :
    (list.pushBack value).count test = list.count test + (test value).toNat := by
  rw [count, pushBack, countP_append, countP_singleton]
  cases test value <;> rfl

theorem countP_filter_ne {test : α → Bool} {elements : List (ℕ × α)}
    (hnd : (elements.map Prod.fst).Nodup) {value : α} (hval : (it, value) ∈ elements) :
    (elements.filter fun element => element.1 ≠ it).countP (fun element => test element.2) +
      (test value).toNat = elements.countP fun element => test element.2 := by
  induction elements with
  | nil => cases hval
  | cons element rest ih =>
    rw [map_cons, nodup_cons] at hnd
    rcases mem_cons.1 hval with heq | hrest
    · have hothers : rest.filter (fun element => element.1 ≠ it) = rest := by
        apply filter_eq_self.2
        intro other ho
        have hne : other.1 ≠ it := fun hit =>
          hnd.1 (mem_map.2 ⟨other, ho, by rw [hit, ← heq]⟩)
        simp [hne]
      rw [← heq, filter_cons_of_neg (by simp), hothers, countP_cons]
      cases test value <;> rfl
    · have hne : element.1 ≠ it := fun hit =>
        hnd.1 (hit ▸ mem_map_of_mem hrest)
      rw [filter_cons_of_pos (by simp [hne]), countP_cons, countP_cons, ← ih hnd.2 hrest]
      omega

theorem count_erase (test : α → Bool) {list : LinkedList α} {value : α}
    (hval : list.get? it = some value) :
    (list.erase it).count test + (test value).toNat = list.count test :=
  countP_filter_ne list.nodup (get?_eq_some_iff.1 hval)

/-- The size is the number of all elements. -/
theorem size_eq_count : list.size = list.count fun _ => true := by
  rw [size, count, countP_true]

end LinkedList
