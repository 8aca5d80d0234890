/-
Ordered logs of key writes and what they leave of a store. A log over a store that holds some of
its results gives the same as over the old one.
-/
import Mathlib.Algebra.BigOperators.Group.Finset.Basic
import Mathlib.Data.Finmap
import Mathlib.Tactic

namespace WriteLog

open Function List

universe u v w

variable {K : Type u} {V : Type v}

def keys (writes : List (K × Option V)) : List K := writes.map Prod.fst

@[simp]
theorem keys_nil : keys ([] : List (K × Option V)) = [] := rfl

@[simp]
theorem keys_cons (write : K × Option V) (writes : List (K × Option V)) :
    keys (write :: writes) = write.1 :: keys writes := rfl

@[simp]
theorem keys_append (first second : List (K × Option V)) :
    keys (first ++ second) = keys first ++ keys second := by
  simp [keys]

variable [DecidableEq K]

/-- Apply writes in order; `some value` stores and `none` erases. -/
def apply (writes : List (K × Option V)) (store : K → Option V) : K → Option V :=
  writes.foldl (fun store write => update store write.1 write.2) store

@[simp]
theorem apply_nil (store : K → Option V) : apply [] store = store := rfl

@[simp]
theorem apply_cons (write : K × Option V) (writes : List (K × Option V)) (store : K → Option V) :
    apply (write :: writes) store = apply writes (update store write.1 write.2) := rfl

@[simp]
theorem apply_append (first second : List (K × Option V)) (store : K → Option V) :
    apply (first ++ second) store = apply second (apply first store) := by
  simp [apply, foldl_append]

variable {key : K} {writes : List (K × Option V)}

/-- A key no write touches keeps its value. -/
theorem apply_of_notMem (hkey : key ∉ keys writes) (store : K → Option V) :
    apply writes store key = store key := by
  induction writes generalizing store with
  | nil => rfl
  | cons write writes ih =>
    simp only [keys_cons, mem_cons, not_or] at hkey
    rw [apply_cons, ih hkey.2, update_of_ne hkey.1]

/-- A touched key forgets the store before the log. -/
theorem apply_congr_of_mem_keys (hkey : key ∈ keys writes) (first second : K → Option V) :
    apply writes first key = apply writes second key := by
  induction writes generalizing first second with
  | nil => simp at hkey
  | cons write writes ih =>
    by_cases hlater : key ∈ keys writes
    · exact ih hlater _ _
    · simp only [keys_cons, mem_cons, hlater, or_false] at hkey
      rw [apply_cons, apply_cons, apply_of_notMem hlater,
        apply_of_notMem hlater, hkey, update_self,
        update_self]

/-- A touched key ends with a value written to it. -/
theorem exists_mem_apply (hkey : key ∈ keys writes) (store : K → Option V) :
    ∃ value, (key, value) ∈ writes ∧ apply writes store key = value := by
  induction writes generalizing store with
  | nil => simp at hkey
  | cons write writes ih =>
    by_cases hlater : key ∈ keys writes
    · obtain ⟨value, hmem, hval⟩ := ih hlater (update store write.1 write.2)
      exact ⟨value, mem_cons_of_mem write hmem, hval⟩
    · simp only [keys_cons, mem_cons, hlater, or_false] at hkey
      refine ⟨write.2, hkey ▸ mem_cons_self, ?_⟩
      rw [apply_cons, apply_of_notMem hlater, hkey, update_self]

/-- In a log without repeated keys every write survives. -/
theorem apply_of_mem (hnd : (keys writes).Nodup) {value : Option V}
    (hmem : (key, value) ∈ writes) (store : K → Option V) :
    apply writes store key = value := by
  induction writes generalizing store with
  | nil => simp at hmem
  | cons write writes ih =>
    rw [keys_cons, nodup_cons] at hnd
    rcases List.mem_cons.1 hmem with hhead | htail
    · subst hhead
      rw [apply_cons, apply_of_notMem hnd.1, update_self]
    · exact ih hnd.2 htail _

theorem mem_keys_iff_isSome_lookup : key ∈ keys writes ↔ (writes.lookup key).isSome := by
  induction writes with
  | nil => simp
  | cons write writes ih =>
    by_cases heq : key = write.1
    · simp [heq]
    · simp [heq, ih]

/-- A log written backwards leaves its first entries. -/
theorem apply_reverse (writes : List (K × Option V)) (store : K → Option V) (key : K) :
    apply writes.reverse store key = (writes.lookup key).getD (store key) := by
  induction writes with
  | nil => rfl
  | cons write writes ih =>
    rw [reverse_cons, apply_append, apply_cons, apply_nil, lookup_cons]
    by_cases heq : key = write.1
    · simp [heq]
    · have hbeq : (key == write.1) = false := by simpa using heq
      simp [heq, hbeq, ih]

theorem forall_keys_reverse_iff {store before : K → Option V} :
    (∀ key ∈ keys writes.reverse, apply writes.reverse before key = store key) ↔
      ∀ key value, writes.lookup key = some value → store key = value := by
  have hkeys : ∀ key, key ∈ keys writes.reverse ↔ (writes.lookup key).isSome := fun key => by
    rw [← mem_keys_iff_isSome_lookup, keys, keys, map_reverse, mem_reverse]
  simp only [hkeys, Option.isSome_iff_exists, apply_reverse]
  constructor
  · intro hall key value hlook
    rw [← hall key ⟨value, hlook⟩, hlook]
    rfl
  · rintro hall key ⟨value, hlook⟩
    rw [hall key value hlook, hlook]
    rfl

variable (erased : List K) (table : Finmap fun _ : K => V)

def erases : List (K × Option V) := erased.map fun key => (key, none)

omit [DecidableEq K] in
@[simp]
theorem keys_erases : keys (erases erased : List (K × Option V)) = erased := by
  rw [keys, erases, map_map]
  exact map_id erased

theorem apply_erases_of_notMem {erased : List K} (hkey : key ∉ erased) (store : K → Option V) :
    apply (erases erased) store key = store key :=
  apply_of_notMem (by rwa [keys_erases]) store

theorem apply_erases_of_mem {erased : List K} (hkey : key ∈ erased) (store : K → Option V) :
    apply (erases erased) store key = none := by
  obtain ⟨value, hmem, hval⟩ := exists_mem_apply (by rwa [keys_erases]) store
  obtain ⟨_, -, heq⟩ := List.mem_map.1 hmem
  rw [hval, ← (Prod.mk.inj heq).2]

/-- Erasing one more key first or last is the same. -/
theorem update_apply_erases (key : K) (store : K → Option V) :
    update (apply (erases erased) store) key none =
      apply (erases erased) (update store key none) := by
  funext other
  by_cases hmem : other ∈ erased
  · rw [apply_erases_of_mem hmem]
    by_cases heq : other = key
    · rw [heq, update_self]
    · rw [update_of_ne heq, apply_erases_of_mem hmem]
  · rw [apply_erases_of_notMem hmem]
    by_cases heq : other = key
    · rw [heq, update_self, update_self]
    · rw [update_of_ne heq, update_of_ne heq, apply_erases_of_notMem hmem]

/-- A prefix of a log without repeated keys leaves each key as it was or as the whole log does. -/
theorem apply_take_mixed {first second : List (K × Option V)}
    (hnd : (keys (first ++ second)).Nodup) (store : K → Option V) (key : K) :
    apply first store key = store key ∨
      apply first store key = apply (first ++ second) store key := by
  by_cases hfst : key ∈ keys first
  · have hsnd : key ∉ keys second := by
      rw [keys_append, nodup_append] at hnd
      exact fun hmem => hnd.2.2 key hfst key hmem rfl
    exact Or.inr (by rw [apply_append, apply_of_notMem hsnd])
  · exact Or.inl (apply_of_notMem hfst store)

/-- A log over a store that is, key by key, the old or the finished one finishes it. -/
theorem apply_of_mixed {mixed store : K → Option V}
    (hmixed : ∀ key, mixed key = store key ∨ mixed key = apply writes store key) :
    apply writes mixed = apply writes store := by
  funext key
  by_cases hkey : key ∈ keys writes
  · exact apply_congr_of_mem_keys hkey mixed store
  · have huntouched := apply_of_notMem hkey store
    rw [apply_of_notMem hkey mixed, huntouched]
    rcases hmixed key with hold | hnew
    · exact hold
    · rw [hnew, huntouched]

/-- Two logs leave the same just when they do so for every key one of them touches. -/
theorem apply_eq_apply_iff {others : List (K × Option V)} {store : K → Option V} :
    apply writes store = apply others store ↔
      ∀ key ∈ keys writes ++ keys others, apply writes store key = apply others store key := by
  refine ⟨fun heq key _ => by rw [heq], fun htouched => funext fun key => ?_⟩
  by_cases hkey : key ∈ keys writes ++ keys others
  · exact htouched key hkey
  · rw [mem_append, not_or] at hkey
    rw [apply_of_notMem hkey.1, apply_of_notMem hkey.2]

/-- A log changes nothing just when every key it touches ends as it was. -/
theorem apply_eq_self_iff {store : K → Option V} :
    apply writes store = store ↔ ∀ key ∈ keys writes, apply writes store key = store key := by
  simpa using @apply_eq_apply_iff K V _ writes [] store

def store (writes : List (K × Option V)) (table : Finmap fun _ : K => V) :
    Finmap fun _ : K => V :=
  writes.foldl (fun table write =>
    match write.2 with
    | some value => table.insert write.1 value
    | none => table.erase write.1) table

/-- A table as a map. -/
def content : K → Option V := fun key => table.lookup key

/-- Tables are equal when they hold the same values. -/
theorem content_inj {first second : Finmap fun _ : K => V}
    (heq : content first = content second) : first = second :=
  Finmap.ext_lookup fun key => congrFun heq key

theorem content_insert (key : K) (value : V) :
    content (table.insert key value) = update (content table) key (some value) := by
  funext other
  by_cases heq : other = key
  · subst heq
    rw [content, Finmap.lookup_insert, update_self]
  · rw [content, Finmap.lookup_insert_of_ne _ heq, update_of_ne heq, content]

theorem content_erase (key : K) : content (table.erase key) = update (content table) key none := by
  funext other
  by_cases heq : other = key
  · subst heq
    rw [content, Finmap.lookup_erase, update_self]
  · rw [content, Finmap.lookup_erase_ne heq, update_of_ne heq, content]

/-- The table after the writes holds what they make of its map. -/
@[simp]
theorem content_store (writes : List (K × Option V)) (table : Finmap fun _ : K => V) :
    content (store writes table) = apply writes (content table) := by
  induction writes generalizing table with
  | nil => rfl
  | cons write writes ih =>
    obtain ⟨key, value⟩ := write
    cases value with
    | some value =>
      exact (ih (table.insert key value)).trans
        (congrArg (apply writes) (content_insert table key value))
    | none =>
      exact (ih (table.erase key)).trans (congrArg (apply writes) (content_erase table key))

/-- Writes leave a table alone just when it holds what they write. -/
theorem store_eq_self_iff {table : Finmap fun _ : K => V} :
    store writes table = table ↔
      ∀ key ∈ keys writes, apply writes (fun _ => none) key = table.lookup key := by
  have hself : store writes table = table ↔ apply writes (content table) = content table := by
    rw [← content_store]
    exact ⟨congrArg content, content_inj⟩
  rw [hself, apply_eq_self_iff]
  refine forall₂_congr fun key hkey => ?_
  rw [apply_congr_of_mem_keys hkey (content table) fun _ => none, content]

/-!
### The total weight of a store

It is taken over any finite set of keys that holds all the store's keys.
-/

variable {M : Type w} [AddCommGroup M]

/-- The weight of the value under a key, else zero. -/
def weightOf (weight : V → M) (value : Option V) : M := value.elim 0 weight

@[simp]
theorem weightOf_none (weight : V → M) : weightOf weight none = 0 := rfl

@[simp]
theorem weightOf_some (weight : V → M) (value : V) :
    weightOf weight (some value) = weight value := rfl

/-- The weight of all values under the given keys. -/
def total (weight : V → M) (support : Finset K) (store : K → Option V) : M :=
  ∑ key ∈ support, weightOf weight (store key)

variable {weight : V → M} {support : Finset K}

omit [DecidableEq K] in
/-- Keys without a value do not count. -/
theorem total_of_subset {small large : Finset K} {store : K → Option V} (hsubset : small ⊆ large)
    (hsupp : ∀ key, (store key).isSome → key ∈ small) :
    total weight small store = total weight large store := by
  refine Finset.sum_subset hsubset fun key _ hkey => ?_
  cases hval : store key with
  | none => rfl
  | some value => exact absurd (hsupp key (by simp [hval])) hkey

theorem total_update {key : K} (hkey : key ∈ support) (store : K → Option V) (value : Option V) :
    total weight support (update store key value) =
      total weight support store + (weightOf weight value - weightOf weight (store key)) := by
  have hold := Finset.add_sum_erase support (fun other => weightOf weight (store other)) hkey
  have hnew := Finset.add_sum_erase support
    (fun other => weightOf weight (update store key value other)) hkey
  have hrest : ∑ other ∈ support.erase key,
      weightOf weight (update store key value other) =
        ∑ other ∈ support.erase key, weightOf weight (store other) := by
    refine Finset.sum_congr rfl fun other ho => ?_
    rw [update_of_ne (Finset.ne_of_mem_erase ho)]
  simp only [update_self] at hnew
  rw [hrest] at hnew
  rw [total, total, ← hnew, ← hold]
  abel

/-- A log that touches no key twice changes the total by what its writes add to and take from the
store. -/
theorem total_apply {writes : List (K × Option V)} (hnd : (keys writes).Nodup)
    (hkeys : ∀ key ∈ keys writes, key ∈ support) (store : K → Option V) :
    total weight support (apply writes store) =
      total weight support store +
        (writes.map fun write =>
          weightOf weight write.2 - weightOf weight (store write.1)).sum := by
  induction writes generalizing store with
  | nil => simp
  | cons write writes ih =>
    rw [keys_cons, nodup_cons] at hnd
    have hrest : (writes.map fun other => weightOf weight other.2 -
        weightOf weight (update store write.1 write.2 other.1)) =
          writes.map fun other =>
            weightOf weight other.2 - weightOf weight (store other.1) := by
      refine map_congr_left fun other ho => ?_
      have hne : other.1 ≠ write.1 := by
        intro heq
        exact hnd.1 (heq ▸ mem_map_of_mem ho)
      rw [update_of_ne hne]
    rw [apply_cons, ih hnd.2 (fun key hkey => hkeys key (by simp [hkey])), hrest,
      total_update (hkeys write.1 (by simp)), map_cons, sum_cons]
    abel

end WriteLog
