/-
The self-check of the address manager (`Check_`), and what it asks if tables and entries agree.
-/
import Catoshi.AddrManOrder

namespace Catoshi

open Outcome Table List Option

/-- What `Check_` collects: the tried entries, and the references of the new ones. -/
structure CheckSets where
  setTried : Finset ℤ
  mapNew : Rows ℤ ℤ

def CheckSets.enter (sets : CheckSets) (n : ℤ) (info : CAddrInfo) : CheckSets :=
  if info.fInTried then { sets with setTried := insert n sets.setTried }
  else { sets with mapNew := sets.mapNew.insert n info.nRefCount }

def triedPlaces : List TriedPlace :=
  (List.finRange addrmanTriedBucketCount).product (List.finRange addrmanBucketSize)

def newPlaces : List NewPlace :=
  (List.finRange addrmanNewBucketCount).product (List.finRange addrmanBucketSize)

namespace CAddrMan

/-- The checks of one entry. An address `mapAddr` lacks is looked up as 0. -/
def checkEntry (man : CAddrMan) (n : ℤ) (info : CAddrInfo) : Except ℤ Unit := do
  if info.fInTried then
    require (info.nLastSuccess != 0) (-1)
    require (info.nRefCount == 0) (-2)
  else
    require (0 ≤ info.nRefCount && info.nRefCount ≤ addrmanNewBucketsPerAddress) (-3)
    require (info.nRefCount != 0) (-4)
  require ((man.mapAddr.lookup info.service.ip).getD 0 == n) (-5)
  require (0 ≤ info.nRandomPos && man.vRandom[info.nRandomPos.toNat]? == some n) (-14)
  require (0 ≤ info.nLastTry) (-6)
  require (0 ≤ info.nLastSuccess) (-8)

def checkTried (hash : BucketHash) (man : CAddrMan) (setTried : Finset ℤ) (place : TriedPlace) :
    Except ℤ (Finset ℤ) :=
  let n := man.vvTried place
  if n = -1 then .ok setTried
  else do
    require (n ∈ setTried) (-11)
    require ((man.mapInfo.lookup n).any fun info =>
      hash.triedBucket man.nKey info.service == place.1) (-17)
    require ((man.mapInfo.lookup n).any fun info =>
      hash.bucketPosition man.nKey false place.1 info.service == place.2) (-18)
    pure (setTried.erase n)

def checkNew (hash : BucketHash) (man : CAddrMan) (mapNew : Rows ℤ ℤ) (place : NewPlace) :
    Except ℤ (Rows ℤ ℤ) :=
  let n := man.vvNew place
  if n = -1 then .ok mapNew
  else
    match mapNew.lookup n with
    | none => .error (-12)
    | some nRefCount => do
        require ((man.mapInfo.lookup n).any fun info =>
          hash.bucketPosition man.nKey true place.1 info.service == place.2) (-19)
        pure (if nRefCount - 1 = 0 then mapNew.erase n else mapNew.insert n (nRefCount - 1))

/-- `Check_`. It returns 0, or the code of what is wrong. -/
def check (hash : BucketHash) (man : CAddrMan) : Except ℤ Unit := do
  require ((man.vRandom.length : ℤ) == man.nTried + man.nNew) (-7)
  let entries := man.mapInfo.entries.insertionSort fun row other => row.1 ≤ other.1
  let sets ← entries.foldlM (fun sets row =>
    man.checkEntry row.1 row.2 >>= fun _ => pure (CheckSets.enter sets row.1 row.2)) ⟨∅, ∅⟩
  require ((sets.setTried.card : ℤ) == man.nTried) (-9)
  require ((sets.mapNew.entries.length : ℤ) == man.nNew) (-10)
  let setTried ← triedPlaces.foldlM (man.checkTried hash) sets.setTried
  let mapNew ← newPlaces.foldlM (man.checkNew hash) sets.mapNew
  require (setTried.card == 0) (-13)
  require (mapNew.entries.length == 0) (-15)
  require (!man.nKey.isNull) (-16)

/-- The entry is found by its address, with possible times. -/
structure Recorded (man : CAddrMan) (n : ℤ) (info : CAddrInfo) : Prop where
  succeeded : info.fInTried = true → info.nLastSuccess ≠ 0
  found : (man.mapAddr.lookup info.service.ip).getD 0 = n
  lastTry : 0 ≤ info.nLastTry
  lastSuccess : 0 ≤ info.nLastSuccess

variable {hash : BucketHash} {man : CAddrMan} {n : ℤ} {info : CAddrInfo}

/-- The other checks of an entry pass if the tables agree. -/
theorem Tables.checkEntry_iff (htabs : man.Tables hash (fun _ => False) 0)
    (hinfo : man.mapInfo.lookup n = some info) :
    man.checkEntry n info = .ok () ↔ man.Recorded n info := by
  have hpos : 0 ≤ info.nRandomPos ∧ man.vRandom[info.nRandomPos.toNat]? = some n := by
    have hnonneg := htabs.random.nonneg n info hinfo
    refine ⟨hnonneg, (htabs.random.positions _ n).2 ?_⟩
    rw [hinfo, map_some, Int.toNat_of_nonneg hnonneg]
  have hrest : man.Recorded n info ↔ (info.fInTried = true → info.nLastSuccess ≠ 0) ∧
      (man.mapAddr.lookup info.service.ip).getD 0 = n ∧ 0 ≤ info.nLastTry ∧
      0 ≤ info.nLastSuccess :=
    ⟨fun ⟨h1, h2, h3, h4⟩ => ⟨h1, h2, h3, h4⟩, fun ⟨h1, h2, h3, h4⟩ => ⟨h1, h2, h3, h4⟩⟩
  rw [hrest, CAddrMan.checkEntry]
  cases hflag : info.fInTried with
  | true =>
    have hrefs := htabs.refs_of_tried hinfo hflag
    simp [hrefs, hpos]
  | false =>
    obtain ⟨hmost, hsome⟩ := htabs.new.bounds n info hinfo hflag
    have hmore := hsome id
    simp [hpos, hmost, hmore.le, hmore.ne']

variable {sets : CheckSets} {nRefCount extra : ℤ} {loose : ℤ → Prop}

/-- What the first loop collects. -/
theorem mem_setTried_foldl {rows : List (Σ _ : ℤ, CAddrInfo)} :
    n ∈ (rows.foldl (fun sets row => CheckSets.enter sets row.1 row.2) sets).setTried ↔
      n ∈ sets.setTried ∨ ∃ info, ⟨n, info⟩ ∈ rows ∧ info.fInTried = true := by
  induction rows generalizing sets with
  | nil => simp
  | cons row rows ih =>
    obtain ⟨m, found⟩ := row
    rw [foldl_cons, ih]
    simp only [CheckSets.enter, mem_cons, Sigma.mk.injEq, heq_eq_eq]
    cases hflag : found.fInTried with
    | true | false =>
      grind

theorem lookup_mapNew_enter (sets : CheckSets) (m : ℤ) (found : CAddrInfo) (n : ℤ) :
    (sets.enter m found).mapNew.lookup n =
      if n = m ∧ found.fInTried = false then some found.nRefCount else sets.mapNew.lookup n := by
  rw [CheckSets.enter]
  cases hflag : found.fInTried with
  | true => simp
  | false => simp [lookup_insert]

theorem lookup_mapNew_foldl {rows : List (Σ _ : ℤ, CAddrInfo)} (hnd : rows.NodupKeys)
    (hfresh : ∀ row ∈ rows, row.1 ∉ sets.mapNew) :
    (rows.foldl (fun sets row => CheckSets.enter sets row.1 row.2) sets).mapNew.lookup n =
      some nRefCount ↔ sets.mapNew.lookup n = some nRefCount ∨
        ∃ info, ⟨n, info⟩ ∈ rows ∧ info.fInTried = false ∧ info.nRefCount = nRefCount := by
  induction rows generalizing sets with
  | nil => simp
  | cons row rows ih =>
    obtain ⟨m, found⟩ := row
    obtain ⟨hnot, hrest⟩ := nodupKeys_cons.1 hnd
    have hno : sets.mapNew.lookup m = none :=
      AList.lookup_eq_none.2 (hfresh ⟨m, found⟩ mem_cons_self)
    rw [foldl_cons, ih hrest, lookup_mapNew_enter]
    · grind
    · intro row hrow
      have hne : row.1 ≠ m := by
        intro heq
        exact hnot (heq ▸ @List.mem_keys_of_mem _ _ row _ hrow)
      rw [← AList.lookup_eq_none, lookup_mapNew_enter, if_neg fun h => hne h.1,
        AList.lookup_eq_none]
      exact hfresh row (mem_cons_of_mem _ hrow)

/-- The sets after the first loop. -/
def checkSets (man : CAddrMan) : CheckSets :=
  (man.mapInfo.entries.insertionSort fun row other => row.1 ≤ other.1).foldl
    (fun sets row => CheckSets.enter sets row.1 row.2) ⟨∅, ∅⟩

theorem mem_sorted_iff :
    ⟨n, info⟩ ∈ man.mapInfo.entries.insertionSort (fun row other => row.1 ≤ other.1) ↔
      man.mapInfo.lookup n = some info := by
  rw [mem_insertionSort]
  exact AList.mem_lookup_iff.symm

theorem mem_setTried : n ∈ man.checkSets.setTried ↔
    ∃ info, man.mapInfo.lookup n = some info ∧ info.fInTried = true := by
  rw [checkSets, mem_setTried_foldl]
  simp only [mem_sorted_iff, Finset.notMem_empty, false_or]

theorem lookup_mapNew : man.checkSets.mapNew.lookup n = some nRefCount ↔
    ∃ info, man.mapInfo.lookup n = some info ∧ info.fInTried = false ∧
      info.nRefCount = nRefCount := by
  rw [checkSets, lookup_mapNew_foldl]
  · simp only [mem_sorted_iff, AList.lookup_empty, reduceCtorEq, false_or]
  · exact (perm_nodupKeys (perm_insertionSort _ _)).2 man.mapInfo.nodupKeys
  · exact fun row _ => AList.notMem_empty row.1

theorem card_setTried : man.checkSets.setTried.card = tally CAddrInfo.fInTried man.mapInfo := by
  rw [← Finset.length_toList]
  apply length_eq_tally (Finset.nodup_toList _)
  intro n
  rw [Finset.mem_toList, mem_setTried, map_eq_some_iff]

theorem length_mapNew : man.checkSets.mapNew.entries.length =
    tally (fun info => !info.fInTried) man.mapInfo := by
  have hkeys : man.checkSets.mapNew.keys.length = man.checkSets.mapNew.entries.length :=
    length_map ..
  rw [← hkeys]
  apply length_eq_tally man.checkSets.mapNew.keys_nodup
  intro n
  change n ∈ man.checkSets.mapNew ↔ _
  rw [mem_iff, map_eq_some_iff]
  simp only [lookup_mapNew, Bool.not_eq_true']
  grind

/-- The random order is as long as there are entries. -/
theorem Random.length_eq (hrand : man.Random) :
    man.vRandom.length = man.mapInfo.entries.length := by
  apply length_eq_of_mem_iff
  · rw [nodup_iff_getElem?_ne_getElem?]
    intro pos other hlt ho heq
    have hsome := List.getElem?_eq_getElem ho
    have hpos := (hrand.positions pos _).1 (heq.trans hsome)
    rw [(hrand.positions other _).1 hsome, Option.some.injEq] at hpos
    omega
  · intro n
    rw [mem_iff_getElem?]
    constructor
    · rintro ⟨pos, hpos⟩
      exact hrand.mem hpos
    · intro hmem
      obtain ⟨info, hinfo⟩ := mem_iff.1 hmem
      refine ⟨info.nRandomPos.toNat, (hrand.positions _ n).2 ?_⟩
      rw [hinfo, map_some, Int.toNat_of_nonneg (hrand.nonneg n info hinfo)]

/-- The loop over "tried" finds each tried entry once. -/
theorem TriedTable.foldlM_checkTried (htried : man.TriedTable hash) {places : List TriedPlace}
    (hnd : places.Nodup) {setTried : Finset ℤ}
    (hset : ∀ n, n ∈ setTried ↔ n ≠ -1 ∧ ∃ place ∈ places, man.vvTried place = n) :
    places.foldlM (man.checkTried hash) setTried = .ok ∅ := by
  induction places generalizing setTried with
  | nil =>
    have hempty : setTried = ∅ := by
      ext n
      simp [hset]
    rw [hempty]
    rfl
  | cons place places ih =>
    obtain ⟨hplace, hrest⟩ := nodup_cons.1 hnd
    rw [foldlM_cons, bind_ok_iff]
    by_cases hempty : man.vvTried place = -1
    · refine ⟨setTried, if_pos hempty, ih hrest fun n => ?_⟩
      grind
    · obtain ⟨info, hinfo, -, hat⟩ := (htried.places place _ hempty).1 rfl
      have honce : ∀ other ∈ places, man.vvTried other ≠ man.vvTried place := by
        intro other ho heq
        obtain ⟨found, hf, -, hthere⟩ := (htried.places other _ hempty).1 heq
        rw [hinfo] at hf
        cases hf
        exact hplace (hat ▸ hthere.symm ▸ ho)
      refine ⟨setTried.erase (man.vvTried place), ?_, ih hrest fun n => ?_⟩
      · have hmem : man.vvTried place ∈ setTried := (hset _).2 ⟨hempty, place, mem_cons_self, rfl⟩
        have hbucket : hash.triedBucket man.nKey info.service = place.1 := congrArg Prod.fst hat
        have hposition : hash.bucketPosition man.nKey false place.1 info.service = place.2 := by
          rw [← hbucket]
          exact congrArg Prod.snd hat
        simp only [checkTried, hempty, hmem, hinfo, hbucket, hposition, if_false, decide_true,
          any_some, beq_self_eq_true, require, if_true]
        rfl
      · grind

/-- The loop over "new" finds each reference once. -/
theorem NewTable.foldlM_checkNew (hnew : man.NewTable hash loose extra) {places : List NewPlace}
    {mapNew : Rows ℤ ℤ} (hmap : ∀ n, mapNew.lookup n =
      if n ≠ -1 ∧ 0 < places.countP (man.vvNew · = n) then
        some (places.countP (man.vvNew · = n) : ℤ)
      else none) :
    ∃ last, places.foldlM (man.checkNew hash) mapNew = .ok last ∧ last.entries.length = 0 := by
  induction places generalizing mapNew with
  | nil =>
    refine ⟨mapNew, rfl, ?_⟩
    symm
    apply @Table.length_eq_of_mem_iff _ _ _ mapNew [] nodup_nil
    intro n
    rw [← AList.lookup_isSome, hmap]
    simp
  | cons place places ih =>
    rw [foldlM_cons]
    by_cases hempty : man.vvNew place = -1
    · have hstep : man.checkNew hash mapNew place = .ok mapNew := if_pos hempty
      rw [hstep]
      apply ih
      intro n
      grind
    · obtain ⟨info, hinfo, -, hat⟩ := hnew.places place _ hempty rfl
      have hposition : hash.bucketPosition man.nKey true place.1 info.service = place.2 :=
        congrArg Prod.snd hat
      have hheld := hmap (man.vvNew place)
      rw [countP_cons_of_pos (by simp), if_pos ⟨hempty, Nat.succ_pos _⟩] at hheld
      have hstep : man.checkNew hash mapNew place = .ok
          (if places.countP (man.vvNew · = man.vvNew place) = 0 then
            mapNew.erase (man.vvNew place)
          else mapNew.insert (man.vvNew place)
            (places.countP (man.vvNew · = man.vvNew place))) := by
        simp only [checkNew, hempty, hheld, hinfo, hposition, if_false, any_some,
          beq_self_eq_true, require, if_true, Nat.cast_add, Nat.cast_one,
          add_sub_cancel_right, Nat.cast_eq_zero]
        rfl
      rw [hstep]
      apply ih
      intro n
      have hthere := hmap n
      by_cases hn : n = man.vvNew place
      · subst hn
        split
        · next hno => rw [lookup_erase, if_pos rfl, if_neg (by omega)]
        · next hsome =>
          rw [lookup_insert, if_pos rfl, if_pos ⟨hempty, Nat.pos_of_ne_zero hsome⟩]
      · rw [countP_cons_of_neg (by simpa using Ne.symm hn)] at hthere
        rw [← hthere]
        split
        · rw [lookup_erase, if_neg hn]
        · rw [lookup_insert, if_neg hn]

theorem nodup_triedPlaces : triedPlaces.Nodup :=
  (nodup_finRange _).product (nodup_finRange _)

theorem mem_triedPlaces (place : TriedPlace) : place ∈ triedPlaces :=
  mem_product.2 ⟨mem_finRange _, mem_finRange _⟩

theorem nodup_newPlaces : newPlaces.Nodup :=
  (nodup_finRange _).product (nodup_finRange _)

theorem mem_newPlaces (place : NewPlace) : place ∈ newPlaces :=
  mem_product.2 ⟨mem_finRange _, mem_finRange _⟩

theorem Tables.foldlM_checkTried (htabs : man.Tables hash loose extra) :
    triedPlaces.foldlM (man.checkTried hash) man.checkSets.setTried = .ok ∅ := by
  apply htabs.tried.foldlM_checkTried nodup_triedPlaces
  intro n
  rw [mem_setTried]
  constructor
  · rintro ⟨info, hinfo, hin⟩
    have hn := htabs.nId_ne hinfo
    exact ⟨hn, _, mem_triedPlaces _, (htabs.tried.places _ n hn).2 ⟨info, hinfo, hin, rfl⟩⟩
  · rintro ⟨hn, place, -, hplace⟩
    obtain ⟨info, hinfo, hin, -⟩ := (htabs.tried.places place n hn).1 hplace
    exact ⟨info, hinfo, hin⟩

theorem Tables.length_vRandom (htabs : man.Tables hash loose 0) :
    (man.vRandom.length : ℤ) = man.nTried + man.nNew := by
  have hsplit := tally_add_tally_not CAddrInfo.fInTried man.mapInfo
  have hnew := htabs.new.count
  rw [htabs.random.length_eq, htabs.tried.count]
  omega

section

variable (htabs : man.Tables hash (fun _ => False) 0)

include htabs

theorem Tables.foldlM_checkNew :
    ∃ last, newPlaces.foldlM (man.checkNew hash) man.checkSets.mapNew = .ok last ∧
      last.entries.length = 0 := by
  apply htabs.new.foldlM_checkNew
  intro n
  have hcount := Slots.count_eq_countP nodup_newPlaces mem_newPlaces man.vvNew n
  split_ifs with hheld
  · rw [lookup_mapNew]
    obtain ⟨place, -, hplace⟩ := countP_pos_iff.1 hheld.2
    obtain ⟨info, hinfo, hout, -⟩ := htabs.new.places place n hheld.1 (of_decide_eq_true hplace)
    exact ⟨info, hinfo, hout, (htabs.new.refs n info hinfo).trans hcount⟩
  · rw [eq_none_iff_forall_ne_some]
    intro nRefCount hsome
    obtain ⟨info, hinfo, hout, -⟩ := lookup_mapNew.1 hsome
    have hpos := (htabs.new.bounds n info hinfo hout).2 id
    rw [htabs.new.refs n info hinfo, hcount] at hpos
    exact hheld ⟨htabs.nId_ne hinfo, Int.natCast_pos.1 hpos⟩

/-- The entries in order of number pass if recorded. -/
theorem Tables.checkEntries_iff :
    (∀ row ∈ man.mapInfo.entries.insertionSort (fun row other => row.1 ≤ other.1),
      man.checkEntry row.1 row.2 = .ok ()) ↔
      ∀ n info, man.mapInfo.lookup n = some info → man.Recorded n info := by
  constructor
  · intro hall n info hinfo
    exact (htabs.checkEntry_iff hinfo).1 (hall ⟨n, info⟩ (mem_sorted_iff.2 hinfo))
  · rintro hall ⟨n, info⟩ hrow
    have hinfo := mem_sorted_iff.1 hrow
    exact (htabs.checkEntry_iff hinfo).2 (hall n info hinfo)

/-- With agreeing tables and recorded entries only the key is left to check. -/
theorem Tables.check_eq
    (hrecorded : ∀ n info, man.mapInfo.lookup n = some info → man.Recorded n info) :
    man.check hash = require (!man.nKey.isNull) (-16) := by
  obtain ⟨last, hlast, hno⟩ := htabs.foldlM_checkNew
  have hloop := foldlM_guard_ok_iff.2
    ⟨htabs.checkEntries_iff.2 hrecorded, (rfl : man.checkSets = _)⟩
  have hnew := htabs.new.count
  rw [add_zero] at hnew
  have hcard : ((man.checkSets.setTried.card : ℤ) == man.nTried) = true := by
    simp [card_setTried, htabs.tried.count]
  have hlen : ((man.checkSets.mapNew.entries.length : ℤ) == man.nNew) = true := by
    simp [length_mapNew, hnew]
  have hall : ((man.vRandom.length : ℤ) == man.nTried + man.nNew) = true := by
    simp [htabs.length_vRandom]
  simp only [check, hall, hloop, hcard, hlen, htabs.foldlM_checkTried, hlast, hno,
    require_true, ok_bind, Finset.card_empty, beq_self_eq_true]

end

end CAddrMan

end Catoshi
