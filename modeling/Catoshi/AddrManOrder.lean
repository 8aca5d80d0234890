/-
The random order of the address manager.
-/
import Catoshi.AddrManTables

namespace Catoshi

open CAddrMan Table CAddrInfo

namespace CAddrMan

variable {hash : BucketHash} {loose : ℤ → Prop} {extra : ℤ} {man man' : CAddrMan} {nId : ℤ}
  {info : CAddrInfo}

/-- An entry without its position in the random order. -/
def unposed (info : CAddrInfo) : CAddrInfo :=
  { info with nRandomPos := 0 }

variable {found : CAddrInfo}

theorem eq_of_unposed (hsame : unposed found = unposed info) :
    found.service = info.service ∧ found.fInTried = info.fInTried ∧
      found.nRefCount = info.nRefCount ∧ found.nLastSuccess = info.nLastSuccess := by
  simp only [unposed, CAddrInfo.mk.injEq] at hsame
  tauto

/-- The key, the "tried" table and the count of entries ever made stay. -/
structure Framed (man man' : CAddrMan) : Prop where
  key : man'.nKey = man.nKey
  idCount : man'.nIdCount = man.nIdCount
  tried : man'.vvTried = man.vvTried
  nTried : man'.nTried = man.nTried

theorem Framed.refl (man : CAddrMan) : Framed man man :=
  ⟨rfl, rfl, rfl, rfl⟩

/-- Only the random order differs. -/
structure Reordered (man man' : CAddrMan) : Prop extends Framed man man' where
  addr : man'.mapAddr = man.mapAddr
  new : man'.vvNew = man.vvNew
  nNew : man'.nNew = man.nNew
  alike : Alike unposed man man'

theorem Reordered.refl (man : CAddrMan) : Reordered man man :=
  ⟨.refl man, rfl, rfl, rfl, fun _ => rfl⟩

theorem Reordered.mem_iff (hsame : Reordered man man') :
    nId ∈ man'.mapInfo ↔ nId ∈ man.mapInfo := by
  have hmap := congrArg Option.isSome (hsame.alike nId)
  rw [Option.isSome_map, Option.isSome_map, Bool.eq_iff_iff] at hmap
  rwa [AList.lookup_isSome, AList.lookup_isSome] at hmap

theorem Tables.reorder (htabs : man.Tables hash loose extra) (hsame : Reordered man man')
    (hrand : man'.Random) : man'.Tables hash loose extra where
  idCount := hsame.idCount ▸ htabs.idCount
  ids nId hnId := hsame.idCount ▸ htabs.ids nId (hsame.mem_iff.1 hnId)
  random := hrand
  tried := htabs.tried.congr hsame.key hsame.tried hsame.nTried
    (hsame.alike.comp fun info => (info.fInTried, info.service))
  new := htabs.new.congr hsame.key hsame.new hsame.nNew
    (hsame.alike.comp fun info => (info.fInTried, info.service, info.nRefCount))

theorem Random.mem (hrand : man.Random) {pos : ℕ} (hpos : man.vRandom[pos]? = some nId) :
    nId ∈ man.mapInfo := by
  obtain ⟨info, hinfo, -⟩ := Option.map_eq_some_iff.1 ((hrand.positions pos nId).1 hpos)
  exact mem_of_lookup hinfo

section Swap

variable {pos1 pos2 : ℕ} {nId1 nId2 : ℤ}

theorem alike_swapped : Alike unposed man (man.swapped pos1 pos2 nId1 nId2) := by
  intro other
  rw [swapped, lookup_modify, lookup_modify]
  cases man.mapInfo.lookup other with
  | none => simp
  | some info =>
    split <;> split <;> rfl

theorem swapped_reordered : Reordered man (man.swapped pos1 pos2 nId1 nId2) :=
  ⟨⟨rfl, rfl, rfl, rfl⟩, rfl, rfl, rfl, alike_swapped⟩

/-- Two entries exchange their positions. -/
theorem map_pos_swapped (hfst : nId1 ∈ man.mapInfo) (hsnd : nId2 ∈ man.mapInfo)
    (hids : nId1 ≠ nId2) (nId : ℤ) :
    ((man.swapped pos1 pos2 nId1 nId2).mapInfo.lookup nId).map nRandomPos =
      if nId = nId2 then some (pos1 : ℤ) else if nId = nId1 then some (pos2 : ℤ)
      else (man.mapInfo.lookup nId).map nRandomPos := by
  obtain ⟨info1, hinfo1⟩ := mem_iff.1 hfst
  obtain ⟨info2, hinfo2⟩ := mem_iff.1 hsnd
  rw [swapped, lookup_modify, lookup_modify]
  split
  · next heq =>
    rw [heq, if_neg (Ne.symm hids), hinfo2]
    rfl
  · split_ifs with heq
    · rw [heq, hinfo1]
      rfl
    · rfl

theorem Random.swapped (hrand : man.Random) (hne : pos1 ≠ pos2)
    (hfst : man.vRandom[pos1]? = some nId1) (hsnd : man.vRandom[pos2]? = some nId2) :
    (man.swapped pos1 pos2 nId1 nId2).Random := by
  have hpos1 := (hrand.positions pos1 nId1).1 hfst
  have hpos2 := (hrand.positions pos2 nId2).1 hsnd
  have hids : nId1 ≠ nId2 := by
    rintro rfl
    rw [hpos1, Option.some.injEq, Nat.cast_inj] at hpos2
    exact hne hpos2
  have hmap := @map_pos_swapped man pos1 pos2 nId1 nId2 (hrand.mem hfst) (hrand.mem hsnd) hids
  constructor
  · intro pos nId
    have hthere := hrand.positions pos nId
    have hvector : (man.swapped pos1 pos2 nId1 nId2).vRandom[pos]? =
        if pos = pos2 then some nId1 else if pos = pos1 then some nId2 else man.vRandom[pos]? := by
      obtain ⟨hlt1, -⟩ := List.getElem?_eq_some_iff.1 hfst
      obtain ⟨hlt2, -⟩ := List.getElem?_eq_some_iff.1 hsnd
      rw [CAddrMan.swapped, List.getElem?_set, List.getElem?_set]
      simp only [List.length_set, hlt1, hlt2, if_true, eq_comm]
    grind
  · intro nId found hf
    have hpos := hmap nId
    rw [hf] at hpos
    split at hpos
    · rw [Option.some.inj hpos]
      exact Int.natCast_nonneg pos1
    · split at hpos
      · rw [Option.some.inj hpos]
        exact Int.natCast_nonneg pos2
      · obtain ⟨info, hinfo, hsame⟩ := Option.map_eq_some_iff.1 hpos.symm
        exact hsame ▸ hrand.nonneg nId info hinfo

/-- `SwapRandom` returns for positions of the vector. -/
theorem Random.swapRandom (hrand : man.Random) (hlt1 : pos1 < man.vRandom.length)
    (hlt2 : pos2 < man.vRandom.length) :
    ∃ man', man.swapRandom pos1 pos2 = .ok man' ∧ man'.Random ∧ Reordered man man' ∧
      man'.vRandom.length = man.vRandom.length ∧ man'.vRandom[pos2]? = man.vRandom[pos1]? := by
  by_cases hne : pos1 = pos2
  · refine ⟨man, ?_, hrand, .refl man, rfl, by rw [hne]⟩
    rw [CAddrMan.swapRandom, if_pos (congrArg Nat.cast hne)]
  · have hfst := List.getElem?_eq_getElem hlt1
    have hsnd := List.getElem?_eq_getElem hlt2
    refine ⟨man.swapped pos1 pos2 man.vRandom[pos1] man.vRandom[pos2], ?_,
      hrand.swapped hne hfst hsnd, swapped_reordered, ?_, ?_⟩
    · rw [CAddrMan.swapRandom, if_neg (Nat.cast_injective.ne hne), if_neg (by omega)]
      simp only [Int.toNat_natCast, hfst, hsnd]
      rw [if_pos ⟨hrand.mem hfst, hrand.mem hsnd⟩]
    · simp [CAddrMan.swapped]
    · rw [CAddrMan.swapped, List.getElem?_set_self (by simpa using hlt2), hfst]

end Swap

/-- An entry is deleted, and the random order may differ. -/
structure Dropped (nId : ℤ) (info : CAddrInfo) (man man' : CAddrMan) : Prop
    extends Framed man man' where
  addr : man'.mapAddr = man.mapAddr.erase info.service.ip
  new : man'.vvNew = man.vvNew
  alike : ∀ other, (man'.mapInfo.lookup other).map unposed =
    if other = nId then none else (man.mapInfo.lookup other).map unposed

theorem lookup_of_erase {other : ℤ} (hf : (man.mapInfo.erase nId).lookup other = some found) :
    man.mapInfo.lookup other = some found := by
  rw [lookup_erase] at hf
  split_ifs at hf
  exact hf

/-- The last entry of the random order is deleted. -/
theorem Random.dropLast (hrand : man.Random)
    (hlast : man.vRandom[man.vRandom.length - 1]? = some nId) :
    (man.dropLast nId info).Random := by
  refine ⟨fun pos other => ?_, fun other found hf =>
    hrand.nonneg other found (lookup_of_erase hf)⟩
  have hthere := hrand.positions pos other
  have hend := (hrand.positions _ nId).1 hlast
  change man.vRandom.dropLast[pos]? = _ ↔ _
  rw [List.getElem?_dropLast, CAddrMan.dropLast, Table.lookup_erase]
  by_cases heq : other = nId
  · subst heq
    rw [hend, Option.some.injEq] at hthere
    rw [if_pos rfl]
    split_ifs with hlt
    · exact iff_of_false (fun hat => absurd (hthere.1 hat) (by omega)) nofun
    · exact iff_of_false nofun nofun
  · rw [if_neg heq, ← hthere]
    split_ifs with hge
    · exact Iff.rfl
    · refine iff_of_false nofun fun hat => heq ?_
      obtain ⟨hlt, -⟩ := List.getElem?_eq_some_iff.1 hat
      have hpos : pos = man.vRandom.length - 1 := by omega
      rw [hpos, hlast] at hat
      exact (Option.some.inj hat).symm

/-- What is left without an entry in no table. -/
theorem Tables.dropLast (htabs : man.Tables hash loose extra)
    (hf : man.mapInfo.lookup nId = some found) (hout : found.fInTried = false)
    (hrefs : found.nRefCount = 0) (hlast : man.vRandom[man.vRandom.length - 1]? = some nId) :
    (man.dropLast nId info).Tables hash loose extra where
  idCount := htabs.idCount
  ids other ho := htabs.ids other (AList.mem_erase.1 ho).2
  random := htabs.random.dropLast hlast
  tried := by
    refine ⟨fun place held hheld => ?_, ?_⟩
    · change man.vvTried place = held ↔ ∃ info, (man.mapInfo.erase nId).lookup held = some info ∧ _
      rw [htabs.tried.places place held hheld, lookup_erase]
      split_ifs with heq
      · subst heq
        simp [hf, hout]
      · rfl
    · have htally := tally_erase_of_lookup fInTried hf
      rw [hout, Bool.toNat_false, Nat.cast_zero] at htally
      exact htabs.tried.count.trans htally.symm
  new := by
    have hno := htabs.new.not_placed hf hrefs
    refine ⟨fun place held hheld hplace => ?_, fun other before hpre => ?_,
      fun other before hpre => ?_, ?_⟩
    · obtain ⟨before, hpre, hrest⟩ := htabs.new.places place held hheld hplace
      refine ⟨before, ?_, hrest⟩
      change (man.mapInfo.erase nId).lookup held = some before
      rw [lookup_erase, if_neg, hpre]
      rintro rfl
      exact hno place hplace
    · exact htabs.new.refs other before (lookup_of_erase hpre)
    · exact htabs.new.bounds other before (lookup_of_erase hpre)
    · have htally := tally_erase_of_lookup (fun info : CAddrInfo => !info.fInTried) hf
      have hcount := htabs.new.count
      simp only [hout, Bool.not_false, Bool.toNat_true] at htally
      change man.nNew - 1 + extra = (tally _ (man.mapInfo.erase nId) : ℤ)
      omega

theorem Reordered.dropLast (hsame : Reordered man man') (nId : ℤ) (info : CAddrInfo) :
    Dropped nId info man (man'.dropLast nId info) where
  key := hsame.key
  idCount := hsame.idCount
  tried := hsame.tried
  nTried := hsame.nTried
  addr := by
    rw [← hsame.addr]
    rfl
  new := hsame.new
  alike other := by
    change ((man'.mapInfo.erase nId).lookup other).map unposed = _
    rw [lookup_erase, ← hsame.alike other]
    split <;> rfl

/-- `Delete` of an entry neither tried nor referenced. -/
theorem Random.delete (hrand : man.Random) (hinfo : man.mapInfo.lookup nId = some info)
    (hout : info.fInTried = false) (hrefs : info.nRefCount = 0) :
    ∃ swapped, man.delete nId = .ok (swapped.dropLast nId info) ∧ swapped.Random ∧
      Reordered man swapped ∧
      swapped.vRandom[swapped.vRandom.length - 1]? = some nId := by
  obtain ⟨pos, hpos⟩ := Int.eq_ofNat_of_zero_le (hrand.nonneg nId info hinfo)
  have hat : man.vRandom[pos]? = some nId := by
    rw [hrand.positions, hinfo, Option.map_some, hpos]
  obtain ⟨hlt, -⟩ := List.getElem?_eq_some_iff.1 hat
  have hend : man.vRandom.length - 1 < man.vRandom.length := by omega
  obtain ⟨swapped, hswap, hmoved, hsame, hlen, hlast⟩ := hrand.swapRandom hlt hend
  refine ⟨swapped, ?_, hmoved, hsame, ?_⟩
  · have hcast : ((man.vRandom.length - 1 : ℕ) : ℤ) = man.vRandom.length - 1 := by omega
    rw [hcast] at hswap
    rw [CAddrMan.delete, hinfo]
    simp only [hout, hrefs, hpos, hswap, Outcome.require]
    rfl
  · rw [hlen, hlast, hat]

/-- `Delete` keeps the agreement of the tables. -/
theorem Tables.delete (htabs : man.Tables hash loose extra)
    (hinfo : man.mapInfo.lookup nId = some info) (hout : info.fInTried = false)
    (hrefs : info.nRefCount = 0) :
    ∃ man', man.delete nId = .ok man' ∧ man'.Tables hash loose extra ∧
      Dropped nId info man man' := by
  obtain ⟨swapped, hdelete, hrand, hsame, hlast⟩ := htabs.random.delete hinfo hout hrefs
  obtain ⟨found, hf, hunposed⟩ := hsame.alike.symm.exists hinfo
  obtain ⟨-, hflag, hcount, -⟩ := eq_of_unposed hunposed
  refine ⟨swapped.dropLast nId info, hdelete, ?_, hsame.dropLast nId info⟩
  exact (htabs.reorder hsame hrand).dropLast hf (hflag.trans hout) (hcount.trans hrefs) hlast

theorem Tables.nIdCount_not_mem (htabs : man.Tables hash loose extra) :
    man.nIdCount ∉ man.mapInfo :=
  fun hmem => lt_irrefl _ (htabs.ids _ hmem).2

/-- An entry with a new number is appended to the random order. -/
structure Enrolled (nId : ℤ) (info : CAddrInfo) (man man' : CAddrMan) : Prop where
  key : man'.nKey = man.nKey
  tried : man'.vvTried = man.vvTried
  nTried : man'.nTried = man.nTried
  new : man'.vvNew = man.vvNew
  nNew : man'.nNew = man.nNew
  idCount : man.nIdCount ≤ man'.nIdCount
  entries : man'.mapInfo = man.mapInfo.insert nId info
  order : man'.vRandom = man.vRandom ++ [nId]
  position : info.nRandomPos = man.vRandom.length
  fresh : nId ∉ man.mapInfo

theorem Enrolled.lookup (henrol : Enrolled nId info man man') (other : ℤ) :
    man'.mapInfo.lookup other = if other = nId then some info else man.mapInfo.lookup other := by
  rw [henrol.entries, lookup_insert]

theorem Random.enroll (hrand : man.Random) (henrol : Enrolled nId info man man') : man'.Random := by
  constructor
  · intro pos other
    have hthere := hrand.positions pos other
    rw [henrol.lookup, henrol.order]
    by_cases ho : other = nId
    · subst ho
      rw [AList.lookup_eq_none.2 henrol.fresh] at hthere
      rw [if_pos rfl, Option.map_some, henrol.position, Option.some.injEq]
      grind
    · grind
  · intro other found hf
    rw [henrol.lookup] at hf
    split at hf
    · cases hf
      exact henrol.position ▸ Int.natCast_nonneg _
    · exact hrand.nonneg other found hf

theorem NewTable.enroll (hnew : man.NewTable hash loose extra) (henrol : Enrolled nId info man man')
    (hnId : nId ≠ -1) (hout : info.fInTried = false) (hrefs : info.nRefCount = 0) :
    man'.NewTable hash (fun other => loose other ∨ other = nId) (extra + 1) where
  places place held hheld hplace := by
    rw [henrol.new] at hplace
    obtain ⟨before, hpre, hrest⟩ := hnew.places place held hheld hplace
    rw [newPlace_congr henrol.key]
    refine ⟨before, ?_, hrest⟩
    rw [henrol.lookup, if_neg, hpre]
    rintro rfl
    exact henrol.fresh (mem_of_lookup hpre)
  refs other found hf := by
    rw [henrol.lookup] at hf
    rw [henrol.new]
    split_ifs at hf with heq
    · cases hf
      rw [hrefs, Slots.count_eq_zero]
      intro place hplace
      obtain ⟨before, hpre, -⟩ := hnew.places place other (heq ▸ hnId) hplace
      exact henrol.fresh (mem_of_lookup (heq ▸ hpre))
    · exact hnew.refs other found hf
  bounds other found hf hfree := by
    rw [henrol.lookup] at hf
    split_ifs at hf with heq
    · cases hf
      refine ⟨?_, fun hnot => absurd (.inr heq) hnot⟩
      rw [hrefs]
      decide
    · have hbounds := hnew.bounds other found hf hfree
      exact ⟨hbounds.1, fun hnot => hbounds.2 fun hloose => hnot (.inl hloose)⟩
  count := by
    have htally := tally_insert (fun info : CAddrInfo => !info.fInTried) man.mapInfo nId info
    simp only [share_of_not_mem henrol.fresh, hout, Bool.not_false, Bool.toNat_true] at htally
    have hcount := hnew.count
    rw [henrol.nNew, henrol.entries]
    omega

/-- An entry is made.  It is not yet counted as new. -/
theorem Tables.enroll (htabs : man.Tables hash loose extra)
    (henrol : Enrolled nId info man man') (hnonneg : 0 ≤ nId) (hlt : nId < man'.nIdCount)
    (hout : info.fInTried = false) (hrefs : info.nRefCount = 0) :
    man'.Tables hash (fun other => loose other ∨ other = nId) (extra + 1) where
  idCount := htabs.idCount.trans henrol.idCount
  ids other ho := by
    rw [henrol.entries, AList.mem_insert] at ho
    rcases ho with rfl | hmem
    · exact ⟨hnonneg, hlt⟩
    · have hids := htabs.ids other hmem
      exact ⟨hids.1, hids.2.trans_le henrol.idCount⟩
  random := htabs.random.enroll henrol
  tried := by
    constructor
    · intro place held hheld
      rw [henrol.tried, htabs.tried.places place held hheld, henrol.lookup,
        triedPlace_congr henrol.key]
      split_ifs with heq
      · rw [heq, AList.lookup_eq_none.2 henrol.fresh]
        simp [hout]
      · rfl
    · have htally := tally_insert fInTried man.mapInfo nId info
      rw [share_of_not_mem henrol.fresh, hout] at htally
      rw [henrol.nTried, henrol.entries, htabs.tried.count]
      exact congrArg Nat.cast htally.symm
  new := htabs.new.enroll henrol (by omega) hout hrefs

end CAddrMan

end Catoshi
