/-
What the tables of the address manager share with its entries, and how each write keeps or breaks
it.
-/
import Catoshi.Lib.Tally
import Catoshi.AddrMan

namespace Catoshi

open Table CAddrInfo

namespace CAddrMan

variable {hash : BucketHash} {loose : ℤ → Prop} {extra : ℤ} {man man' : CAddrMan} {nId : ℤ}
  {info : CAddrInfo}

theorem lookup_modifyInfo (change : CAddrInfo → CAddrInfo) (other : ℤ) :
    (man.modifyInfo nId change).mapInfo.lookup other =
      if other = nId then (man.mapInfo.lookup other).map change else man.mapInfo.lookup other :=
  lookup_modify nId change man.mapInfo other

theorem lookup_modifyInfo_self (hinfo : man.mapInfo.lookup nId = some info)
    (change : CAddrInfo → CAddrInfo) :
    (man.modifyInfo nId change).mapInfo.lookup nId = some (change info) := by
  rw [lookup_modifyInfo, if_pos rfl, hinfo, Option.map_some]

variable {further : ℤ} {β : Type} {looser : ℤ → Prop} {change : CAddrInfo → CAddrInfo}

/-- The entry before a write to one of its fields. -/
theorem exists_of_modifyInfo {other : ℤ} {found : CAddrInfo}
    (hf : (man.modifyInfo nId change).mapInfo.lookup other = some found) :
    ∃ info, man.mapInfo.lookup other = some info ∧
      found = if other = nId then change info else info := by
  rw [lookup_modifyInfo] at hf
  split_ifs at hf with heq
  · obtain ⟨info, hinfo, hsame⟩ := Option.map_eq_some_iff.1 hf
    exact ⟨info, hinfo, by rw [if_pos heq, hsame]⟩
  · exact ⟨found, hf, by rw [if_neg heq]⟩

/-- The entries of two address managers agree in `part`. -/
def Alike {β : Type} (part : CAddrInfo → β) (man man' : CAddrMan) : Prop :=
  ∀ nId, (man'.mapInfo.lookup nId).map part = (man.mapInfo.lookup nId).map part

section

variable {part : CAddrInfo → β}

theorem alike_modifyInfo (hpart : ∀ info, part (change info) = part info)
    (man : CAddrMan) (nId : ℤ) :
    Alike part man (man.modifyInfo nId change) := by
  intro other
  rw [lookup_modifyInfo]
  split
  · rw [Option.map_map]
    congr 1
    exact funext hpart
  · rfl

theorem Alike.comp {γ : Type} {part : CAddrInfo → β} (halike : Alike part man man') (less : β → γ) :
    Alike (less ∘ part) man man' := by
  intro nId
  rw [← Option.map_map, ← Option.map_map, halike nId]

theorem Alike.exists (halike : Alike part man man') {found : CAddrInfo}
    (hf : man'.mapInfo.lookup nId = some found) :
    ∃ info, man.mapInfo.lookup nId = some info ∧ part info = part found := by
  have hsame := halike nId
  rw [hf] at hsame
  obtain ⟨info, hinfo, hpart⟩ := Option.map_eq_some_iff.1 hsame.symm
  exact ⟨info, hinfo, hpart⟩

theorem Alike.symm (halike : Alike part man man') : Alike part man' man :=
  fun nId => (halike nId).symm

theorem Alike.trans {last : CAddrMan} (hfst : Alike part man man')
    (hsnd : Alike part man' last) : Alike part man last :=
  fun nId => (hsnd nId).trans (hfst nId)

theorem triedPlace_congr (hkey : man'.nKey = man.nKey) :
    man'.triedPlace hash = man.triedPlace hash := by
  funext service
  rw [triedPlace, triedPlace, hkey]

theorem newPlace_congr (hkey : man'.nKey = man.nKey) : man'.newPlace hash = man.newPlace hash := by
  funext service bucket
  rw [newPlace, newPlace, hkey]

/-- `vRandom` holds every entry at its position. -/
structure Random (man : CAddrMan) : Prop where
  positions : ∀ (pos : ℕ) nId, man.vRandom[pos]? = some nId ↔
    (man.mapInfo.lookup nId).map nRandomPos = some (pos : ℤ)
  nonneg : ∀ nId info, man.mapInfo.lookup nId = some info → 0 ≤ info.nRandomPos

/-- The "tried" table holds just the tried entries, each at its one place. -/
structure TriedTable (hash : BucketHash) (man : CAddrMan) : Prop where
  places : ∀ place nId, nId ≠ -1 → (man.vvTried place = nId ↔
    ∃ info, man.mapInfo.lookup nId = some info ∧ info.fInTried = true ∧
      man.triedPlace hash info.service = place)
  count : man.nTried = tally fInTried man.mapInfo

/-- The "new" table holds entries not tried, at their positions, and they count their places. The
loose ones may have none; `nNew` does not count `extra`. -/
structure NewTable (hash : BucketHash) (loose : ℤ → Prop) (extra : ℤ) (man : CAddrMan) :
    Prop where
  places : ∀ place nId, nId ≠ -1 → man.vvNew place = nId →
    ∃ info, man.mapInfo.lookup nId = some info ∧ info.fInTried = false ∧
      man.newPlace hash info.service place.1 = place
  refs : ∀ nId info, man.mapInfo.lookup nId = some info → info.nRefCount = Slots.count man.vvNew nId
  bounds : ∀ nId info, man.mapInfo.lookup nId = some info → info.fInTried = false →
    info.nRefCount ≤ addrmanNewBucketsPerAddress ∧ (¬loose nId → 0 < info.nRefCount)
  count : man.nNew + extra = tally (fun info => !info.fInTried) man.mapInfo

/-- The tables agree with the entries. -/
structure Tables (hash : BucketHash) (loose : ℤ → Prop) (extra : ℤ) (man : CAddrMan) : Prop where
  idCount : 0 ≤ man.nIdCount
  ids : ∀ nId ∈ man.mapInfo, 0 ≤ nId ∧ nId < man.nIdCount
  random : man.Random
  tried : man.TriedTable hash
  new : man.NewTable hash loose extra

theorem Random.congr (hrand : man.Random) (hvector : man'.vRandom = man.vRandom)
    (halike : Alike nRandomPos man man') : man'.Random where
  positions pos nId := by
    rw [hvector, halike]
    exact hrand.positions pos nId
  nonneg nId found hf := by
    obtain ⟨info, hinfo, hsame⟩ := halike.exists hf
    exact hsame ▸ hrand.nonneg nId info hinfo

theorem TriedTable.congr (htried : man.TriedTable hash) (hkey : man'.nKey = man.nKey)
    (htable : man'.vvTried = man.vvTried) (hcount : man'.nTried = man.nTried)
    (halike : Alike (fun info => (info.fInTried, info.service)) man man') :
    man'.TriedTable hash where
  places place nId hnId := by
    rw [htable, htried.places place nId hnId]
    simp only [triedPlace, hkey]
    constructor
    · rintro ⟨info, hinfo, hin, hplace⟩
      obtain ⟨found, hf, hsame⟩ := halike.symm.exists hinfo
      obtain ⟨hflag, hserv⟩ := Prod.mk.inj hsame
      exact ⟨found, hf, hflag.trans hin, hserv ▸ hplace⟩
    · rintro ⟨found, hf, hin, hplace⟩
      obtain ⟨info, hinfo, hsame⟩ := halike.exists hf
      obtain ⟨hflag, hserv⟩ := Prod.mk.inj hsame
      exact ⟨info, hinfo, hflag.trans hin, hserv ▸ hplace⟩
  count := by
    rw [hcount, htried.count]
    exact congrArg Nat.cast (tally_congr (halike.comp Prod.fst)).symm

theorem NewTable.congr (hnew : man.NewTable hash loose extra) (hkey : man'.nKey = man.nKey)
    (htable : man'.vvNew = man.vvNew) (hcount : man'.nNew = man.nNew)
    (halike : Alike (fun info => (info.fInTried, info.service, info.nRefCount)) man man') :
    man'.NewTable hash loose extra where
  places place nId hnId hplace := by
    rw [htable] at hplace
    obtain ⟨info, hinfo, hout, hposition⟩ := hnew.places place nId hnId hplace
    obtain ⟨found, hf, hsame⟩ := halike.symm.exists hinfo
    simp only [Prod.mk.injEq] at hsame
    refine ⟨found, hf, hsame.1.trans hout, ?_⟩
    rw [newPlace, hkey, hsame.2.1]
    exact hposition
  refs nId found hf := by
    obtain ⟨info, hinfo, hsame⟩ := halike.exists hf
    simp only [Prod.mk.injEq] at hsame
    rw [htable, ← hnew.refs nId info hinfo, hsame.2.2]
  bounds nId found hf hout := by
    obtain ⟨info, hinfo, hsame⟩ := halike.exists hf
    simp only [Prod.mk.injEq] at hsame
    rw [← hsame.2.2]
    exact hnew.bounds nId info hinfo (hsame.1.trans hout)
  count := by
    rw [hcount, hnew.count]
    exact congrArg Nat.cast (tally_congr (halike.comp fun part => !part.1)).symm

theorem NewTable.restrict (hnew : man.NewTable hash loose extra)
    (hloose : ∀ nId info, man.mapInfo.lookup nId = some info → info.fInTried = false →
      loose nId → looser nId ∨ 0 < info.nRefCount) : man.NewTable hash looser extra where
  places := hnew.places
  refs := hnew.refs
  bounds nId info hinfo hout := by
    obtain ⟨hmost, hsome⟩ := hnew.bounds nId info hinfo hout
    refine ⟨hmost, fun hnot => ?_⟩
    by_cases hpre : loose nId
    · exact (hloose nId info hinfo hout hpre).resolve_left hnot
    · exact hsome hpre
  count := hnew.count

/-- An entry without references is at no place. -/
theorem NewTable.not_placed (hnew : man.NewTable hash loose extra)
    (hinfo : man.mapInfo.lookup nId = some info) (hrefs : info.nRefCount = 0) (place : NewPlace) :
    man.vvNew place ≠ nId := by
  intro hplace
  have hpos := Slots.count_pos hplace
  rw [← hnew.refs nId info hinfo, hrefs] at hpos
  exact absurd hpos (lt_irrefl _)

end

section

variable (htabs : man.Tables hash loose extra)

include htabs

theorem Tables.restrict
    (hloose : ∀ nId info, man.mapInfo.lookup nId = some info → info.fInTried = false →
      loose nId → looser nId ∨ 0 < info.nRefCount) : man.Tables hash looser extra :=
  { htabs with new := htabs.new.restrict hloose }

theorem Tables.nId_ne (hinfo : man.mapInfo.lookup nId = some info) : nId ≠ -1 := by
  have hnonneg := (htabs.ids nId (mem_of_lookup hinfo)).1
  omega

/-- A tried entry has no references. -/
theorem Tables.refs_of_tried
    (hinfo : man.mapInfo.lookup nId = some info) (hin : info.fInTried = true) :
    info.nRefCount = 0 := by
  rw [htabs.new.refs nId info hinfo]
  apply Slots.count_eq_zero
  intro place hplace
  obtain ⟨found, hf, hout, -⟩ := htabs.new.places place nId (htabs.nId_ne hinfo) hplace
  rw [hinfo] at hf
  cases hf
  rw [hin] at hout
  cases hout

/-- A write to fields that the tables do not depend on. -/
theorem Tables.modifyInfo
    (hpos : ∀ info, (change info).nRandomPos = info.nRandomPos)
    (hsame : ∀ info, ((change info).fInTried, (change info).service, (change info).nRefCount) =
      (info.fInTried, info.service, info.nRefCount)) (nId : ℤ) :
    (man.modifyInfo nId change).Tables hash loose extra := by
  have halike : Alike (fun info => (info.fInTried, info.service, info.nRefCount)) man
    (man.modifyInfo nId change) := alike_modifyInfo hsame man nId
  exact ⟨htabs.idCount, fun other ho => htabs.ids other (mem_modify.1 ho),
    htabs.random.congr rfl (alike_modifyInfo hpos man nId),
    htabs.tried.congr rfl rfl rfl (halike.comp fun part => (part.1, part.2.1)),
    htabs.new.congr rfl rfl rfl halike⟩

/-- The count of new entries is written, and so how many it leaves out. -/
theorem Tables.recount {nNew : ℤ} (hcount : nNew + further = man.nNew + extra) :
    Tables hash loose further { man with nNew := nNew } where
  idCount := htabs.idCount
  ids := htabs.ids
  random := ⟨htabs.random.positions, htabs.random.nonneg⟩
  tried := ⟨htabs.tried.places, htabs.tried.count⟩
  new := ⟨htabs.new.places, htabs.new.refs, htabs.new.bounds, hcount.trans htabs.new.count⟩

end

/-- A place of "new" is written, and the entries count it. -/
theorem NewTable.write {place : NewPlace} {next : ℤ} (hnew : man.NewTable hash loose extra)
    (hkey : man'.nKey = man.nKey) (htable : man'.vvNew = Function.update man.vvNew place next)
    (halike : Alike (fun info => (info.fInTried, info.service)) man man')
    (hnext : next ≠ -1 → ∃ info, man.mapInfo.lookup next = some info ∧ info.fInTried = false ∧
      man.newPlace hash info.service place.1 = place)
    (hrefs : ∀ nId found, man'.mapInfo.lookup nId = some found →
      ∃ info, man.mapInfo.lookup nId = some info ∧
        found.nRefCount + (if man.vvNew place = nId then 1 else 0) =
          info.nRefCount + if next = nId then 1 else 0)
    (hbounds : ∀ nId found, man'.mapInfo.lookup nId = some found → found.fInTried = false →
      found.nRefCount ≤ addrmanNewBucketsPerAddress ∧ (¬looser nId → 0 < found.nRefCount))
    (hcount : man'.nNew + further = man.nNew + extra) : man'.NewTable hash looser further where
  places other nId hnId ho := by
    have hthere : ∃ info, man.mapInfo.lookup nId = some info ∧ info.fInTried = false ∧
        man.newPlace hash info.service other.1 = other := by
      rw [htable, Function.update_apply] at ho
      split_ifs at ho with heq
      · subst heq ho
        exact hnext hnId
      · exact hnew.places other nId hnId ho
    obtain ⟨info, hinfo, hout, hposition⟩ := hthere
    obtain ⟨found, hf, hsame⟩ := halike.symm.exists hinfo
    obtain ⟨hflag, hserv⟩ := Prod.mk.inj hsame
    refine ⟨found, hf, hflag.trans hout, ?_⟩
    rw [newPlace, hkey, hserv]
    exact hposition
  refs nId found hf := by
    obtain ⟨info, hinfo, hchange⟩ := hrefs nId found hf
    have hupd := Slots.count_update man.vvNew place next nId
    have hpre := hnew.refs nId info hinfo
    rw [htable]
    omega
  bounds := hbounds
  count := by
    rw [hcount, hnew.count]
    exact congrArg Nat.cast (tally_congr (halike.comp fun part => !part.1)).symm

section Places

variable {place : NewPlace}

theorem alike_vacate {part : CAddrInfo → β}
    (hpart : ∀ info, part { info with nRefCount := info.nRefCount - 1 } = part info) :
    Alike part man (man.vacate place nId) :=
  fun other => alike_modifyInfo hpart man nId other

theorem alike_occupy {part : CAddrInfo → β}
    (hpart : ∀ info, part { info with nRefCount := info.nRefCount + 1 } = part info) :
    Alike part man (man.occupy place nId) :=
  fun other => alike_modifyInfo hpart man nId other

section

variable (htabs : man.Tables hash loose extra) (hinfo : man.mapInfo.lookup nId = some info)
  (hout : info.fInTried = false)

include htabs hinfo hout

omit hinfo hout in
/-- An entry loses a place of "new", perhaps its last. -/
theorem Tables.vacate (hplace : man.vvNew place = nId) :
    (man.vacate place nId).Tables hash (fun other => loose other ∨ other = nId) extra where
  idCount := htabs.idCount
  ids other ho := htabs.ids other (mem_modify.1 ho)
  random := htabs.random.congr rfl (alike_vacate fun _ => rfl)
  tried := htabs.tried.congr rfl rfl rfl (alike_vacate fun _ => rfl)
  new := by
    refine htabs.new.write rfl rfl (alike_vacate fun _ => rfl) (fun h => absurd rfl h) ?_ ?_ rfl
    · intro other found hf
      obtain ⟨info, hinfo, rfl⟩ := exists_of_modifyInfo hf
      refine ⟨info, hinfo, ?_⟩
      rw [hplace, if_neg (Ne.symm (htabs.nId_ne hinfo))]
      by_cases heq : nId = other
      · simp [heq]
      · simp [heq, Ne.symm heq]
    · intro other found hf hout
      obtain ⟨info, hinfo, rfl⟩ := exists_of_modifyInfo hf
      by_cases heq : other = nId
      · rw [if_pos heq] at hout ⊢
        have hbounds := htabs.new.bounds other info hinfo hout
        dsimp only
        omega
      · rw [if_neg heq] at hout ⊢
        have hbounds := htabs.new.bounds other info hinfo hout
        exact ⟨hbounds.1, fun hnot => hbounds.2 fun hloose => hnot (.inl hloose)⟩

/-- An entry gets a place of the "new" table. -/
theorem Tables.occupy (hfew : info.nRefCount < addrmanNewBucketsPerAddress)
    (hempty : man.vvNew place = -1) (hposition : man.newPlace hash info.service place.1 = place) :
    (man.occupy place nId).Tables hash (fun other => loose other ∧ other ≠ nId) extra where
  idCount := htabs.idCount
  ids other ho := htabs.ids other (mem_modify.1 ho)
  random := htabs.random.congr rfl (alike_occupy fun _ => rfl)
  tried := htabs.tried.congr rfl rfl rfl (alike_occupy fun _ => rfl)
  new := by
    refine htabs.new.write rfl rfl (alike_occupy fun _ => rfl)
      (fun _ => ⟨info, hinfo, hout, hposition⟩) ?_ ?_ rfl
    · intro other found hf
      obtain ⟨before, hpre, rfl⟩ := exists_of_modifyInfo hf
      refine ⟨before, hpre, ?_⟩
      rw [hempty, if_neg (Ne.symm (htabs.nId_ne hpre))]
      by_cases heq : nId = other
      · simp [heq]
      · simp [heq, Ne.symm heq]
    · intro other found hf houtside
      obtain ⟨before, hpre, rfl⟩ := exists_of_modifyInfo hf
      by_cases heq : other = nId
      · subst heq
        rw [hinfo] at hpre
        cases hpre
        have hrefs := htabs.new.refs other info hinfo
        have hnonneg := Slots.count_nonneg man.vvNew other
        simp only [if_true]
        exact ⟨by omega, fun _ => by omega⟩
      · rw [if_neg heq] at houtside ⊢
        have hbounds := htabs.new.bounds other before hpre houtside
        exact ⟨hbounds.1, fun hnot => hbounds.2 fun hloose => hnot ⟨hloose, heq⟩⟩

/-- An entry without references enters "new" again and is counted again. -/
theorem Tables.reoccupy (hrefs : info.nRefCount = 0) (hempty : man.vvNew place = -1)
    (hposition : man.newPlace hash info.service place.1 = place) :
    (man.reoccupy place nId).Tables hash (fun other => loose other ∧ other ≠ nId) (extra - 1) := by
  have hplaced := htabs.occupy hinfo hout (by rw [hrefs]; decide) hempty hposition
  have hsame : man.reoccupy place nId =
      { man.occupy place nId with nNew := man.nNew + 1 } := by
    simp [CAddrMan.reoccupy, CAddrMan.occupy, CAddrMan.modifyInfo, Table.modify, hinfo, hrefs]
  rw [hsame]
  apply hplaced.recount
  change man.nNew + 1 + (extra - 1) = man.nNew + extra
  omega

end

end Places

section Tried

variable {place : TriedPlace} {flag : Bool}

/-- Mark an entry as tried or not. -/
def setInTried (flag : Bool) (info : CAddrInfo) : CAddrInfo :=
  { info with fInTried := flag }

theorem NewTable.reflag (hnew : man.NewTable hash loose extra)
    (hinfo : man.mapInfo.lookup nId = some info) (hrefs : info.nRefCount = 0)
    (hkey : man'.nKey = man.nKey) (htable : man'.vvNew = man.vvNew)
    (hmap : man'.mapInfo = (man.modifyInfo nId (setInTried flag)).mapInfo)
    (hcount : man'.nNew + further = man.nNew + extra - (!info.fInTried).toNat + (!flag).toNat) :
    man'.NewTable hash (fun other => if other = nId then flag = false else loose other)
      further := by
  have hno := hnew.not_placed hinfo hrefs
  refine ⟨fun place held hheld hplace => ?_, fun other found hf => ?_,
    fun other found hf hout => ?_, ?_⟩
  · rw [htable] at hplace
    obtain ⟨before, hpre, hout, hposition⟩ := hnew.places place held hheld hplace
    refine ⟨before, ?_, hout, ?_⟩
    · rw [hmap, lookup_modifyInfo, if_neg, hpre]
      rintro rfl
      exact hno place hplace
    · rw [newPlace, hkey]
      exact hposition
  · rw [hmap] at hf
    obtain ⟨before, hpre, rfl⟩ := exists_of_modifyInfo hf
    have hthen := hnew.refs other before hpre
    rw [htable, ← hthen]
    split <;> rfl
  · rw [hmap] at hf
    obtain ⟨before, hpre, rfl⟩ := exists_of_modifyInfo hf
    split_ifs with heq
    · subst heq
      rw [if_pos rfl] at hout
      rw [hinfo] at hpre
      cases hpre
      refine ⟨?_, fun hnot => absurd hout hnot⟩
      simp only [setInTried, hrefs]
      decide
    · rw [if_neg heq] at hout
      exact hnew.bounds other before hpre hout
  · have htally := tally_modify_of_lookup (fun info : CAddrInfo => !info.fInTried) hinfo
      (setInTried flag)
    rw [hcount, hmap, hnew.count]
    exact htally.symm

theorem TriedTable.reflag (htried : man.TriedTable hash)
    (hinfo : man.mapInfo.lookup nId = some info) (hnId : nId ≠ -1)
    (hposition : man.triedPlace hash info.service = place)
    (hheld : man.vvTried place = if info.fInTried then nId else -1) (hkey : man'.nKey = man.nKey)
    (htable : man'.vvTried = Function.update man.vvTried place (if flag then nId else -1))
    (hmap : man'.mapInfo = (man.modifyInfo nId (setInTried flag)).mapInfo)
    (hcount : man'.nTried = man.nTried - info.fInTried.toNat + flag.toNat) :
    man'.TriedTable hash := by
  refine ⟨fun other held ho => ?_, ?_⟩
  · rw [htable, hmap, lookup_modifyInfo, Function.update_apply, triedPlace_congr hkey]
    have hthere := htried.places other held ho
    by_cases heq : held = nId
    · subst heq
      simp only [hinfo, Option.some.injEq, exists_eq_left', hposition] at hthere
      simp only [if_true, hinfo, Option.map_some, Option.some.injEq, exists_eq_left', setInTried,
        hposition]
      split
      · next hplace => cases flag <;> simp [hplace, hnId.symm]
      · next hplace =>
        exact iff_of_false (fun hat => hplace (hthere.1 hat).2.symm) fun h => hplace h.2.symm
    · rw [if_neg heq, ← hthere]
      split
      · next hplace =>
        rw [hplace, hheld]
        constructor
        all_goals
          split
          · exact fun hsame => absurd hsame.symm heq
          · exact fun hsame => absurd hsame.symm ho
      · exact Iff.rfl
  · have htally := tally_modify_of_lookup fInTried hinfo (setInTried flag)
    rw [hcount, hmap, htried.count]
    exact htally.symm

section

variable (htabs : man.Tables hash loose extra) (hinfo : man.mapInfo.lookup nId = some info)

include htabs hinfo

/-- An entry without references becomes tried, or untried. -/
theorem Tables.reflag (hrefs : info.nRefCount = 0)
    (hposition : man.triedPlace hash info.service = place)
    (hheld : man.vvTried place = if info.fInTried then nId else -1) (flag : Bool) :
    Tables hash (fun other => if other = nId then flag = false else loose other)
      (extra - (!info.fInTried).toNat + (!flag).toNat)
      { man.modifyInfo nId (setInTried flag) with
        vvTried := Function.update man.vvTried place (if flag then nId else -1)
        nTried := man.nTried - info.fInTried.toNat + flag.toNat } := by
  refine ⟨htabs.idCount, fun other ho => htabs.ids other (mem_modify.1 ho), ?_, ?_, ?_⟩
  · refine htabs.random.congr rfl fun other => ?_
    apply alike_modifyInfo
    exact fun _ => rfl
  · exact htabs.tried.reflag hinfo (htabs.nId_ne hinfo) hposition hheld rfl rfl rfl rfl
  · refine htabs.new.reflag hinfo hrefs rfl rfl rfl ?_
    rw [← add_assoc, ← add_sub_assoc]
    rfl

/-- A tried entry leaves its place, counted neither as tried nor as new. -/
theorem Tables.untry (hin : info.fInTried = true)
    (hposition : man.triedPlace hash info.service = place) :
    (man.untry place nId).Tables hash (fun other => loose other ∨ other = nId) (extra + 1) := by
  have hheld := (htabs.tried.places place nId (htabs.nId_ne hinfo)).2 ⟨info, hinfo, hin, hposition⟩
  have hleft := htabs.reflag hinfo (htabs.refs_of_tried hinfo hin) hposition
    (by rw [hin, if_pos rfl, hheld]) false
  simp only [hin, Bool.not_true, Bool.toNat_false, Nat.cast_zero, sub_zero, Bool.toNat_true,
    Bool.not_false, Nat.cast_one, add_zero, Bool.false_eq_true, if_false] at hleft
  apply hleft.restrict
  intro other found _ _ hloose
  left
  split_ifs at hloose with heq
  · exact .inr heq
  · exact .inl hloose

/-- An entry without references enters the "tried" table. -/
theorem Tables.enterTried (hfree : info.fInTried = false) (hrefs : info.nRefCount = 0)
    (hempty : man.vvTried place = -1) (hposition : man.triedPlace hash info.service = place) :
    (man.enterTried place nId).Tables hash (fun other => loose other ∧ other ≠ nId)
      (extra - 1) := by
  have hentered := htabs.reflag hinfo hrefs hposition (by rw [hfree, hempty]; rfl) true
  simp only [hfree, Bool.not_true, Bool.toNat_false, Nat.cast_zero, sub_zero, Bool.toNat_true,
    Bool.not_false, Nat.cast_one, add_zero, if_true] at hentered
  apply hentered.restrict
  intro other found _ _ hloose
  left
  split_ifs at hloose with hne
  exact ⟨hloose, hne⟩

end

end Tried

end CAddrMan

end Catoshi
