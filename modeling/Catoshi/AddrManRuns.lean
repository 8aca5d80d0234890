/-
Runs of the address manager: every call returns and keeps tables and entries in agreement.
-/
import Catoshi.Lib.Runs
import Catoshi.AddrManCheck

namespace Catoshi

open Outcome Table Option

namespace CAddrMan

variable {hash : BucketHash} {nKey : Uint256} {nIds : ℤ} {loose : ℤ → Prop} {extra : ℤ}
  {man man' : CAddrMan} {nId : ℤ} {info : CAddrInfo}

structure Timed (info : CAddrInfo) : Prop where
  succeeded : info.fInTried = true → info.nLastSuccess ≠ 0
  lastTry : 0 ≤ info.nLastTry
  lastSuccess : 0 ≤ info.nLastSuccess

theorem Timed.congr (htimed : Timed info) {found : CAddrInfo}
    (htried : found.fInTried = info.fInTried := by rfl)
    (htry : found.nLastTry = info.nLastTry := by rfl)
    (hsuccess : found.nLastSuccess = info.nLastSuccess := by rfl) : Timed found :=
  ⟨fun hin => hsuccess ▸ htimed.succeeded (htried ▸ hin), htry ▸ htimed.lastTry,
    hsuccess ▸ htimed.lastSuccess⟩

/-- A write to fields that the tables do not depend on. -/
structure Aside (change : CAddrInfo → CAddrInfo) : Prop where
  pos : ∀ info, (change info).nRandomPos = info.nRandomPos := by intros; rfl
  same : ∀ info, ((change info).fInTried, (change info).service, (change info).nRefCount) =
    (info.fInTried, info.service, info.nRefCount) := by intros; rfl
  timed : ∀ info, Timed info → Timed (change info)

def ipOf (man : CAddrMan) (nId : ℤ) : Option CNetAddr :=
  (man.mapInfo.lookup nId).map fun info => info.service.ip

/-- `mapAddr` finds every entry, and all times are possible. -/
structure Records (man : CAddrMan) : Prop where
  addr : Table.Inverse man.mapAddr man.ipOf
  timed : ∀ nId info, man.mapInfo.lookup nId = some info → Timed info

theorem Records.recorded (hrecs : man.Records) (hinfo : man.mapInfo.lookup nId = some info) :
    man.Recorded nId info := by
  have htimed := hrecs.timed nId info hinfo
  have hip : man.ipOf nId = some info.service.ip := by rw [ipOf, hinfo, map_some]
  refine ⟨htimed.succeeded, ?_, htimed.lastTry, htimed.lastSuccess⟩
  rw [(hrecs.addr _ _).2 hip, getD_some]

/-- An entry is changed, but not its address. -/
theorem Records.modify (hrecs : man.Records) {change : CAddrInfo → CAddrInfo} (man' : CAddrMan)
    (haddr : man'.mapAddr = man.mapAddr) (hmap : man'.mapInfo = (man.modifyInfo nId change).mapInfo)
    (hip : ∀ info, (change info).service.ip = info.service.ip)
    (htimed : ∀ info, man.mapInfo.lookup nId = some info → Timed info → Timed (change info)) :
    man'.Records where
  addr := by
    rw [haddr]
    apply hrecs.addr.congr
    intro other
    rw [ipOf, hmap]
    exact alike_modifyInfo (fun info => hip info) man nId other
  timed other found hf := by
    rw [hmap] at hf
    obtain ⟨before, hpre, rfl⟩ := exists_of_modifyInfo hf
    have hthen := hrecs.timed other before hpre
    split_ifs with heq
    · exact htimed before (heq ▸ hpre) hthen
    · exact hthen

variable {found : CAddrInfo} {place : NewPlace} {addr : CNetAddr} {nTime : ℤ}

theorem Timed.of_unposed (htimed : Timed info) (hsame : unposed info = unposed found) :
    Timed found := by
  have hunposed : Timed (unposed info) := htimed.congr
  rw [hsame] at hunposed
  exact hunposed.congr

theorem Records.reorder (hrecs : man.Records) (hsame : Reordered man man') : man'.Records where
  addr := by
    rw [hsame.addr]
    exact hrecs.addr.congr (hsame.alike.comp fun info => info.service.ip)
  timed nId found hf := by
    obtain ⟨info, hinfo, hunposed⟩ := hsame.alike.exists hf
    exact (hrecs.timed nId info hinfo).of_unposed hunposed

/-- An entry is deleted. -/
theorem Records.drop (hrecs : man.Records) (hinfo : man.mapInfo.lookup nId = some info)
    (hdrop : Dropped nId info man man') : man'.Records where
  addr := by
    rw [hdrop.addr]
    have hip : man.ipOf nId = some info.service.ip := by rw [ipOf, hinfo, map_some]
    apply hrecs.addr.erase hip
    intro other
    have hsame := congrArg (Option.map fun info : CAddrInfo => info.service.ip) (hdrop.alike other)
    rw [map_map] at hsame
    refine hsame.trans ?_
    split
    · rfl
    · rw [map_map]
      rfl
  timed other found hf := by
    have hsame := hdrop.alike other
    rw [hf] at hsame
    split at hsame
    · cases hsame
    · obtain ⟨before, hpre, hunposed⟩ := Option.map_eq_some_iff.1 hsame.symm
      exact (hrecs.timed other before hpre).of_unposed hunposed

/-- An entry with a new address is made. -/
theorem Records.enroll (hrecs : man.Records) (henrol : Enrolled nId info man man')
    (haddr : man'.mapAddr = man.mapAddr.insert info.service.ip nId)
    (hip : info.service.ip ∉ man.mapAddr) (htimed : Timed info) : man'.Records where
  addr := by
    rw [haddr]
    apply hrecs.addr.insert _ hip
    · intro other
      rw [ipOf, henrol.lookup]
      split <;> rfl
    · rw [ipOf, AList.lookup_eq_none.2 henrol.fresh, map_none]
  timed other found hf := by
    rw [henrol.lookup] at hf
    split at hf
    · cases hf
      exact htimed
    · exact hrecs.timed other found hf

/-- The tables agree with the entries, which are recorded. At most `nIds` were ever made. -/
structure Sound (hash : BucketHash) (nKey : Uint256) (nIds : ℤ) (loose : ℤ → Prop) (extra : ℤ)
    (man : CAddrMan) : Prop where
  tables : man.Tables hash loose extra
  records : man.Records
  key : man.nKey = nKey
  made : man.nIdCount ≤ nIds

theorem Records.vacate (hrecs : man.Records) : (man.vacate place nId).Records :=
  hrecs.modify _ rfl rfl (fun _ => rfl) fun _ _ htimed => htimed.congr

/-- An entry without its number of references. -/
def unreferenced (info : CAddrInfo) : CAddrInfo :=
  { info with nRefCount := 0 }

theorem eq_of_unreferenced (hsame : unreferenced found = unreferenced info) :
    found.service = info.service ∧ found.fInTried = info.fInTried ∧
      found.nLastSuccess = info.nLastSuccess := by
  simp only [unreferenced, CAddrInfo.mk.injEq] at hsame
  tauto

theorem held_of_vacate {other : NewPlace} (hnId : nId ≠ -1)
    (ho : (man.vacate place nId).vvNew other = nId) :
    other ≠ place ∧ man.vvNew other = nId := by
  change Function.update man.vvNew place (-1) other = nId at ho
  rw [Function.update_apply] at ho
  split_ifs at ho with hne
  · exact absurd ho.symm hnId
  · exact ⟨hne, ho⟩

theorem find_eq_some (hfind : man.find addr = some (nId, info)) :
    man.mapInfo.lookup nId = some info := by
  rw [find] at hfind
  split at hfind
  · cases hfind
  · obtain ⟨found, hf, hpair⟩ := Option.map_eq_some_iff.1 hfind
    cases hpair
    exact hf

/-- `Create` makes a loose entry that is not counted yet. -/
theorem Sound.create (hsound : man.Sound hash nKey nIds (fun _ => False) 0) (addr : CAddress)
    (source : CNetAddr) (hip : addr.service.ip ∉ man.mapAddr) (hfits : nIds + 1 < 2 ^ 31) :
    (man.create addr source).Sound hash nKey (nIds + 1) (· = man.nIdCount) 1 ∧
      (man.create addr source).mapInfo.lookup man.nIdCount =
        some { CAddrInfo.ofAddress addr source with nRandomPos := man.vRandom.length } := by
  have hcount : (man.create addr source).nIdCount = man.nIdCount + 1 := by
    have hnonneg := hsound.tables.idCount
    have hmade := hsound.made
    exact Int.bmod_eq_of_le (by omega) (by omega)
  have henrol : Enrolled man.nIdCount
      { CAddrInfo.ofAddress addr source with nRandomPos := man.vRandom.length } man
      (man.create addr source) :=
    ⟨rfl, rfl, rfl, rfl, rfl, hcount ▸ Int.le_add_one le_rfl, rfl, rfl, rfl,
      hsound.tables.nIdCount_not_mem⟩
  refine ⟨⟨?_, ?_, hsound.key, hcount ▸ Int.add_le_add_right hsound.made 1⟩, ?_⟩
  · have hlt := hcount ▸ lt_add_one man.nIdCount
    apply (hsound.tables.enroll henrol hsound.tables.idCount hlt rfl rfl).restrict
    rintro other - - - (hno | heq)
    · exact hno.elim
    · exact .inl heq
  · exact hsound.records.enroll henrol rfl hip ⟨nofun, le_rfl, le_rfl⟩
  · rw [henrol.lookup, if_pos rfl]

/-- An entry that gets a reference is new and may have one more. -/
theorem few_of_addsReference {addr : CAddress} {nRnd : ℕ}
    (hadds : addsReference addr nRnd info = true) :
    info.fInTried = false ∧ info.nRefCount ≠ addrmanNewBucketsPerAddress := by
  simp only [addsReference, Bool.not_eq_true', Bool.or_eq_false_iff, beq_eq_false_iff_ne] at hadds
  exact ⟨hadds.1.1.2, hadds.1.2⟩

/-- The search returns if every place holds an entry. -/
theorem exists_selectFrom {P : Type} {table : P → ℤ}
    (htable : ∀ place, table place ≠ -1 → table place ∈ man.mapInfo) (visits : List (P × Bool)) :
    ∃ found, selectFrom table man visits = .ok found := by
  induction visits with
  | nil => exact ⟨none, rfl⟩
  | cons visit visits ih =>
    obtain ⟨place, taken⟩ := visit
    rw [selectFrom]
    split
    · exact ih
    · next hsome =>
      obtain ⟨info, hinfo⟩ := mem_iff.1 (htable place hsome)
      rw [hinfo]
      cases taken with
      | true => exact ⟨some info, rfl⟩
      | false => exact ih

theorem Tables.select (htabs : man.Tables hash loose extra) (newOnly coin : Bool)
    (tried : List (TriedPlace × Bool)) (new : List (NewPlace × Bool)) :
    ∃ found, man.select newOnly coin tried new = .ok found := by
  rw [CAddrMan.select]
  split
  · exact ⟨none, rfl⟩
  · split
    · apply exists_selectFrom
      intro place hsome
      obtain ⟨info, hinfo, -⟩ := (htabs.tried.places place _ hsome).1 rfl
      exact mem_of_lookup hinfo
    · apply exists_selectFrom
      intro place hsome
      obtain ⟨info, hinfo, -⟩ := htabs.new.places place _ hsome rfl
      exact mem_of_lookup hinfo

section

variable (hsound : man.Sound hash nKey nIds loose extra)

include hsound

theorem Sound.mono {more : ℤ} (hle : nIds ≤ more) : man.Sound hash nKey more loose extra :=
  ⟨hsound.tables, hsound.records, hsound.key, hsound.made.trans hle⟩

theorem Sound.restrict {looser : ℤ → Prop}
    (hloose : ∀ nId info, man.mapInfo.lookup nId = some info → info.fInTried = false →
      loose nId → looser nId ∨ 0 < info.nRefCount) : man.Sound hash nKey nIds looser extra :=
  ⟨hsound.tables.restrict hloose, hsound.records, hsound.key, hsound.made⟩

theorem Sound.modifyInfo {change : CAddrInfo → CAddrInfo} (haside : Aside change) (nId : ℤ) :
    (man.modifyInfo nId change).Sound hash nKey nIds loose extra := by
  refine ⟨hsound.tables.modifyInfo haside.pos haside.same nId, ?_, hsound.key, hsound.made⟩
  apply hsound.records.modify (man.modifyInfo nId change) rfl rfl
  · intro info
    have hserv := congrArg (fun part => part.2.1.ip) (haside.same info)
    exact hserv
  · exact fun info _ => haside.timed info

theorem Sound.recount {further : ℤ} (nNew : ℤ) (hcount : nNew + further = man.nNew + extra) :
    Sound hash nKey nIds loose further { man with nNew := nNew } :=
  ⟨hsound.tables.recount hcount, ⟨hsound.records.addr, hsound.records.timed⟩, hsound.key,
    hsound.made⟩

/-- What `Delete` leaves. -/
theorem Sound.delete (hinfo : man.mapInfo.lookup nId = some info) (hout : info.fInTried = false)
    (hrefs : info.nRefCount = 0) :
    ∃ man', man.delete nId = .ok man' ∧
      man'.Sound hash nKey nIds (fun other => loose other ∧ other ≠ nId)
      extra ∧ Dropped nId info man man' := by
  obtain ⟨man', hdelete, htabs, hdrop⟩ := hsound.tables.delete hinfo hout hrefs
  refine ⟨man', hdelete, ⟨htabs.restrict ?_, hsound.records.drop hinfo hdrop,
    hdrop.key.trans hsound.key, hdrop.idCount.trans_le hsound.made⟩, hdrop⟩
  intro other found hf _ hloose
  refine .inl ⟨hloose, ?_⟩
  rintro rfl
  have hno := hdrop.alike other
  rw [hf, if_pos rfl] at hno
  cases hno

/-- `ClearNew` empties a place and keeps the other entries. -/
structure Cleared (place : NewPlace) (man man' : CAddrMan) : Prop extends Framed man man' where
  empty : man'.vvNew place = -1
  alike : ∀ other, other ≠ man.vvNew place →
    (man'.mapInfo.lookup other).map unposed = (man.mapInfo.lookup other).map unposed

omit hsound in
theorem Cleared.exists (hcleared : Cleared place man man')
    (hinfo : man.mapInfo.lookup nId = some info) (hne : nId ≠ man.vvNew place) :
    ∃ found, man'.mapInfo.lookup nId = some found ∧ unposed found = unposed info := by
  have hsame := hcleared.alike nId hne
  rw [hinfo] at hsame
  exact Option.map_eq_some_iff.1 hsame

theorem Sound.clearNew (place : NewPlace) :
    ∃ man', man.clearNew place = .ok man' ∧ man'.Sound hash nKey nIds loose extra ∧
      Cleared place man man' := by
  by_cases hempty : man.vvNew place = -1
  · refine ⟨man, if_pos hempty, hsound, .refl man, hempty, fun _ _ => rfl⟩
  · obtain ⟨info, hinfo, hout, -⟩ := hsound.tables.new.places place _ hempty rfl
    have hrefs := hsound.tables.new.refs _ info hinfo
    have hpos := @Slots.count_pos _ _ _ _ man.vvNew _ place rfl
    have hsome : ¬info.nRefCount ≤ 0 := by omega
    have hvacated : (man.vacate place (man.vvNew place)).Sound hash nKey nIds
        (fun other => loose other ∨ other = man.vvNew place) extra :=
      ⟨hsound.tables.vacate rfl, hsound.records.vacate, hsound.key, hsound.made⟩
    have hthere := lookup_modifyInfo_self hinfo
      fun info => { info with nRefCount := info.nRefCount - 1 }
    have hstep : man.clearNew place = if info.nRefCount - 1 = 0 then
        (man.vacate place (man.vvNew place)).delete (man.vvNew place)
      else .ok (man.vacate place (man.vvNew place)) := by
      simp only [CAddrMan.clearNew, if_neg hempty, hinfo, if_neg hsome]
    rw [hstep]
    split_ifs with hlast
    · obtain ⟨man', hdelete, hdeleted, hdrop⟩ := hvacated.delete hthere hout hlast
      refine ⟨man', hdelete, hdeleted.restrict ?_, ?_, ?_, fun other hne => ?_⟩
      · rintro other - - - ⟨hloose | heq, hne⟩
        · exact .inl hloose
        · exact absurd heq hne
      · exact ⟨hdrop.key, hdrop.idCount, hdrop.tried, hdrop.nTried⟩
      · rw [hdrop.new]
        exact Function.update_self ..
      · rw [hdrop.alike, if_neg hne]
        exact congrArg _ ((lookup_modifyInfo _ other).trans (if_neg hne))
    · refine ⟨_, rfl, hvacated.restrict ?_, ⟨rfl, rfl, rfl, rfl⟩, ?_, ?_⟩
      · rintro other found hf - (hloose | heq)
        · exact .inl hloose
        · subst heq
          rw [Option.some.inj (hf.symm.trans hthere)]
          exact .inr (by dsimp only; omega)
      · exact Function.update_self ..
      · intro other hne
        exact congrArg _ ((lookup_modifyInfo _ other).trans (if_neg hne))

/-- Making space in "tried" moves the entry there back to "new". An entry of neither table stays. -/
theorem Sound.evictTried (place : TriedPlace) :
    ∃ man', man.evictTried hash place = .ok man' ∧ man'.Sound hash nKey nIds loose extra ∧
      man'.vvTried place = -1 ∧
      ∀ nId info, man.mapInfo.lookup nId = some info → info.fInTried = false →
        info.nRefCount = 0 →
        ∃ found, man'.mapInfo.lookup nId = some found ∧ unposed found = unposed info := by
  by_cases hempty : man.vvTried place = -1
  · exact ⟨man, if_pos hempty, hsound, hempty, fun nId info hinfo _ _ => ⟨info, hinfo, rfl⟩⟩
  obtain ⟨infoOld, hold, hin, hposition⟩ := (hsound.tables.tried.places place _ hempty).1 rfl
  have hrefs := hsound.tables.refs_of_tried hold hin
  have huntried : (man.untry place (man.vvTried place)).Sound hash nKey nIds
      (fun other => loose other ∨ other = man.vvTried place) (extra + 1) := by
    refine ⟨hsound.tables.untry hold hin hposition, ?_, hsound.key, hsound.made⟩
    apply hsound.records.modify (man.untry place (man.vvTried place)) rfl rfl (fun _ => rfl)
    exact fun _ _ htimed => ⟨nofun, htimed.lastTry, htimed.lastSuccess⟩
  have hout := lookup_modifyInfo_self hold fun info => { info with fInTried := false }
  generalize hplace : man.newPlace hash infoOld.service
    (hash.newBucket man.nKey infoOld.service infoOld.source) = nUPlace
  obtain ⟨cleared, hclear, hcleared, hleft⟩ := huntried.clearNew nUPlace
  have hno := huntried.tables.new.not_placed hout hrefs nUPlace
  obtain ⟨found, hf, hunposed⟩ := hleft.exists hout (Ne.symm hno)
  obtain ⟨hserv, hfree, hcount, -⟩ := eq_of_unposed hunposed
  have hthere : cleared.newPlace hash found.service nUPlace.1 = nUPlace := by
    rw [newPlace_congr hleft.key, hserv, ← hplace]
    rfl
  have hback := hcleared.tables.reoccupy hf hfree (hcount.trans hrefs) hleft.empty hthere
  refine ⟨cleared.reoccupy nUPlace (man.vvTried place), ?_,
    ⟨?_, ?_, hcleared.key, hcleared.made⟩, ?_, ?_⟩
  · simp only [CAddrMan.evictTried, if_neg hempty, hold, hplace, hclear]
    change (do require (cleared.vvNew nUPlace == -1) _; _) = _
    rw [hleft.empty]
    rfl
  · rw [add_sub_cancel_right] at hback
    apply hback.restrict
    rintro other - - - ⟨hloose | heq, hne⟩
    · exact .inl hloose
    · exact absurd heq hne
  · apply hcleared.records.modify (cleared.reoccupy nUPlace (man.vvTried place)) rfl rfl
      (fun _ => rfl)
    exact fun _ _ htimed => htimed.congr
  · change cleared.vvTried place = -1
    rw [hleft.tried]
    exact Function.update_self ..
  · intro nId info hinfo hnew hzero
    have hne : nId ≠ man.vvTried place := by
      rintro rfl
      rw [hinfo, Option.some.injEq] at hold
      rw [hold, hin] at hnew
      cases hnew
    have hsame : (man.untry place (man.vvTried place)).mapInfo.lookup nId = some info :=
      ((lookup_modifyInfo _ nId).trans (if_neg hne)).trans hinfo
    have hfar := hsound.tables.new.not_placed hinfo hzero nUPlace
    obtain ⟨last, hlast, hlike⟩ := hleft.exists hsame (Ne.symm hfar)
    exact ⟨last, ((lookup_modifyInfo _ nId).trans (if_neg hne)).trans hlast, hlike⟩

/-- All entries are alike but for references, and some places of one are emptied. -/
structure Removed (nId : ℤ) (man man' : CAddrMan) : Prop where
  alike : Alike unreferenced man man'
  places : ∀ place, man'.vvNew place = nId → man.vvNew place = nId

omit hsound in
/-- A turn of the loop of `MakeTried` leaves the entry in no place of the bucket. -/
theorem Sound.removeFrom (hsound : man.Sound hash nKey nIds (· = nId) extra)
    (hinfo : man.mapInfo.lookup nId = some info) (bucket : Fin addrmanNewBucketCount) :
    (man.removeFrom hash nId info.service bucket).Sound hash nKey nIds (· = nId) extra ∧
      Removed nId man (man.removeFrom hash nId info.service bucket) ∧
      ∀ place, (man.removeFrom hash nId info.service bucket).vvNew place = nId →
        place.1 ≠ bucket := by
  have hnId := hsound.tables.nId_ne hinfo
  have honly : ∀ place, man.vvNew place = nId → place.1 = bucket →
      place = man.newPlace hash info.service bucket := by
    rintro place hplace rfl
    obtain ⟨found, hf, -, hposition⟩ := hsound.tables.new.places place nId hnId hplace
    rw [hinfo] at hf
    cases hf
    exact hposition.symm
  rw [CAddrMan.removeFrom]
  split_ifs with hheld
  · refine ⟨⟨(hsound.tables.vacate hheld).restrict ?_, hsound.records.vacate, hsound.key,
        hsound.made⟩,
      ⟨alike_vacate fun _ => rfl, ?_⟩, ?_⟩
    · rintro other - - - (heq | heq) <;> exact .inl heq
    · exact fun place hplace => (held_of_vacate hnId hplace).2
    · intro place hplace hbucket
      obtain ⟨hne, hpre⟩ := held_of_vacate hnId hplace
      exact hne (honly place hpre hbucket)
  · refine ⟨hsound, ⟨fun _ => rfl, fun _ hplace => hplace⟩, ?_⟩
    intro place hplace hbucket
    exact hheld (honly place hplace hbucket ▸ hplace)

omit hsound in
/-- The loop of `MakeTried` over some buckets. -/
theorem Sound.foldl_removeFrom (hsound : man.Sound hash nKey nIds (· = nId) extra)
    (hinfo : man.mapInfo.lookup nId = some info) (buckets : List (Fin addrmanNewBucketCount)) :
    (buckets.foldl (CAddrMan.removeFrom hash nId info.service) man).Sound hash nKey nIds (· = nId)
        extra ∧
      Removed nId man (buckets.foldl (CAddrMan.removeFrom hash nId info.service) man) ∧
      ∀ place, (buckets.foldl (CAddrMan.removeFrom hash nId info.service) man).vvNew place = nId →
        place.1 ∉ buckets := by
  induction buckets generalizing man info with
  | nil => exact ⟨hsound, ⟨fun _ => rfl, fun _ hplace => hplace⟩, fun _ _ => List.not_mem_nil⟩
  | cons bucket buckets ih =>
    obtain ⟨hnext, hremoved, hbucket⟩ := hsound.removeFrom hinfo bucket
    obtain ⟨found, hf, hlike⟩ := hremoved.alike.symm.exists hinfo
    obtain ⟨hserv, -, -⟩ := eq_of_unreferenced hlike
    obtain ⟨hlast, hrest, hbuckets⟩ := ih hnext hf
    rw [hserv] at hlast hrest hbuckets
    refine ⟨hlast, ⟨hremoved.alike.trans hrest.alike, fun place hplace =>
      hremoved.places place (hrest.places place hplace)⟩, fun place hplace => ?_⟩
    rw [List.mem_cons, not_or]
    exact ⟨hbucket place (hrest.places place hplace), hbuckets place hplace⟩

omit hsound in
/-- `MakeTried` returns for a new entry seen working. -/
theorem Sound.makeTried (hsound : man.Sound hash nKey nIds (fun _ => False) 0)
    (hinfo : man.mapInfo.lookup nId = some info) (hout : info.fInTried = false)
    (hsuccess : info.nLastSuccess ≠ 0) {before : CAddrInfo}
    (hserv : before.service = info.service) :
    ∃ man', man.makeTried hash nId before = .ok man' ∧
      man'.Sound hash nKey nIds (fun _ => False) 0 := by
  have hloose : man.Sound hash nKey nIds (· = nId) 0 := hsound.restrict nofun
  obtain ⟨hremoved, halike, hno⟩ :=
    hloose.foldl_removeFrom hinfo (List.finRange addrmanNewBucketCount)
  rw [CAddrMan.makeTried, hserv]
  generalize (List.finRange addrmanNewBucketCount).foldl
    (CAddrMan.removeFrom hash nId info.service) man = rest at hremoved halike hno ⊢
  obtain ⟨found, hf, hlike⟩ := halike.alike.symm.exists hinfo
  have hrefs : found.nRefCount = 0 := by
    rw [hremoved.tables.new.refs nId found hf]
    exact Slots.count_eq_zero fun place hplace => hno place hplace (List.mem_finRange _)
  have hcounted : Sound hash nKey nIds (· = nId) 1 { rest with nNew := rest.nNew - 1 } :=
    hremoved.recount _ (by omega)
  obtain ⟨space, hevict, hspace, hempty, hkept⟩ :=
    hcounted.evictTried (rest.triedPlace hash info.service)
  obtain ⟨hsameService, hfree, hsameSuccess⟩ := eq_of_unreferenced hlike
  obtain ⟨last, hlast, hunposed⟩ := hkept nId found hf (hfree.trans hout) hrefs
  obtain ⟨hlastService, hlastFree, hlastRefs, hlastSuccess⟩ := eq_of_unposed hunposed
  have hposition : space.triedPlace hash last.service = rest.triedPlace hash info.service := by
    have hsame : space.triedPlace hash = rest.triedPlace hash :=
      triedPlace_congr (hspace.key.trans hremoved.key.symm)
    rw [hsame, hlastService, hsameService]
  have hentered := hspace.tables.enterTried hlast (hlastFree.trans (hfree.trans hout))
    (hlastRefs.trans hrefs) hempty hposition
  refine ⟨space.enterTried (rest.triedPlace hash info.service) nId, ?_, ?_, ?_, hspace.key,
    hspace.made⟩
  · have hzero : (rest.mapInfo.lookup nId).any (fun info : CAddrInfo => info.nRefCount == 0) := by
      rw [hf, any_some, hrefs]
      rfl
    change (do
      require ((rest.mapInfo.lookup nId).any
        fun info : CAddrInfo => info.nRefCount == 0) AddrManFailure.assertionFailed
      let man ← CAddrMan.evictTried hash (rest.triedPlace hash info.service)
        { rest with nNew := rest.nNew - 1 }
      require (man.vvTried (rest.triedPlace hash info.service) == -1) AddrManFailure.assertionFailed
      pure (man.enterTried (rest.triedPlace hash info.service) nId)) = _
    rw [hzero, hevict]
    change (do require (space.vvTried _ == -1) _; _) = _
    rw [hempty]
    rfl
  · apply hentered.restrict
    rintro other - - - ⟨heq, hne⟩
    exact absurd heq hne
  · apply hspace.records.modify (space.enterTried (rest.triedPlace hash info.service) nId) rfl rfl
      (fun _ => rfl)
    intro moved hmoved htimed
    rw [hlast] at hmoved
    cases hmoved
    refine ⟨fun _ => ?_, htimed.lastTry, htimed.lastSuccess⟩
    rwa [← hsameSuccess, ← hlastSuccess] at hsuccess

/-- An address that is not found has no entry. -/
theorem Sound.not_mem_of_find (hfind : man.find addr = none) : addr ∉ man.mapAddr := by
  intro hmem
  obtain ⟨nId, hnId⟩ := mem_iff.1 hmem
  obtain ⟨info, hinfo, -⟩ := Option.map_eq_some_iff.1 ((hsound.records.addr addr nId).1 hnId)
  simp only [find, hnId, hinfo, map_some, reduceCtorEq] at hfind

theorem Sound.lastGood (nTime : ℤ) :
    Sound hash nKey nIds loose extra { man with nLastGood := nTime } := by
  obtain ⟨⟨hidCount, hids, hrand, htried, hnew⟩, hrecs, hkey, hmade⟩ := hsound
  exact ⟨⟨hidCount, hids, ⟨hrand.positions, hrand.nonneg⟩, ⟨htried.places, htried.count⟩,
    hnew.places, hnew.refs, hnew.bounds, hnew.count⟩, ⟨hrecs.addr, hrecs.timed⟩, hkey, hmade⟩

omit hsound in
theorem Sound.good (hsound : man.Sound hash nKey nIds (fun _ => False) 0) (addr : CService)
    (htime : 0 < nTime) (nRnd : ℕ) :
    ∃ man', man.good hash addr nTime nRnd = .ok man' ∧
      man'.Sound hash nKey nIds (fun _ => False) 0 := by
  have hseen := hsound.lastGood nTime
  simp only [CAddrMan.good]
  generalize ({ man with nLastGood := nTime } : CAddrMan) = seen at hseen ⊢
  cases hfind : seen.find addr.ip with
  | none => exact ⟨seen, rfl, hseen⟩
  | some pair =>
    obtain ⟨nId, info⟩ := pair
    have hinfo := find_eq_some hfind
    dsimp only
    split
    · exact ⟨seen, rfl, hseen⟩
    · have hstamped := @Sound.modifyInfo _ _ _ _ _ _ hseen (fun info =>
        { info with nLastSuccess := nTime, nLastTry := nTime, nAttempts := 0 })
        { timed _ _ := ⟨fun _ => htime.ne', htime.le, htime.le⟩ } nId
      have hstamp := lookup_modifyInfo_self hinfo fun info =>
        { info with nLastSuccess := nTime, nLastTry := nTime, nAttempts := 0 }
      generalize seen.modifyInfo nId _ = stamped at hstamped hstamp ⊢
      split
      · exact ⟨stamped, rfl, hstamped⟩
      · next hout =>
        split
        · exact hstamped.makeTried hstamp (Bool.eq_false_iff.2 hout) htime.ne' rfl
        · exact ⟨stamped, rfl, hstamped⟩

omit hsound in
/-- The end of `Add_` gives the entry a place, or deletes it if it has none. -/
theorem Sound.enterNew (hsound : man.Sound hash nKey nIds (· = nId) 0)
    (hinfo : man.mapInfo.lookup nId = some info) (hout : info.fInTried = false)
    (hfew : info.nRefCount < addrmanNewBucketsPerAddress) (source : CNetAddr) (nNow : ℤ) :
    ∃ man', man.enterNew hash nId source nNow = .ok man' ∧
      man'.Sound hash nKey nIds (fun _ => False) 0 := by
  have hdone : 0 < info.nRefCount → man.Sound hash nKey nIds (fun _ => False) 0 := by
    intro hrefs
    apply hsound.restrict
    rintro other found hf - rfl
    rw [hinfo] at hf
    cases hf
    exact .inr hrefs
  simp only [CAddrMan.enterNew, hinfo]
  generalize hplace : man.newPlace hash info.service
    (hash.newBucket man.nKey info.service source) = nUPlace
  by_cases hheld : man.vvNew nUPlace = nId
  · rw [if_pos hheld]
    refine ⟨man, rfl, hdone ?_⟩
    rw [hsound.tables.new.refs nId info hinfo]
    exact Slots.count_pos hheld
  rw [if_neg hheld]
  have hspares : ∃ spared, man.spares nNow info (man.vvNew nUPlace) = .ok spared := by
    rw [spares]
    split_ifs with hsome
    · exact ⟨_, rfl⟩
    · obtain ⟨existing, hexisting, -⟩ := hsound.tables.new.places nUPlace _ hsome rfl
      rw [hexisting]
      exact ⟨_, rfl⟩
  obtain ⟨spared, hspared⟩ := hspares
  rw [hspared]
  cases spared with
  | true =>
    obtain ⟨cleared, hclear, hcleared, hleft⟩ := hsound.clearNew nUPlace
    obtain ⟨found, hf, hunposed⟩ := hleft.exists hinfo (Ne.symm hheld)
    obtain ⟨hserv, hfree, hcount, -⟩ := eq_of_unposed hunposed
    have hthere : cleared.newPlace hash found.service nUPlace.1 = nUPlace := by
      rw [newPlace_congr hleft.key, hserv, ← hplace]
      rfl
    have hplaced := hcleared.tables.occupy hf (hfree.trans hout) (hcount ▸ hfew) hleft.empty hthere
    refine ⟨cleared.occupy nUPlace nId, ?_, hplaced.restrict ?_, ?_, hcleared.key, hcleared.made⟩
    · simp only [hclear]
      rfl
    · rintro other - - - ⟨heq, hne⟩
      exact absurd heq hne
    · apply hcleared.records.modify (cleared.occupy nUPlace nId) rfl rfl (fun _ => rfl)
      exact fun _ _ htimed => htimed.congr
  | false =>
    by_cases hrefs : info.nRefCount = 0
    · obtain ⟨man', hdelete, hdeleted, -⟩ := hsound.delete hinfo hout hrefs
      refine ⟨man', (if_pos hrefs).trans hdelete, hdeleted.restrict ?_⟩
      rintro other - - - ⟨heq, hne⟩
      exact absurd heq hne
    · refine ⟨man, if_neg hrefs, hdone ?_⟩
      have hnonneg := Slots.count_nonneg man.vvNew nId
      rw [← hsound.tables.new.refs nId info hinfo] at hnonneg
      omega

omit hsound in
theorem Sound.add (hsound : man.Sound hash nKey nIds (fun _ => False) 0)
    (hfits : nIds + 1 < 2 ^ 31) (isRoutable : CNetAddr → Bool)
    (addr : CAddress) (source : CNetAddr) (nTimePenalty nNow : ℤ) (nRnd : ℕ) :
    ∃ result, man.add hash isRoutable addr source nTimePenalty nNow nRnd = .ok result ∧
      result.2.Sound hash nKey (nIds + 1) (fun _ => False) 0 := by
  have hsame := hsound.mono (Int.le_add_one le_rfl)
  rw [CAddrMan.add]
  split
  · exact ⟨_, rfl, hsame⟩
  generalize (if addr.service.ip = source then 0 else nTimePenalty) = penalty
  cases hfind : man.find addr.service.ip with
  | some pair =>
    obtain ⟨nId, info⟩ := pair
    have haside : Aside (refresh addr penalty nNow) := { timed _ htimed := htimed.congr }
    have hfresh := hsame.modifyInfo haside nId
    have hinfo := lookup_modifyInfo_self (find_eq_some hfind) (refresh addr penalty nNow)
    dsimp only
    split_ifs with hadds
    · obtain ⟨hout, hnot⟩ := few_of_addsReference hadds
      have hmost := (hfresh.tables.new.bounds nId _ hinfo hout).1
      have hloose : (man.modifyInfo nId (refresh addr penalty nNow)).Sound hash nKey (nIds + 1)
          (· = nId) 0 := hfresh.restrict nofun
      obtain ⟨man', henter, hentered⟩ :=
        hloose.enterNew hinfo hout (lt_of_le_of_ne hmost hnot) source nNow
      exact ⟨(false, man'), bind_ok_iff.2 ⟨man', henter, rfl⟩, hentered⟩
    · exact ⟨_, rfl, hfresh⟩
  | none =>
    obtain ⟨hcreated, hmade⟩ := hsound.create addr source (hsound.not_mem_of_find hfind) hfits
    have haside : Aside fun info =>
        { info with nTime := toUnsigned (max 0 (info.nTime.toNat - penalty)) } :=
      { timed _ htimed := htimed.congr }
    have hpenalized := hcreated.modifyInfo haside man.nIdCount
    have hinfo := lookup_modifyInfo_self hmade fun info =>
      { info with nTime := toUnsigned (max 0 (info.nTime.toNat - penalty)) }
    have hcounted := hpenalized.recount (man.nNew + 1) (add_zero _)
    have hfew : 0 < addrmanNewBucketsPerAddress := by decide
    obtain ⟨man', henter, hentered⟩ := hcounted.enterNew hinfo rfl hfew source nNow
    exact ⟨(true, man'), bind_ok_iff.2 ⟨man', henter, rfl⟩, hentered⟩

/-- An update of one entry in fields the tables ignore. -/
theorem Sound.update (addr : CService) {change : CAddrInfo → CAddrInfo} (haside : Aside change) :
    (man.update addr change).Sound hash nKey nIds loose extra := by
  rw [CAddrMan.update]
  split
  · exact hsound
  · next nId info hfind =>
    split
    · exact hsound
    · exact hsound.modifyInfo haside nId

theorem Sound.attempt (addr : CService) (fCountFailure : Bool) (htime : 0 < nTime) :
    (man.attempt addr fCountFailure nTime).Sound hash nKey nIds loose extra := by
  apply hsound.update
  constructor
  · intro info
    split <;> rfl
  · intro info
    split <;> rfl
  · intro info htimed
    split <;> exact ⟨htimed.succeeded, htime.le, htimed.lastSuccess⟩

theorem Sound.connected (addr : CService) (nTime : ℤ) :
    (man.connected addr nTime).Sound hash nKey nIds loose extra := by
  apply hsound.update
  constructor
  · intro info
    split <;> rfl
  · intro info
    split <;> rfl
  · intro info htimed
    split <;> exact htimed.congr

theorem Sound.setServices (addr : CService)
    (nServices : UInt64) : (man.setServices addr nServices).Sound hash nKey nIds loose extra :=
  hsound.update addr { timed _ htimed := htimed.congr }

theorem Sound.getAddrFrom (nNodes : ℕ) (nNow : ℤ)
    (nRnd : ℕ → ℕ) (left n : ℕ) (vAddr : List CAddress) (hend : left + n = man.vRandom.length) :
    ∃ result, man.getAddrFrom nNodes nNow nRnd left n vAddr = .ok result ∧
      result.2.Sound hash nKey nIds loose extra := by
  induction left generalizing n vAddr man with
  | zero => exact ⟨(vAddr, man), rfl, hsound⟩
  | succ left ih =>
    rw [CAddrMan.getAddrFrom]
    split
    · exact ⟨(vAddr, man), rfl, hsound⟩
    · have hlt : n < man.vRandom.length := by omega
      have ho : nRnd n % (man.vRandom.length - n) + n < man.vRandom.length := by
        have hmod := Nat.mod_lt (nRnd n) (Nat.sub_pos_of_lt hlt)
        omega
      obtain ⟨swapped, hswap, hrand, hsame, hlen, -⟩ := hsound.tables.random.swapRandom hlt ho
      have hnext : swapped.Sound hash nKey nIds loose extra :=
        ⟨hsound.tables.reorder hsame hrand, hsound.records.reorder hsame,
          hsame.key.trans hsound.key, hsame.idCount.trans_le hsound.made⟩
      have hat := List.getElem?_eq_getElem (hlen ▸ hlt : n < swapped.vRandom.length)
      obtain ⟨ai, hai⟩ := mem_iff.1 (hrand.mem hat)
      obtain ⟨result, hloop, hres⟩ := ih hnext (n + 1)
        (if ai.isTerrible nNow then vAddr else vAddr ++ [ai.toAddress]) (by omega)
      refine ⟨result, ?_, hres⟩
      rw [bind_ok_iff]
      refine ⟨swapped, hswap, ?_⟩
      simp only [hat, bind_some, hai]
      exact hloop

theorem Sound.getAddr (nNow : ℤ) (nRnd : ℕ → ℕ) :
    ∃ result, man.getAddr nNow nRnd = .ok result ∧ result.2.Sound hash nKey nIds loose extra :=
  hsound.getAddrFrom _ nNow nRnd _ 0 [] (add_zero _)

end

theorem sound_clear (hash : BucketHash) (nKey : Uint256) :
    (clear nKey).Sound hash nKey 0 (fun _ => False) 0 := by
  have hno : ∀ nId, (clear nKey).mapInfo.lookup nId = none := fun nId => AList.lookup_empty nId
  refine ⟨⟨le_rfl, fun nId hnId => absurd hnId (AList.notMem_empty nId), ⟨?_, ?_⟩, ⟨?_, rfl⟩,
    ⟨?_, ?_, ?_, rfl⟩⟩, ⟨?_, ?_⟩, rfl, le_rfl⟩
  · intro pos nId
    exact iff_of_false nofun nofun
  · intro nId info hinfo
    cases (hno nId).symm.trans hinfo
  · intro place nId hnId
    refine iff_of_false (Ne.symm hnId) ?_
    rintro ⟨info, hinfo, -⟩
    cases (hno nId).symm.trans hinfo
  · exact fun place nId hnId hplace => absurd hplace.symm hnId
  · intro nId info hinfo
    cases (hno nId).symm.trans hinfo
  · intro nId info hinfo
    cases (hno nId).symm.trans hinfo
  · exact inverse_empty fun nId => by rw [ipOf, hno, map_none]
  · intro nId info hinfo
    cases (hno nId).symm.trans hinfo

end CAddrMan

/-- A call, with the time it reads and its random choices. -/
inductive AddrManCall where
  | add (addr : CAddress) (source : CNetAddr) (nTimePenalty nNow : ℤ) (nRnd : ℕ)
  | good (addr : CService) (nTime : ℤ) (nRnd : ℕ)
  | attempt (addr : CService) (fCountFailure : Bool) (nTime : ℤ)
  | connected (addr : CService) (nTime : ℤ)
  | setServices (addr : CService) (nServices : UInt64)
  | select (newOnly coin : Bool) (tried : List (TriedPlace × Bool)) (new : List (NewPlace × Bool))
  | getAddr (nNow : ℤ) (nRnd : ℕ → ℕ)

def AddrManCall.Timely : AddrManCall → Prop
  | .good _ nTime _ => 0 < nTime
  | .attempt _ _ nTime => 0 < nTime
  | _ => True

/-- `Add_` is called for one address of `Add`. -/
def AddrManCall.isAdd : AddrManCall → Bool
  | .add .. => true
  | _ => false

namespace CAddrMan

variable {hash : BucketHash} {isRoutable : CNetAddr → Bool} {nKey : Uint256} {nIds : ℤ}
  {man : CAddrMan}

def step (hash : BucketHash) (isRoutable : CNetAddr → Bool) (man : CAddrMan) :
    AddrManCall → Except AddrManFailure CAddrMan
  | .add addr source nTimePenalty nNow nRnd =>
    (man.add hash isRoutable addr source nTimePenalty nNow nRnd).map Prod.snd
  | .good addr nTime nRnd => man.good hash addr nTime nRnd
  | .attempt addr fCountFailure nTime => .ok (man.attempt addr fCountFailure nTime)
  | .connected addr nTime => .ok (man.connected addr nTime)
  | .setServices addr nServices => .ok (man.setServices addr nServices)
  | .select newOnly coin tried new => (man.select newOnly coin tried new).map fun _ => man
  | .getAddr nNow nRnd => (man.getAddr nNow nRnd).map Prod.snd

/-- Every call returns, and keeps the agreement. -/
theorem Sound.step (hsound : man.Sound hash nKey nIds (fun _ => False) 0) {call : AddrManCall}
    (htimely : call.Timely) (hfits : nIds + call.isAdd.toNat < 2 ^ 31) :
    ∃ man', man.step hash isRoutable call = .ok man' ∧
      man'.Sound hash nKey (nIds + call.isAdd.toNat) (fun _ => False) 0 := by
  have hsame := hsound.mono (Int.le_add_of_nonneg_right (Int.natCast_nonneg call.isAdd.toNat))
  cases call with
  | add addr source nTimePenalty nNow nRnd =>
    obtain ⟨result, hadd, hres⟩ := hsound.add hfits isRoutable addr source nTimePenalty nNow nRnd
    exact ⟨result.2, congrArg (Except.map Prod.snd) hadd, hres⟩
  | good addr nTime nRnd => exact hsame.good addr htimely nRnd
  | attempt addr fCountFailure nTime =>
    exact ⟨_, rfl, hsame.attempt addr fCountFailure htimely⟩
  | connected addr nTime => exact ⟨_, rfl, hsame.connected addr nTime⟩
  | setServices addr nServices => exact ⟨_, rfl, hsame.setServices addr nServices⟩
  | select newOnly coin tried new =>
    obtain ⟨found, hselect⟩ := hsame.tables.select newOnly coin tried new
    exact ⟨man, congrArg (Except.map fun _ => man) hselect, hsame⟩
  | getAddr nNow nRnd =>
    obtain ⟨result, hget, hres⟩ := hsame.getAddr nNow nRnd
    exact ⟨result.2, congrArg (Except.map Prod.snd) hget, hres⟩

/-- So do all calls of a sequence with fewer than `2 ^ 31` additions. -/
theorem Sound.run (hsound : man.Sound hash nKey nIds (fun _ => False) 0)
    (calls : List AddrManCall) (htimely : ∀ call ∈ calls, call.Timely)
    (hfits : nIds + calls.countP AddrManCall.isAdd < 2 ^ 31) :
    ∃ man', Runs.run (CAddrMan.step hash isRoutable) calls man = .ok man' ∧
      man'.Sound hash nKey (nIds + calls.countP AddrManCall.isAdd) (fun _ => False) 0 := by
  induction calls generalizing man nIds with
  | nil => exact ⟨man, rfl, hsound.mono (Int.add_zero nIds).ge⟩
  | cons call calls ih =>
    have hcount : nIds + (call :: calls).countP AddrManCall.isAdd =
        nIds + call.isAdd.toNat + calls.countP AddrManCall.isAdd := by
      rw [List.countP_cons]
      cases call.isAdd <;> simp
      omega
    rw [hcount] at hfits ⊢
    obtain ⟨hcall, hcalls⟩ := List.forall_mem_cons.1 htimely
    obtain ⟨next, hstep, hnext⟩ := hsound.step hcall (by omega)
    rw [Runs.run, hstep]
    exact ih hnext hcalls hfits

/-- No entry is in both tables. -/
theorem Tables.disjoint {loose : ℤ → Prop} {extra : ℤ} (htabs : man.Tables hash loose extra)
    {tried : TriedPlace} (hsome : man.vvTried tried ≠ -1) (new : NewPlace) :
    man.vvNew new ≠ man.vvTried tried := by
  intro heq
  obtain ⟨info, hinfo, hin, -⟩ := (htabs.tried.places tried _ hsome).1 rfl
  exact htabs.new.not_placed hinfo (htabs.refs_of_tried hinfo hin) new heq

/-- After any calls on an empty address manager, fewer than `2 ^ 31` of them additions, which all
return, the check passes and no entry is in both tables.  Only a null key, if one was drawn, is
reported. -/
theorem run_clear_checked (hash : BucketHash) (isRoutable : CNetAddr → Bool) (nKey : Uint256)
    (calls : List AddrManCall) (htimely : ∀ call ∈ calls, call.Timely)
    (hadds : calls.countP AddrManCall.isAdd < 2 ^ 31) :
    ∃ man, Runs.run (CAddrMan.step hash isRoutable) calls (clear nKey) = .ok man ∧
      man.check hash = (if nKey.isNull then .error (-16) else .ok ()) ∧
      ∀ tried new, man.vvTried tried ≠ -1 → man.vvNew new ≠ man.vvTried tried := by
  obtain ⟨man, hrun, hsound⟩ := (sound_clear hash nKey).run calls htimely (by omega)
  refine ⟨man, hrun, ?_, fun tried new hsome => hsound.tables.disjoint hsome new⟩
  rw [hsound.tables.check_eq fun n info hinfo => hsound.records.recorded hinfo, hsound.key]
  cases nKey.isNull <;> rfl

namespace CheckWitness

/-- Every address has the same bucket and position. -/
def flatHash : BucketHash :=
  ⟨fun _ _ => ⟨0, by decide⟩, fun _ _ _ => ⟨0, by decide⟩, fun _ _ _ _ => ⟨0, by decide⟩⟩

def peer (last : UInt8) : CService :=
  ⟨BaseBlob.ofVector 16 (List.replicate 15 0 ++ [last]), 8333⟩

def someKey : Uint256 :=
  BaseBlob.ofVector 32 (List.replicate 31 0 ++ [1])

/-- Two addresses meet at one place, and the second is found good. -/
def calls : List AddrManCall :=
  [.add ⟨peer 1, 1, 1000⟩ (peer 9).ip 0 2000 0, .good (peer 1) 2000 0,
    .add ⟨peer 2, 1, 1000⟩ (peer 9).ip 0 2000 0, .good (peer 2) 2000 0]

theorem calls_checked : (∀ call ∈ calls, call.Timely) ∧ calls.countP AddrManCall.isAdd < 2 ^ 31 ∧
    ∃ man, Runs.run (CAddrMan.step flatHash fun _ => true) calls (clear someKey) = .ok man ∧
      man.check flatHash = .ok () ∧
      ∀ tried new, man.vvTried tried ≠ -1 → man.vvNew new ≠ man.vvTried tried := by
  have htimely : ∀ call ∈ calls, call.Timely := by
    simp [calls, AddrManCall.Timely]
  have hadds : calls.countP AddrManCall.isAdd < 2 ^ 31 := by decide
  have hrun := run_clear_checked flatHash (fun _ => true) someKey calls htimely hadds
  exact ⟨htimely, hadds, hrun⟩

/-- An empty address manager that drew the null key. -/
theorem null_key_reported : (clear (BaseBlob.null 32)).check flatHash = .error (-16) := by
  have hsound := sound_clear flatHash (BaseBlob.null 32)
  rw [hsound.tables.check_eq fun n info hinfo => hsound.records.recorded hinfo]
  decide

end CheckWitness

end CAddrMan

end Catoshi
