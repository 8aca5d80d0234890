/-
`CBlockTreeDB::ReadAddressIndex` and `ReadAddressUnspentIndex` (`txdb.cpp`). They walk on while the
hash is the same, so they can run into entries of another type.
-/
import Catoshi.KeyFormat

namespace Catoshi

open ByteOrder ByteStream CAddressIndexIteratorKey CAddressUnspentKey CAddressIndexKey DBRecord List

/-- `GetValue` on a record of the address index. -/
def DBRecord.getAmount : DBRecord → Option CAmount
  | .addressIndex _ _ value => some value
  | _ => none

/-- `GetValue` on a record of the address unspent index. -/
def DBRecord.getUnspentValue : DBRecord → Option CAddressUnspentValue
  | .addressUnspentIndex _ _ value => some value
  | _ => none

/-- `push_back` of key and value, or the error of a failed `GetValue`. -/
def pushValue {A V : Type} (getValue : DBRecord → Option V) (message : String) (key : A)
    (record : DBRecord) : Except String (List (A × V)) :=
  match getValue record with
  | some nValue => .ok [(key, nValue)]
  | none => .error message

section

variable (db : LevelDB) (addressHash : Uint160) (type : ℕ)

section

variable (start stop : Int32)

/-- The key `ReadAddressIndex` seeks. The first bound counts only if both are positive. -/
def historySeekKey : Bytes :=
  if 0 < start.toInt ∧ 0 < stop.toInt then
    CAddressIndexIteratorHeightKey.serialize ⟨type, addressHash, start.toInt.toNat⟩
  else
    CAddressIndexIteratorKey.serialize ⟨type, addressHash⟩

/-- The test of the loop of `ReadAddressIndex`. -/
def historyGoesOn (stop : Int32) (key : CAddressIndexKey) : Bool :=
  decide (key.hashBytes = addressHash) && !decide (0 < stop.toInt ∧ stop.toInt < key.blockHeight)

def LevelDB.readAddressIndex : Except String (List (CAddressIndexKey × CAmount)) :=
  scanTable CAddressIndexKey.unserialize dbAddressIndex (historyGoesOn addressHash stop)
    (pushValue getAmount "failed to get address index value")
    (db.seek dbAddressIndex (historySeekKey addressHash type start stop)) []

/-- The test of the loop of `ReadAddressUnspentIndex`. -/
def unspentGoesOn (key : CAddressUnspentKey) : Bool :=
  decide (key.hashBytes = addressHash)

def LevelDB.readAddressUnspentIndex :
    Except String (List (CAddressUnspentKey × CAddressUnspentValue)) :=
  scanTable CAddressUnspentKey.unserialize dbAddressUnspentIndex (unspentGoesOn addressHash)
    (pushValue getUnspentValue "failed to get address unspent value")
    (db.seek dbAddressUnspentIndex (CAddressIndexIteratorKey.serialize ⟨type, addressHash⟩)) []

def LevelDB.StoresHistory (key : CAddressIndexKey) (value : CAmount) : Prop :=
  ∃ hfits, addressIndex key hfits value ∈ db.records

def LevelDB.StoresUnspent (key : CAddressUnspentKey) (value : CAddressUnspentValue) : Prop :=
  ∃ hfits, addressUnspentIndex key hfits value ∈ db.records

def InHeights (height : ℕ) : Prop :=
  (0 < start.toInt ∧ 0 < stop.toInt → start.toInt ≤ height) ∧
    (0 < stop.toInt → (height : ℤ) ≤ stop.toInt)

instance (start stop : Int32) (height : ℕ) : Decidable (InHeights start stop height) :=
  inferInstanceAs (Decidable (_ ∧ _))

/-- `ReadAddressIndex` finds the entries of the address in the heights, each once, by height and
block position. -/
def LevelDB.ExactHistory : Prop :=
  ∃ found, db.readAddressIndex addressHash type start stop = .ok found ∧
    (∀ key value, (key, value) ∈ found ↔ db.StoresHistory key value ∧ key.type = type ∧
      key.hashBytes = addressHash ∧ InHeights start stop key.blockHeight) ∧
    (found.map Prod.fst).Nodup ∧
    found.Pairwise fun first second => first.1.blockHeight < second.1.blockHeight ∨
      first.1.blockHeight = second.1.blockHeight ∧ first.1.txindex ≤ second.1.txindex

/-- `ReadAddressUnspentIndex` finds the unspent outputs of the address, each
once. -/
def LevelDB.ExactUnspent : Prop :=
  ∃ found, db.readAddressUnspentIndex addressHash type = .ok found ∧
    (∀ key value, (key, value) ∈ found ↔ db.StoresUnspent key value ∧ key.type = type ∧
      key.hashBytes = addressHash) ∧
    (found.map Prod.fst).Nodup

/-- The records `ReadAddressIndex` is asked for. -/
def historyWanted : DBRecord → Bool
  | .addressIndex key _ _ => decide (key.type = type ∧ key.hashBytes = addressHash ∧
      InHeights start stop key.blockHeight)
  | _ => false

/-- What `ReadAddressUnspentIndex` is asked for. -/
def unspentWanted : DBRecord → Bool
  | .addressUnspentIndex key _ _ => decide (key.type = type ∧ key.hashBytes = addressHash)
  | _ => false

end

end

section Parts

/-- The start of the key, which names the address. -/
def CAddressIndexKey.iteratorKey (key : CAddressIndexKey) : CAddressIndexIteratorKey :=
  ⟨key.type, key.hashBytes⟩

/-- The rest of the key after the block position. -/
def CAddressIndexKey.tail (key : CAddressIndexKey) : Bytes :=
  key.txhash.serialize ++ (serWriteData32 key.index ++ serWriteData8 key.spending.toNat)

def CAddressUnspentKey.iteratorKey (key : CAddressUnspentKey) : CAddressIndexIteratorKey :=
  ⟨key.type, key.hashBytes⟩

def CAddressUnspentKey.tail (key : CAddressUnspentKey) : Bytes :=
  key.txhash.serialize ++ serWriteData32 key.index

theorem CAddressIndexKey.serialize_eq (key : CAddressIndexKey) :
    key.serialize = key.iteratorKey.serialize ++ (serWriteData32be key.blockHeight ++
      (serWriteData32be key.txindex ++ key.tail)) := by
  simp only [serialize, iteratorKey, tail, CAddressIndexIteratorKey.serialize, append_assoc]

theorem CAddressUnspentKey.serialize_eq (key : CAddressUnspentKey) :
    key.serialize = key.iteratorKey.serialize ++ key.tail := by
  simp only [serialize, iteratorKey, tail, CAddressIndexIteratorKey.serialize, append_assoc]

theorem CAddressIndexKey.Fits.height_lt {key : CAddressIndexKey} (hfits : key.Fits) :
    key.blockHeight < 2 ^ 32 :=
  hfits.blockHeight.trans (by decide)

/-- History keys are ordered by address, height and block position. -/
theorem CAddressIndexKey.serialize_lt_iff {first second : CAddressIndexKey}
    (hfst : first.Fits) (hsnd : second.Fits) :
    first.serialize < second.serialize ↔
      first.iteratorKey.serialize < second.iteratorKey.serialize ∨
      first.iteratorKey.serialize = second.iteratorKey.serialize ∧
        (first.blockHeight < second.blockHeight ∨ first.blockHeight = second.blockHeight ∧
          (first.txindex < second.txindex ∨
            first.txindex = second.txindex ∧ first.tail < second.tail)) := by
  rw [serialize_eq, serialize_eq, append_lt_append_iff (by
    rw [length_serialize, length_serialize]),
    append_lt_append_iff (by simp [serWriteData32be]),
    append_lt_append_iff (by simp [serWriteData32be]),
    serWriteData32be_lt_iff hfst.height_lt hsnd.height_lt,
    serWriteData32be_inj hfst.height_lt hsnd.height_lt,
    serWriteData32be_lt_iff hfst.txindex hsnd.txindex,
    serWriteData32be_inj hfst.txindex hsnd.txindex]

theorem CAddressIndexIteratorKey.serialize_eq_iff (found : CAddressIndexIteratorKey)
    (hfits : found.type < 2 ^ 8) {addressHash : Uint160} {type : ℕ} (htype : type < 2 ^ 8) :
    serialize ⟨type, addressHash⟩ = found.serialize ↔
      found.type = type ∧ found.hashBytes = addressHash := by
  rw [serialize_inj htype hfits]
  exact and_congr eq_comm eq_comm

end Parts

section Seek

variable {addressHash : Uint160} {type : ℕ} {start stop : Int32}

theorem historySeekKey_le_iff {key : CAddressIndexKey} (hfits : key.Fits) :
    historySeekKey addressHash type start stop ≤ key.serialize ↔
      CAddressIndexIteratorKey.serialize ⟨type, addressHash⟩ < key.iteratorKey.serialize ∨
        CAddressIndexIteratorKey.serialize ⟨type, addressHash⟩ = key.iteratorKey.serialize ∧
          (0 < start.toInt ∧ 0 < stop.toInt → start.toInt ≤ key.blockHeight) := by
  let address := CAddressIndexIteratorKey.serialize ⟨type, addressHash⟩
  have hlen : key.iteratorKey.serialize.length = address.length := by
    rw [length_serialize, length_serialize]
  change _ ↔ address < _ ∨ address = _ ∧ _
  rw [historySeekKey, CAddressIndexKey.serialize_eq]
  split_ifs with hboth
  · have hstart : start.toInt.toNat < 2 ^ 32 := by
      have hbound := start.toInt_lt
      omega
    have hseek : CAddressIndexIteratorHeightKey.serialize
        ⟨type, addressHash, start.toInt.toNat⟩ = address ++ serWriteData32be start.toInt.toNat := by
      simp only [CAddressIndexIteratorHeightKey.serialize, address,
        CAddressIndexIteratorKey.serialize, append_assoc]
    rw [hseek, ← not_lt, append_lt_append_iff hlen, append_lt_iff (by simp [serWriteData32be]),
      serWriteData32be_lt_iff hfits.height_lt hstart]
    have hheight : key.blockHeight < start.toInt.toNat ↔ ¬ start.toInt ≤ key.blockHeight := by
      omega
    rw [hheight]
    rcases lt_trichotomy address key.iteratorKey.serialize with hless | hsame | hgreater
    · simp [hless, hless.not_gt, hless.ne']
    · simp [hsame, hboth]
    · simp [hgreater, hgreater.not_gt, hgreater.ne']
  · rw [le_append_iff hlen, le_iff_lt_or_eq]
    simp [hboth]

theorem unspentSeekKey_le_iff {key : CAddressUnspentKey} :
    CAddressIndexIteratorKey.serialize ⟨type, addressHash⟩ ≤ key.serialize ↔
      CAddressIndexIteratorKey.serialize ⟨type, addressHash⟩ ≤ key.iteratorKey.serialize := by
  rw [CAddressUnspentKey.serialize_eq, le_append_iff]
  rw [length_serialize, length_serialize]

variable {head : UInt8} {first second : Bytes} {other : DBRecord}

theorem cons_le_cons_iff_tail : head :: first ≤ head :: second ↔ first ≤ second := by
  rw [← not_lt]
  simp

theorem cons_lt_cons_iff_tail : head :: first < head :: second ↔ first < second := by
  simp

variable {record : DBRecord} (htype : type < 2 ^ 8)

include htype

theorem low_of_historyWanted (hwanted : historyWanted addressHash type start stop record = true) :
    dbAddressIndex :: historySeekKey addressHash type start stop ≤ record.rawKey := by
  cases record with
  | addressIndex key hfits value =>
    obtain ⟨hkind, hhash, hheights⟩ := of_decide_eq_true hwanted
    rw [rawKey, cons_le_cons_iff_tail, historySeekKey_le_iff hfits]
    exact .inr ⟨(serialize_eq_iff key.iteratorKey hfits.type htype).2 ⟨hkind, hhash⟩, hheights.1⟩
  | addressUnspentIndex | timestampIndex | other => cases hwanted

/-- What is between the sought key and a wanted entry is wanted. -/
theorem historyWanted_of_between (hwanted : historyWanted addressHash type start stop record = true)
    (hlow : dbAddressIndex :: historySeekKey addressHash type start stop ≤ other.rawKey)
    (hbelow : other.rawKey < record.rawKey) :
    historyWanted addressHash type start stop other = true := by
  cases record with
  | addressIndex key hfits value =>
    obtain ⟨hkind, hhash, hheights⟩ := of_decide_eq_true hwanted
    have haddr := (serialize_eq_iff key.iteratorKey hfits.type htype).2 ⟨hkind, hhash⟩
    cases other with
    | addressIndex key' hfits' value' =>
      rw [rawKey, cons_le_cons_iff_tail, historySeekKey_le_iff hfits'] at hlow
      rw [rawKey, rawKey, cons_lt_cons_iff_tail, serialize_lt_iff hfits' hfits, ← haddr] at hbelow
      rcases hbelow with hless | ⟨hsame, horder⟩
      · rcases hlow with hgreater | ⟨heq, -⟩
        · exact absurd hless hgreater.asymm
        · exact absurd hless (heq ▸ lt_irrefl _)
      · obtain ⟨hkind', hhash'⟩ :=
          (serialize_eq_iff key'.iteratorKey hfits'.type htype).1 hsame.symm
        rcases hlow with hgreater | ⟨-, hstart⟩
        · exact absurd hgreater (hsame ▸ lt_irrefl _)
        · refine decide_eq_true ⟨hkind', hhash', hstart, fun hstop => ?_⟩
          have hmost := hheights.2 hstop
          omega
    | addressUnspentIndex | timestampIndex | other =>
      exact absurd (head_of_between hlow hbelow) (readsTable_addressIndex.foreign _ rfl)
  | addressUnspentIndex | timestampIndex | other => cases hwanted

theorem low_of_unspentWanted (hwanted : unspentWanted addressHash type record = true) :
    dbAddressUnspentIndex :: serialize ⟨type, addressHash⟩ ≤ record.rawKey := by
  cases record with
  | addressUnspentIndex key hfits value =>
    rw [rawKey, cons_le_cons_iff_tail, unspentSeekKey_le_iff]
    exact ((serialize_eq_iff key.iteratorKey hfits.type htype).2 (of_decide_eq_true hwanted)).le
  | addressIndex | timestampIndex | other => cases hwanted

theorem unspentWanted_of_between (hwanted : unspentWanted addressHash type record = true)
    (hlow : dbAddressUnspentIndex :: CAddressIndexIteratorKey.serialize ⟨type, addressHash⟩ ≤
      other.rawKey) (hbelow : other.rawKey < record.rawKey) :
    unspentWanted addressHash type other = true := by
  cases record with
  | addressUnspentIndex key hfits value =>
    have haddr := (serialize_eq_iff key.iteratorKey hfits.type htype).2 (of_decide_eq_true hwanted)
    cases other with
    | addressUnspentIndex key' hfits' value' =>
      rw [rawKey, cons_le_cons_iff_tail, unspentSeekKey_le_iff] at hlow
      rw [rawKey, rawKey, cons_lt_cons_iff_tail,
        CAddressUnspentKey.serialize_eq, CAddressUnspentKey.serialize_eq,
        append_lt_append_iff (by rw [length_serialize, length_serialize]), ← haddr] at hbelow
      rcases hbelow with hless | ⟨hsame, -⟩
      · exact absurd hless hlow.not_gt
      · exact decide_eq_true ((serialize_eq_iff key'.iteratorKey hfits'.type htype).1 hsame.symm)
    | addressIndex | timestampIndex | other =>
      exact absurd (head_of_between hlow hbelow) (readsTable_addressUnspentIndex.foreign _ rfl)
  | addressIndex | timestampIndex | other => cases hwanted

end Seek

section Exact

variable {db : LevelDB} {addressHash : Uint160} {type : ℕ} {start stop : Int32}

/-- What a record of the address index adds. -/
def historyEntries : DBRecord → List (CAddressIndexKey × CAmount)
  | .addressIndex key _ value => [(key, value)]
  | _ => []

def unspentEntries : DBRecord → List (CAddressUnspentKey × CAddressUnspentValue)
  | .addressUnspentIndex key _ value => [(key, value)]
  | _ => []

/-- The records `ReadAddressIndex` walks over. -/
def historyTakes (addressHash : Uint160) (stop : Int32) (record : DBRecord) : Bool :=
  record.addressIndexKey.any (historyGoesOn addressHash stop)

def unspentTakes (addressHash : Uint160) (record : DBRecord) : Bool :=
  record.addressUnspentKey.any (unspentGoesOn addressHash)

theorem readAddressIndex_eq :
    db.readAddressIndex addressHash type start stop =
      .ok (((db.seek dbAddressIndex (historySeekKey addressHash type start stop)).takeWhile
        (historyTakes addressHash stop)).flatMap historyEntries) := by
  refine scanTable_eq readsTable_addressIndex _ ?_ []
  rintro (⟨key, hfits, value⟩ | _ | _ | _) - _ ⟨⟩
  rfl

theorem readAddressUnspentIndex_eq :
    db.readAddressUnspentIndex addressHash type =
      .ok (((db.seek dbAddressUnspentIndex (serialize ⟨type, addressHash⟩)).takeWhile
        (unspentTakes addressHash)).flatMap unspentEntries) := by
  refine scanTable_eq readsTable_addressUnspentIndex _ ?_ []
  rintro (_ | ⟨key, hfits, value⟩ | _ | _) - _ ⟨⟩
  rfl

variable {record : DBRecord} {records : List DBRecord} {key : CAddressIndexKey} {value : CAmount}

theorem mem_flatMap_historyEntries :
    (key, value) ∈ records.flatMap historyEntries ↔
      ∃ hfits, addressIndex key hfits value ∈ records := by
  rw [mem_flatMap]
  constructor
  · rintro ⟨⟨key', hfits, value'⟩ | _ | _ | _, hmem, hent⟩
    · cases mem_singleton.1 hent
      exact ⟨hfits, hmem⟩
    all_goals cases hent
  · rintro ⟨hfits, hmem⟩
    exact ⟨_, hmem, mem_singleton_self _⟩

theorem mem_flatMap_unspentEntries {key : CAddressUnspentKey} {value : CAddressUnspentValue} :
    (key, value) ∈ records.flatMap unspentEntries ↔
      ∃ hfits, addressUnspentIndex key hfits value ∈ records := by
  rw [mem_flatMap]
  constructor
  · rintro ⟨_ | ⟨key', hfits, value'⟩ | _ | _, hmem, hent⟩
    · cases hent
    · cases mem_singleton.1 hent
      exact ⟨hfits, hmem⟩
    all_goals cases hent
  · rintro ⟨hfits, hmem⟩
    exact ⟨_, hmem, mem_singleton_self _⟩

/-- Entries of one address are ordered by height and block position. -/
theorem pairwise_historyEntries (hsort : Scan.Ascending rawKey records)
    (hall : ∀ record ∈ records, historyWanted addressHash type start stop record) :
    (records.flatMap historyEntries).Pairwise fun first second =>
      first.1 ≠ second.1 ∧ (first.1.blockHeight < second.1.blockHeight ∨
        first.1.blockHeight = second.1.blockHeight ∧ first.1.txindex ≤ second.1.txindex) := by
  induction records with
  | nil => exact List.Pairwise.nil
  | cons record rest ih =>
    obtain ⟨habove, hrest⟩ := pairwise_cons.1 hsort
    have hwanted := hall record mem_cons_self
    have hbelow := ih hrest (forall_mem_cons.1 hall).2
    cases record with
    | addressUnspentIndex | timestampIndex | other => cases hwanted
    | addressIndex key hfits value =>
      refine pairwise_cons.2 ⟨?_, hbelow⟩
      rintro ⟨key', value'⟩ hent
      obtain ⟨hfits', hmem⟩ := mem_flatMap_historyEntries.1 hent
      have horder := habove _ hmem
      obtain ⟨hkind, hhash, -⟩ := of_decide_eq_true hwanted
      obtain ⟨hkind', hhash', -⟩ := of_decide_eq_true (hall _ (mem_cons_of_mem _ hmem))
      have hsame : key.iteratorKey = key'.iteratorKey := by
        rw [CAddressIndexKey.iteratorKey, CAddressIndexKey.iteratorKey, hkind, hhash,
          hkind', hhash']
      rw [rawKey, rawKey, cons_lt_cons_iff_tail] at horder
      constructor
      · intro heq
        rw [show key = key' from heq] at horder
        exact lt_irrefl _ horder
      · rw [CAddressIndexKey.serialize_lt_iff hfits hfits', hsame] at horder
        rcases horder with hless | ⟨-, hheight | ⟨hheight, hpos⟩⟩
        · exact absurd hless (lt_irrefl _)
        · exact .inl hheight
        · refine .inr ⟨hheight, ?_⟩
          rcases hpos with hless | ⟨heq, -⟩
          · exact hless.le
          · exact heq.le

theorem nodup_unspentEntries (hsort : Scan.Ascending rawKey records) :
    ((records.flatMap unspentEntries).map Prod.fst).Nodup := by
  induction records with
  | nil => exact nodup_nil
  | cons record rest ih =>
    obtain ⟨habove, hrest⟩ := pairwise_cons.1 hsort
    cases record with
    | addressIndex | timestampIndex | other => exact ih hrest
    | addressUnspentIndex key hfits value =>
      refine nodup_cons.2 ⟨?_, ih hrest⟩
      intro hmem
      obtain ⟨⟨key', value'⟩, hent, hsame⟩ := mem_map.1 hmem
      obtain ⟨hfits', hrecord⟩ := mem_flatMap_unspentEntries.1 hent
      have hless := habove _ hrecord
      rw [rawKey, rawKey, show key' = key from hsame] at hless
      exact lt_irrefl _ hless

theorem historyTakes_of_wanted (hwanted : historyWanted addressHash type start stop record = true) :
    historyTakes addressHash stop record = true := by
  cases record with
  | addressUnspentIndex | timestampIndex | other => cases hwanted
  | addressIndex key hfits value =>
    obtain ⟨-, hhash, -, hstop⟩ := of_decide_eq_true hwanted
    simp only [historyTakes, addressIndexKey, Option.any_some, historyGoesOn,
      hhash, decide_true, Bool.true_and, Bool.not_eq_true', decide_eq_false_iff_not, not_and,
      not_lt]
    exact hstop

theorem unspentTakes_of_wanted (hwanted : unspentWanted addressHash type record = true) :
    unspentTakes addressHash record = true := by
  cases record with
  | addressIndex | timestampIndex | other => cases hwanted
  | addressUnspentIndex key hfits value => exact decide_eq_true (of_decide_eq_true hwanted).2

theorem mem_wanted_historyEntries :
    (key, value) ∈ (db.records.filter (historyWanted addressHash type start stop)).flatMap
        historyEntries ↔
      db.StoresHistory key value ∧ key.type = type ∧ key.hashBytes = addressHash ∧
        InHeights start stop key.blockHeight := by
  rw [mem_flatMap_historyEntries]
  simp only [mem_filter, LevelDB.StoresHistory, historyWanted, decide_eq_true_eq]
  exact exists_and_right

theorem mem_wanted_unspentEntries {key : CAddressUnspentKey} {value : CAddressUnspentValue} :
    (key, value) ∈ (db.records.filter (unspentWanted addressHash type)).flatMap
        unspentEntries ↔
      db.StoresUnspent key value ∧ key.type = type ∧ key.hashBytes = addressHash := by
  rw [mem_flatMap_unspentEntries]
  simp only [mem_filter, LevelDB.StoresUnspent, unspentWanted, decide_eq_true_eq]
  exact exists_and_right

theorem exactHistory_of_scan
    (hscan : (db.seek dbAddressIndex (historySeekKey addressHash type start stop)).takeWhile
        (historyTakes addressHash stop) =
      db.records.filter (historyWanted addressHash type start stop)) :
    db.ExactHistory addressHash type start stop := by
  have hall : ∀ record ∈ db.records.filter (historyWanted addressHash type start stop),
      historyWanted addressHash type start stop record :=
    fun record hrecord => (mem_filter.1 hrecord).2
  have hpairs := pairwise_historyEntries (db.sorted.sublist filter_sublist) hall
  refine ⟨_, readAddressIndex_eq, ?_, ?_, ?_⟩
  · intro key value
    rw [hscan, mem_wanted_historyEntries]
  · rw [hscan, List.Nodup, pairwise_map]
    exact hpairs.imp fun hpair => hpair.1
  · rw [hscan]
    exact hpairs.imp fun hpair => hpair.2

theorem exactUnspent_of_scan
    (hscan : (db.seek dbAddressUnspentIndex (serialize ⟨type, addressHash⟩)).takeWhile
        (unspentTakes addressHash) = db.records.filter (unspentWanted addressHash type)) :
    db.ExactUnspent addressHash type := by
  refine ⟨_, readAddressUnspentIndex_eq, ?_, ?_⟩
  · intro key value
    rw [hscan, mem_wanted_unspentEntries]
  · exact nodup_unspentEntries
      (db.sorted.sublist ((takeWhile_sublist _).trans (dropWhile_sublist _)))

/-- The first record past the answer of `ReadAddressIndex` is no low enough entry of the same hash.
-/
def LevelDB.HistoryEnds (db : LevelDB) (addressHash : Uint160) (type : ℕ)
    (start stop : Int32) : Prop :=
  ∀ key hfits value, Scan.FirstPast rawKey db.records
    (dbAddressIndex :: historySeekKey addressHash type start stop)
    (historyWanted addressHash type start stop) (.addressIndex key hfits value) →
      key.hashBytes = addressHash → 0 < stop.toInt ∧ stop.toInt < key.blockHeight

/-- The first record past the answer of `ReadAddressUnspentIndex` has another hash. -/
def LevelDB.UnspentEnds (db : LevelDB) (addressHash : Uint160) (type : ℕ) : Prop :=
  ∀ key hfits value, Scan.FirstPast rawKey db.records
    (dbAddressUnspentIndex :: CAddressIndexIteratorKey.serialize ⟨type, addressHash⟩)
    (unspentWanted addressHash type) (.addressUnspentIndex key hfits value) →
      key.hashBytes ≠ addressHash

variable (htype : type < 2 ^ 8)

include htype

theorem exactHistory_iff :
    db.ExactHistory addressHash type start stop ↔ db.HistoryEnds addressHash type start stop := by
  constructor
  · rintro ⟨found, hfound, hmem, -, -⟩ key hfits value hpast hhash
    obtain rfl := Except.ok.inj (readAddressIndex_eq.symm.trans hfound)
    by_contra hstop
    have htaken := hpast.mem_scan db.sorted (fun _ => historyTakes_of_wanted)
      (by simp only [historyTakes, addressIndexKey, Option.any_some, historyGoesOn, hhash, hstop,
        decide_true, decide_false, Bool.not_false, Bool.and_true])
    have hent := (hmem key value).1 (mem_flatMap_historyEntries.2 ⟨hfits, htaken⟩)
    exact hpast.2.2.1 (decide_eq_true hent.2)
  · intro hends
    apply exactHistory_of_scan
    rw [LevelDB.seek, Scan.scan_eq_filter_iff db.sorted
      (fun _ _ => historyTakes_of_wanted) (fun _ _ => low_of_historyWanted htype)
      fun _ _ hwanted _ _ => historyWanted_of_between htype hwanted]
    intro record hpast
    cases record with
    | addressUnspentIndex | timestampIndex | other => exact Bool.false_ne_true
    | addressIndex key hfits value =>
      have hend := hends key hfits value hpast
      simpa [historyTakes, addressIndexKey, historyGoesOn] using hend

theorem exactUnspent_iff : db.ExactUnspent addressHash type ↔ db.UnspentEnds addressHash type := by
  constructor
  · rintro ⟨found, hfound, hmem, -⟩ key hfits value hpast hhash
    obtain rfl := Except.ok.inj (readAddressUnspentIndex_eq.symm.trans hfound)
    have htaken := hpast.mem_scan db.sorted (fun _ => unspentTakes_of_wanted) (decide_eq_true hhash)
    have hent := (hmem key value).1 (mem_flatMap_unspentEntries.2 ⟨hfits, htaken⟩)
    exact hpast.2.2.1 (decide_eq_true hent.2)
  · intro hends
    apply exactUnspent_of_scan
    rw [LevelDB.seek, Scan.scan_eq_filter_iff db.sorted
      (fun _ _ => unspentTakes_of_wanted) (fun _ _ => low_of_unspentWanted htype)
      fun _ _ hwanted _ _ => unspentWanted_of_between htype hwanted]
    intro record hpast
    cases record with
    | addressIndex | timestampIndex | other => exact Bool.false_ne_true
    | addressUnspentIndex key hfits value =>
      have hend := hends key hfits value hpast
      simpa [unspentTakes, addressUnspentKey, unspentGoesOn] using hend

/-- An address query is exact if and only if the first record past its answer is
not an entry that another type of address has for the same hash. -/
theorem address_queries_exact_iff :
    (db.ExactHistory addressHash type start stop ↔
        db.HistoryEnds addressHash type start stop) ∧
      (db.ExactUnspent addressHash type ↔ db.UnspentEnds addressHash type) :=
  ⟨exactHistory_iff htype, exactUnspent_iff htype⟩

end Exact

namespace AddressQueryWitness

def sharedHash : Uint160 := ⟨List.replicate 20 7, rfl⟩

/-- An output in the first block to the address. -/
def historyKey (type : ℕ) : CAddressIndexKey :=
  ⟨type, sharedHash, 1, 0, hashOf 1, type, false⟩

def unspentKey (type : ℕ) : CAddressUnspentKey := ⟨type, sharedHash, hashOf 1, type⟩

def unspentValue : CAddressUnspentValue := ⟨50, [], 1⟩

def historyRecord (type : ℕ) (htype : type < 256) : DBRecord :=
  .addressIndex (historyKey type)
    ⟨htype, by simp [historyKey], by simp [historyKey], htype.trans (by decide)⟩ 50

def unspentRecord (type : ℕ) (htype : type < 256) : DBRecord :=
  .addressUnspentIndex (unspentKey type) ⟨htype, htype.trans (by decide)⟩ unspentValue

/-- One output to a public key hash. -/
def oneType : LevelDB where
  records := [historyRecord 1 (by decide), unspentRecord 1 (by decide)]
  sorted := by
    simp only [Scan.Ascending, pairwise_cons, mem_singleton, forall_eq]
    decide

/-- Outputs to a key hash and a script hash of the same bytes. -/
def twoTypes : LevelDB where
  records := [historyRecord 1 (by decide), historyRecord 2 (by decide),
    unspentRecord 1 (by decide), unspentRecord 2 (by decide)]
  sorted := by
    simp only [Scan.Ascending]
    decide

theorem address_queries_exact_iff_one_type :
    oneType.ExactHistory sharedHash 1 0 0 ∧ oneType.ExactUnspent sharedHash 1 := by
  have hexact : (oneType.ExactHistory sharedHash 1 0 0 ↔ oneType.HistoryEnds sharedHash 1 0 0) ∧
      (oneType.ExactUnspent sharedHash 1 ↔ oneType.UnspentEnds sharedHash 1) :=
    address_queries_exact_iff (by decide)
  refine ⟨hexact.1.2 ?_, hexact.2.2 ?_⟩
  · rintro key hfits value ⟨hmem, -, hwanted, -⟩
    obtain ⟨rfl, rfl⟩ : key = historyKey 1 ∧ value = 50 := by
      simpa [oneType, historyRecord, unspentRecord] using hmem
    exact absurd rfl hwanted
  · rintro key hfits value ⟨hmem, -, hwanted, -⟩
    obtain ⟨rfl, rfl⟩ : key = unspentKey 1 ∧ value = unspentValue := by
      simpa [oneType, historyRecord, unspentRecord] using hmem
    exact absurd rfl hwanted

/-- Asked for a public key hash, both queries also return the entry of the
script hash with the same bytes. -/
theorem query_returns_other_type :
    ¬ twoTypes.ExactHistory sharedHash 1 0 0 ∧ ¬ twoTypes.ExactUnspent sharedHash 1 := by
  constructor
  · rintro ⟨found, hfound, hmem, -, -⟩
    have hread : twoTypes.readAddressIndex sharedHash 1 0 0 =
        .ok [(historyKey 1, 50), (historyKey 2, 50)] := rfl
    obtain rfl := Except.ok.inj (hread.symm.trans hfound)
    exact absurd ((hmem (historyKey 2) 50).1 (by simp)).2.1 (by decide)
  · rintro ⟨found, hfound, hmem, -⟩
    have hread : twoTypes.readAddressUnspentIndex sharedHash 1 =
        .ok [(unspentKey 1, unspentValue), (unspentKey 2, unspentValue)] := rfl
    obtain rfl := Except.ok.inj (hread.symm.trans hfound)
    exact absurd ((hmem (unspentKey 2) unspentValue).1 (by simp)).2.1 (by decide)

end AddressQueryWitness

end Catoshi
