/-
The keys of the address and timestamp indexes as LevelDB sees them (`index.h`, `serialize.h`,
`dbwrapper.h`), in bytewise order.
-/
import Catoshi.Index
import Catoshi.Lib.ByteStream
import Catoshi.Lib.Scan

namespace Catoshi

open ByteOrder ByteStream BaseBlob CTimestampIndexKey

def dbAddressIndex : UInt8 := 'a'.toUInt8

def dbAddressUnspentIndex : UInt8 := 'u'.toUInt8

def dbTimestampIndex : UInt8 := 's'.toUInt8

def serWriteData8 (n : ℕ) : Bytes := littleEndian 1 n

def serWriteData32 (n : ℕ) : Bytes := littleEndian 4 n

def serWriteData32be (n : ℕ) : Bytes := bigEndian 4 n

def serReadData8 : Reader ℕ := ofLittleEndian <$> readBytes 1

def serReadData32 : Reader ℕ := ofLittleEndian <$> readBytes 4

def serReadData32be : Reader ℕ := ofBigEndian <$> readBytes 4

def BaseBlob.serialize {width : ℕ} (blob : BaseBlob width) : Bytes := blob.data

def BaseBlob.unserialize (width : ℕ) : Reader (BaseBlob width) :=
  ofVector width <$> readBytes width

namespace CAddressIndexKey

def serialize (key : CAddressIndexKey) : Bytes :=
  serWriteData8 key.type ++ (key.hashBytes.serialize ++ (serWriteData32be key.blockHeight ++
    (serWriteData32be key.txindex ++ (key.txhash.serialize ++ (serWriteData32 key.index ++
      serWriteData8 key.spending.toNat)))))

def unserialize : Reader CAddressIndexKey := do
  let type ← serReadData8
  let hashBytes ← BaseBlob.unserialize 20
  let blockHeight ← serReadData32be
  let txindex ← serReadData32be
  let txhash ← BaseBlob.unserialize 32
  let index ← serReadData32
  let f ← serReadData8
  return ⟨type, hashBytes, blockHeight, txindex, txhash, index, f != 0⟩

/-- The numbers of the key fit; a height is not negative. -/
structure Fits (key : CAddressIndexKey) : Prop where
  type : key.type < 2 ^ 8
  blockHeight : key.blockHeight < 2 ^ 31
  txindex : key.txindex < 2 ^ 32
  index : key.index < 2 ^ 32

end CAddressIndexKey

namespace CAddressUnspentKey

def serialize (key : CAddressUnspentKey) : Bytes :=
  serWriteData8 key.type ++ (key.hashBytes.serialize ++ (key.txhash.serialize ++
    serWriteData32 key.index))

def unserialize : Reader CAddressUnspentKey := do
  let type ← serReadData8
  let hashBytes ← BaseBlob.unserialize 20
  let txhash ← BaseBlob.unserialize 32
  let index ← serReadData32
  return ⟨type, hashBytes, txhash, index⟩

structure Fits (key : CAddressUnspentKey) : Prop where
  type : key.type < 2 ^ 8
  index : key.index < 2 ^ 32

end CAddressUnspentKey

namespace CTimestampIndexKey

def serialize (key : CTimestampIndexKey) : Bytes :=
  serWriteData32be key.timestamp.toNat ++ key.blockHash.serialize

def unserialize : Reader CTimestampIndexKey := do
  let timestamp ← serReadData32be
  let blockHash ← BaseBlob.unserialize 32
  return ⟨UInt32.ofNat timestamp, blockHash⟩

end CTimestampIndexKey

/-- `CAddressIndexIteratorKey`, the start of an address' keys. -/
structure CAddressIndexIteratorKey where
  type : ℕ
  hashBytes : Uint160

def CAddressIndexIteratorKey.serialize (key : CAddressIndexIteratorKey) : Bytes :=
  serWriteData8 key.type ++ key.hashBytes.serialize

/-- `CAddressIndexIteratorHeightKey`, the start of an address' keys at a height. -/
structure CAddressIndexIteratorHeightKey where
  type : ℕ
  hashBytes : Uint160
  blockHeight : ℕ

def CAddressIndexIteratorHeightKey.serialize (key : CAddressIndexIteratorHeightKey) : Bytes :=
  serWriteData8 key.type ++ (key.hashBytes.serialize ++ serWriteData32be key.blockHeight)

/-- `CTimestampIndexIteratorKey`, the start of a timestamp's keys. -/
structure CTimestampIndexIteratorKey where
  timestamp : UInt32

def CTimestampIndexIteratorKey.serialize (key : CTimestampIndexIteratorKey) : Bytes :=
  serWriteData32be key.timestamp.toNat

/-- A record of the block tree database. Of other tables only the keys matter, which start with
another byte. -/
inductive DBRecord where
  | addressIndex (key : CAddressIndexKey) (fits : key.Fits) (value : CAmount)
  | addressUnspentIndex (key : CAddressUnspentKey) (fits : key.Fits)
      (value : CAddressUnspentValue)
  | timestampIndex (key : CTimestampIndexKey)
  | other (key : Bytes) (table : key.head? ≠ some dbAddressIndex ∧
      key.head? ≠ some dbAddressUnspentIndex ∧ key.head? ≠ some dbTimestampIndex)

/-- The key LevelDB sees. -/
def DBRecord.rawKey : DBRecord → Bytes
  | .addressIndex key _ _ => dbAddressIndex :: key.serialize
  | .addressUnspentIndex key _ _ => dbAddressUnspentIndex :: key.serialize
  | .timestampIndex key => dbTimestampIndex :: key.serialize
  | .other key _ => key

/-- The block tree database in the order of its iterators. -/
structure LevelDB where
  records : List DBRecord
  sorted : Scan.Ascending DBRecord.rawKey records

/-- `CDBIterator::Seek` on a key of a table. -/
def LevelDB.seek (db : LevelDB) (table : UInt8) (key : Bytes) : List DBRecord :=
  Scan.seek DBRecord.rawKey (table :: key) db.records

def readChar : Reader UInt8
  | [] => none
  | byte :: rest => some (byte, rest)

/-- `CDBIterator::GetKey` for a table and one of its keys. A key too short is not read. -/
def DBRecord.getKey {A : Type} (unserialize : Reader A) (record : DBRecord) :
    Option (UInt8 × A) :=
  StateT.run' (do
    let first ← readChar
    let second ← unserialize
    return (first, second)) record.rawKey

/-- The loops of the range queries: while a record of the table is read and its key passes, it is
added and the cursor moves on. -/
def scanTable {A E : Type} (unserialize : Reader A) (table : UInt8) (goesOn : A → Bool)
    (push : A → DBRecord → Except String (List E)) :
    List DBRecord → List E → Except String (List E)
  | [], found => .ok found
  | record :: rest, found =>
    match record.getKey unserialize with
    | none => .ok found
    | some (first, key) =>
      if first = table ∧ goesOn key then
        match push key record with
        | .error message => .error message
        | .ok entries => scanTable unserialize table goesOn push rest (found ++ entries)
      else
        .ok found

section RoundTrip

variable {n : ℕ} {A : Type} {reader : Reader A} {table : UInt8} {value : A} {record : DBRecord}

theorem reads_serReadData8 (hn : n < 2 ^ 8) : Reads serReadData8 (serWriteData8 n) n :=
  reads_littleEndian hn

theorem reads_serReadData32 (hn : n < 2 ^ 32) : Reads serReadData32 (serWriteData32 n) n :=
  reads_littleEndian hn

theorem reads_serReadData32be (hn : n < 2 ^ 32) : Reads serReadData32be (serWriteData32be n) n :=
  reads_bigEndian hn

theorem BaseBlob.reads_unserialize {width : ℕ} (blob : BaseBlob width) :
    Reads (unserialize width) blob.serialize blob := by
  have hreads := (reads_readBytes blob.size_eq).map (ofVector width)
  rwa [ofVector, dif_pos blob.size_eq] at hreads

theorem CAddressIndexKey.reads_unserialize {key : CAddressIndexKey} (hfits : key.Fits) :
    Reads CAddressIndexKey.unserialize key.serialize key := by
  have hspending : (key.spending.toNat != 0) = key.spending := by cases key.spending <;> rfl
  refine (reads_serReadData8 hfits.type).bind <|
    (BaseBlob.reads_unserialize key.hashBytes).bind <|
    (reads_serReadData32be (hfits.blockHeight.trans (by decide))).bind <|
    (reads_serReadData32be hfits.txindex).bind <|
    (BaseBlob.reads_unserialize key.txhash).bind <|
    (reads_serReadData32 hfits.index).bind <|
    (reads_serReadData8 (Bool.toNat_lt key.spending |>.trans (by decide))).last ?_
  rw [hspending]
  exact Reads.pure key

theorem CAddressUnspentKey.reads_unserialize {key : CAddressUnspentKey} (hfits : key.Fits) :
    Reads CAddressUnspentKey.unserialize key.serialize key :=
  (reads_serReadData8 hfits.type).bind <|
    (BaseBlob.reads_unserialize key.hashBytes).bind <|
    (BaseBlob.reads_unserialize key.txhash).bind <|
    (reads_serReadData32 hfits.index).last <| Reads.pure key

theorem CTimestampIndexKey.reads_unserialize (key : CTimestampIndexKey) :
    Reads unserialize key.serialize key := by
  refine (reads_serReadData32be key.timestamp.toNat_lt).bind <|
    (BaseBlob.reads_unserialize key.blockHash).last ?_
  rw [UInt32.ofNat_toNat]
  exact Reads.pure key

/-- A record of a table is read back as stored. -/
theorem DBRecord.getKey_of_reads {bytes : Bytes} (hreads : Reads reader bytes value)
    (hraw : record.rawKey = table :: bytes) : record.getKey reader = some (table, value) := by
  have hbytes := hreads []
  rw [List.append_nil] at hbytes
  unfold DBRecord.getKey
  rw [hraw]
  change ((reader bytes).bind _).map _ = _
  rw [hbytes]
  rfl

theorem DBRecord.head_of_getKey (hkey : record.getKey reader = some (table, value)) :
    record.rawKey.head? = some table := by
  unfold DBRecord.getKey at hkey
  cases hraw : record.rawKey with
  | nil =>
    rw [hraw] at hkey
    cases hkey
  | cons first bytes =>
    rw [hraw] at hkey
    change ((reader bytes).bind _).map _ = _ at hkey
    cases hread : reader bytes with
    | none =>
      rw [hread] at hkey
      cases hkey
    | some result =>
      rw [hread] at hkey
      cases hkey
      rfl

end RoundTrip

section Tables

variable {record : DBRecord}

def DBRecord.addressIndexKey : DBRecord → Option CAddressIndexKey
  | .addressIndex key _ _ => some key
  | _ => none

def DBRecord.addressUnspentKey : DBRecord → Option CAddressUnspentKey
  | .addressUnspentIndex key _ _ => some key
  | _ => none

def DBRecord.timestampIndexKey : DBRecord → Option CTimestampIndexKey
  | .timestampIndex key => some key
  | _ => none

/-- A table reads its own records and no others. -/
structure ReadsTable {A : Type} (unserialize : Reader A) (table : UInt8)
    (tableKey : DBRecord → Option A) : Prop where
  own : ∀ record key, tableKey record = some key → record.getKey unserialize = some (table, key)
  foreign : ∀ record, tableKey record = none → record.rawKey.head? ≠ some table

theorem readsTable_addressIndex :
    ReadsTable CAddressIndexKey.unserialize dbAddressIndex DBRecord.addressIndexKey where
  own := by
    rintro (⟨key, hfits, value⟩ | _ | _ | _) _ ⟨⟩
    exact DBRecord.getKey_of_reads (CAddressIndexKey.reads_unserialize hfits) rfl
  foreign := by
    rintro (_ | _ | _ | ⟨key, htable⟩) hno
    · cases hno
    · exact (by decide : some dbAddressUnspentIndex ≠ some dbAddressIndex)
    · exact (by decide : some dbTimestampIndex ≠ some dbAddressIndex)
    · exact htable.1

theorem readsTable_addressUnspentIndex :
    ReadsTable CAddressUnspentKey.unserialize dbAddressUnspentIndex DBRecord.addressUnspentKey where
  own := by
    rintro (_ | ⟨key, hfits, value⟩ | _ | _) _ ⟨⟩
    exact DBRecord.getKey_of_reads (CAddressUnspentKey.reads_unserialize hfits) rfl
  foreign := by
    rintro (_ | _ | _ | ⟨key, htable⟩) hno
    · exact (by decide : some dbAddressIndex ≠ some dbAddressUnspentIndex)
    · cases hno
    · exact (by decide : some dbTimestampIndex ≠ some dbAddressUnspentIndex)
    · exact htable.2.1

theorem readsTable_timestampIndex :
    ReadsTable unserialize dbTimestampIndex DBRecord.timestampIndexKey where
  own := by
    rintro (_ | _ | ⟨key⟩ | _) _ ⟨⟩
    exact DBRecord.getKey_of_reads (reads_unserialize key) rfl
  foreign := by
    rintro (_ | _ | _ | ⟨key, htable⟩) hno
    · exact (by decide : some dbAddressIndex ≠ some dbTimestampIndex)
    · exact (by decide : some dbAddressUnspentIndex ≠ some dbTimestampIndex)
    · cases hno
    · exact htable.2.2

theorem scanTable_eq {A E : Type} {unserialize : Reader A} {table : UInt8}
    {tableKey : DBRecord → Option A} (htable : ReadsTable unserialize table tableKey)
    (goesOn : A → Bool) {push : A → DBRecord → Except String (List E)}
    {entries : DBRecord → List E} {records : List DBRecord}
    (hpush : ∀ record ∈ records, ∀ key, tableKey record = some key →
      push key record = .ok (entries record)) (found : List E) :
    scanTable unserialize table goesOn push records found =
      .ok (found ++ (records.takeWhile fun record => (tableKey record).any goesOn).flatMap
        entries) := by
  induction records generalizing found with
  | nil => simp [scanTable]
  | cons record rest ih =>
    rw [scanTable]
    cases hkey : tableKey record with
    | none =>
      have hstops : ((tableKey record).any goesOn) = false := by rw [hkey]; rfl
      rw [List.takeWhile_cons_of_neg (by simp [hstops])]
      cases hget : record.getKey unserialize with
      | none => simp
      | some pair =>
        have hfst : pair.1 ≠ table := by
          intro heq
          refine htable.foreign record hkey ?_
          rw [← heq]
          exact DBRecord.head_of_getKey hget
        simp [hfst]
    | some key =>
      rw [htable.own record key hkey]
      cases hgoes : goesOn key with
      | false =>
        rw [List.takeWhile_cons_of_neg (by simp [hkey, hgoes])]
        simp [hgoes]
      | true =>
        rw [List.takeWhile_cons_of_pos (by simp [hkey, hgoes])]
        have hrest := ih (List.forall_mem_cons.1 hpush).2
        simp [hgoes, hpush record List.mem_cons_self key hkey, hrest]

end Tables

section Order

variable {first second : ℕ}

theorem serWriteData32be_lt_iff (hfst : first < 2 ^ 32) (hsnd : second < 2 ^ 32) :
    serWriteData32be first < serWriteData32be second ↔ first < second :=
  bigEndian_lt_iff hfst hsnd

theorem serWriteData32be_inj (hfst : first < 2 ^ 32) (hsnd : second < 2 ^ 32) :
    serWriteData32be first = serWriteData32be second ↔ first = second :=
  ⟨bigEndian_inj hfst hsnd, congrArg _⟩

theorem BaseBlob.serialize_inj {width : ℕ} {first second : BaseBlob width} :
    first.serialize = second.serialize ↔ first = second := by
  constructor
  · intro heq
    cases second
    cases heq
    rfl
  · exact congrArg _

namespace CAddressIndexIteratorKey

theorem length_serialize (key : CAddressIndexIteratorKey) : key.serialize.length = 21 := by
  simp [serialize, serWriteData8, BaseBlob.serialize, key.hashBytes.size_eq]

theorem serialize_inj {first second : CAddressIndexIteratorKey} (hfst : first.type < 2 ^ 8)
    (hsnd : second.type < 2 ^ 8) :
    first.serialize = second.serialize ↔
      first.type = second.type ∧ first.hashBytes = second.hashBytes := by
  constructor
  · intro heq
    obtain ⟨htype, hhash⟩ := List.append_inj heq (by simp [serWriteData8])
    have hread := congrArg ofLittleEndian htype
    rw [serWriteData8, serWriteData8, ofLittleEndian_littleEndian hfst,
      ofLittleEndian_littleEndian hsnd] at hread
    exact ⟨hread, BaseBlob.serialize_inj.1 hhash⟩
  · rintro ⟨htype, hhash⟩
    rw [serialize, serialize, htype, hhash]

end CAddressIndexIteratorKey

end Order

end Catoshi
