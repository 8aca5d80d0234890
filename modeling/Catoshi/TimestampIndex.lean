/-
The timestamp index. `ConnectBlock` gives every block a logical timestamp and records it by hash
and by timestamp. Disconnecting leaves both, and `ReadTimestampIndex` (`txdb.cpp`) asks
`HashOnchainActive` (`index.cpp`).
-/
import Catoshi.AddressIndex
import Catoshi.KeyFormat

namespace Catoshi

open ByteOrder ByteStream CTimestampIndexKey CBlockTreeDB CBlockIndex DBRecord List

section

variable (mapBlockIndex : Uint256 → Option CBlockIndex) (tip : Option CBlockIndex)

/-- `HashOnchainActive`. An unknown hash gets a null entry, which `Contains` follows. -/
def hashOnchainActive (hash : Uint256) : Except String Bool :=
  match mapBlockIndex hash with
  | none => .error "null block index"
  | some pblockindex => .ok (chainContains tip pblockindex)

/-- What a record adds to `ReadTimestampIndex`. -/
def pushTimestamp (fActiveOnly : Bool) (key : CTimestampIndexKey) (_ : DBRecord) :
    Except String (List (Uint256 × UInt32)) :=
  if fActiveOnly then
    match hashOnchainActive mapBlockIndex tip key.blockHash with
    | .error message => .error message
    | .ok true => .ok [(key.blockHash, key.timestamp)]
    | .ok false => .ok []
  else
    .ok [(key.blockHash, key.timestamp)]

def LevelDB.readTimestampIndex (level : LevelDB) (mapBlockIndex : Uint256 → Option CBlockIndex)
    (tip : Option CBlockIndex) (high low : UInt32) (fActiveOnly : Bool) :
    Except String (List (Uint256 × UInt32)) :=
  scanTable CTimestampIndexKey.unserialize dbTimestampIndex
    (fun key => decide (key.timestamp < high)) (pushTimestamp mapBlockIndex tip fActiveOnly)
    (level.seek dbTimestampIndex (CTimestampIndexIteratorKey.serialize ⟨low⟩)) []

/-- The logical timestamp of a block and its ancestors. -/
def CBlockIndex.logicalTime : CBlockIndex → ℕ
  | .genesis _ _ => 0
  | .child pprev _ nTime => max nTime.toNat (pprev.logicalTime + 1)

def connectedBlocks (steps : List (CChainState × TipCall)) : List CBlockIndex :=
  steps.filterMap fun step =>
    match step.2 with
    | .connect _ pindexNew _ => some pindexNew
    | .disconnect _ => none

/-- A block above the genesis with its own logical timestamp. -/
def Timestamped (connected : List CBlockIndex) (pindex : CBlockIndex) : Prop :=
  pindex ∈ connected ∧ pindex.pprev ≠ none

/-- Callers of `ConnectTip` promise the block the index holds under its hash, with a logical
timestamp of 32 bits. -/
def TipCall.Timely : TipCall → Prop
  | .connect _ pindexNew _ =>
    mapBlockIndex pindexNew.getBlockHash = some pindexNew ∧ pindexNew.logicalTime < 2 ^ 32
  | .disconnect _ => True

/-- Both tables hold the timestamps of connected blocks. -/
structure CBlockTreeDB.HoldsTimestamps (db : CBlockTreeDB) (connected : List CBlockIndex) :
    Prop where
  byHash : ∀ hash ts, db.timestampBlockIndex.lookup hash = some ts ↔
    ∃ pindex, Timestamped connected pindex ∧ pindex.getBlockHash = hash ∧
      ts.toNat = pindex.logicalTime
  byTime : ∀ key, key ∈ db.timestampIndex ↔
    ∃ pindex, Timestamped connected pindex ∧ pindex.getBlockHash = key.blockHash ∧
      key.timestamp.toNat = pindex.logicalTime

end

section Step

variable {mapBlockIndex : Uint256 → Option CBlockIndex} {connected : List CBlockIndex}
  {db : CBlockTreeDB}

/-- A hash belongs to one block of the index. -/
theorem eq_of_hash {first second : CBlockIndex}
    (hfst : mapBlockIndex first.getBlockHash = some first)
    (hsnd : mapBlockIndex second.getBlockHash = some second)
    (hhash : first.getBlockHash = second.getBlockHash) : first = second := by
  rw [hhash, hsnd] at hfst
  exact (Option.some.inj hfst).symm

variable {pprev pindex : CBlockIndex} {options : IndexOptions}

theorem toNat_logicalTimestamp (hholds : db.HoldsTimestamps connected)
    (hidx : ∀ pindex ∈ connected, mapBlockIndex pindex.getBlockHash = some pindex)
    (hprev : pindex.pprev = some pprev) (hmem : pprev ∈ connected)
    (hfits : pindex.logicalTime < 2 ^ 32) :
    (logicalTimestamp db pindex).toNat = pindex.logicalTime := by
  cases pindex with
  | genesis hash time => cases hprev
  | child parent hash time =>
    obtain rfl : parent = pprev := Option.some.inj hprev
    have hpar : ((db.readTimestampBlockIndex parent.getBlockHash).getD 0).toNat =
        parent.logicalTime := by
      rw [readTimestampBlockIndex]
      cases hlook : db.timestampBlockIndex.lookup parent.getBlockHash with
      | some ts =>
        obtain ⟨other, ⟨ho, -⟩, hhash, hval⟩ := (hholds.byHash _ _).1 hlook
        rw [eq_of_hash (hidx other ho) (hidx parent hmem) hhash] at hval
        exact hval
      | none =>
        cases parent with
        | genesis hash time => rfl
        | child before hash time =>
          -- a parent above the genesis block has been recorded
          have hbound : (child before hash time).logicalTime < 2 ^ 32 := by
            rw [logicalTime] at hfits
            omega
          have hf := (hholds.byHash (child before hash time).getBlockHash
            (UInt32.ofNat (child before hash time).logicalTime)).2
            ⟨_, ⟨hmem, by simp [pprev]⟩, rfl, by
              exact Nat.mod_eq_of_lt hbound⟩
          rw [hlook] at hf
          cases hf
    rw [logicalTime] at hfits ⊢
    have hhash : (child parent hash time).hashPrevBlock = parent.getBlockHash := rfl
    have htime : (child parent hash time).nTime = time := rfl
    unfold logicalTimestamp
    simp only [hhash, htime]
    split_ifs with hle
    · rw [UInt32.le_iff_toNat_le] at hle
      rw [UInt32.toNat_add, UInt32.toNat_one]
      omega
    · rw [UInt32.le_iff_toNat_le] at hle
      omega

theorem timestampBlockIndex_writeConnected (hon : options.fTimestampIndex = true)
    (pindex : CBlockIndex) (index : IndexChanges) :
    (db.writeConnected options pindex index).timestampBlockIndex =
      db.timestampBlockIndex.insert pindex.getBlockHash (logicalTimestamp db pindex) := by
  unfold writeConnected
  split <;> split <;> rfl

theorem timestampIndex_writeConnected (hon : options.fTimestampIndex = true) (pindex : CBlockIndex)
    (index : IndexChanges) :
    (db.writeConnected options pindex index).timestampIndex =
      db.timestampIndex.insert ⟨logicalTimestamp db pindex, pindex.getBlockHash⟩ 0 := by
  unfold writeConnected
  split <;> split <;> rfl

theorem CBlockTreeDB.HoldsTimestamps.writeDisconnected (hholds : db.HoldsTimestamps connected)
    (options : IndexOptions) (index : IndexChanges) :
    (db.writeDisconnected options index).HoldsTimestamps connected := by
  unfold CBlockTreeDB.writeDisconnected
  split
  · exact ⟨hholds.byHash, hholds.byTime⟩
  · exact hholds

theorem timestamped_cons {other : CBlockIndex} :
    Timestamped (pindex :: connected) other ↔
      (other = pindex ∧ pindex.pprev ≠ none) ∨ Timestamped connected other := by
  simp only [Timestamped, mem_cons]
  constructor
  · rintro ⟨rfl | hmem, hprev⟩
    · exact .inl ⟨rfl, hprev⟩
    · exact .inr ⟨hmem, hprev⟩
  · rintro (⟨rfl, hprev⟩ | ⟨hmem, hprev⟩)
    · exact ⟨.inl rfl, hprev⟩
    · exact ⟨.inr hmem, hprev⟩

/-- The genesis block is not recorded. -/
theorem CBlockTreeDB.HoldsTimestamps.genesis (hholds : db.HoldsTimestamps connected)
    (hprev : pindex.pprev = none) : db.HoldsTimestamps (pindex :: connected) where
  byHash := by simpa [timestamped_cons, hprev] using hholds.byHash
  byTime := by simpa [timestamped_cons, hprev] using hholds.byTime

/-- Connecting a block above the genesis records its logical timestamp. -/
theorem CBlockTreeDB.HoldsTimestamps.writeConnected (hholds : db.HoldsTimestamps connected)
    (hon : options.fTimestampIndex = true)
    (hidx : ∀ pindex ∈ connected, mapBlockIndex pindex.getBlockHash = some pindex)
    (hprev : pindex.pprev = some pprev) (hmem : pprev ∈ connected)
    (hself : mapBlockIndex pindex.getBlockHash = some pindex) (hfits : pindex.logicalTime < 2 ^ 32)
    (index : IndexChanges) :
    (db.writeConnected options pindex index).HoldsTimestamps (pindex :: connected) := by
  have hval := toNat_logicalTimestamp hholds hidx hprev hmem hfits
  have hsome : pindex.pprev ≠ none := by simp [hprev]
  -- a block that was connected before has the same entries
  have hsame : ∀ other, Timestamped connected other →
      other.getBlockHash = pindex.getBlockHash → other = pindex := fun other ho hhash =>
    eq_of_hash (hidx other ho.1) hself hhash
  constructor
  · intro hash ts
    rw [timestampBlockIndex_writeConnected hon]
    by_cases hhash : hash = pindex.getBlockHash
    · subst hhash
      rw [Finmap.lookup_insert, Option.some.injEq]
      constructor
      · rintro rfl
        exact ⟨pindex, timestamped_cons.2 (.inl ⟨rfl, hsome⟩), rfl, hval⟩
      · rintro ⟨other, ho, hhash, hts⟩
        have hother' : other = pindex :=
          (timestamped_cons.1 ho).elim And.left fun hold => hsame other hold hhash
        rw [hother', ← hval] at hts
        exact UInt32.toNat_inj.1 hts.symm
    · rw [Finmap.lookup_insert_of_ne _ hhash, hholds.byHash]
      refine exists_congr fun other => ?_
      rw [timestamped_cons]
      constructor
      · rintro ⟨ho, hrest⟩
        exact ⟨.inr ho, hrest⟩
      · rintro ⟨⟨rfl, -⟩ | ho, hrest⟩
        · exact absurd hrest.1.symm hhash
        · exact ⟨ho, hrest⟩
  · intro key
    rw [timestampIndex_writeConnected hon, Finmap.mem_insert, hholds.byTime]
    constructor
    · rintro (rfl | ⟨other, ho, hrest⟩)
      · exact ⟨pindex, timestamped_cons.2 (.inl ⟨rfl, hsome⟩), rfl, hval⟩
      · exact ⟨other, timestamped_cons.2 (.inr ho), hrest⟩
    · rintro ⟨other, ho, hhash, hts⟩
      rcases timestamped_cons.1 ho with ⟨rfl, -⟩ | hold
      · refine .inl ?_
        obtain ⟨timestamp, blockHash⟩ := key
        obtain rfl : other.getBlockHash = blockHash := hhash
        rw [CTimestampIndexKey.mk.injEq]
        exact ⟨UInt32.toNat_inj.1 (hts.trans hval.symm), rfl⟩
      · exact .inr ⟨other, hold, hhash, hts⟩

end Step

/-- The timestamp tables after connecting these blocks. -/
structure CChainState.Timestamps (mapBlockIndex : Uint256 → Option CBlockIndex)
    (connected : List CBlockIndex) (s : CChainState) : Prop where
  holds : s.store.blocktree.HoldsTimestamps connected
  active : ∀ pindex ∈ activeChain s.tip, pindex ∈ connected
  indexed : ∀ pindex ∈ connected, mapBlockIndex pindex.getBlockHash = some pindex ∧
    pindex.logicalTime < 2 ^ 32
  closed : ∀ pindex ∈ connected, ∀ other ∈ pindex.ancestors, other ∈ connected

section Run

variable {ctx : ValidationContext} {mapBlockIndex : Uint256 → Option CBlockIndex}
  {connected : List CBlockIndex} {start s s' : CChainState} {env : FlushEnv}

theorem CChainState.Timestamps.connect (hs : s.Timestamps mapBlockIndex connected)
    (hon : ctx.options.fTimestampIndex = true) {pindexNew : CBlockIndex} {pblock : Option CBlock}
    (hprom : TipCall.Promised ctx s (.connect env pindexNew pblock))
    (htimely : TipCall.Timely mapBlockIndex (.connect env pindexNew pblock))
    (hcall : s.connectTip ctx env pindexNew pblock = .ok (.ok (), s')) :
    s'.Timestamps mapBlockIndex (pindexNew :: connected) := by
  obtain ⟨hprev, block, view, store, -, hconn, hmove⟩ := CChainState.of_connectTip hcall
  obtain ⟨htip, hstore, -⟩ := CChainState.of_moveTip hmove
  obtain ⟨hhash, -, -, hcase⟩ := of_connectBlock hconn
  have hactive : ∀ pindex ∈ pindexNew.ancestors, pindex ∈ pindexNew :: connected := by
    intro pindex hmem
    rcases hpar : pindexNew.pprev with - | pprev
    · rw [eq_of_mem_ancestors hpar hmem]
      exact mem_cons_self
    · rw [ancestors_of_pprev hpar] at hmem
      rcases mem_cons.1 hmem with rfl | hbelow
      · exact mem_cons_self
      · refine mem_cons_of_mem _ (hs.active pindex ?_)
        rw [← hprev, hpar]
        exact hbelow
  refine ⟨?_, htip ▸ hactive, ?_, ?_⟩
  · rw [hstore]
    rcases hcase with ⟨hgen, -, rfl⟩ | ⟨-, pprev, made, hpar, -, -, rfl⟩
    · exact hs.holds.genesis (hprom.2 (hhash.trans hgen))
    · have hmem : pprev ∈ connected := by
        refine hs.active pprev ?_
        rw [← hprev, hpar]
        exact ancestors_self pprev
      rw [(BlockStore.writeUndoDataForBlock_rest _ _ _).2]
      exact hs.holds.writeConnected hon (fun pindex hpidx => (hs.indexed pindex hpidx).1)
        hpar hmem htimely.1 htimely.2 _
  · exact forall_mem_cons.2 ⟨htimely, hs.indexed⟩
  · refine forall_mem_cons.2 ⟨hactive, fun pindex hmem other ho => ?_⟩
    exact mem_cons_of_mem _ (hs.closed pindex hmem other ho)

theorem CChainState.Timestamps.disconnect (hs : s.Timestamps mapBlockIndex connected)
    (hcall : s.disconnectTip ctx.options env = .ok (.ok (), s')) :
    s'.Timestamps mapBlockIndex connected := by
  obtain ⟨pindex, block, done, htip, -, hdone, -, hmove⟩ := CChainState.of_disconnectTip hcall
  obtain ⟨htip', hstore, -⟩ := CChainState.of_moveTip hmove
  refine ⟨?_, ?_, hs.indexed, hs.closed⟩
  · rw [hstore]
    rcases of_disconnectBlock hdone with ⟨-, hkept⟩ | ⟨blockUndo, last, -, -, -, -, rfl⟩
    · rw [hkept]
      exact hs.holds
    · exact hs.holds.writeDisconnected _ _
  · intro other ho
    refine hs.active other ?_
    rw [htip'] at ho
    rw [htip]
    cases pindex with
    | genesis hash time => cases ho
    | child pprev hash time => exact mem_cons_of_mem _ ho

theorem CChainState.Trace.timestamps {steps : List (CChainState × TipCall)}
    (hon : ctx.options.fTimestampIndex = true) (hstart : start.Initial)
    (htrace : Trace ctx start steps s)
    (hsteps : ∀ step ∈ steps, step.2.Promised ctx step.1 ∧ step.2.Timely mapBlockIndex) :
    s.Timestamps mapBlockIndex (connectedBlocks steps) := by
  induction htrace with
  | start =>
    refine ⟨?_, ?_, fun pindex hmem => absurd hmem not_mem_nil,
      fun pindex hmem => absurd hmem not_mem_nil⟩
    · rw [hstart.blocktree]
      constructor
      · simp [empty, Timestamped, connectedBlocks]
      · simp [empty, Timestamped, connectedBlocks, Finmap.notMem_empty]
    · rw [hstart.tip]
      exact fun pindex hmem => absurd hmem not_mem_nil
  | @step steps s s' call htrace hcall ih =>
    have hprior := ih (forall_mem_cons.1 hsteps).2
    obtain ⟨hprom, htimely⟩ := hsteps _ mem_cons_self
    cases call with
    | connect env pindexNew pblock => exact hprior.connect hon hprom htimely hcall
    | disconnect env => exact hprior.disconnect hcall

end Run

def LevelDB.HoldsTable (level : LevelDB) (db : CBlockTreeDB) : Prop :=
  ∀ key, DBRecord.timestampIndex key ∈ level.records ↔ key ∈ db.timestampIndex

theorem rawKey_timestampIndex_inj {first second : CTimestampIndexKey}
    (hsame : (timestampIndex first).rawKey = (timestampIndex second).rawKey) :
    first = second := by
  have hread := (reads_unserialize first) []
  rw [(List.cons.inj hsame).2, reads_unserialize second []] at hread
  cases hread
  rfl

/-- Any timestamp table is that of a database. -/
theorem CBlockTreeDB.exists_levelDB (db : CBlockTreeDB) :
    ∃ level : LevelDB, level.HoldsTable db := by
  let unsorted := db.timestampIndex.keys.toList.map DBRecord.timestampIndex
  let records := unsorted.insertionSort fun first second => first.rawKey ≤ second.rawKey
  have hperm : records.Perm unsorted := perm_insertionSort _ _
  have hmem : ∀ record, record ∈ records ↔
      ∃ key ∈ db.timestampIndex, DBRecord.timestampIndex key = record := by
    intro record
    rw [hperm.mem_iff]
    simp [unsorted, Finmap.mem_keys]
  have hnd : records.Nodup :=
    hperm.nodup_iff.2 (List.Nodup.map (fun _ _ hsame => DBRecord.timestampIndex.inj hsame)
      (Finset.nodup_toList _))
  have hweak : records.Pairwise fun first second => first.rawKey ≤ second.rawKey :=
    pairwise_insertionSort _ _
  refine ⟨⟨records, ?_⟩, fun key => ?_⟩
  · refine (hweak.and hnd).imp_of_mem fun hfst hsnd hpair => ?_
    obtain ⟨first, -, rfl⟩ := (hmem _).1 hfst
    obtain ⟨second, -, rfl⟩ := (hmem _).1 hsnd
    refine lt_of_le_of_ne hpair.1 fun hsame => hpair.2 ?_
    rw [rawKey_timestampIndex_inj hsame]
  · simp [hmem]

section Query

variable {level : LevelDB} {high low : UInt32} {keeps : Uint256 → Bool}

theorem CTimestampIndexKey.length_parts (first second : ℕ) :
    (serWriteData32be first).length = (serWriteData32be second).length := by
  simp [serWriteData32be]

theorem timestampSeekKey_le_iff {key : CTimestampIndexKey} :
    dbTimestampIndex :: CTimestampIndexIteratorKey.serialize ⟨low⟩ ≤
        (timestampIndex key).rawKey ↔ low ≤ key.timestamp := by
  rw [rawKey, ← not_lt, cons_lt_cons_iff, serialize,
    CTimestampIndexIteratorKey.serialize, append_lt_iff (length_parts _ _),
    serWriteData32be_lt_iff key.timestamp.toNat_lt low.toNat_lt]
  simp [UInt32.le_iff_toNat_le]

theorem timestamp_le_of_rawKey_lt {first second : CTimestampIndexKey}
    (hless : (timestampIndex first).rawKey < (timestampIndex second).rawKey) :
    first.timestamp ≤ second.timestamp := by
  rw [rawKey, rawKey, cons_lt_cons_iff, serialize,
    serialize, append_lt_append_iff (length_parts _ _),
    serWriteData32be_lt_iff first.timestamp.toNat_lt second.timestamp.toNat_lt,
    serWriteData32be_inj first.timestamp.toNat_lt second.timestamp.toNat_lt] at hless
  rcases hless with hhead | ⟨-, hbelow | ⟨hsame, -⟩⟩
  · exact absurd hhead (lt_irrefl _)
  · exact hbelow.le
  · exact hsame.le

/-- The records `ReadTimestampIndex` walks over. -/
def timestampTakes (high : UInt32) (record : DBRecord) : Bool :=
  record.timestampIndexKey.any fun key => decide (key.timestamp < high)

/-- The records `ReadTimestampIndex` is asked for. -/
def timestampWanted (high low : UInt32) (record : DBRecord) : Bool :=
  record.timestampIndexKey.any fun key =>
    decide (low ≤ key.timestamp) && decide (key.timestamp < high)

/-- What a record adds, given the blocks that count. -/
def timestampEntries (keeps : Uint256 → Bool) : DBRecord → List (Uint256 × UInt32)
  | .timestampIndex key =>
    if keeps key.blockHash then [(key.blockHash, key.timestamp)] else []
  | _ => []

/-- The walk finds the range exactly. -/
theorem scan_timestamps :
    (level.seek dbTimestampIndex (CTimestampIndexIteratorKey.serialize ⟨low⟩)).takeWhile
        (timestampTakes high) = level.records.filter (timestampWanted high low) := by
  refine (Scan.scan_eq_filter_iff level.sorted ?_ ?_ ?_).2 ?_
  · rintro record - hwant
    cases record with
    | timestampIndex key => exact (Bool.and_eq_true_iff.1 hwant).2
    | addressIndex | addressUnspentIndex | other => cases hwant
  · rintro record - hwant
    cases record with
    | timestampIndex key =>
      exact timestampSeekKey_le_iff.2 (of_decide_eq_true (Bool.and_eq_true_iff.1 hwant).1)
    | addressIndex | addressUnspentIndex | other => cases hwant
  · rintro record - hwant other - hlow hless
    cases record with
    | timestampIndex key =>
      cases other with
      | timestampIndex key' =>
        have hbelow := of_decide_eq_true (Bool.and_eq_true_iff.1 hwant).2
        refine Bool.and_eq_true_iff.2 ⟨decide_eq_true (timestampSeekKey_le_iff.1 hlow),
          decide_eq_true ?_⟩
        exact UInt32.lt_of_le_of_lt (timestamp_le_of_rawKey_lt hless) hbelow
      | addressIndex | addressUnspentIndex | other =>
        exact absurd (head_of_between hlow hless) (readsTable_timestampIndex.foreign _ rfl)
    | addressIndex | addressUnspentIndex | other => cases hwant
  · rintro record ⟨-, hlow, hwant, -⟩ htakes
    cases record with
    | timestampIndex key => exact hwant (Bool.and_eq_true_iff.2
        ⟨decide_eq_true (timestampSeekKey_le_iff.1 hlow), htakes⟩)
    | addressIndex | addressUnspentIndex | other => cases htakes

variable {records : List DBRecord}

theorem mem_timestampEntries {hash : Uint256} {ts : UInt32} :
    (hash, ts) ∈ records.flatMap (timestampEntries keeps) ↔
      timestampIndex ⟨ts, hash⟩ ∈ records ∧ keeps hash = true := by
  rw [mem_flatMap]
  constructor
  · rintro ⟨_ | _ | key | _, hmem, hent⟩
    · cases hent
    · cases hent
    · rw [timestampEntries] at hent
      split_ifs at hent with hkeeps
      · cases mem_singleton.1 hent
        exact ⟨hmem, hkeeps⟩
      · cases hent
    · cases hent
  · rintro ⟨hmem, hkeeps⟩
    refine ⟨_, hmem, ?_⟩
    rw [timestampEntries, if_pos hkeeps]
    exact mem_singleton_self _

/-- The entries come in order of timestamps, each once. -/
theorem pairwise_timestampEntries (hsort : Scan.Ascending rawKey records) :
    (records.flatMap (timestampEntries keeps)).Pairwise fun first second =>
      first ≠ second ∧ first.2 ≤ second.2 := by
  induction records with
  | nil => exact List.Pairwise.nil
  | cons record rest ih =>
    obtain ⟨habove, hrest⟩ := pairwise_cons.1 hsort
    rw [flatMap_cons]
    cases record with
    | addressIndex | addressUnspentIndex | other => exact ih hrest
    | timestampIndex key =>
      rw [timestampEntries]
      split
      · refine pairwise_cons.2 ⟨?_, ih hrest⟩
        rintro ⟨hash, ts⟩ hent
        have horder := habove _ (mem_timestampEntries.1 hent).1
        refine ⟨?_, timestamp_le_of_rawKey_lt horder⟩
        rintro ⟨⟩
        exact lt_irrefl _ horder
      · exact ih hrest

end Query

def CChainState.recordedTime (s : CChainState) (pindex : CBlockIndex) : Option ℕ :=
  (s.store.blocktree.readTimestampBlockIndex pindex.getBlockHash).map UInt32.toNat

/-- `ReadTimestampIndex` on any database with the node's timestamp table. -/
def CChainState.AnswersTimestamps (mapBlockIndex : Uint256 → Option CBlockIndex)
    (connected : List CBlockIndex) (s : CChainState) (high low : UInt32) (fActiveOnly : Bool) :
    Prop :=
  ∀ level : LevelDB, level.HoldsTable s.store.blocktree →
    ∃ found, level.readTimestampIndex mapBlockIndex s.tip high low fActiveOnly = .ok found ∧
      (∀ hash ts, (hash, ts) ∈ found ↔ low ≤ ts ∧ ts < high ∧
        ∃ pindex, Timestamped connected pindex ∧ pindex.getBlockHash = hash ∧
          s.recordedTime pindex = some ts.toNat ∧
          (fActiveOnly = true → pindex ∈ activeChain s.tip)) ∧
      found.Nodup ∧ found.Pairwise fun first second => first.2 ≤ second.2

/-- What the timestamp index is for. -/
structure CChainState.TimestampIndexed (mapBlockIndex : Uint256 → Option CBlockIndex)
    (connected : List CBlockIndex) (s : CChainState) : Prop where
  recurrence : ∀ pindex ∈ connected, ∀ pprev, pindex.pprev = some pprev →
    ∃ parent, (if pprev.nHeight = 0 then parent = 0 else s.recordedTime pprev = some parent) ∧
      s.recordedTime pindex = some (max pindex.nTime.toNat (parent + 1))
  ancestral : ∀ pindex ∈ connected, pindex.pprev ≠ none →
    s.recordedTime pindex = some pindex.logicalTime
  increasing : ∀ pindex ∈ connected, ∀ other ∈ pindex.ancestors, other ≠ pindex →
    other.pprev ≠ none → ∃ earlier later, s.recordedTime other = some earlier ∧
      s.recordedTime pindex = some later ∧ earlier < later
  query : ∀ high low fActiveOnly, s.AnswersTimestamps mapBlockIndex connected high low fActiveOnly

section Result

variable {mapBlockIndex : Uint256 → Option CBlockIndex} {connected : List CBlockIndex}
  {s : CChainState} {pindex : CBlockIndex}

theorem CChainState.Timestamps.recordedTime_eq (hs : s.Timestamps mapBlockIndex connected)
    (hmem : pindex ∈ connected) (hprev : pindex.pprev ≠ none) :
    s.recordedTime pindex = some pindex.logicalTime := by
  have hval : (UInt32.ofNat pindex.logicalTime).toNat = pindex.logicalTime := by
    exact Nat.mod_eq_of_lt (hs.indexed pindex hmem).2
  have hf := (hs.holds.byHash pindex.getBlockHash (UInt32.ofNat pindex.logicalTime)).2
    ⟨pindex, ⟨hmem, hprev⟩, rfl, hval⟩
  rw [CChainState.recordedTime, readTimestampBlockIndex, hf, Option.map_some, hval]

theorem CBlockIndex.logicalTime_lt {other : CBlockIndex} (hmem : other ∈ pindex.ancestors)
    (hne : other ≠ pindex) : other.logicalTime < pindex.logicalTime := by
  induction pindex, hmem using ancestors_induction with
  | self => exact absurd rfl hne
  | child pprev hash time hbelow ih =>
    have hstep : pprev.logicalTime < (child pprev hash time).logicalTime := by
      rw [logicalTime]
      omega
    by_cases hsame : other = pprev
    · rw [hsame]
      exact hstep
    · exact (ih hsame).trans hstep

theorem CChainState.Timestamps.answers (hs : s.Timestamps mapBlockIndex connected)
    (high low : UInt32) (fActiveOnly : Bool) :
    s.AnswersTimestamps mapBlockIndex connected high low fActiveOnly := by
  intro level hlevel
  let keeps : Uint256 → Bool := fun hash =>
    !fActiveOnly || (mapBlockIndex hash).any (chainContains s.tip)
  have hin : ∀ pindex hash, Timestamped connected pindex → pindex.getBlockHash = hash →
      mapBlockIndex hash = some pindex := by
    rintro pindex _ htimed rfl
    exact (hs.indexed pindex htimed.1).1
  have hstored : ∀ key, DBRecord.timestampIndex key ∈ level.records ↔
      ∃ pindex, Timestamped connected pindex ∧ pindex.getBlockHash = key.blockHash ∧
        key.timestamp.toNat = pindex.logicalTime :=
    fun key => (hlevel key).trans (hs.holds.byTime key)
  have hread : level.readTimestampIndex mapBlockIndex s.tip high low fActiveOnly =
      .ok ((level.records.filter (timestampWanted high low)).flatMap (timestampEntries keeps)) := by
    rw [← scan_timestamps]
    refine scanTable_eq readsTable_timestampIndex _ ?_ []
    intro record hrecord key hkey
    cases record with
    | addressIndex | addressUnspentIndex | other => cases hkey
    | timestampIndex stored =>
      obtain rfl : stored = key := Option.some.inj hkey
      have hmem := (dropWhile_sublist _).subset hrecord
      obtain ⟨pindex, htimed, hhash, -⟩ := (hstored stored).1 hmem
      have hf := hin pindex stored.blockHash htimed hhash
      -- every recorded hash is known, so the loop never meets a null entry
      cases fActiveOnly with
      | false => rfl
      | true =>
        simp only [pushTimestamp, hashOnchainActive, hf, timestampEntries, keeps,
          if_true, Bool.not_true, Bool.false_or, Option.any_some]
        cases chainContains s.tip pindex <;> rfl
  have hpairs : ((level.records.filter (timestampWanted high low)).flatMap
      (timestampEntries keeps)).Pairwise _ :=
    pairwise_timestampEntries (level.sorted.sublist filter_sublist)
  refine ⟨_, hread, ?_, hpairs.imp fun hpair => hpair.1, hpairs.imp fun hpair => hpair.2⟩
  intro hash ts
  rw [mem_timestampEntries, mem_filter, hstored]
  have hwant : timestampWanted high low (.timestampIndex ⟨ts, hash⟩) = true ↔
      low ≤ ts ∧ ts < high := by
    simp [timestampWanted, DBRecord.timestampIndexKey]
  rw [hwant]
  constructor
  · rintro ⟨⟨⟨pindex, htimed, hhash, hval⟩, hlow, hhigh⟩, hkeeps⟩
    refine ⟨hlow, hhigh, pindex, htimed, hhash, ?_, ?_⟩
    · rw [hs.recordedTime_eq htimed.1 htimed.2, ← hval]
    · intro hactive
      have hf := hin pindex hash htimed hhash
      simpa [keeps, hactive, hf, chainContains_iff] using hkeeps
  · rintro ⟨hlow, hhigh, pindex, htimed, hhash, hval, hactive⟩
    rw [hs.recordedTime_eq htimed.1 htimed.2, Option.some.injEq] at hval
    refine ⟨⟨⟨pindex, htimed, hhash, hval.symm⟩, hlow, hhigh⟩, ?_⟩
    have hf := hin pindex hash htimed hhash
    cases fActiveOnly with
    | false => rfl
    | true => simpa [keeps, hf, chainContains_iff] using hactive rfl

theorem CChainState.Timestamps.indexes (hs : s.Timestamps mapBlockIndex connected) :
    s.TimestampIndexed mapBlockIndex connected where
  recurrence := by
    intro pindex hmem pprev hprev
    refine ⟨pprev.logicalTime, ?_, ?_⟩
    · cases pprev with
      | genesis hash time => rfl
      | child before hash time =>
        have hbelow := hs.closed pindex hmem _ (mem_of_pprev hprev)
        exact hs.recordedTime_eq hbelow (by simp [pprev])
    · rw [hs.recordedTime_eq hmem (by simp [hprev])]
      cases pindex with
      | genesis hash time => cases hprev
      | child parent hash time =>
        obtain rfl : parent = pprev := Option.some.inj hprev
        rfl
  ancestral pindex hmem hprev := hs.recordedTime_eq hmem hprev
  increasing := by
    intro pindex hmem other ho hne hprev
    have hsome : pindex.pprev ≠ none := by
      cases pindex with
      | genesis hash time => exact absurd (mem_singleton.1 ho) hne
      | child parent hash time => simp [pprev]
    exact ⟨_, _, hs.recordedTime_eq (hs.closed pindex hmem other ho) hprev,
      hs.recordedTime_eq hmem hsome, logicalTime_lt ho hne⟩
  query := hs.answers

end Result

/-- After any calls the timestamp index records the logical timestamp of every
block above the genesis block that was ever connected, and range queries find
exactly these. -/
theorem timestamp_index_exact {ctx : ValidationContext}
    {mapBlockIndex : Uint256 → Option CBlockIndex} {start s : CChainState}
    {steps : List (CChainState × TipCall)} (hon : ctx.options.fTimestampIndex = true)
    (hstart : start.Initial) (htrace : CChainState.Trace ctx start steps s)
    (hsteps : ∀ step ∈ steps, step.2.Promised ctx step.1 ∧ step.2.Timely mapBlockIndex) :
    s.TimestampIndexed mapBlockIndex (connectedBlocks steps) :=
  (htrace.timestamps hon hstart hsteps).indexes

namespace TimestampIndexWitness

open UndoInverseWitness CrashRecoveryWitness AddressIndexWitness

def threeBlocks (hash : Uint256) : Option CBlockIndex :=
  [index 0, index 1, index 2].find? fun pindex => decide (pindex.getBlockHash = hash)

theorem timely_upAndDown {call : TipCall} (hcall : call ∈ upAndDown) : call.Timely threeBlocks := by
  simp only [upAndDown, mem_cons, not_mem_nil, or_false] at hcall
  rcases hcall with rfl | rfl | rfl | rfl | rfl
  · exact ⟨by decide, by decide⟩
  · exact ⟨by decide, by decide⟩
  · exact ⟨by decide, by decide⟩
  · trivial
  · exact ⟨by decide, by decide⟩

theorem timestamp_index_exact_up_and_down :
    ∃ s steps, CChainState.Trace ctx newNode steps s ∧ s.tip = some (index 2) ∧
      s.TimestampIndexed threeBlocks (connectedBlocks steps) ∧
      ∃ level : LevelDB, level.HoldsTable s.store.blocktree := by
  obtain ⟨made, s, htrace, hend, hmade⟩ := exists_trace upAndDown_runs
  refine ⟨s, made, htrace, of_decide_eq_true hend, ?_, s.store.blocktree.exists_levelDB⟩
  refine timestamp_index_exact rfl newNode_initial htrace fun step hstep => ?_
  obtain ⟨-, hcall⟩ := hmade _ hstep
  refine ⟨?_, timely_upAndDown hcall⟩
  rcases mem_upAndDown hcall with heq | ⟨env, n, -, heq⟩
  · rw [heq]
    trivial
  · rw [heq]
    exact promised_connectIndex env step.1 n

end TimestampIndexWitness

end Catoshi
