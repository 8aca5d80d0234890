/-
What recovery from an interrupted flush does to the address indexes. Rolling back writes to them,
rolling forward not at all. If they already show the new tip, the rollback takes back what both
branches share.
-/
import Catoshi.AddressHistory
import Catoshi.CrashRecovery

namespace Catoshi

open CCoinsViewDB CBlockIndex WriteLog Function
open List hiding keys

open CBlockTreeDB (unspentWrites)

/-- The indexes after the blocks of a chain one by one. -/
def indexedChain (options : IndexOptions) (blocks : CBlockIndex → Option CBlock) :
    CBlockIndex → CBlockTreeDB
  | .genesis _ _ => .empty
  | .child pprev hash time =>
    match blocks (.child pprev hash time) with
    | some block =>
      (indexedChain options blocks pprev).writeConnected options (.child pprev hash time)
        (indexTxs options (pprev.nHeight + 1) 0 (utxoAt blocks pprev) block.vtx)
    | none => indexedChain options blocks pprev

variable {store : BlockStore} {pindex : CBlockIndex}

theorem DistinctInputs.nodup {block : CBlock} (hdistinct : DistinctInputs store pindex)
    (hread : store.readBlockFromDisk pindex = some block) :
    ∀ tx ∈ block.vtx, tx.inputs.Nodup :=
  fun tx htx => nodup_inputs (hdistinct block hread tx htx)

variable {tip : CBlockIndex}

theorem indexesAddresses_indexedChain {ctx : ValidationContext}
    (hon : ctx.options.fAddressIndex = true) (hchain : ConnectedChain ctx store tip)
    (hdistinct : ∀ pindex ∈ tip.ancestors, DistinctInputs store pindex) :
    (indexedChain ctx.options store.readBlockFromDisk tip).IndexesAddresses
      store.readBlockFromDisk (some tip) := by
  induction tip with
  | genesis hash time =>
    refine (CBlockTreeDB.indexesAddresses_genesis rfl).2 ⟨rfl, fun key amount => ?_⟩
    constructor
    · intro hf
      cases hf
    · rintro ⟨pindex, hmem, -⟩
      cases hmem
  | child pprev hash time ih =>
    obtain ⟨hconnd, block, vtxundo, hhist⟩ := hchain.below
    have hbelow := ih hconnd (forall_mem_cons.1 hdistinct).2
    simp only [indexedChain, hhist.read]
    exact hbelow.connect rfl hhist.read hhist.fits
      ((hdistinct _ (ancestors_self _)).nodup hhist.read) hhist.checked.txs hon

/-- Where the old branch leaves the new one. -/
def forkPoint (pindexOld : Option CBlockIndex) (pindexNew : CBlockIndex) : CBlockIndex :=
  match pindexOld with
  | none => pindexNew.root
  | some tip => (tip.lastCommonAncestor pindexNew).getD pindexNew.root

/-- Taking the block back does not disturb the indexes of the new tip: what it touches is the same
there as at the fork, and none of the history entries erased is of the new chain. -/
structure HarmlessRollback (store : BlockStore) (pindexOld : Option CBlockIndex)
    (pindexNew pindex : CBlockIndex) : Prop where
  unspent : ∀ key, BlockTouches store.readBlockFromDisk pindex key →
    projectUnspent (utxoAt store.readBlockFromDisk (forkPoint pindexOld pindexNew)) key =
      projectUnspent (utxoAt store.readBlockFromDisk pindexNew) key
  history : ∀ key amount, BlockEvent store.readBlockFromDisk pindex key amount →
    FirstListed store.readBlockFromDisk pindex key →
      ∀ other, ¬ AddressEvent store.readBlockFromDisk (some pindexNew) key other

/-- The unspent index changes that take blocks back. -/
def unindexLog (options : IndexOptions) (store : BlockStore) (pindexes : List CBlockIndex) :
    List (CAddressUnspentKey × Option CAddressUnspentValue) :=
  pindexes.flatMap fun pindex =>
    unspentWrites (blockUnindex options store pindex).addressUnspentIndex

/-- The history entries erased with blocks taken back. -/
def erasedHistory (options : IndexOptions) (store : BlockStore)
    (pindexes : List CBlockIndex) : List CAddressIndexKey :=
  pindexes.flatMap fun pindex => (blockUnindex options store pindex).addressIndex.map Prod.fst

section Tables

variable {options : IndexOptions} (hon : options.fAddressIndex = true) (store : BlockStore)

include hon

theorem content_unindexBlocks_unspent (db : CBlockTreeDB) (pindexes : List CBlockIndex) :
    content (unindexBlocks options store db pindexes).addressUnspentIndex =
      apply (unindexLog options store pindexes) (content db.addressUnspentIndex) := by
  induction pindexes generalizing db with
  | nil => rfl
  | cons pindex rest ih =>
    rw [unindexLog, flatMap_cons, apply_append, ← content_writeDisconnected_unspent hon]
    exact ih _

theorem content_unindexBlocks_address (db : CBlockTreeDB) (pindexes : List CBlockIndex) :
    content (unindexBlocks options store db pindexes).addressIndex =
      apply (erases (erasedHistory options store pindexes)) (content db.addressIndex) := by
  induction pindexes generalizing db with
  | nil => rfl
  | cons pindex rest ih =>
    rw [erasedHistory, flatMap_cons, erases, map_append, apply_append]
    have hfst := content_writeDisconnected_address hon db (blockUnindex options store pindex)
    rw [erases] at hfst
    rw [← hfst]
    exact ih _

end Tables

namespace BlockHistory

variable {store : BlockStore} {pprev pindex : CBlockIndex} {block : CBlock} {vtxundo : List CTxUndo}

section

variable (hhist : BlockHistory store pprev pindex block vtxundo)

include hhist

theorem blockUnindex_eq (options : IndexOptions) :
    blockUnindex options store pindex = unindexTxs options pindex.nHeight 0 block.vtx
      (blockUndos pindex.nHeight (utxoAt store.readBlockFromDisk pprev) block.vtx) := by
  simp only [blockUnindex, hhist.read, hhist.undo]
  rw [hhist.undos_eq]

variable {options : IndexOptions} (hon : options.fAddressIndex = true)

include hon

/-- Taking a block back touches what it touches. -/
theorem mem_keys_blockUnindex {key : CAddressUnspentKey} :
    key ∈ keys (unspentWrites (blockUnindex options store pindex).addressUnspentIndex) ↔
      BlockTouches store.readBlockFromDisk pindex key := by
  rw [← mem_unindexTxs_unspentKeys hhist.pprev_eq hhist.read hhist.fits hon,
    hhist.blockUnindex_eq, keys, unspentWrites, map_map]
  rfl

theorem apply_blockUnindex (hsound : Sound (utxoAt store.readBlockFromDisk pprev)) :
    apply (unspentWrites (blockUnindex options store pindex).addressUnspentIndex)
        (projectUnspent (utxoAt store.readBlockFromDisk pindex)) =
      projectUnspent (utxoAt store.readBlockFromDisk pprev) := by
  rw [hhist.blockUnindex_eq, utxoAt_child hhist.pprev_eq hhist.read]
  exact apply_unindexTxs hon hhist.fits hhist.checked.txs hhist.nHeight_ne hsound 0

end

end BlockHistory

/-- On the entries of the tip's coins, taking the blocks above a fork back gives those of the fork.
-/
theorem apply_unindexLog {ctx : ValidationContext} (hon : ctx.options.fAddressIndex = true)
    {fork : CBlockIndex} (hchain : ConnectedChain ctx store tip) (hmem : fork ∈ tip.ancestors) :
    apply (unindexLog ctx.options store (tip.above fork))
        (projectUnspent (utxoAt store.readBlockFromDisk tip)) =
      projectUnspent (utxoAt store.readBlockFromDisk fork) := by
  induction tip, hmem using ancestors_induction with
  | self => simp [above_self, unindexLog]
  | child pprev hash time hfork ih =>
    rw [above_child hfork]
    obtain ⟨hbelow, block, vtxundo, hhist⟩ := hchain.below
    rw [unindexLog, flatMap_cons, apply_append, hhist.apply_blockUnindex hon hbelow.sound]
    exact ih hbelow

section Replay

variable {ctx : ValidationContext} {store : BlockStore}
  {mapBlockIndex : Uint256 → Option CBlockIndex} {pindexOld : Option CBlockIndex}
  {pindexNew : CBlockIndex} (hon : ctx.options.fAddressIndex = true)
  (hsetting : ReplaySetting ctx store mapBlockIndex pindexOld pindexNew)

include hsetting

/-- The blocks rolled back have all been connected. -/
theorem history_of_mem_rolledBack (hmem : pindex ∈ rolledBack pindexOld pindexNew) :
    ∃ pprev block vtxundo, BlockHistory store pprev pindex block vtxundo := by
  cases pindexOld with
  | none => cases hmem
  | some tip =>
    obtain ⟨fork, hfork, hold, -⟩ := exists_lastCommonAncestor (hsetting.root tip rfl)
    simp only [rolledBack, hfork] at hmem
    obtain ⟨hbelow, pprev, hprev⟩ := of_mem_above hold hmem
    obtain ⟨block, hconnd⟩ := hsetting.oldChain tip rfl pindex hbelow pprev hprev
    obtain ⟨vtxundo, hhist⟩ := hconnd.history hprev
    exact ⟨pprev, block, vtxundo, hhist⟩

include hon

theorem apply_unindexLog_rolledBack :
    apply (unindexLog ctx.options store (rolledBack pindexOld pindexNew))
        (projectUnspent (utxoAtTip store.readBlockFromDisk pindexOld)) =
      projectUnspent (utxoAt store.readBlockFromDisk (forkPoint pindexOld pindexNew)) := by
  cases pindexOld with
  | none =>
    rw [forkPoint, utxoAt_root]
    rfl
  | some tip =>
    obtain ⟨fork, hfork, hold, -⟩ := exists_lastCommonAncestor (hsetting.root tip rfl)
    simp only [rolledBack, forkPoint, hfork, Option.getD_some]
    exact apply_unindexLog hon (hsetting.oldChain tip rfl) hold

variable {key : CAddressUnspentKey}

theorem mem_keys_unindexLog :
    key ∈ keys (unindexLog ctx.options store (rolledBack pindexOld pindexNew)) ↔
      ∃ pindex ∈ rolledBack pindexOld pindexNew,
        BlockTouches store.readBlockFromDisk pindex key := by
  rw [keys, unindexLog, map_flatMap, mem_flatMap]
  refine exists_congr fun pindex => and_congr_right fun hmem => ?_
  obtain ⟨pprev, block, vtxundo, hhist⟩ := history_of_mem_rolledBack hsetting hmem
  exact hhist.mem_keys_blockUnindex hon

theorem mem_erasedHistory {key : CAddressIndexKey} :
    key ∈ erasedHistory ctx.options store (rolledBack pindexOld pindexNew) ↔
      ∃ pindex ∈ rolledBack pindexOld pindexNew,
        (∃ amount, BlockEvent store.readBlockFromDisk pindex key amount) ∧
          FirstListed store.readBlockFromDisk pindex key := by
  rw [erasedHistory, mem_flatMap]
  refine exists_congr fun pindex => and_congr_right fun hmem => ?_
  obtain ⟨pprev, block, vtxundo, hhist⟩ := history_of_mem_rolledBack hsetting hmem
  rw [hhist.blockUnindex_eq]
  exact mem_unindexTxs_history hhist.pprev_eq hhist.read hhist.fits hon

/-- A touched entry ends as at the fork, whatever it was. -/
theorem apply_unindexLog_of_touched (hmem : pindex ∈ rolledBack pindexOld pindexNew)
    (htouches : BlockTouches store.readBlockFromDisk pindex key)
    (table : CAddressUnspentKey → Option CAddressUnspentValue) :
    apply (unindexLog ctx.options store (rolledBack pindexOld pindexNew)) table key =
      projectUnspent (utxoAt store.readBlockFromDisk (forkPoint pindexOld pindexNew)) key := by
  rw [← apply_unindexLog_rolledBack hon hsetting]
  exact apply_congr_of_mem_keys
    ((mem_keys_unindexLog hon hsetting).2 ⟨pindex, hmem, htouches⟩) _ _

/-- Indexes that show the new tip still do just if the rollback of every block is harmless. -/
theorem indexesAddresses_unindexBlocks_iff {db : CBlockTreeDB}
    (hpre : db.IndexesAddresses store.readBlockFromDisk (some pindexNew)) :
    (unindexBlocks ctx.options store db (rolledBack pindexOld pindexNew)).IndexesAddresses
        store.readBlockFromDisk (some pindexNew) ↔
      ∀ pindex ∈ rolledBack pindexOld pindexNew,
        HarmlessRollback store pindexOld pindexNew pindex := by
  have hunspent := content_unindexBlocks_unspent hon store db (rolledBack pindexOld pindexNew)
  rw [hpre.unspent] at hunspent
  let erased := erasedHistory ctx.options store (rolledBack pindexOld pindexNew)
  have hlook : ∀ key, (unindexBlocks ctx.options store db
      (rolledBack pindexOld pindexNew)).addressIndex.lookup key =
        apply (erases erased) (content db.addressIndex) key :=
    congrFun (content_unindexBlocks_address hon store db _)
  constructor
  · intro hafter pindex hmem
    constructor
    · intro key htouches
      rw [← apply_unindexLog_of_touched hon hsetting hmem htouches]
      exact congrFun (hunspent.symm.trans hafter.unspent) key
    · intro key amount hevent hfst other ho
      have hkey := (mem_erasedHistory hon hsetting).2 ⟨pindex, hmem, ⟨amount, hevent⟩, hfst⟩
      have hf := (hafter.history key other).2 ho
      rw [hlook, apply_erases_of_mem hkey] at hf
      cases hf
  · intro hharmless
    constructor
    · rw [hunspent]
      refine apply_eq_self_iff.2 fun key hkey => ?_
      obtain ⟨pindex, hmem, htouches⟩ := (mem_keys_unindexLog hon hsetting).1 hkey
      rw [apply_unindexLog_of_touched hon hsetting hmem htouches]
      exact (hharmless pindex hmem).unspent key htouches
    · intro key amount
      rw [hlook]
      by_cases hkey : key ∈ erased
      · rw [apply_erases_of_mem hkey]
        obtain ⟨pindex, hmem, ⟨value, hevent⟩, hfst⟩ := (mem_erasedHistory hon hsetting).1 hkey
        have hno := (hharmless pindex hmem).history key value hevent hfst amount
        simp [hno]
      · rw [apply_erases_of_notMem hkey]
        exact hpre.history key amount

/-- After any crash a `ReplayBlocks` that succeeds leaves the address indexes
as they were at the new tip, exactly when the flush had been finished or the
rollback of every block is harmless. -/
theorem replayBlocks_keeps_indexes_iff {db db' : CCoinsViewDB} {store' : BlockStore}
    (hcrashed : Crashed ctx.options store pindexOld pindexNew db)
    (hbefore : store.blocktree.IndexesAddresses store.readBlockFromDisk (some pindexNew))
    (hreplay : replayBlocks ctx.options mapBlockIndex store db = .ok (db', store')) :
    store'.blocktree.IndexesAddresses store.readBlockFromDisk (some pindexNew) ↔
      db.headBlocks = none ∨
        ∀ pindex ∈ rolledBack pindexOld pindexNew,
          HarmlessRollback store pindexOld pindexNew pindex := by
  rcases hcrashed.halfway_or_arrived hsetting with hhalf | harrived
  · obtain ⟨-, hblocktree⟩ := replayBlocks_spec hsetting hhalf hreplay
    rw [hblocktree, indexesAddresses_unindexBlocks_iff hon hsetting hbefore, hhalf.heads]
    simp
  · have hkept : replayBlocks ctx.options mapBlockIndex store db = .ok (db, store) := by
      simp [replayBlocks, getHeadBlocks, harrived.heads]
    rw [hkept] at hreplay
    cases hreplay
    exact ⟨fun _ => Or.inl harrived.heads, fun _ => hbefore⟩

end Replay

namespace IndexReplayWitness

open UndoInverseWitness CrashRecoveryWitness

theorem distinct_of_read {block : CBlock} (hread : store.readBlockFromDisk pindex = some block)
    (hnd : ∀ tx ∈ block.vtx, tx.prevouts.Nodup) : DistinctInputs store pindex := by
  intro other ho
  rw [hread] at ho
  cases ho
  exact hnd

section Chain

variable {tops : List TopBlock} (htops : ∀ n, findTop tops (index n) = none)
  (blocktree : CBlockTreeDB)

include htops

theorem distinct_index (n : ℕ) :
    ∀ pindex ∈ (index n).ancestors, DistinctInputs (filesOver tops blocktree) pindex := by
  intro pindex hmem
  obtain ⟨k, -, rfl⟩ := exists_index_of_mem_ancestors hmem
  cases k with
  | zero =>
    intro block hread
    have hhash : (mintBlock 0).getHash ≠ (index 0).getBlockHash := by decide
    simp [BlockStore.readBlockFromDisk, filesOver, htops, nHeight_index, hhash] at hread
  | succ k =>
    refine distinct_of_read (read_index htops blocktree k) fun tx htx => ?_
    obtain rfl := mem_singleton.1 htx
    exact nodup_singleton _

end Chain

/-- The coinbase blocks, indexed up to the second. -/
def indexedFiles : BlockStore :=
  filesOver [] (indexedChain ctx.options (filesOver [] .empty).readBlockFromDisk (index 2))

theorem indexes_indexedFiles :
    indexedFiles.blocktree.IndexesAddresses indexedFiles.readBlockFromDisk (some (index 2)) := by
  have hchain : ConnectedChain ctx indexedFiles (index 2) :=
    connectedChain_index (fun _ => rfl) indexedFiles.blocktree (by decide)
  have hdistinct : ∀ pindex ∈ (index 2).ancestors, DistinctInputs indexedFiles pindex :=
    distinct_index (fun _ => rfl) indexedFiles.blocktree 2
  have hidxs := indexesAddresses_indexedChain rfl hchain hdistinct
  exact hidxs

/-- A flush from the third block back to the second. -/
theorem replayBlocks_keeps_indexes_iff_back_one :
    Crashed ctx.options indexedFiles (some (index 3)) (index 2) backDatabase ∧
      backDatabase.headBlocks ≠ none ∧
      ∃ db' store', replayBlocks ctx.options (knownTips (index 3) (index 2)) indexedFiles
            backDatabase = .ok (db', store') ∧
        (store'.blocktree.IndexesAddresses indexedFiles.readBlockFromDisk (some (index 2)) ↔
          backDatabase.headBlocks = none ∨
            ∀ pindex ∈ rolledBack (some (index 3)) (index 2),
              HarmlessRollback indexedFiles (some (index 3)) (index 2) pindex) := by
  have hcrashed : Crashed ctx.options indexedFiles (some (index 3)) (index 2) backDatabase :=
    crashed_backDatabase (fun _ => rfl) indexedFiles.blocktree
  have hsetting : ReplaySetting ctx indexedFiles (knownTips (index 3) (index 2)) (some (index 3))
    (index 2) := setting_back (fun _ => rfl) indexedFiles.blocktree
  have hheads : backDatabase.headBlocks ≠ none := by decide
  have hhalf : Halfway indexedFiles (some (index 3)) (index 2) backDatabase :=
    (hcrashed.halfway_or_arrived hsetting).resolve_right fun harrived => hheads harrived.heads
  have hdistinct : ∀ pindex ∈ rolledBack (some (index 3)) (index 2),
      DistinctInputs indexedFiles pindex := by
    have hbranch : rolledBack (some (index 3)) (index 2) = [index 3] := by decide
    rw [hbranch]
    exact forall_mem_singleton.2
      (distinct_index (fun _ => rfl) indexedFiles.blocktree 3 _ (ancestors_self _))
  obtain ⟨db', store', hreplay⟩ := replayBlocks_ok hsetting hhalf hdistinct
  exact ⟨hcrashed, hheads, db', store', hreplay,
    replayBlocks_keeps_indexes_iff rfl hsetting hcrashed indexes_indexedFiles hreplay⟩

/-- Two blocks on the hundredth spend the same coinbase. -/
def left : TopBlock where
  pindex := .child (index 100) (hashOf 100) 600
  block := spendBlock
  undo := ⟨[⟨[mintCoin 0]⟩]⟩

def right : TopBlock where
  pindex := .child (index 100) (hashOf 99) 600
  block := ⟨hashOf 99, hashOf 4, 600,
    [coinbaseTx 103 (by decide) 0, spendTx 104 (by decide) [minted 0] [⟨0, payToPublicKeyHash 8⟩]]⟩
  undo := ⟨[⟨[mintCoin 0]⟩]⟩

theorem left_ne_right : left.pindex ≠ right.pindex := by
  intro heq
  have hhash : hashOf 100 = hashOf 99 := congrArg getBlockHash heq
  exact absurd hhash (by decide)

theorem findTop_left : findTop [left, right] left.pindex = some left := by simp [findTop]

theorem findTop_right : findTop [left, right] right.pindex = some right := by
  simp [findTop, left_ne_right]

theorem findTop_none (n : ℕ) : findTop [left, right] (index n) = none := by
  have hleft : left.pindex ≠ index n := (index_ne_top 100 (by decide) n).symm
  have hright : right.pindex ≠ index n := (index_ne_top 99 (by decide) n).symm
  simp [findTop, hleft, hright]

def branches : BlockStore :=
  filesOver [left, right] (indexedChain ctx.options
    (filesOver [left, right] .empty).readBlockFromDisk right.pindex)

theorem connectedChain_left : ConnectedChain ctx branches left.pindex :=
  connectedChain_top findTop_none _ left rfl findTop_left rfl (by decide) (by decide +kernel)

theorem connectedChain_right : ConnectedChain ctx branches right.pindex :=
  connectedChain_top findTop_none _ right rfl findTop_right rfl (by decide) (by decide +kernel)

theorem read_left : branches.readBlockFromDisk left.pindex = some left.block :=
  read_top _ left findTop_left rfl

theorem read_right : branches.readBlockFromDisk right.pindex = some right.block :=
  read_top _ right findTop_right rfl

theorem indexes_branches :
    branches.blocktree.IndexesAddresses branches.readBlockFromDisk (some right.pindex) := by
  have hdistinct : ∀ pindex ∈ right.pindex.ancestors, DistinctInputs branches pindex := by
    intro pindex hmem
    rcases mem_cons.1 hmem with rfl | hbelow
    · exact distinct_of_read read_right (by decide)
    · exact distinct_index findTop_none branches.blocktree 100 pindex hbelow
  have hidxs := indexesAddresses_indexedChain rfl connectedChain_right hdistinct
  have hread : branches.readBlockFromDisk =
      (filesOver [left, right] .empty).readBlockFromDisk := by
    apply BlockStore.readBlockFromDisk_congr
    simp only [branches, filesOver]
  rw [hread] at hidxs ⊢
  exact hidxs

def leftDatabase : CCoinsViewDB :=
  { (database 100).writeBatch
      [.writeCoin ⟨hashOf 101, 0⟩ ⟨⟨0, payToPublicKeyHash 101⟩, true, 101⟩,
        .eraseCoin (minted 0),
        .writeCoin ⟨hashOf 102, 0⟩ ⟨⟨0, payToPublicKeyHash 9⟩, false, 101⟩] with
    bestBlock := some (hashOf 100) }

theorem utxo_leftDatabase : leftDatabase.utxo = utxoAt branches.readBlockFromDisk left.pindex := by
  rw [branches, utxoAt_top findTop_none _ rfl read_left]
  change (writeBatch (database 100) _).utxo = _
  simp only [writeBatch, foldl_cons, foldl_nil, utxo_writeCoin, utxo_eraseCoin]
  rfl

/-- The entries from the left block to the right. -/
def acrossItems : List CoinsMapItem :=
  [⟨⟨hashOf 101, 0⟩, ⟨Coin.empty, true, false⟩⟩, ⟨⟨hashOf 102, 0⟩, ⟨Coin.empty, true, false⟩⟩,
    ⟨⟨hashOf 103, 0⟩, ⟨⟨⟨0, payToPublicKeyHash 103⟩, true, 101⟩, true, false⟩⟩,
    ⟨⟨hashOf 104, 0⟩, ⟨⟨⟨0, payToPublicKeyHash 8⟩, false, 101⟩, true, false⟩⟩]

theorem apply_acrossItems :
    apply (coinWrites acrossItems) leftDatabase.utxo =
      utxoAt branches.readBlockFromDisk right.pindex := by
  rw [utxo_leftDatabase, branches, utxoAt_top findTop_none _ rfl read_left,
    utxoAt_top findTop_none _ rfl read_right, ← apply_append, apply_eq_apply_iff]
  decide +kernel

theorem rolledBack_branches : rolledBack (some left.pindex) right.pindex = [left.pindex] := by
  decide +kernel

/-- The entry of the coin that both blocks spend. -/
def sharedKey : CAddressUnspentKey :=
  ⟨1, BaseBlob.ofVector 20 (List.replicate 20 (byteOf 0)), (minted 0).hash, (minted 0).n⟩

theorem listed_sharedKey : (content (unindexBlocks ctx.options branches branches.blocktree
    [left.pindex]).addressUnspentIndex sharedKey).isSome = true := by decide +kernel

theorem spent_sharedKey :
    projectUnspent (utxoAt branches.readBlockFromDisk right.pindex) sharedKey = none := by
  decide +kernel

/-- The left block is being replaced by the right one, the flush is cut after
its first batch, and after the replay the coin that both spend is listed as
unspent again. -/
theorem spent_coin_is_listed_again :
    ∃ db, ReplaySetting ctx branches (knownTips left.pindex right.pindex) (some left.pindex)
        right.pindex ∧
      Crashed ctx.options branches (some left.pindex) right.pindex db ∧
      branches.blocktree.IndexesAddresses branches.readBlockFromDisk (some right.pindex) ∧
      ∃ db' store', replayBlocks ctx.options (knownTips left.pindex right.pindex) branches db =
          .ok (db', store') ∧
        Arrived branches right.pindex db' ∧
        ¬ store'.blocktree.IndexesAddresses branches.readBlockFromDisk (some right.pindex) := by
  let crashed := leftDatabase.writeBatches ((leftDatabase.batchLoop right.pindex.getBlockHash
      [.eraseBestBlock, .writeHeadBlocks [right.pindex.getBlockHash, left.pindex.getBlockHash]]
      acrossItems).take 1)
  have hcrash : leftDatabase.interruptedFlush acrossItems right.pindex.getBlockHash 0 =
      .ok crashed := rfl
  have hcrashed : Crashed ctx.options branches (some left.pindex) right.pindex crashed :=
    .flush ⟨utxo_leftDatabase, rfl, rfl⟩ (by decide) apply_acrossItems hcrash
  have hsetting := setting_of_known connectedChain_left connectedChain_right (by decide)
    (by decide) rfl
  have hdistinct : ∀ pindex ∈ rolledBack (some left.pindex) right.pindex,
      DistinctInputs branches pindex := by
    rw [rolledBack_branches]
    exact forall_mem_singleton.2 (distinct_of_read read_left (by decide))
  have hhalf : Halfway branches (some left.pindex) right.pindex crashed := by
    rcases hcrashed.halfway_or_arrived hsetting with hhalf | harrived
    · exact hhalf
    · exact absurd harrived.heads (by decide)
  obtain ⟨db', store', hreplay⟩ := replayBlocks_ok hsetting hhalf hdistinct
  obtain ⟨harrived, hblocktree⟩ := replayBlocks_spec hsetting hhalf hreplay
  refine ⟨crashed, hsetting, hcrashed, indexes_branches, db', store', hreplay, harrived, ?_⟩
  rintro ⟨hunspent, -⟩
  have hlisted := listed_sharedKey
  rw [hblocktree, rolledBack_branches] at hunspent
  rw [congrFun hunspent sharedKey, utxoAtTip, spent_sharedKey] at hlisted
  cases hlisted

end IndexReplayWitness

end Catoshi
