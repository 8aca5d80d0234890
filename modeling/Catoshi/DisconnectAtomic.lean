/-
What is left when `DisconnectTip` gives up on a block not undone cleanly: the index database is
written unless the undo data could not be applied.
-/
import Catoshi.AddressIndex

namespace Catoshi

open CCoinsViewCache WriteLog CChainState

open CBlockTreeDB (unspentWrites)
open IndexChanges (addressUnspentIndex_append)

/-- The best block asked for again is the same. -/
theorem CCoinsView.getBestBlock_again (view : CCoinsView) :
    view.getBestBlock.2.getBestBlock.1 = view.getBestBlock.1 := by
  induction view with
  | db store => rfl
  | cache layer base ih =>
    by_cases hnull : layer.hashBlock.isNull = true
    · simp only [getBestBlock, hnull, if_true]
      split
      · exact ih
      · rfl
    · simp only [getBestBlock, hnull, Bool.false_eq_true, if_false]

/-- The best block depends on what the caches stored and on the database. -/
theorem CCoinsView.getBestBlock_congr {view view' : CCoinsView}
    (hhashes : view'.hashes = view.hashes) (hbottom : view'.bottom = view.bottom) :
    view'.getBestBlock.1 = view.getBestBlock.1 := by
  induction view generalizing view' with
  | db store =>
    cases view' with
    | db other => rw [show other = store from hbottom]
    | cache layer base => cases hhashes
  | cache layer base ih =>
    cases view' with
    | db other => cases hhashes
    | cache other below =>
      simp only [hashes, List.cons.injEq] at hhashes
      simp only [getBestBlock, hhashes.1]
      split
      · exact ih hhashes.2 hbottom
      · rfl

/-- The same to everybody who reads coins, the best block, the active chain, the files or the
indexes. -/
structure CChainState.Same (s s' : CChainState) : Prop where
  utxo : s'.pcoinsTip.utxo = s.pcoinsTip.utxo
  best : s'.pcoinsTip.getBestBlock.1 = s.pcoinsTip.getBestBlock.1
  disk : s'.pcoinsTip.toView.bottom = s.pcoinsTip.toView.bottom
  tip : s'.tip = s.tip
  store : s'.store = s.store

/-- What a block does to the address indexes at an outpoint: its history entry, and the unspent
entry before the block. -/
structure AddressTouch where
  history : CAddressIndexKey
  outpoint : CAddressUnspentKey
  before : Option CAddressUnspentValue

/-- Scripts without an address are not indexed. -/
def addressTouch (nHeight i : ℕ) (hash : Uint256) (script : CScript) (index : ℕ) (spending : Bool)
    (outpoint : COutPoint) (before : Option CAddressUnspentValue) : List AddressTouch :=
  match script.address with
  | none => []
  | some (type, hashBytes) =>
    [⟨⟨type, hashBytes, nHeight, i, hash, index, spending⟩,
      ⟨type, hashBytes, outpoint.hash, outpoint.n⟩, before⟩]

/-- A coin before it is spent is listed. -/
def Coin.listed (coin : Coin) : Option CAddressUnspentValue :=
  if coin.isSpent then none else some ⟨coin.out.nValue, coin.out.scriptPubKey, coin.nHeight⟩

def inputTouches (nHeight i : ℕ) (hash : Uint256) :
    ℕ → List COutPoint → List Coin → List AddressTouch
  | j, out :: outs, coin :: coins =>
    addressTouch nHeight i hash coin.out.scriptPubKey j true out coin.listed ++
      inputTouches nHeight i hash (j + 1) outs coins
  | _, _, _ => []

/-- An output is not listed before its block. -/
def outputTouches (nHeight i : ℕ) (hash : Uint256) : ℕ → List CTxOut → List AddressTouch
  | _, [] => []
  | k, out :: rest =>
    addressTouch nHeight i hash out.scriptPubKey k false ⟨hash, k⟩ none ++
      outputTouches nHeight i hash (k + 1) rest

def txTouches (nHeight i : ℕ) (tx : CTransaction) (spent : Option CTxUndo) : List AddressTouch :=
  (match spent with
    | none => []
    | some txundo => inputTouches nHeight i tx.getHash 0 tx.prevouts txundo.vprevout) ++
    outputTouches nHeight i tx.getHash 0 tx.vout

/-- What a block with the coins it spends does to the address indexes, in its order. -/
def blockTouches (nHeight : ℕ) :
    ℕ → List CTransaction → List (Option CTxUndo) → List AddressTouch
  | i, tx :: txs, spent :: rest =>
    txTouches nHeight i tx spent ++ blockTouches nHeight (i + 1) txs rest
  | _, _, _ => []

def unspentBefore (touches : List AddressTouch) :
    List (CAddressUnspentKey × Option CAddressUnspentValue) :=
  touches.map fun touch => (touch.outpoint, touch.before)

/-- The address indexes do not show the block: none of its history entries is there, and every
outpoint stands as before the block first touched it. -/
structure CBlockTreeDB.Behind (db : CBlockTreeDB) (touches : List AddressTouch) : Prop where
  history : ∀ touch ∈ touches, db.addressIndex.lookup touch.history = none
  unspent : ∀ key before, (unspentBefore touches).lookup key = some before →
    db.addressUnspentIndex.lookup key = before

/-- The changes take the touches back, the last first. -/
structure IndexChanges.Undoes (changes : IndexChanges) (touches : List AddressTouch) : Prop where
  history : changes.addressIndex.map Prod.fst = (touches.map AddressTouch.history).reverse
  unspent : unspentWrites changes.addressUnspentIndex = (unspentBefore touches).reverse

theorem IndexChanges.Undoes.append {first second : IndexChanges} {touches more : List AddressTouch}
    (hfst : first.Undoes touches) (hsnd : second.Undoes more) :
    (second ++ first).Undoes (touches ++ more) := by
  constructor
  · simp [hfst.history, hsnd.history]
  · rw [addressUnspentIndex_append, unspentWrites_append, hfst.unspent, hsnd.unspent]
    simp [unspentBefore]

theorem IndexChanges.Undoes.empty : IndexChanges.empty.Undoes [] := ⟨rfl, rfl⟩

variable {options : IndexOptions}

section Undoes

variable (hon : options.fAddressIndex = true) (nHeight i : ℕ) (hash : Uint256)

include hon

theorem undoes_addressTouch (script : CScript) (index : ℕ) (spending : Bool) (amount : CAmount)
    (o : COutPoint) {value : CAddressUnspentValue} {before : Option CAddressUnspentValue}
    (hval : (if value.isNull then none else some value) = before)
    (spent : List (CSpentIndexKey × CSpentIndexValue)) :
    IndexChanges.Undoes
      ⟨addressEvent options script nHeight i hash index spending amount,
        unspentEvent options script o value, spent⟩
      (addressTouch nHeight i hash script index spending o before) := by
  subst hval
  cases haddr : script.address with
  | none => constructor <;> simp [addressEvent, unspentEvent, addressTouch, haddr, unspentWrites,
      unspentBefore]
  | some address => constructor <;> simp [addressEvent, unspentEvent, addressTouch, haddr, hon,
      unspentWrites, unspentBefore]

theorem undoes_inputs (j : ℕ) (outs : List COutPoint) (coins : List Coin) :
    (unindexInputs options nHeight i hash j outs coins).Undoes
      (inputTouches nHeight i hash j outs coins) := by
  induction outs generalizing coins j with
  | nil => exact .empty
  | cons out outs ih =>
    cases coins with
    | nil => exact .empty
    | cons coin coins =>
      exact (undoes_addressTouch hon nHeight i hash _ j true _ out rfl _).append (ih (j + 1) coins)

theorem undoes_outputs (k : ℕ) (vout : List CTxOut) :
    (unindexOutputs options nHeight i hash k vout).Undoes
      (outputTouches nHeight i hash k vout) := by
  induction vout generalizing k with
  | nil => exact .empty
  | cons out rest ih =>
    exact (undoes_addressTouch hon nHeight i hash _ k false _ ⟨hash, k⟩ rfl _).append (ih (k + 1))

theorem undoes_txs (txs : List CTransaction) (undos : List (Option CTxUndo)) :
    (unindexTxs options nHeight i txs undos).Undoes (blockTouches nHeight i txs undos) := by
  induction txs generalizing undos i with
  | nil => exact .empty
  | cons tx txs ih =>
    cases undos with
    | nil => exact .empty
    | cons undo undos =>
      have houtputs := undoes_outputs hon nHeight i tx.getHash 0 tx.vout
      have htx : (unindexTx options nHeight i tx undo).Undoes (txTouches nHeight i tx undo) := by
        cases undo with
        | none => exact IndexChanges.Undoes.empty.append houtputs
        | some txundo => exact (undoes_inputs hon nHeight i tx.getHash 0 _ _).append houtputs
      exact htx.append (ih (i + 1) undos)

/-- Undoing changes nothing just where the indexes do not show the block. -/
theorem CBlockTreeDB.writeDisconnected_eq_self_iff {db : CBlockTreeDB} {index : IndexChanges}
    {touches : List AddressTouch} (hundoes : index.Undoes touches) :
    db.writeDisconnected options index = db ↔ db.Behind touches := by
  have hhist : store (erases (index.addressIndex.map Prod.fst))
      db.addressIndex = db.addressIndex ↔
        ∀ touch ∈ touches, db.addressIndex.lookup touch.history = none := by
    rw [store_eq_self_iff, keys_erases, hundoes.history]
    simp only [List.mem_reverse, List.forall_mem_map]
    refine forall₂_congr fun touch htouch => ?_
    rw [apply_erases_of_mem (List.mem_reverse.2 (List.mem_map_of_mem htouch))]
    exact eq_comm
  have hunspent : store (unspentWrites index.addressUnspentIndex)
      db.addressUnspentIndex = db.addressUnspentIndex ↔
        ∀ key before, (unspentBefore touches).lookup key = some before →
          db.addressUnspentIndex.lookup key = before := by
    rw [store_eq_self_iff, hundoes.unspent]
    exact forall_keys_reverse_iff
  have hsplit : db.writeDisconnected options index = db ↔
      store (erases (index.addressIndex.map Prod.fst)) db.addressIndex =
          db.addressIndex ∧
        store (unspentWrites index.addressUnspentIndex) db.addressUnspentIndex =
          db.addressUnspentIndex := by
    rw [CBlockTreeDB.writeDisconnected, if_pos hon, erases, List.map_map, CBlockTreeDB.ext_iff]
    exact ⟨fun heq => ⟨heq.1, heq.2.1⟩, fun heq => ⟨heq.1, heq.2, rfl, rfl, rfl⟩⟩
  rw [hsplit, hhist, hunspent]
  exact ⟨fun heq => ⟨heq.1, heq.2⟩, fun hplace => ⟨hplace.history, hplace.unspent⟩⟩

end Undoes

namespace CChainState

variable {s : CChainState}

/-- What a `DisconnectTip` that gives up went through. -/
theorem of_disconnectTip_failed {s' : CChainState} {env : FlushEnv} {result : DisconnectResult}
    (hfailed : s.disconnectTip options env = .ok (.error (.disconnectBlockFailed result), s')) :
    ∃ pindexDelete block done, s.tip = some pindexDelete ∧
      s.store.readBlockFromDisk pindexDelete = some block ∧
      disconnectBlock options s.store block pindexDelete s.scratch.getBestBlock.2 = .ok done ∧
      s' = s.leave done.view done.store := by
  unfold disconnectTip at hfailed
  split at hfailed
  · cases hfailed
  · next pindexDelete htip =>
    split at hfailed
    · cases hfailed
    · next block hread =>
      simp only at hfailed
      split_ifs at hfailed
      split at hfailed
      · cases hfailed
      · next done hdone =>
        split_ifs at hfailed
        · cases hfailed
          exact ⟨pindexDelete, block, done, htip, hread, hdone, rfl⟩
        · rcases result_of_moveTip hfailed with hmoved | hmoved <;> cases hmoved

theorem bestBlock_of_toView {first second : CCoinsViewCache}
    (hbest : first.toView.getBestBlock.1 = second.toView.getBestBlock.1) :
    first.getBestBlock.1 = second.getBestBlock.1 := by
  have hsame : ∀ view : CCoinsViewCache, view.getBestBlock.1 = view.toView.getBestBlock.1 := by
    intro view
    simp only [getBestBlock, toView, CCoinsView.getBestBlock]
    split <;> rfl
  rw [hsame, hsame, hbest]

/-- The caches below the scratch cache stay to a reader. -/
theorem leave_same (hwf : s.pcoinsTip.Wf) {view : CCoinsViewCache}
    (hreads : s.scratch.getBestBlock.2.base.Reads view.base) (store : BlockStore) :
    s.Same { s.leave view store with store := s.store } := by
  have hasked := CCoinsView.getBestBlock_stays hwf
  have hstays := hasked.trans hreads.stays
  have hbest : view.base.getBestBlock.1 = s.pcoinsTip.toView.getBestBlock.1 := by
    rw [CCoinsView.getBestBlock_congr hreads.hashes hreads.bottom]
    exact CCoinsView.getBestBlock_again _
  cases hbase : view.base with
  | db other =>
    have hdepth := hstays.depth
    rw [hbase] at hdepth
    cases hdepth
  | cache layer base =>
    rw [hbase] at hstays hbest
    have hleave : s.leave view store = ⟨⟨layer, base⟩, s.tip, store⟩ := by
      simp only [leave, hbase]
    rw [hleave]
    exact ⟨hstays.utxo, bestBlock_of_toView hbest, hstays.bottom, rfl, rfl⟩

end CChainState

/-- The undo data of the tip, if any, is of coins that a view can hold. -/
def CChainState.SpendableUndo (s : CChainState) : Prop :=
  ∀ pindex blockUndo, s.tip = some pindex → s.store.undo pindex = some blockUndo →
    ∀ txundo ∈ blockUndo.vtxundo, ∀ coin ∈ txundo.vprevout,
      coin.out.scriptPubKey.isUnspendable = false

/-- A `DisconnectTip` that gives up on the block leaves everything as it was
exactly if the address index is off or, where the undo data can be applied to
the coins, the address indexes do not show the block with the coins it spent. -/
theorem disconnectTip_atomic_iff {options : IndexOptions} {s s' : CChainState} {env : FlushEnv}
    {result : DisconnectResult} (hwf : s.pcoinsTip.Wf) (hundo : s.SpendableUndo)
    (hfailed : s.disconnectTip options env = .ok (.error (.disconnectBlockFailed result), s')) :
    s.Same s' ↔ options.fAddressIndex = false ∨
      ∀ pindex, s.tip = some pindex →
        ∀ block, s.store.readBlockFromDisk pindex = some block →
          ∀ spent, completeUndo s.store block pindex s.pcoinsTip.utxo = some spent →
            s.store.blocktree.Behind (blockTouches pindex.nHeight 0 block.vtx spent) := by
  obtain ⟨pindex, block, done, htip, hread, hdone, rfl⟩ :=
    CChainState.of_disconnectTip_failed hfailed
  obtain ⟨hutxo, hwf', -⟩ := getBestBlock_spec (scratch_wf hwf)
  obtain ⟨hreads, hcases⟩ :=
    disconnectBlock_spec hwf' (fun blockUndo => hundo pindex blockUndo htip) hdone
  have hleft := leave_same hwf hreads done.store
  have hstore : (s.leave done.view done.store).store = done.store := by
    unfold leave
    split <;> rfl
  -- only the index database can differ
  have hsame : s.Same (s.leave done.view done.store) ↔ done.store = s.store := by
    constructor
    · intro hsame
      rw [← hstore]
      exact hsame.store
    · intro heq
      exact ⟨hleft.utxo, hleft.best, hleft.disk, hleft.tip, hstore.trans heq⟩
  rw [hsame]
  rw [hutxo, scratch_utxo] at hcases
  simp only [htip, Option.some.injEq, forall_eq', hread]
  rcases hcases with ⟨hnone, -, hkept⟩ | ⟨spent, hspent, hdiscd⟩
  · exact ⟨fun _ => .inr (by simp [hnone]), fun _ => hkept⟩
  · have htable : done.store = s.store ↔
        s.store.blocktree.writeDisconnected options (unindexTxs options pindex.nHeight 0 block.vtx
          spent) = s.store.blocktree := by
      rw [hdiscd.store_eq]
      constructor
      · exact congrArg BlockStore.blocktree
      · intro heq
        simp only [heq]
    rw [htable]
    cases hon : options.fAddressIndex with
    | true =>
      rw [CBlockTreeDB.writeDisconnected_eq_self_iff hon (undoes_txs hon _ 0 _ _)]
      simp [hspent]
    | false => simp [CBlockTreeDB.writeDisconnected, hon]

namespace DisconnectAtomicWitness

open UndoInverseWitness CrashRecoveryWitness AddressIndexWitness

/-- At the first coinbase block, with its coin lost from the database but the address index
complete. -/
def tornNode : CChainState where
  pcoinsTip := .ofBase (.db ⟨∅, some (hashOf (byteOf 0)), none, 0, fun _ => 64⟩)
  tip := some (index 1)
  store := ⟨downloaded, fun _ => some ⟨[]⟩, CBlockTreeDB.empty.writeConnected ctx.options (index 1)
      (indexTxs ctx.options 1 0 (fun _ => none) (mintBlock 0).vtx)⟩

theorem tornNode_wf : tornNode.pcoinsTip.Wf := ofBase_wf trivial

theorem tornNode_spendable : tornNode.SpendableUndo := by
  intro pindex blockUndo _ hundo
  cases hundo
  simp

/-- Whether `DisconnectTip` gives up on an unclean block in a state that passes
the check. -/
def givesUp (options : IndexOptions) (check : CChainState → Bool) : Bool :=
  match tornNode.disconnectTip options keepInMemory with
  | .ok (.error (.disconnectBlockFailed .unclean), s) => check s
  | _ => false

theorem exists_of_givesUp {check : CChainState → Bool} (hgives : givesUp options check = true) :
    ∃ s, tornNode.disconnectTip options keepInMemory =
      .ok (.error (.disconnectBlockFailed .unclean), s) ∧ check s = true := by
  unfold givesUp at hgives
  split at hgives
  · next s heq => exact ⟨s, heq, hgives⟩
  · cases hgives

theorem disconnectTip_atomic_iff_index_off :
    ∃ s, tornNode.disconnectTip ⟨false, true, true⟩ keepInMemory =
      .ok (.error (.disconnectBlockFailed .unclean), s) ∧ tornNode.Same s := by
  have hgives : givesUp ⟨false, true, true⟩ (fun _ => true) = true := by decide +kernel
  obtain ⟨s, hfailed, -⟩ := exists_of_givesUp hgives
  exact ⟨s, hfailed, (disconnectTip_atomic_iff tornNode_wf tornNode_spendable hfailed).2
    (.inl rfl)⟩

def mintKey : CAddressIndexKey :=
  ⟨1, ⟨List.replicate 20 (byteOf 0), rfl⟩, 1, 0, hashOf (byteOf 0), 0, false⟩

theorem unclean_disconnect_erases_history :
    ∃ s, tornNode.disconnectTip ctx.options keepInMemory =
      .ok (.error (.disconnectBlockFailed .unclean), s) ∧ tornNode.pcoinsTip.Wf ∧
        tornNode.SpendableUndo ∧ ¬ tornNode.Same s := by
  have hgives : givesUp ctx.options
      (fun s => decide (s.store.blocktree.addressIndex.lookup mintKey = none)) = true := by
    decide +kernel
  obtain ⟨s, hfailed, hafter⟩ := exists_of_givesUp hgives
  refine ⟨s, hfailed, tornNode_wf, tornNode_spendable, ?_⟩
  intro hsame
  have hgone := of_decide_eq_true hafter
  rw [hsame.store] at hgone
  cases hgone

end DisconnectAtomicWitness

end Catoshi
