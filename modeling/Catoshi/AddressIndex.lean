/-
The address indexes over the whole life of a node: the address-unspent index is the part of the
coins that pays to addresses, and the address index the history of the active chain.
-/
import Catoshi.AddressHistory
import Catoshi.CrashRecovery
import Catoshi.TipsSpec

namespace Catoshi

open CBlockIndex WriteLog Coin Finset IndexChanges

open CCoinsViewCache (addWrites)

def CAddressIndexKey.address (key : CAddressIndexKey) : ℕ × Uint160 := (key.type, key.hashBytes)

/-- The balance of `getaddressbalance`: all deltas of an address. -/
def CBlockTreeDB.deltaSum (db : CBlockTreeDB) (address : ℕ × Uint160) : CAmount :=
  total id {key ∈ db.addressIndex.keys | key.address = address} (WriteLog.content db.addressIndex)

/-- What the unspent outputs of an address are worth. -/
def CBlockTreeDB.unspentSum (db : CBlockTreeDB) (address : ℕ × Uint160) : CAmount :=
  total CAddressUnspentValue.satoshis {key ∈ db.addressUnspentIndex.keys | key.address = address}
    (WriteLog.content db.addressUnspentIndex)

def Coin.paidTo (address : ℕ × Uint160) (coin : Coin) : ℤ :=
  if coin.out.scriptPubKey.address = some address then coin.out.nValue else 0

/-- The deltas of one address in a list of entries. -/
def sumFor (address : ℕ × Uint160) (changes : List (CAddressIndexKey × CAmount)) : ℤ :=
  (changes.map fun change => if change.1.address = address then change.2 else 0).sum

theorem sumFor_append (address : ℕ × Uint160) (first second : List (CAddressIndexKey × CAmount)) :
    sumFor address (first ++ second) = sumFor address first + sumFor address second := by
  simp [sumFor]

section Deltas

variable {options : IndexOptions} (hon : options.fAddressIndex = true) (address : ℕ × Uint160)

include hon

theorem sumFor_addressEvent (script : CScript) (nHeight i : ℕ) (txhash : Uint256) (index : ℕ)
    (spending : Bool) (amount : CAmount) :
    sumFor address (addressEvent options script nHeight i txhash index spending amount) =
      if script.address = some address then amount else 0 := by
  cases haddr : script.address with
  | none => simp [addressEvent, haddr, sumFor]
  | some found => simp [addressEvent, haddr, hon, sumFor, CAddressIndexKey.address]

theorem sumFor_indexInputs (nHeight i : ℕ) (txhash : Uint256) (j : ℕ)
    (spent : List (COutPoint × Coin)) :
    sumFor address (indexInputs options nHeight i txhash j spent).addressIndex =
      -((spent.map fun pair => pair.2.paidTo address).sum) := by
  induction spent generalizing j with
  | nil => rfl
  | cons pair rest ih =>
    rw [indexInputs, addressIndex_append, sumFor_append, ih, indexInput,
      sumFor_addressEvent hon, List.map_cons, List.sum_cons, paidTo]
    split <;> ring

/-- An output nobody can spend pays to no address. -/
theorem sumFor_indexOutputs (nHeight i : ℕ) (txhash : Uint256) (fCoinbase : Bool) (k : ℕ)
    (vout : List CTxOut) :
    sumFor address (indexOutputs options nHeight i txhash k vout).addressIndex =
      ((CTransaction.createsFrom txhash fCoinbase nHeight k vout).map fun write =>
        weightOf (paidTo address) write.2).sum := by
  induction vout generalizing k with
  | nil => rfl
  | cons out rest ih =>
    rw [indexOutputs, addressIndex_append, sumFor_append, ih, indexOutput,
      sumFor_addressEvent hon, CTransaction.createsFrom, List.map_append]
    cases hscr : out.scriptPubKey.isUnspendable with
    | true => simp [addWrites, hscr, address_of_unspendable hscr]
    | false => simp [addWrites, hscr, paidTo]

theorem sumFor_indexTx (nHeight i : ℕ) (tx : CTransaction) (utxo : UtxoMap) :
    sumFor address (indexTx options nHeight i tx (tx.coins utxo)).addressIndex =
      -(((tx.coins utxo).map (paidTo address)).sum) +
        ((tx.creates nHeight).map fun write => weightOf (paidTo address) write.2).sum := by
  have hpairs : (tx.inputs.zip (tx.coins utxo)).map (fun pair => pair.2.paidTo address) =
      (tx.coins utxo).map (paidTo address) := by
    have hlen : (tx.coins utxo).length ≤ tx.inputs.length := List.length_filterMap_le _ _
    conv_rhs => rw [← List.map_snd_zip hlen, List.map_map]
    rfl
  rw [indexTx, addressIndex_append, sumFor_append, sumFor_indexInputs hon, hpairs,
    sumFor_indexOutputs hon]
  rfl

/-- The deltas of a block are what the address gains in coins. -/
theorem sumFor_indexTxs {nHeight : ℕ} {utxo : UtxoMap} {txs : List CTransaction}
    {support : Finset COutPoint} (hfits : TxsFit nHeight utxo txs)
    (hnd : ∀ tx ∈ txs, tx.inputs.Nodup)
    (hsupp : ∀ tx ∈ txs, ∀ o ∈ keys (tx.writes nHeight), o ∈ support) (i : ℕ) :
    total (paidTo address) support utxo +
        sumFor address (indexTxs options nHeight i utxo txs).addressIndex =
      total (paidTo address) support (afterTxs nHeight utxo txs) := by
  induction txs generalizing utxo i with
  | nil => simp [indexTxs, IndexChanges.empty, sumFor]
  | cons tx rest ih =>
    have hrest := ih hfits.2 (List.forall_mem_cons.1 hnd).2 (List.forall_mem_cons.1 hsupp).2 (i + 1)
    have hfst := total_afterTx (paidTo address) hfits.1 (hnd tx List.mem_cons_self)
      (hsupp tx List.mem_cons_self)
    rw [indexTxs, addressIndex_append, sumFor_append, sumFor_indexTx hon,
      afterTxs_cons, ← hrest, hfst]
    ring

end Deltas

/-- The history entries connecting a block collects. -/
def blockEvents (options : IndexOptions) (blocks : CBlockIndex → Option CBlock)
    (pindex : CBlockIndex) : List (CAddressIndexKey × CAmount) :=
  match pindex.pprev, blocks pindex with
  | some pprev, some block =>
    (indexTxs options pindex.nHeight 0 (utxoAt blocks pprev) block.vtx).addressIndex
  | _, _ => []

def chainEvents (options : IndexOptions) (blocks : CBlockIndex → Option CBlock)
    (tip : CBlockIndex) : List (CAddressIndexKey × CAmount) :=
  tip.ancestors.flatMap (blockEvents options blocks)

def chainOutpoints (blocks : CBlockIndex → Option CBlock) (tip : CBlockIndex) :
    Finset COutPoint :=
  (tip.ancestors.flatMap fun pindex => WriteLog.keys (blockWrites blocks pindex)).toFinset

theorem mem_chainOutpoints {blocks : CBlockIndex → Option CBlock} {tip : CBlockIndex}
    {o : COutPoint} (hcoin : (utxoAt blocks tip o).isSome) : o ∈ chainOutpoints blocks tip := by
  induction tip with
  | genesis hash time => cases hcoin
  | child pprev hash time ih =>
    simp only [chainOutpoints, ancestors, List.flatMap_cons, List.toFinset_append,
      mem_union, List.mem_toFinset]
    by_cases hkey : o ∈ keys (blockWrites blocks (.child pprev hash time))
    · exact .inl hkey
    · rw [utxoAt, apply_of_notMem hkey] at hcoin
      exact .inr (List.mem_toFinset.1 (ih hcoin))

section Chain

variable {ctx : ValidationContext} {store : BlockStore} (hon : ctx.options.fAddressIndex = true)

include hon

variable {key : CAddressIndexKey} {amount : CAmount} {tip : CBlockIndex}

theorem mem_blockEvents {pprev pindex : CBlockIndex} {block : CBlock} {vtxundo : List CTxUndo}
    (hhist : BlockHistory store pprev pindex block vtxundo) :
    (key, amount) ∈ blockEvents ctx.options store.readBlockFromDisk pindex ↔
      BlockEvent store.readBlockFromDisk pindex key amount := by
  simp only [blockEvents, hhist.pprev_eq, hhist.read]
  exact mem_indexTxs_addressIndex hhist.pprev_eq hhist.read hhist.fits hon

theorem mem_chainEvents (hchain : ConnectedChain ctx store tip) :
    (key, amount) ∈ chainEvents ctx.options store.readBlockFromDisk tip ↔
      AddressEvent store.readBlockFromDisk (some tip) key amount := by
  rw [chainEvents, List.mem_flatMap]
  refine exists_congr fun pindex => and_congr_right fun hmem => ?_
  cases hprev : pindex.pprev with
  | none =>
    constructor
    · intro hevent
      simp [blockEvents, hprev] at hevent
    · intro hevent
      exact absurd hprev hevent.pprev_ne
  | some pprev =>
    obtain ⟨block, hconnd⟩ := hchain pindex hmem pprev hprev
    obtain ⟨vtxundo, hhist⟩ := hconnd.history hprev
    exact mem_blockEvents hon hhist

/-- Every history entry of a chain has its own key. -/
theorem nodup_chainEvents (hchain : ConnectedChain ctx store tip) :
    ((chainEvents ctx.options store.readBlockFromDisk tip).map Prod.fst).Nodup := by
  induction tip with
  | genesis hash time => exact List.nodup_nil
  | child pprev hash time ih =>
    obtain ⟨hbelow, block, vtxundo, hhist⟩ := hchain.below
    rw [chainEvents, CBlockIndex.ancestors, List.flatMap_cons, List.map_append, List.nodup_append]
    refine ⟨?_, ih hbelow, ?_⟩
    · simp only [blockEvents, hhist.pprev_eq, hhist.read]
      exact nodup_indexTxs_keys _ _ _ _
    · -- the entries below name a smaller height
      intro key hkey other ho heq
      obtain ⟨⟨first, amount⟩, hmem, rfl⟩ := List.mem_map.1 hkey
      obtain ⟨⟨second, value⟩, hlow, rfl⟩ := List.mem_map.1 ho
      have hheight := ((mem_blockEvents hon hhist).1 hmem).blockHeight
      have hle := ((mem_chainEvents hon hbelow).1 hlow).blockHeight_le
      have hsame : first.blockHeight = second.blockHeight :=
        congrArg CAddressIndexKey.blockHeight heq
      rw [CBlockIndex.nHeight] at hheight
      omega

/-- The deltas of a chain add up to the coins left. -/
theorem sumFor_chainEvents (address : ℕ × Uint160) {support : Finset COutPoint}
    (hchain : ConnectedChain ctx store tip)
    (hdist : ∀ pindex ∈ tip.ancestors, DistinctInputs store pindex)
    (hsupp : chainOutpoints store.readBlockFromDisk tip ⊆ support) :
    sumFor address (chainEvents ctx.options store.readBlockFromDisk tip) =
      total (paidTo address) support (utxoAt store.readBlockFromDisk tip) := by
  induction tip with
  | genesis hash time => simp [chainEvents, ancestors, blockEvents,
      pprev, sumFor, utxoAt, total]
  | child pprev hash time ih =>
    obtain ⟨hbelow, block, vtxundo, hhist⟩ := hchain.below
    simp only [chainOutpoints, ancestors, List.flatMap_cons, List.toFinset_append] at hsupp
    have hlow := ih hbelow (List.forall_mem_cons.1 hdist).2 (union_subset_right hsupp)
    have hkeys : ∀ tx ∈ block.vtx,
        ∀ o ∈ keys (tx.writes (child pprev hash time).nHeight), o ∈ support := by
      intro tx htx o ho
      refine union_subset_left hsupp (List.mem_toFinset.2 ?_)
      simp only [blockWrites, hhist.read, keys, List.map_flatMap]
      exact List.mem_flatMap.2 ⟨tx, htx, ho⟩
    have hstep := sumFor_indexTxs hon address hhist.fits
      (fun tx htx => nodup_inputs (hdist _ (ancestors_self _) block hhist.read tx htx))
      hkeys 0
    rw [chainEvents, ancestors, List.flatMap_cons, sumFor_append,
      utxoAt_child rfl hhist.read, ← hstep, ← hlow, add_comm]
    simp only [blockEvents, hhist.pprev_eq, hhist.read, chainEvents]

end Chain

variable {db : CBlockTreeDB} {utxo : UtxoMap}

/-- The deltas in a table are those of the list it was made from. -/
theorem deltaSum_eq_sumFor {events : List (CAddressIndexKey × CAmount)}
    (hnd : (events.map Prod.fst).Nodup)
    (hevents : ∀ key amount, db.addressIndex.lookup key = some amount ↔ (key, amount) ∈ events)
    (address : ℕ × Uint160) : db.deltaSum address = sumFor address events := by
  have hkeys : db.addressIndex.keys = (events.map Prod.fst).toFinset := by
    ext key
    rw [Finmap.mem_keys, ← Finmap.lookup_isSome, Option.isSome_iff_exists, List.mem_toFinset,
      List.mem_map]
    constructor
    · rintro ⟨amount, hf⟩
      exact ⟨(key, amount), (hevents key amount).1 hf, rfl⟩
    · rintro ⟨⟨other, amount⟩, hmem, rfl⟩
      exact ⟨amount, (hevents other amount).2 hmem⟩
  rw [CBlockTreeDB.deltaSum, total, sum_filter, hkeys, List.sum_toFinset _ hnd, List.map_map]
  congr 1
  refine List.map_congr_left fun change hchange => ?_
  have hf := (hevents change.1 change.2).2 hchange
  simp [content, hf]

theorem weightOf_projectUnspent {key : CAddressUnspentKey} {address : ℕ × Uint160}
    (hkey : key.address = address) :
    weightOf CAddressUnspentValue.satoshis (projectUnspent utxo key) =
      weightOf (paidTo address) (utxo key.outpoint) := by
  subst hkey
  rw [projectUnspent]
  cases utxo key.outpoint with
  | none => rfl
  | some coin =>
    rw [Option.bind_some, indexed, weightOf_some, paidTo]
    split <;> rfl

/-- The unspent outputs of an address are worth what its coins are. -/
theorem unspentSum_eq_total {support : Finset COutPoint}
    (hunspent : content db.addressUnspentIndex = projectUnspent utxo)
    (hsupp : ∀ o, (utxo o).isSome → o ∈ support) (address : ℕ × Uint160) :
    db.unspentSum address = total (paidTo address) support utxo := by
  let keys := {key ∈ db.addressUnspentIndex.keys | key.address = address}
  have hmem : ∀ key, key ∈ keys ↔ (projectUnspent utxo key).isSome ∧ key.address = address := by
    intro key
    rw [mem_filter, Finmap.mem_keys, ← Finmap.lookup_isSome, ← hunspent]
    rfl
  have hinj : Set.InjOn CAddressUnspentKey.outpoint (keys : Set CAddressUnspentKey) := by
    rintro ⟨_, _, _, _⟩ hfst ⟨_, _, _, _⟩ hsnd heq
    have hsame := ((hmem _).1 hfst).2.trans ((hmem _).1 hsnd).2.symm
    simp only [CAddressUnspentKey.outpoint, CAddressUnspentKey.address, COutPoint.mk.injEq,
      Prod.mk.injEq] at heq hsame
    simp [heq, hsame]
  have hsum : db.unspentSum address =
      ∑ key ∈ keys, weightOf (paidTo address) (utxo key.outpoint) := by
    rw [CBlockTreeDB.unspentSum, hunspent]
    exact sum_congr rfl fun key hkey => weightOf_projectUnspent ((hmem key).1 hkey).2
  rw [hsum, ← sum_image (f := fun o => weightOf (paidTo address) (utxo o)) hinj]
  refine sum_subset ?_ fun o _ hnot => ?_
  · intro o ho
    obtain ⟨key, hkey, rfl⟩ := mem_image.1 ho
    refine hsupp _ (Option.isSome_iff_ne_none.2 fun hno => ?_)
    have hsome := ((hmem key).1 hkey).1
    rw [projectUnspent, hno] at hsome
    cases hsome
  · -- a coin that pays to the address has an entry
    cases hcoin : utxo o with
    | none => rfl
    | some coin =>
      rw [weightOf_some, paidTo]
      split_ifs with haddr
      · let key : CAddressUnspentKey := ⟨address.1, address.2, o.hash, o.n⟩
        have hf : utxo key.outpoint = some coin := hcoin
        have hkey : key ∈ keys := by
          refine (hmem key).2 ⟨?_, rfl⟩
          simp [projectUnspent, hf, indexed, key, CAddressUnspentKey.address, haddr]
        exact absurd (mem_image.2 ⟨key, hkey, rfl⟩) hnot
      · rfl

/-- The node is on its chain, whose blocks list no input twice, and the address indexes show it. -/
structure CChainState.Indexed (ctx : ValidationContext) (s : CChainState) : Prop where
  onChain : s.OnChain ctx
  distinct : ∀ pindex ∈ activeChain s.tip, DistinctInputs s.store pindex
  indexes : s.store.blocktree.IndexesAddresses s.store.readBlockFromDisk s.tip

/-- Connected blocks list no input twice and bring new txids. -/
def TipCall.Distinct (s : CChainState) : TipCall → Prop
  | .connect _ pindexNew _ =>
    DistinctInputs s.store pindexNew ∧ UniqueTxids s.store.readBlockFromDisk pindexNew
  | .disconnect _ => True

namespace CChainState

section Steps

variable {ctx : ValidationContext} (hon : ctx.options.fAddressIndex = true)

include hon

variable {s s' : CChainState} {env : FlushEnv}

theorem Indexed.connect {pindexNew : CBlockIndex} {pblock : Option CBlock} (hs : s.Indexed ctx)
    (hprom : TipCall.Promised ctx s (.connect env pindexNew pblock))
    (hdist : TipCall.Distinct s (.connect env pindexNew pblock))
    (hconn : s.connectTip ctx env pindexNew pblock = .ok (.ok (), s')) : s'.Indexed ctx := by
  obtain ⟨honChain, htip', hconnd⟩ := hs.onChain.connect hprom
    (fun pprev block hprev hread => .inr (hdist.2.fresh hprev hread)) hconn
  cases hconnd with
  | genesis hprev htip hstore =>
    refine ⟨honChain, ?_, ?_⟩
    · rw [htip', hstore]
      intro pindex hmem
      rw [eq_of_mem_ancestors hprev hmem]
      exact hdist.1
    · have hidxs := hs.indexes
      rw [htip] at hidxs
      rw [htip', hstore, CBlockTreeDB.indexesAddresses_genesis hprev]
      exact hidxs
  | @block pprev block hprev htip hread hchecked hfits hblocks hblocktree =>
    have hfiles := BlockStore.readBlockFromDisk_congr hblocks
    have hsame : ∀ pindex, DistinctInputs s.store pindex → DistinctInputs s'.store pindex := by
      intro pindex hins
      rw [DistinctInputs, hfiles]
      exact hins
    refine ⟨honChain, ?_, ?_⟩
    · rw [htip']
      intro pindex hmem
      have hmem : pindex ∈ pindexNew.ancestors := hmem
      rw [ancestors_of_pprev hprev] at hmem
      rcases List.mem_cons.1 hmem with rfl | hbelow
      · exact hsame _ hdist.1
      · exact hsame _ (hs.distinct pindex (by rw [htip]; exact hbelow))
    · have hidxs := hs.indexes
      rw [htip] at hidxs
      rw [htip', hfiles, hblocktree]
      exact hidxs.connect hprev hread hfits
        (fun tx htx => nodup_inputs (hdist.1 block hread tx htx)) hchecked.txs hon

theorem Indexed.disconnect (hs : s.Indexed ctx)
    (hdisc : s.disconnectTip ctx.options env = .ok (.ok (), s')) : s'.Indexed ctx := by
  obtain ⟨honChain, pprev, pindex, block, hdone, -⟩ := hs.onChain.disconnect hdisc
  have hmem : ∀ other ∈ pprev.ancestors, other ∈ pindex.ancestors := by
    intro other ho
    exact ancestors_trans ho (mem_of_pprev hdone.pprev_eq)
  have hsound := ((hs.onChain.chain hdone.tip).of_mem (mem_of_pprev hdone.pprev_eq)).sound
  refine ⟨honChain, ?_, ?_⟩
  · rw [hdone.tip']
    intro other ho
    rw [DistinctInputs, hdone.files.read]
    exact hs.distinct other (by rw [hdone.tip]; exact hmem other ho)
  · have hidxs := hs.indexes
    rw [hdone.tip] at hidxs
    rw [hdone.tip', hdone.files.read, hdone.blocktree]
    exact hidxs.disconnect hdone.pprev_eq hdone.read hdone.fits
      (fun tx htx => nodup_inputs (hdone.distinct block hdone.read tx htx)) hdone.checked.txs
      hon hsound

theorem Run.indexed {start : CChainState} (hstart : start.Initial)
    (hrun : Run ctx (fun s call => call.Promised ctx s ∧ call.Distinct s) start s) :
    s.Indexed ctx := by
  induction hrun with
  | start =>
    refine ⟨hstart.onChain, ?_, ?_⟩
    · rw [hstart.tip]
      intro pindex hmem
      cases hmem
    · rw [hstart.tip, hstart.blocktree]
      refine ⟨rfl, fun key amount => ?_⟩
      constructor
      · intro hf
        cases hf
      · rintro ⟨pindex, hmem, -⟩
        cases hmem
  | @step before after call hrun hallowed hcall ih =>
    cases call with
    | connect env pindexNew pblock => exact ih.connect hon hallowed.1 hallowed.2 hcall
    | disconnect env => exact ih.disconnect hon hcall

/-- The two indexes agree about every balance. -/
theorem Indexed.balance (hs : s.Indexed ctx) (address : ℕ × Uint160) :
    s.store.blocktree.deltaSum address = s.store.blocktree.unspentSum address := by
  have hidxs := hs.indexes
  cases htip : s.tip with
  | none =>
    rw [htip] at hidxs
    have hno : ∀ key amount, s.store.blocktree.addressIndex.lookup key = some amount ↔
        (key, amount) ∈ ([] : List (CAddressIndexKey × CAmount)) := by
      intro key amount
      rw [hidxs.history]
      constructor
      · rintro ⟨pindex, hmem, -⟩
        cases hmem
      · intro hmem
        cases hmem
    have hnd : (([] : List (CAddressIndexKey × CAmount)).map Prod.fst).Nodup := List.nodup_nil
    have hempty : ∀ o, (utxoAtTip s.store.readBlockFromDisk none o).isSome →
        o ∈ (∅ : Finset COutPoint) := by
      intro o hcoin
      cases hcoin
    rw [deltaSum_eq_sumFor hnd hno, unspentSum_eq_total hidxs.unspent hempty]
    rfl
  | some tip =>
    rw [htip] at hidxs
    have hchain := hs.onChain.chain htip
    have hdist : ∀ pindex ∈ tip.ancestors, DistinctInputs s.store pindex :=
      fun pindex hmem => hs.distinct pindex (by rw [htip]; exact hmem)
    rw [deltaSum_eq_sumFor (nodup_chainEvents hon hchain)
        (fun key amount => (hidxs.history key amount).trans (mem_chainEvents hon hchain).symm),
      unspentSum_eq_total hidxs.unspent fun o hcoin => mem_chainOutpoints hcoin]
    exact sumFor_chainEvents hon address hchain hdist (Finset.Subset.refl _)

end Steps

end CChainState

/-- After any connects and disconnects of blocks with distinct inputs and new
txids, the address-unspent index is the restriction of the coins to addresses,
the address index has exactly the events of the active chain, and for every
address its deltas add up to its unspent values. -/
theorem address_index_refines_chain {ctx : ValidationContext}
    (hon : ctx.options.fAddressIndex = true) {start s : CChainState} (hstart : start.Initial)
    (hrun : CChainState.Run ctx (fun s call => call.Promised ctx s ∧ call.Distinct s) start s) :
    content s.store.blocktree.addressUnspentIndex = projectUnspent s.pcoinsTip.utxo ∧
      (∀ key amount, s.store.blocktree.addressIndex.lookup key = some amount ↔
        AddressEvent s.store.readBlockFromDisk s.tip key amount) ∧
      ∀ address, s.store.blocktree.deltaSum address = s.store.blocktree.unspentSum address := by
  have hidx := hrun.indexed hon hstart
  refine ⟨?_, hidx.indexes.history, hidx.balance hon⟩
  rw [hidx.onChain.utxo]
  exact hidx.indexes.unspent

namespace AddressIndexWitness

open UndoInverseWitness CrashRecoveryWitness

def genesisBlock : CBlock := ⟨hashOf 1, hashOf 4, 0, [coinbaseTx 1 (by decide) 0]⟩

/-- The block files of a node with nothing connected. -/
def downloaded (pindex : CBlockIndex) : Option CBlock :=
  if pindex.nHeight = 0 then
    some genesisBlock
  else if pindex.getBlockHash = hashOf 100 then
    some spendBlock
  else
    some (mintBlock (pindex.nHeight - 1))

def newNode : CChainState :=
  ⟨.ofBase (.db ⟨∅, none, none, 0, fun _ => 64⟩), none, ⟨downloaded, fun _ => none, .empty⟩⟩

theorem newNode_initial : newNode.Initial where
  tip := rfl
  coins := ⟨_, rfl, rfl, rfl, rfl⟩
  undo := rfl
  blocktree := rfl

theorem read_newNode_index (n : ℕ) :
    newNode.store.readBlockFromDisk (index (n + 1)) = some (mintBlock n) := by
  have hhash : (index (n + 1)).getBlockHash = hashOf (byteOf n) := rfl
  have ho : hashOf (byteOf n) ≠ hashOf 100 := hashOf_byteOf_ne n (by decide)
  have hf : newNode.store.blocks (index (n + 1)) = some (mintBlock n) := by
    simp [newNode, downloaded, nHeight_index, hhash, ho]
  have hsame : (mintBlock n).getHash = (index (n + 1)).getBlockHash := rfl
  simp [BlockStore.readBlockFromDisk, hf, hsame]

variable {n : ℕ} {s : CChainState} {calls : List TipCall}

theorem distinctInputs_newNode (n : ℕ) : DistinctInputs newNode.store (index n) := by
  intro block hread tx htx
  cases n with
  | zero =>
    cases hread
    obtain rfl := List.mem_singleton.1 htx
    exact List.nodup_singleton _
  | succ n =>
    rw [read_newNode_index] at hread
    cases hread
    obtain rfl := List.mem_singleton.1 htx
    exact List.nodup_singleton _

/-- Every block has one transaction, with its own hash. -/
theorem uniqueTxids_newNode (hn : n ≤ 128) :
    UniqueTxids newNode.store.readBlockFromDisk (index n) := by
  intro low hlow high hhigh hlt before block hpre hblk made hmade tx htx
  obtain ⟨i, -, rfl⟩ := exists_index_of_mem_ancestors hlow
  obtain ⟨j, hj, rfl⟩ := exists_index_of_mem_ancestors hhigh
  rw [nHeight_index, nHeight_index] at hlt
  obtain ⟨j, rfl⟩ : ∃ k, j = k + 1 := ⟨j - 1, by omega⟩
  rw [read_newNode_index] at hblk
  cases hblk
  obtain rfl := List.mem_singleton.1 htx
  cases i with
  | zero =>
    cases hpre
    obtain rfl := List.mem_singleton.1 hmade
    exact (hashOf_byteOf_ne j (by decide)).symm
  | succ i =>
    rw [read_newNode_index] at hpre
    cases hpre
    obtain rfl := List.mem_singleton.1 hmade
    intro heq
    have hhash : hashOf (byteOf i) = hashOf (byteOf j) := heq
    exact minted_ne (k := i) (n := j) (by omega) (by omega) (by omega)
      (congrArg (fun hash => (⟨hash, 0⟩ : COutPoint)) hhash)

def keepInMemory : FlushEnv := ⟨false, true⟩

def writeToDisk : FlushEnv := ⟨true, true⟩

def connectIndex (env : FlushEnv) (n : ℕ) : TipCall := .connect env (index n) none

theorem promised_connectIndex (env : FlushEnv) (s : CChainState) (n : ℕ) :
    (connectIndex env n).Promised ctx s := by
  constructor
  · intro block hblk
    cases hblk
  · intro hhash
    cases n with
    | zero => rfl
    | succ n => exact absurd hhash (hashOf_byteOf_ne n (by decide))

def callAll (s : CChainState) (steps : List (CChainState × TipCall)) :
    List TipCall → Option (List (CChainState × TipCall) × CChainState)
  | [] => some (steps, s)
  | call :: rest =>
    match s.call ctx call with
    | .ok (.ok _, s') => callAll s' ((s, call) :: steps) rest
    | _ => none

theorem trace_of_callAll {last : CChainState} {steps made : List (CChainState × TipCall)}
    (htrace : CChainState.Trace ctx newNode steps s)
    (hall : callAll s steps calls = some (made, last)) :
    CChainState.Trace ctx newNode made last ∧ ∀ step ∈ made, step ∈ steps ∨ step.2 ∈ calls := by
  induction calls generalizing s steps with
  | nil =>
    cases hall
    exact ⟨htrace, fun step hstep => .inl hstep⟩
  | cons call rest ih =>
    unfold callAll at hall
    split at hall
    · next s' hcall =>
      obtain ⟨hlast, hmade⟩ := ih (.step htrace hcall) hall
      refine ⟨hlast, fun step hstep => ?_⟩
      rcases hmade step hstep with hold | hlater
      · rcases List.mem_cons.1 hold with rfl | hprior
        · exact .inr List.mem_cons_self
        · exact .inl hprior
      · exact .inr (List.mem_cons_of_mem _ hlater)
    · cases hall

/-- All calls succeed, and the last state passes a check. -/
def endsIn (calls : List TipCall) (check : CChainState → Bool) : Bool :=
  match callAll newNode [] calls with
  | some (_, s) => check s
  | none => false

/-- Calls that all succeed are a run of the node. -/
theorem exists_trace {check : CChainState → Bool} (hend : endsIn calls check = true) :
    ∃ made s, CChainState.Trace ctx newNode made s ∧ check s = true ∧
      ∀ step ∈ made, step.1.store.blocks = downloaded ∧ step.2 ∈ calls := by
  unfold endsIn at hend
  rcases hall : callAll newNode [] calls with - | ⟨made, s⟩
  · rw [hall] at hend
    cases hend
  · rw [hall] at hend
    obtain ⟨htrace, hmade⟩ := trace_of_callAll .start hall
    exact ⟨made, s, htrace, hend, fun step hstep => ⟨htrace.blocks_of_mem hstep,
      (hmade step hstep).resolve_left List.not_mem_nil⟩⟩

theorem read_of_blocks (hblocks : s.store.blocks = downloaded) :
    s.store.readBlockFromDisk = newNode.store.readBlockFromDisk := by
  funext pindex
  rw [BlockStore.readBlockFromDisk, hblocks]
  rfl

/-- Three blocks, one taken back and connected again. -/
def upAndDown : List TipCall :=
  [connectIndex keepInMemory 0, connectIndex writeToDisk 1, connectIndex keepInMemory 2,
    .disconnect writeToDisk, connectIndex keepInMemory 2]

theorem mem_upAndDown {call : TipCall} (hcall : call ∈ upAndDown) :
    call = .disconnect writeToDisk ∨ ∃ env n, n ≤ 128 ∧ call = connectIndex env n := by
  simp only [upAndDown, List.mem_cons, List.not_mem_nil, or_false] at hcall
  rcases hcall with heq | heq | heq | heq | heq
  · exact .inr ⟨_, 0, by omega, heq⟩
  · exact .inr ⟨_, 1, by omega, heq⟩
  · exact .inr ⟨_, 2, by omega, heq⟩
  · exact .inl heq
  · exact .inr ⟨_, 2, by omega, heq⟩

theorem upAndDown_runs : endsIn upAndDown (fun s => s.tip = some (index 2)) = true := by
  decide +kernel

theorem exists_run (hcalls : calls ⊆ upAndDown)
    (hend : endsIn calls (fun s => s.tip = some (index 2)) = true) :
    ∃ s : CChainState, s.tip = some (index 2) ∧
      CChainState.Run ctx (fun s call => call.Promised ctx s ∧ call.Distinct s) newNode s := by
  obtain ⟨made, s, htrace, htip, hmade⟩ := exists_trace hend
  refine ⟨s, of_decide_eq_true htip, htrace.run ?_⟩
  rintro ⟨before, call⟩ hstep
  obtain ⟨hblocks, hcall⟩ := hmade _ hstep
  rcases mem_upAndDown (hcalls hcall) with rfl | ⟨env, n, hn, rfl⟩
  · exact ⟨trivial, trivial⟩
  · refine ⟨promised_connectIndex env before n, ?_, ?_⟩
    · rw [DistinctInputs, read_of_blocks hblocks]
      exact distinctInputs_newNode n
    · rw [read_of_blocks hblocks]
      exact uniqueTxids_newNode hn

theorem address_index_refines_chain_up_and_down :
    ∃ s : CChainState, s.tip = some (index 2) ∧
      content s.store.blocktree.addressUnspentIndex = projectUnspent s.pcoinsTip.utxo ∧
      (∀ key amount, s.store.blocktree.addressIndex.lookup key = some amount ↔
        AddressEvent s.store.readBlockFromDisk s.tip key amount) ∧
      ∀ address, s.store.blocktree.deltaSum address = s.store.blocktree.unspentSum address := by
  obtain ⟨s, htip, hrun⟩ := exists_run (List.Subset.refl _) upAndDown_runs
  exact ⟨s, htip, address_index_refines_chain rfl newNode_initial hrun⟩

end AddressIndexWitness

end Catoshi
