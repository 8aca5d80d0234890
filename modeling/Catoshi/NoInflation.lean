/-
No coin is spent twice and no money made from nothing, just if no transaction of a block lists an
input twice: `CheckBlock` does not look for that.
-/
import Catoshi.UndoInverse

namespace Catoshi

open CTransaction WriteLog Finset CCoinsView Coin

def CCoinsView.outpoints : CCoinsView → Finset COutPoint
  | .db store => store.coins.keys.toFinset
  | .cache layer base => layer.cacheCoins.keys.toFinset ∪ base.outpoints

theorem CCoinsView.mem_outpoints {view : CCoinsView} {o : COutPoint}
    (hcoin : (view.utxo o).isSome) : o ∈ view.outpoints := by
  induction view with
  | db store =>
    have hlook : (store.coins.lookup o).isSome := by
      cases hfind : store.coins.lookup o with
      | none => simp [utxo, CCoinsViewDB.utxo, hfind] at hcoin
      | some coin => rfl
    simpa [outpoints, AList.mem_keys] using AList.lookup_isSome.1 hlook
  | cache layer base ih =>
    rw [outpoints, mem_union]
    cases hfind : layer.cacheCoins.lookup o with
    | none =>
      refine .inr (ih ?_)
      simpa [utxo, Overlay.view, CCoinsCacheLayer.overlay, CCoinsCacheLayer.find, hfind] using hcoin
    | some entry =>
      have hmem : o ∈ layer.cacheCoins := AList.lookup_isSome.1 (by simp [hfind])
      exact .inl (by simpa [AList.mem_keys] using hmem)

def Coin.nValue (coin : Coin) : ℤ := coin.out.nValue

def CCoinsViewCache.totalValue (view : CCoinsViewCache) : CAmount :=
  WriteLog.total nValue view.toView.outpoints view.utxo

/-- No outpoint is spent twice, every spent coin was there before or made earlier in the block, and
all coins gain at most the subsidy. -/
structure NoInflation (params : ConsensusParams) (nHeight : ℕ) (block : CBlock)
    (view view' : CCoinsViewCache) : Prop where
  spent_once : (block.vtx.flatMap inputs).Nodup
  spent_known : ∀ earlier tx later, block.vtx = earlier ++ tx :: later →
    ∀ p ∈ tx.inputs, (view.utxo p).isSome ∨
      ∃ made ∈ earlier, p ∈ WriteLog.keys (made.creates nHeight)
  total : view'.totalValue ≤ view.totalValue + getBlockSubsidy nHeight params

section Spending

variable {nHeight : ℕ} {utxo : UtxoMap}

/-- Two transactions with one hash share an input. -/
def SharesInput (made tx : CTransaction) : Prop :=
  made.getHash = tx.getHash → ∃ q ∈ made.inputs, q ∈ tx.inputs

/-- What the transactions so far did to the coins they spent. -/
structure SpentBy (nHeight : ℕ) (utxo : UtxoMap) (txs : List CTransaction) : Prop where
  nodup : (txs.flatMap inputs).Nodup
  known : ∀ p ∈ txs.flatMap inputs, (utxo p).isSome ∨
    ∃ made ∈ txs, p ∈ WriteLog.keys (made.creates nHeight)
  gone : ∀ p ∈ txs.flatMap inputs, afterTxs nHeight utxo txs p = none

variable {txs : List CTransaction} {tx : CTransaction} {p : COutPoint}

/-- A spent coin stays spent unless it is made again. -/
theorem afterTx_eq_none (hkey : p ∉ keys (tx.creates nHeight))
    (hgone : p ∈ tx.inputs ∨ utxo p = none) : afterTx nHeight utxo tx p = none := by
  rw [afterTx, writes, apply_append, apply_of_notMem hkey, spends]
  by_cases hmem : p ∈ tx.inputs
  · exact apply_erases_of_mem hmem utxo
  · rw [apply_erases_of_notMem hmem]
    exact hgone.resolve_left hmem

section

variable (hspent : SpentBy nHeight utxo txs)
  (hfresh : ∀ o ∈ keys (tx.creates nHeight), utxo o = none)
  (hshares : ∀ made ∈ txs, SharesInput made tx)
  (hfits : TxFits nHeight (afterTxs nHeight utxo txs) tx)

include hspent hfresh hshares hfits

/-- A transaction makes no coin that came up before: its inputs would have been spent already. -/
theorem SpentBy.not_made_again
    (hknown : (utxo p).isSome ∨ ∃ made ∈ txs, p ∈ keys (made.creates nHeight)) :
    p ∉ keys (tx.creates nHeight) := by
  intro hmem
  rcases hknown with hold | ⟨made, hmade, hkey⟩
  · rw [hfresh p hmem] at hold
    cases hold
  · have hhash : made.getHash = tx.getHash := by
      rw [← hash_of_mem_keys_creates hkey, hash_of_mem_keys_creates hmem]
    obtain ⟨q, hfst, hsnd⟩ := hshares made hmade hhash
    have hf := hfits.inputs q hsnd
    rw [hspent.gone q (List.mem_flatMap.2 ⟨made, hmade, hfst⟩)] at hf
    cases hf

theorem SpentBy.snoc (hnd : tx.inputs.Nodup) : SpentBy nHeight utxo (txs ++ [tx]) := by
  have hf : ∀ p ∈ tx.inputs, (utxo p).isSome ∨
      ∃ made ∈ txs, p ∈ keys (made.creates nHeight) :=
    fun p hp => known_of_afterTxs (hfits.inputs p hp)
  have hins : (txs ++ [tx]).flatMap inputs = txs.flatMap inputs ++ tx.inputs := by simp
  have hknown : ∀ p ∈ txs.flatMap inputs ++ tx.inputs, (utxo p).isSome ∨
      ∃ made ∈ txs, p ∈ keys (made.creates nHeight) := by
    intro p hp
    rcases List.mem_append.1 hp with hprior | hthis
    · exact hspent.known p hprior
    · exact hf p hthis
  constructor
  · rw [hins, List.nodup_append]
    refine ⟨hspent.nodup, hnd, fun p hprior q hthis heq => ?_⟩
    have hsome := hfits.inputs q hthis
    rw [← heq, hspent.gone p hprior] at hsome
    cases hsome
  · rw [hins]
    intro p hp
    exact (hknown p hp).imp_right fun ⟨made, hmade, hkey⟩ =>
      ⟨made, List.mem_append_left _ hmade, hkey⟩
  · rw [hins, afterTxs_append]
    intro p hp
    refine afterTx_eq_none (hspent.not_made_again hfresh hshares hfits (hknown p hp)) ?_
    rcases List.mem_append.1 hp with hprior | hthis
    · exact .inr (hspent.gone p hprior)
    · exact .inl hthis

end

/-- Transactions that fit and list no input twice spend no coin twice. -/
theorem spentBy_of_fits (hfits : TxsFit nHeight utxo txs) (hfresh : FreshOutputs nHeight utxo txs)
    (hshares : txs.Pairwise SharesInput) (hnd : ∀ tx ∈ txs, tx.inputs.Nodup) :
    SpentBy nHeight utxo txs := by
  induction txs using List.reverseRecOn with
  | nil => exact ⟨List.nodup_nil, by simp, by simp⟩
  | append_singleton txs tx ih =>
    obtain ⟨hpre, hthis, -⟩ := txsFit_append.1 hfits
    obtain ⟨hpairs, -, hlast⟩ := List.pairwise_append.1 hshares
    have hspent := ih hpre (fun other ho => hfresh other (by simp [ho])) hpairs
      (fun other ho => hnd other (by simp [ho]))
    exact hspent.snoc (hfresh tx (by simp)) (fun made hmade => hlast made hmade tx (by simp))
      hthis (hnd tx (by simp))

end Spending

section Value

variable {nHeight : ℕ} {utxo : UtxoMap} {support : Finset COutPoint}

/-- The outputs added are worth at most all outputs. -/
theorem sum_createsFrom_le {txid : Uint256} {fCoinbase : Bool} {start : ℕ} {vout : List CTxOut}
    (hvout : ∀ out ∈ vout, 0 ≤ out.nValue) :
    ((createsFrom txid fCoinbase nHeight start vout).map fun write =>
        weightOf nValue write.2).sum ≤ (vout.map CTxOut.nValue).sum := by
  induction vout generalizing start with
  | nil => exact le_rfl
  | cons out rest ih =>
    have hout := hvout out List.mem_cons_self
    rw [createsFrom, List.map_append, List.sum_append, List.map_cons]
    refine add_le_add ?_ (ih (List.forall_mem_cons.1 hvout).2)
    unfold CCoinsViewCache.addWrites
    split
    · exact hout
    · simp [nValue]

/-- A transaction that fits makes at most what its outputs say. -/
theorem total_afterTx_le {tx : CTransaction} (hfits : TxFits nHeight utxo tx)
    (hnd : tx.inputs.Nodup) (hvout : ∀ out ∈ tx.vout, 0 ≤ out.nValue)
    (hsupp : ∀ o ∈ keys (tx.writes nHeight), o ∈ support) :
    total nValue support (afterTx nHeight utxo tx) ≤
      total nValue support utxo - coinsValue (tx.coins utxo) + tx.valueOut := by
  rw [total_afterTx nValue hfits hnd hsupp]
  exact add_le_add le_rfl (sum_createsFrom_le hvout)

/-- Transactions that fit lose their fees. -/
theorem total_afterTxs_le {txs : List CTransaction} (hfits : TxsFit nHeight utxo txs)
    (hnd : ∀ tx ∈ txs, tx.inputs.Nodup) (hchecked : ∀ tx ∈ txs, tx.Checked)
    (hsupp : ∀ tx ∈ txs, ∀ o ∈ keys (tx.writes nHeight), o ∈ support) :
    total nValue support (afterTxs nHeight utxo txs) ≤
      total nValue support utxo - feesTxs nHeight utxo txs := by
  induction txs generalizing utxo with
  | nil => simp [feesTxs]
  | cons tx rest ih =>
    have hfst := total_afterTx_le hfits.1 (hnd tx List.mem_cons_self)
      (hchecked tx List.mem_cons_self).vout_nonneg (hsupp tx List.mem_cons_self)
    have hrest := ih hfits.2 (List.forall_mem_cons.1 hnd).2 (List.forall_mem_cons.1 hchecked).2
      (List.forall_mem_cons.1 hsupp).2
    rw [afterTxs_cons, feesTxs]
    linarith

end Value

/-- The total may be taken over any larger set. -/
theorem CCoinsViewCache.totalValue_eq (view : CCoinsViewCache) {support : Finset COutPoint}
    (hsubset : view.toView.outpoints ⊆ support) :
    view.totalValue = total nValue support view.utxo :=
  total_of_subset hsubset fun _ hcoin => mem_outpoints hcoin

variable {store' : BlockStore} {view' : CCoinsViewCache}

/-- The coinbase takes the fees and at most the subsidy. -/
theorem BlockConnected.total_le {ctx : ValidationContext} {store : BlockStore} {block : CBlock}
    {pprev pindex : CBlockIndex} {view : CCoinsViewCache}
    (hblk : BlockConnected ctx store block pprev pindex view view' store')
    (hnd : ∀ tx ∈ block.vtx, tx.inputs.Nodup) :
    view'.totalValue ≤ view.totalValue + getBlockSubsidy pindex.nHeight ctx.params := by
  let touched := (block.vtx.flatMap fun tx =>
    keys (tx.writes pindex.nHeight)).toFinset
  let support := view.toView.outpoints ∪ (view'.toView.outpoints ∪ touched)
  have hsupp : ∀ tx ∈ block.vtx, ∀ o ∈ keys (tx.writes pindex.nHeight), o ∈ support := by
    intro tx htx o ho
    refine mem_union_right _ (mem_union_right _ ?_)
    exact List.mem_toFinset.2 (List.mem_flatMap.2 ⟨tx, htx, ho⟩)
  have hpre : view.toView.outpoints ⊆ support := subset_union_left
  have hafter : view'.toView.outpoints ⊆ support := subset_union_left.trans subset_union_right
  rw [view.totalValue_eq hpre, view'.totalValue_eq hafter, hblk.utxo]
  obtain ⟨coinbase, rest, hvtx, hfst, -⟩ := hblk.checked.shape
  have hreward := hblk.reward coinbase rest hvtx
  have hfits := hblk.fits
  have hchecked := hblk.checked.txs
  rw [hvtx] at hfits hchecked hnd hsupp ⊢
  have hhead := total_afterTx_le hfits.1 (hnd coinbase List.mem_cons_self)
    (hchecked coinbase List.mem_cons_self).vout_nonneg
    (hsupp coinbase List.mem_cons_self)
  have htail := total_afterTxs_le hfits.2 (List.forall_mem_cons.1 hnd).2
    (List.forall_mem_cons.1 hchecked).2
    (List.forall_mem_cons.1 hsupp).2
  have hspend : coinsValue (coinbase.coins view.utxo) = 0 := by
    simp [coins, inputs, hfst, coinsValue]
  rw [afterTxs_cons]
  linarith

theorem isCoinBase_eq_of_prevouts {first second : CTransaction}
    (hprevouts : first.prevouts = second.prevouts) : first.isCoinBase = second.isCoinBase := by
  rcases hfst : first.vin with _ | ⟨txin, _ | ⟨other, rest⟩⟩ <;>
    rcases hsnd : second.vin with _ | ⟨txin', _ | ⟨other', rest'⟩⟩ <;>
    simp_all [isCoinBase, prevouts]

/-- Transactions of an accepted block with one hash share an input. -/
theorem sharesInput_of_checked {block : CBlock} (hchecked : block.Checked)
    (htxid : ∀ tx ∈ block.vtx, ∀ other ∈ block.vtx, tx.getHash = other.getHash →
      tx.prevouts = other.prevouts) : block.vtx.Pairwise SharesInput := by
  obtain ⟨coinbase, rest, hvtx, hfst, hothers⟩ := hchecked.shape
  have htxs := hchecked.txs
  rw [hvtx] at htxid htxs ⊢
  have hsame : ∀ made ∈ coinbase :: rest, ∀ tx ∈ rest, SharesInput made tx := by
    intro made hmade tx htx hhash
    have hprevouts := htxid made hmade tx (List.mem_cons_of_mem coinbase htx) hhash
    have hnot := hothers tx htx
    have hmadeNot : made.isCoinBase = false := by
      rw [← hnot]
      exact isCoinBase_eq_of_prevouts hprevouts
    obtain ⟨txin, hin⟩ := List.exists_mem_of_ne_nil _ (htxs made hmade).vin_ne
    have hmem : txin.prevout ∈ made.prevouts := List.mem_map_of_mem hin
    refine ⟨txin.prevout, ?_, ?_⟩
    · simpa [inputs, hmadeNot] using hmem
    · simpa [inputs, hnot, ← hprevouts] using hmem
  rw [List.pairwise_cons]
  refine ⟨hsame coinbase List.mem_cons_self, List.pairwise_of_forall_mem_list ?_⟩
  intro made hmade tx htx
  exact hsame made (List.mem_cons_of_mem coinbase hmade) tx htx

/-- Connecting the genesis block only moves the best block. -/
theorem connectBlock_genesis {ctx : ValidationContext} {store : BlockStore} {block : CBlock}
    {pindex : CBlockIndex} {view : CCoinsViewCache} (hwf : view.Wf)
    (hgenesis : block.getHash = ctx.params.hashGenesisBlock)
    (hconn : connectBlock ctx store block pindex view false = .ok (view', store')) :
    view'.utxo = view.utxo := by
  simp only [connectBlock, Outcome.bind_ok_iff, Outcome.require_ok_iff,
    Outcome.lift_ok_iff, hgenesis, if_true, Outcome.pure_ok_iff, Prod.mk.injEq,
    Bool.false_eq_true, if_false] at hconn
  obtain ⟨-, -, -, -, -, -, rfl, -⟩ := hconn
  exact (CCoinsViewCache.getBestBlock_spec hwf).1

/-- A connected block spends no coin twice and makes no money from nothing
exactly when none of its transactions lists an input twice. -/
theorem noInflation_iff_distinct_inputs (view : UtxoView) {ctx : ValidationContext}
    {store store' : BlockStore} {block : CBlock} {pindex : CBlockIndex}
    {view' : CCoinsViewCache}
    (hconnect : connectBlock ctx store block pindex view.cache false = .ok (view', store'))
    (hbip30 : ∀ pprev, pindex.pprev = some pprev → fEnforceBIP30 ctx.params pprev = true ∨
      FreshOutputs pindex.nHeight view.cache.utxo block.vtx)
    (htxid : ∀ tx ∈ block.vtx, ∀ other ∈ block.vtx, tx.getHash = other.getHash →
      tx.prevouts = other.prevouts)
    (hgenesis : block.getHash = ctx.params.hashGenesisBlock →
      ∀ tx ∈ block.vtx, tx.isCoinBase = true) :
    NoInflation ctx.params pindex.nHeight block view.cache view' ↔
      ∀ tx ∈ block.vtx, tx.prevouts.Nodup := by
  constructor
  · intro hsafe tx htx
    exact (nodup_prevouts_iff tx).2 ((List.nodup_flatMap.1 hsafe.spent_once).1 tx htx)
  · intro hdist
    have hnd : ∀ tx ∈ block.vtx, tx.inputs.Nodup :=
      fun tx htx => nodup_inputs (hdist tx htx)
    by_cases hfst : block.getHash = ctx.params.hashGenesisBlock
    · -- nothing is spent and nothing is made
      have hnone : ∀ tx ∈ block.vtx, tx.inputs = [] := fun tx htx => by
        simp [inputs, hgenesis hfst tx htx]
      have hutxo := connectBlock_genesis view.wf hfst hconnect
      refine ⟨?_, fun earlier tx later hvtx p hp => ?_, ?_⟩
      · rw [List.flatMap_eq_nil_iff.2 hnone]
        exact List.nodup_nil
      · rw [hnone tx (by simp [hvtx])] at hp
        cases hp
      · have hsame : view'.totalValue = view.cache.totalValue := by
          have hright : view'.toView.outpoints ⊆
              view.cache.toView.outpoints ∪ view'.toView.outpoints := subset_union_right
          rw [view'.totalValue_eq hright, hutxo, view.cache.totalValue_eq subset_union_left]
        linarith [getBlockSubsidy_nonneg pindex.nHeight ctx.params]
    · obtain ⟨pprev, hprev, hblk⟩ := connectBlock_spec view.wf hfst hbip30 hconnect
      have hspent := spentBy_of_fits hblk.fits hblk.fresh
        (sharesInput_of_checked hblk.checked htxid) hnd
      refine ⟨hspent.nodup, fun earlier tx later hvtx p hp => ?_, hblk.total_le hnd⟩
      have hfits := hblk.fits
      rw [hvtx] at hfits
      exact known_of_afterTxs ((txsFit_append.1 hfits).2.1.inputs p hp)

namespace NoInflationWitness

open UndoInverseWitness

/-- One transaction spends the database's coin twice. -/
def doubleSpend : CBlock where
  hash := hashOf 3
  hashMerkleRoot := hashOf 4
  nTime := 1200
  vtx := [coinbaseTx 10 hashOf_ten_ne_null 5000000000,
    spendTx 11 hashOf_eleven_ne_null [⟨hashOf 7, 0⟩, ⟨hashOf 7, 0⟩] [⟨100, payToPublicKeyHash 8⟩]]

theorem enforced_at_tip (block : CBlock) : ∀ pprev, pindex.pprev = some pprev →
    fEnforceBIP30 ctx.params pprev = true ∨
      FreshOutputs pindex.nHeight view.cache.utxo block.vtx := by
  intro pprev hprev
  obtain rfl : tip = pprev := Option.some.inj hprev
  exact .inl (by decide +kernel)

theorem noInflation_iff_distinct_inputs_sample :
    ∃ view' store', connectBlock ctx store block pindex view.cache false =
        .ok (view', store') ∧
      (NoInflation ctx.params pindex.nHeight block view.cache view' ↔
        ∀ tx ∈ block.vtx, tx.prevouts.Nodup) := by
  have hrun : (connectBlock ctx store block pindex view.cache false).isOk = true := by
    decide +kernel
  rcases hconn : connectBlock ctx store block pindex view.cache false with
    failure | ⟨view', store'⟩
  · rw [hconn] at hrun
    cases hrun
  · exact ⟨view', store', rfl, noInflation_iff_distinct_inputs view hconn
      (enforced_at_tip block) (by decide +kernel) (fun hgenesis => absurd hgenesis (by decide))⟩

/-- The block that spends one coin twice is connected, and 50 units have come
from nothing. -/
theorem duplicate_input_makes_money :
    ∃ view' store', connectBlock ctx store doubleSpend pindex view.cache false =
        .ok (view', store') ∧
      view'.totalValue = view.cache.totalValue + getBlockSubsidy pindex.nHeight ctx.params + 50 ∧
      ¬ NoInflation ctx.params pindex.nHeight doubleSpend view.cache view' := by
  have hrun : (match connectBlock ctx store doubleSpend pindex view.cache false with
      | .ok connected => decide (connected.1.totalValue = view.cache.totalValue +
          getBlockSubsidy pindex.nHeight ctx.params + 50)
      | .error _ => false) = true := by decide +kernel
  rcases hconn : connectBlock ctx store doubleSpend pindex view.cache false with
    failure | ⟨view', store'⟩
  · rw [hconn] at hrun
    cases hrun
  · rw [hconn] at hrun
    refine ⟨view', store', rfl, of_decide_eq_true hrun, fun hsafe => ?_⟩
    exact absurd hsafe.spent_once (by decide +kernel)

end NoInflationWitness

end Catoshi
