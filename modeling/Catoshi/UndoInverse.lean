/-
Disconnecting a block takes back what connecting it did.
-/
import Catoshi.DisconnectSpec

namespace Catoshi

open Outcome CCoinsViewCache CTransaction WriteLog
open List hiding keys keys_append append_assoc

/-- A coin that an undo record puts back as it was. -/
structure Coin.Restorable (coin : Coin) : Prop where
  height : coin.nHeight ≠ 0
  unspent : coin.isSpent = false
  spendable : coin.out.scriptPubKey.isUnspendable = false

section

variable {i nHeight : ℕ} {block : CBlock} {utxo : UtxoMap} {o : COutPoint} {coin : Coin}
  {store store' : BlockStore} {pindex : CBlockIndex} {options : IndexOptions} {tx : CTransaction}
  {outs : List COutPoint} {undos coins : List Coin} {s s' : DisconnectState}
  {view : CCoinsViewCache} {txs : List CTransaction} {done : Disconnected}

/-- Listing no input twice gives distinct inputs. -/
theorem nodup_inputs {tx : CTransaction} (hnd : tx.prevouts.Nodup) : tx.inputs.Nodup := by
  unfold inputs
  split
  · exact List.nodup_nil
  · exact hnd

theorem vin_of_isCoinBase {tx : CTransaction} (hcbase : tx.isCoinBase = true) :
    ∃ txin, tx.vin = [txin] := by
  unfold isCoinBase at hcbase
  split at hcbase
  · next txin hvin => exact ⟨txin, hvin⟩
  · cases hcbase

/-- A coinbase has one input, so it lists none twice. -/
theorem nodup_prevouts_iff (tx : CTransaction) : tx.prevouts.Nodup ↔ tx.inputs.Nodup := by
  refine ⟨nodup_inputs, fun hnd => ?_⟩
  cases hcbase : tx.isCoinBase with
  | false => simpa [inputs, hcbase] using hnd
  | true =>
    obtain ⟨txin, hvin⟩ := vin_of_isCoinBase hcbase
    simp [prevouts, hvin]

/-- The coins put the inputs back: where an input is listed first, with the coin it had. -/
def Fills : UtxoMap → List COutPoint → List Coin → Prop
  | _, [], [] => True
  | utxo, out :: outs, coin :: coins =>
    (∀ found, utxo out = some found → coin = found) ∧
      Fills (Function.update utxo out none) outs coins
  | _, _, _ => False

theorem fills_undoCoins (utxo : UtxoMap) (outs : List COutPoint) :
    Fills utxo outs (undoCoins utxo outs) := by
  induction outs generalizing utxo with
  | nil => trivial
  | cons out outs ih => exact ⟨fun found hf => by rw [hf]; rfl, ih _⟩

/-- An input listed again is overwritten by the coin of the first time. -/
theorem apply_restores (hfills : Fills utxo outs coins) (hsome : o ∈ outs → (utxo o).isSome)
    (start : UtxoMap) :
    apply (restores outs coins) start o = if o ∈ outs then utxo o else start o := by
  induction outs generalizing utxo coins with
  | nil =>
    cases coins with
    | nil => rfl
    | cons coin coins => exact False.elim hfills
  | cons out outs ih =>
    cases coins with
    | nil => exact False.elim hfills
    | cons coin coins =>
      rw [restores, apply_append, apply_cons, apply_nil]
      by_cases heq : o = out
      · subst heq
        obtain ⟨found, hf⟩ := Option.isSome_iff_exists.1 (hsome mem_cons_self)
        rw [Function.update_self, if_pos mem_cons_self, hf, hfills.1 found hf]
      · have hrest := ih hfills.2 fun hmem => by
          rw [Function.update_of_ne heq]
          exact hsome (mem_cons_of_mem out hmem)
        rw [Function.update_of_ne heq, hrest, Function.update_of_ne heq]
        simp [heq]

/-- Taking the outputs back leaves the map without the coins spent. -/
theorem apply_erases_afterTx (hfits : TxFits nHeight utxo tx) :
    apply (erases (keys (tx.creates nHeight)))
      (afterTx nHeight utxo tx) = apply tx.spends utxo := by
  funext o
  by_cases hmem : o ∈ keys (tx.creates nHeight)
  · rw [apply_erases_of_mem hmem, hfits.outputs o hmem]
  · rw [apply_erases_of_notMem hmem, afterTx, writes, apply_append, apply_of_notMem hmem]

/-- Undoing a transaction that fits gives the map before it. -/
theorem apply_txUndoWrites (hfits : TxFits nHeight utxo tx) :
    apply (txUndoWrites nHeight tx
      (if tx.isCoinBase then none else some ⟨undoCoins utxo tx.inputs⟩))
        (afterTx nHeight utxo tx) = utxo := by
  unfold txUndoWrites
  rw [apply_append, apply_erases_afterTx hfits]
  cases hcbase : tx.isCoinBase with
  | true => simp [spends, inputs, hcbase, erases]
  | false =>
    have hins : tx.inputs = tx.prevouts := by simp [inputs, hcbase]
    have hall := hfits.inputs
    simp only [Bool.false_eq_true, if_false, spends]
    rw [hins] at hall ⊢
    funext o
    rw [apply_restores (fills_undoCoins _ _) (hall o)]
    split_ifs with hmem
    · rfl
    · exact apply_erases_of_notMem hmem utxo

/-- Undoing all transactions of a block gives the map before it. -/
theorem apply_undoWrites (hfits : TxsFit nHeight utxo txs) :
    apply (undoWrites nHeight txs (blockUndos nHeight utxo txs))
      (afterTxs nHeight utxo txs) = utxo := by
  induction txs generalizing utxo with
  | nil => rfl
  | cons tx rest ih =>
    rw [blockUndos, undoWrites, apply_append, afterTxs_cons, ih hfits.2,
      apply_txUndoWrites hfits.1]

/-- Every coin of the map can be put back as it is. -/
def Sound (utxo : UtxoMap) : Prop := ∀ o coin, utxo o = some coin → coin.Restorable

/-- The coins a checked transaction makes above the genesis. -/
theorem restorable_of_mem_creates (hheight : nHeight ≠ 0) (hchecked : tx.Checked)
    (hmade : (o, some coin) ∈ tx.creates nHeight) : coin.Restorable := by
  obtain ⟨k, out, hout, hscr, -, hcoin⟩ := mem_creates.1 hmade
  cases hcoin
  exact ⟨hheight, isSpent_of_nonneg (hchecked.vout_nonneg out (mem_of_getElem? hout)), hscr⟩

theorem Sound.afterTxs (hsound : Sound utxo) (hheight : nHeight ≠ 0)
    (hchecked : ∀ tx ∈ txs, tx.Checked) :
    Sound (afterTxs nHeight utxo txs) :=
  afterTxs_forall hsound fun tx htx _ _ hmade =>
    restorable_of_mem_creates hheight (hchecked tx htx) hmade

theorem Sound.afterTx (hsound : Sound utxo) (hheight : nHeight ≠ 0) (hchecked : tx.Checked) :
    Sound (afterTx nHeight utxo tx) :=
  Sound.afterTxs hsound hheight (forall_mem_singleton.2 hchecked)

theorem Sound.update (hsound : Sound utxo) (out : COutPoint) :
    Sound (Function.update utxo out none) := by
  intro o coin hcoin
  by_cases heq : o = out
  · rw [heq, Function.update_self] at hcoin
    cases hcoin
  · rw [Function.update_of_ne heq] at hcoin
    exact hsound o coin hcoin

@[simp]
theorem length_undoCoins (utxo : UtxoMap) (outs : List COutPoint) :
    (undoCoins utxo outs).length = outs.length := by
  induction outs generalizing utxo with
  | nil => rfl
  | cons out outs ih => simp [undoCoins, ih]

/-- A record of a sound map is never of a spent or an unspendable coin. -/
theorem of_mem_undoCoins (hsound : Sound utxo) (hmem : coin ∈ undoCoins utxo outs) :
    coin.isSpent = false ∧ coin.out.scriptPubKey.isUnspendable = false := by
  induction outs generalizing utxo with
  | nil => cases hmem
  | cons out outs ih =>
    rcases mem_cons.1 hmem with rfl | hrest
    · cases hcoin : utxo out with
      | some found => exact ⟨(hsound out found hcoin).unspent, (hsound out found hcoin).spendable⟩
      | none => decide
    · exact ih (hsound.update out) hrest

theorem completeInputs_of_height (hlen : undos.length = outs.length)
    (hheight : ∀ undo ∈ undos, undo.nHeight ≠ 0) :
    completeInputs utxo outs undos = some undos := by
  induction outs generalizing undos with
  | nil =>
    obtain rfl : undos = [] := length_eq_zero_iff.1 hlen
    rfl
  | cons out outs ih =>
    cases undos with
    | nil => cases hlen
    | cons undo undos =>
      rw [forall_mem_cons] at hheight
      simp [completeInputs, ih (Nat.succ.inj hlen) hheight.2, completeCoin, hheight.1]

/-- The record of an input listed before has no address. -/
theorem unindexInput_of_no_address {txout : CTxOut} (hno : txout.scriptPubKey.address = none)
    (options : IndexOptions) (nHeight i : ℕ) (hash : Uint256) (j : ℕ) (out : COutPoint)
    (first second : ℕ) :
    unindexInput options nHeight i hash j out txout first =
      unindexInput options nHeight i hash j out txout second := by
  simp [unindexInput, unspentEvent, hno]

/-- Completing the records of inputs changes only those of inputs listed before. -/
theorem completeInputs_undoCoins (options : IndexOptions) (nHeight i : ℕ) (hash : Uint256) (j : ℕ)
    {start : UtxoMap} (hsound : Sound utxo)
    (hcoins : completeInputs start outs (undoCoins utxo outs) = some coins) :
    Fills utxo outs coins ∧ unindexInputs options nHeight i hash j outs coins =
      unindexInputs options nHeight i hash j outs (undoCoins utxo outs) := by
  induction outs generalizing utxo coins j with
  | nil =>
    cases hcoins
    exact ⟨trivial, rfl⟩
  | cons out outs ih =>
    simp only [undoCoins, completeInputs, Option.bind_eq_bind, Option.bind_eq_some_iff] at hcoins
    obtain ⟨rest, hrest, coin, hcoin, hcons⟩ := hcoins
    cases hcons
    obtain ⟨hfills, hindex⟩ := ih (j + 1) (hsound.update out) hrest
    have hhead : ∀ found, utxo out = some found → coin = found := by
      intro found hf
      rw [hf, Option.getD_some, completeCoin, if_neg (hsound out found hf).height] at hcoin
      exact (Option.some.inj hcoin).symm
    refine ⟨⟨hhead, hfills⟩, ?_⟩
    rw [undoCoins, unindexInputs, unindexInputs, hindex]
    congr 1
    cases hf : utxo out with
    | some found => rw [hhead found hf, Option.getD_some]
    | none =>
      rw [hf, Option.getD_none] at hcoin
      rw [completeCoin_out hcoin]
      exact unindexInput_of_no_address (by decide) _ _ _ _ _ _ _ _

section Records

variable {start : UtxoMap} {records : List (Option CTxUndo)} (hsound : Sound utxo)
  (hheight : nHeight ≠ 0) (hchecked : ∀ tx ∈ txs, tx.Checked) (hfits : TxsFit nHeight utxo txs)

include hsound hheight hchecked

theorem of_mem_blockUndos {txundo : CTxUndo}
    (hmem : some txundo ∈ blockUndos nHeight utxo txs) : ∀ coin ∈ txundo.vprevout,
      coin.isSpent = false ∧ coin.out.scriptPubKey.isUnspendable = false := by
  induction txs generalizing utxo with
  | nil => cases hmem
  | cons tx rest ih =>
    rw [forall_mem_cons] at hchecked
    rcases mem_cons.1 hmem with hhead | hrest
    · cases hcbase : tx.isCoinBase with
      | true => simp [hcbase] at hhead
      | false =>
        simp only [hcbase, Bool.false_eq_true, if_false, Option.some.injEq] at hhead
        rw [hhead]
        exact fun coin hcoin => of_mem_undoCoins hsound hcoin
    · exact ih (hsound.afterTx hheight hchecked.1) hchecked.2 hrest

include hfits

/-- The completed undo data of a connected block does the same as the data in the file. -/
theorem completeTxs_blockUndos
    (hcompl : completeTxs nHeight start txs (blockUndos nHeight utxo txs) = some records) (i : ℕ) :
    apply (undoWrites nHeight txs records) =
        apply (undoWrites nHeight txs (blockUndos nHeight utxo txs)) ∧
      unindexTxs options nHeight i txs records =
        unindexTxs options nHeight i txs (blockUndos nHeight utxo txs) := by
  induction txs generalizing utxo records i with
  | nil =>
    cases hcompl
    exact ⟨rfl, rfl⟩
  | cons tx rest ih =>
    rw [forall_mem_cons] at hchecked
    simp only [blockUndos, completeTxs, Option.bind_eq_bind, Option.bind_eq_some_iff] at hcompl
    obtain ⟨later, hlater, first, hfst, hcons⟩ := hcompl
    cases hcons
    obtain ⟨hwrites, hindex⟩ :=
      ih (hsound.afterTx hheight hchecked.1) hchecked.2 hfits.2 hlater (i + 1)
    have htx : apply (txUndoWrites nHeight tx first) = apply (txUndoWrites nHeight tx
          (if tx.isCoinBase then none else some ⟨undoCoins utxo tx.inputs⟩)) ∧
        unindexTx options nHeight i tx first = unindexTx options nHeight i tx
          (if tx.isCoinBase then none else some ⟨undoCoins utxo tx.inputs⟩) := by
      cases hcbase : tx.isCoinBase with
      | true =>
        simp only [hcbase, if_true, completeTx, Option.some.injEq] at hfst
        exact hfst ▸ ⟨rfl, rfl⟩
      | false =>
        have hins : tx.inputs = tx.prevouts := by simp [inputs, hcbase]
        have hall := hfits.1.inputs
        simp only [hcbase, Bool.false_eq_true, if_false, completeTx, length_undoCoins] at hfst ⊢
        rw [hins] at hall hfst ⊢
        split at hfst
        · cases hfst
        · simp only [Option.bind_eq_bind, Option.bind_eq_some_iff] at hfst
          obtain ⟨coins, hcoins, heq⟩ := hfst
          cases heq
          obtain ⟨hfills, hunindex⟩ :=
            completeInputs_undoCoins options nHeight i tx.getHash 0 hsound hcoins
          refine ⟨?_, by simp only [unindexTx, hunindex]⟩
          funext start o
          simp only [txUndoWrites, apply_append]
          rw [apply_restores hfills (hall o), apply_restores (fills_undoCoins _ _) (hall o)]
    refine ⟨?_, ?_⟩
    · funext start
      rw [undoWrites, apply_append, hwrites, htx.1, ← apply_append]
      rfl
    · rw [unindexTxs, hindex, htx.2]
      rfl

/-- With distinct inputs every record has its height. -/
theorem completeTxs_of_nodup (hnd : ∀ tx ∈ txs, tx.inputs.Nodup) :
    completeTxs nHeight start txs (blockUndos nHeight utxo txs) =
      some (blockUndos nHeight utxo txs) := by
  induction txs generalizing utxo with
  | nil => rfl
  | cons tx rest ih =>
    rw [forall_mem_cons] at hchecked hnd
    rw [blockUndos, completeTxs,
      ih (hsound.afterTx hheight hchecked.1) hchecked.2 hfits.2 hnd.2]
    cases hcbase : tx.isCoinBase with
    | true => simp [completeTx]
    | false =>
      have hins : tx.inputs = tx.prevouts := by simp [inputs, hcbase]
      have hheights : ∀ coin ∈ undoCoins utxo tx.inputs, coin.nHeight ≠ 0 := by
        rw [undoCoins_of_nodup hnd.1 hfits.1.inputs]
        intro coin hcoin
        obtain ⟨o, -, ho⟩ := mem_filterMap.1 hcoin
        exact (hsound o coin ho).height
      rw [hins] at hheights ⊢
      have hlen : tx.prevouts.length = tx.vin.length := length_map _
      simp [completeTx, hlen, completeInputs_of_height (length_undoCoins _ _) hheights]

/-- A clean run has distinct inputs. With these it is clean on the coins the transactions left. -/
theorem disconnectTxs_fClean (hwf : s.view.Wf) (hgoing : s.failed = false)
    (hrun : disconnectTxs options nHeight i txs (blockUndos nHeight utxo txs) s = .ok s')
    (hend : s'.failed = false) :
    (s'.fClean = true → ∀ tx ∈ txs, tx.inputs.Nodup) ∧
      (s.view.utxo = afterTxs nHeight utxo txs → (∀ tx ∈ txs, tx.inputs.Nodup) →
        s.fClean = true → s'.fClean = true) := by
  induction txs generalizing i utxo s' with
  | nil =>
    cases hrun
    simp
  | cons tx rest ih =>
    have hundos : ∀ txundo, some txundo ∈ blockUndos nHeight utxo (tx :: rest) →
        ∀ coin ∈ txundo.vprevout, coin.out.scriptPubKey.isUnspendable = false :=
      fun txundo hmem coin hcoin => (of_mem_blockUndos hsound hheight hchecked hmem coin hcoin).2
    rw [forall_mem_cons] at hchecked
    have hsound' := hsound.afterTx hheight hchecked.1
    rw [blockUndos] at hrun hundos
    simp only [disconnectTxs, bind_ok_iff] at hrun
    obtain ⟨mid, hrest, hfst⟩ := hrun
    have hends := disconnectTxs_spec options nHeight (i + 1)
      (fun txundo hmem => hundos txundo (mem_cons_of_mem _ hmem)) hwf hgoing rest
    rw [hrest] at hends
    cases hends with
    | failed hnone hfail hlog =>
      simp only [disconnectTx, hfail, if_true, Except.ok.injEq] at hfst
      rw [← hfst, hfail] at hend
      cases hend
    | undone hlater hmid hlog _ =>
      obtain ⟨hback, hforth⟩ := (disconnectTx_spec options nHeight i tx (fun txundo hundo =>
        hundos txundo (hundo ▸ mem_cons_self)) hlog.wf hmid).2 s' hfst hend
      obtain ⟨hpre, hafter⟩ := ih hsound' hchecked.2 hfits.2 hrest hmid
      constructor
      · intro hclean
        obtain ⟨hcleanMid, hhead⟩ := hback hclean
        refine forall_mem_cons.2 ⟨?_, hpre hcleanMid⟩
        cases hcbase : tx.isCoinBase with
        | true => simp [inputs, hcbase]
        | false => simpa [inputs, hcbase] using hhead (by simp [hcbase])
      · intro hutxo hnd hs
        rw [forall_mem_cons] at hnd
        -- the later transactions are undone, so the map is the one `tx` left
        have hleft : mid.view.utxo = afterTx nHeight utxo tx := by
          rw [completeTxs_of_nodup hsound' hheight hchecked.2 hfits.2 hnd.2] at hlater
          cases hlater
          rw [hlog.utxo, hutxo]
          exact apply_undoWrites hfits.2
        refine hforth ?_ ?_ (hafter hutxo hnd.2 hs)
        · intro write hwrite
          rw [hleft, afterTx, writes, apply_append,
            apply_of_mem (tx.nodup_keys_creates nHeight) hwrite]
        · intro hsome
          have hcbase : tx.isCoinBase = false := by
            cases hcbase : tx.isCoinBase with
            | false => rfl
            | true => simp [hcbase] at hsome
          have hins : tx.inputs = tx.prevouts := by simp [inputs, hcbase]
          refine ⟨hins ▸ hnd.1, fun p hp => ?_⟩
          rw [hleft, apply_erases_afterTx hfits.1, spends, hins]
          exact apply_erases_of_mem hp utxo

end Records

/-- The undo file holds what the block takes from `utxo`. -/
structure UndoRecorded (store : BlockStore) (block : CBlock) (pindex : CBlockIndex)
    (utxo : UtxoMap) (vtxundo : List CTxUndo) : Prop where
  sound : Sound utxo
  height : pindex.nHeight ≠ 0
  checked : ∀ tx ∈ block.vtx, tx.Checked
  fits : TxsFit pindex.nHeight utxo block.vtx
  undo : store.undo pindex = some ⟨vtxundo⟩
  undos_eq : none :: vtxundo.map some = blockUndos pindex.nHeight utxo block.vtx

@[simp]
theorem length_blockUndos (nHeight : ℕ) (utxo : UtxoMap) (txs : List CTransaction) :
    (blockUndos nHeight utxo txs).length = txs.length := by
  induction txs generalizing utxo with
  | nil => rfl
  | cons tx rest ih => simp [blockUndos, ih]

namespace UndoRecorded

variable {vtxundo : List CTxUndo} (hrec : UndoRecorded store block pindex utxo vtxundo)

include hrec

theorem of_mem : ∀ blockUndo, store.undo pindex = some blockUndo →
    ∀ txundo ∈ blockUndo.vtxundo, ∀ coin ∈ txundo.vprevout,
      coin.isSpent = false ∧ coin.out.scriptPubKey.isUnspendable = false := by
  intro blockUndo hundo txundo hmem
  rw [hrec.undo] at hundo
  cases hundo
  refine of_mem_blockUndos hrec.sound hrec.height hrec.checked ?_
  rw [← hrec.undos_eq]
  simpa using hmem

theorem completeUndo_eq (start : UtxoMap) : completeUndo store block pindex start =
    completeTxs pindex.nHeight start block.vtx (blockUndos pindex.nHeight utxo block.vtx) := by
  have hlen := congrArg List.length hrec.undos_eq
  simp only [length_cons, length_map, length_blockUndos] at hlen
  simp [completeUndo, hrec.undo, hlen, hrec.undos_eq]

/-- Disconnecting the block on any coins undoes it with the records of the file, or gives up. -/
theorem disconnected (hwf : view.Wf)
    (hdone : disconnectBlock options store block pindex view = .ok done) :
    view.base.Reads done.view.base ∧ (done.result ≠ .failed →
      BlockDisconnected options store block pindex (none :: vtxundo.map some) view done) := by
  obtain ⟨hreads, ⟨-, hfail, -⟩ | ⟨undos, hundos, hdiscd⟩⟩ := disconnectBlock_spec hwf
    (fun blockUndo hundo txundo htx coin hcoin =>
      (hrec.of_mem blockUndo hundo txundo htx coin hcoin).2) hdone
  · exact ⟨hreads, fun hres => absurd hfail hres⟩
  · rw [hrec.completeUndo_eq] at hundos
    obtain ⟨hwrites, hindex⟩ :=
      completeTxs_blockUndos hrec.sound hrec.height hrec.checked hrec.fits hundos 0
    refine ⟨hreads, fun hres => ⟨hres, ?_, hdiscd.wf, hdiscd.hashBlock, ?_⟩⟩
    · rw [hrec.undos_eq, hdiscd.utxo, hwrites]
    · rw [hrec.undos_eq, hdiscd.store_eq, hindex]

/-- With distinct inputs the block is disconnected on any coins. -/
theorem disconnects (options : IndexOptions) (hwf : view.Wf)
    (hnd : ∀ tx ∈ block.vtx, tx.inputs.Nodup) :
    ∃ done, disconnectBlock options store block pindex view = .ok done ∧
      done.result ≠ .failed := by
  have hspendable := fun blockUndo hundo txundo htx coin hcoin =>
    (hrec.of_mem blockUndo hundo txundo htx coin hcoin).2
  obtain ⟨done, hdone⟩ := disconnectBlock_ok hwf hspendable options
    (fun blockUndo hundo txundo htx coin hcoin =>
      (hrec.of_mem blockUndo hundo txundo htx coin hcoin).1) block
  refine ⟨done, hdone, ?_⟩
  obtain ⟨-, ⟨hnone, -⟩ | ⟨undos, -, hdiscd⟩⟩ := disconnectBlock_spec hwf hspendable hdone
  · rw [hrec.completeUndo_eq,
      completeTxs_of_nodup hrec.sound hrec.height hrec.checked hrec.fits hnd] at hnone
    cases hnone
  · exact hdiscd.result

/-- A clean result tells that the inputs are distinct. Distinct inputs give one on the coins the
block left. -/
theorem result_eq_ok (hwf : view.Wf)
    (hdone : disconnectBlock options store block pindex view = .ok done)
    (hres : done.result ≠ .failed) :
    (done.result = .ok → ∀ tx ∈ block.vtx, tx.inputs.Nodup) ∧
      (view.utxo = afterTxs pindex.nHeight utxo block.vtx →
        (∀ tx ∈ block.vtx, tx.inputs.Nodup) → done.result = .ok) := by
  rcases of_disconnectBlock hdone with ⟨hfail, -⟩ | ⟨blockUndo, s, hundo, -, hs, hgoing, rfl⟩
  · exact absurd hfail hres
  · rw [hrec.undo] at hundo
    cases hundo
    rw [hrec.undos_eq] at hs
    obtain ⟨hback, hforth⟩ := disconnectTxs_fClean hrec.sound hrec.height hrec.checked hrec.fits
      (s := ⟨view, true, false, .empty⟩) hwf rfl hs hgoing
    constructor
    · intro hok
      refine hback ?_
      cases hclean : s.fClean with
      | true => rfl
      | false => simp [hclean] at hok
    · intro hutxo hnd
      simp [hforth hutxo hnd rfl]

end UndoRecorded

end

/-- `ConnectBlock` writes undo data only for a block on top of another. -/
theorem ne_genesis_of_undo_written {ctx : ValidationContext} {store store' : BlockStore}
    {block : CBlock} {pindex : CBlockIndex} {view view' : CCoinsViewCache}
    (hconn : connectBlock ctx store block pindex view false = .ok (view', store'))
    (hfst : store.undo pindex = none) (hwritten : store'.undo pindex ≠ none) :
    block.getHash ≠ ctx.params.hashGenesisBlock := by
  intro hgen
  rcases (of_connectBlock hconn).2.2.2 with ⟨-, -, rfl⟩ | ⟨hne, -⟩
  · exact hwritten hfst
  · exact hne hgen

/-- The coins of a view above the genesis can be put back. -/
theorem UtxoView.sound (view : UtxoView)
    (hheight : ∀ o coin, view.cache.utxo o = some coin → 0 < coin.nHeight) :
    Sound view.cache.utxo := by
  intro o coin hcoin
  exact ⟨(hheight o coin hcoin).ne', CCoinsView.utxo_unspent hcoin, view.spendable o coin hcoin⟩

/-- A block that lists no input twice, makes no coin that exists and is
connected on coins above the genesis block is disconnected cleanly with the
undo data connecting wrote, and the coins and the best block are those from
before. -/
theorem disconnectBlock_inverts_connectBlock (view : UtxoView) {ctx : ValidationContext}
    {store store' : BlockStore} {block : CBlock} {pindex : CBlockIndex} {view' : CCoinsViewCache}
    (hconnect : connectBlock ctx store block pindex view.cache false = .ok (view', store'))
    (hfirst : store.undo pindex = none) (hwritten : store'.undo pindex ≠ none)
    (hnodup : ∀ tx ∈ block.vtx, tx.prevouts.Nodup)
    (hfresh : FreshOutputs pindex.nHeight view.cache.utxo block.vtx)
    (hheight : ∀ o coin, view.cache.utxo o = some coin → 0 < coin.nHeight) :
    ∃ done, disconnectBlock ctx.options store' block pindex view' = .ok done ∧
      done.result = .ok ∧ done.view.utxo = view.cache.utxo ∧
      done.view.layer.hashBlock = view.cache.getBestBlock.1 := by
  obtain ⟨pprev, hprev, hblk⟩ := connectBlock_spec view.wf
    (ne_genesis_of_undo_written hconnect hfirst hwritten) (fun _ _ => Or.inr hfresh) hconnect
  have hins : ∀ tx ∈ block.vtx, tx.inputs.Nodup := fun tx htx => nodup_inputs (hnodup tx htx)
  have hpos : pindex.nHeight ≠ 0 := by
    cases pindex with
    | genesis hash time => cases hprev
    | child pprev hash time => exact Nat.succ_ne_zero _
  obtain ⟨blockundo, hwrote, hundos⟩ := hblk.undo
  have hrec : UndoRecorded store' block pindex view.cache.utxo blockundo.reread.vtxundo := by
    refine ⟨view.sound hheight, hpos, hblk.checked.txs, hblk.fits, ?_, hundos (Or.inl hins)⟩
    rw [hwrote]
    simp [BlockStore.writeUndoDataForBlock, hfirst]
  obtain ⟨done, hdone, hres⟩ := hrec.disconnects ctx.options hblk.wf hins
  have hdiscd := (hrec.disconnected hblk.wf hdone).2 hres
  refine ⟨done, hdone, (hrec.result_eq_ok hblk.wf hdone hres).2 hblk.utxo hins, ?_, ?_⟩
  · rw [hdiscd.utxo, hblk.utxo, hrec.undos_eq]
    exact apply_undoWrites hblk.fits
  · rw [hdiscd.hashBlock, hblk.best, CBlockIndex.hashPrevBlock, hprev]
    rfl

namespace UndoInverseWitness

theorem hashOf_ten_ne_null : hashOf 10 ≠ BaseBlob.null 32 := by decide

theorem hashOf_eleven_ne_null : hashOf 11 ≠ BaseBlob.null 32 := by decide

def checks : OpaqueChecks where
  checkProofOfWork _ := true
  blockMerkleRoot block := (block.hashMerkleRoot, false)
  txSize _ := 100
  blockSize _ := 1000
  legacySigOpCount _ := 1
  sequenceLocks _ _ _ := true
  transactionSigOpCost _ _ _ := 4
  checkInputs _ _ _ := none
  checkQueue _ _ := true

/-- All indexes on, and BIP34 far away as on regtest. -/
def ctx : ValidationContext where
  params := ⟨hashOf 1, 150, 100000000, BaseBlob.null 32⟩
  checks := checks
  options := ⟨true, true, true⟩

def payToPublicKeyHash (byte : UInt8) : CScript :=
  [opDup, opHash160, 0x14] ++ List.replicate 20 byte ++ [opEqualVerify, opCheckSig]

/-- A coinbase that pays `amount` to one key. -/
def coinbaseTx (byte : UInt8) (hbyte : hashOf byte ≠ BaseBlob.null 32) (amount : CAmount) :
    CTransaction :=
  ⟨1, [⟨⟨BaseBlob.null 32, nullIndex⟩, [0x51, byte], 0, []⟩],
    [⟨amount, payToPublicKeyHash byte⟩], 0, hashOf byte, hbyte⟩

def spendTx (byte : UInt8) (hbyte : hashOf byte ≠ BaseBlob.null 32)
    (prevouts : List COutPoint) (vout : List CTxOut) : CTransaction :=
  ⟨1, prevouts.map fun prevout => ⟨prevout, [], 0, []⟩, vout, 0, hashOf byte, hbyte⟩

def genesis : CBlockIndex := .genesis (hashOf 1) 0

def tip : CBlockIndex := .child genesis (hashOf 2) 600

def pindex : CBlockIndex := .child tip (hashOf 3) 1200

/-- One coin, made by the block below. -/
def database : CCoinsViewDB where
  coins := (∅ : AList fun _ : COutPoint => Coin).insert ⟨hashOf 7, 0⟩
    ⟨⟨50, payToPublicKeyHash 7⟩, false, 1⟩
  bestBlock := some (hashOf 2)
  headBlocks := none
  batchSize := 16777216
  opSize := fun _ => 64

theorem database_coin {o : COutPoint} {coin : Coin} (hcoin : database.utxo o = some coin) :
    coin = ⟨⟨50, payToPublicKeyHash 7⟩, false, 1⟩ := by
  by_cases heq : o = ⟨hashOf 7, 0⟩
  · subst heq
    exact (Option.some.inj (Eq.trans (by decide +kernel) hcoin)).symm
  · rw [CCoinsViewDB.utxo, database, AList.lookup_insert_ne heq] at hcoin
    cases hcoin

def view : UtxoView where
  cache := .ofBase (.db database)
  wf := CCoinsViewCache.ofBase_wf trivial
  spendable := by
    intro o coin hcoin
    rw [database_coin hcoin]
    decide

/-- Spends the coin and one of its own outputs, and has an unspendable output. -/
def block : CBlock where
  hash := hashOf 3
  hashMerkleRoot := hashOf 4
  nTime := 1200
  vtx := [coinbaseTx 10 hashOf_ten_ne_null 5000000010,
    spendTx 11 hashOf_eleven_ne_null [⟨hashOf 7, 0⟩]
      [⟨20, payToPublicKeyHash 8⟩, ⟨0, [opReturn]⟩, ⟨20, payToPublicKeyHash 9⟩],
    spendTx 12 (by decide) [⟨hashOf 11, 0⟩] [⟨20, payToPublicKeyHash 12⟩]]

def store : BlockStore := ⟨fun _ => none, fun _ => none, .empty⟩

theorem fresh_block : FreshOutputs pindex.nHeight view.cache.utxo block.vtx := by
  intro tx htx o ho
  have hall : ∀ tx ∈ block.vtx, ∀ o ∈ WriteLog.keys (tx.creates pindex.nHeight),
      view.cache.utxo o = none := by decide +kernel
  exact hall tx htx o ho

theorem disconnectBlock_inverts_connectBlock_sample :
    ∃ view' store', connectBlock ctx store block pindex view.cache false =
        .ok (view', store') ∧
      ∃ done, disconnectBlock ctx.options store' block pindex view' = .ok done ∧
        done.result = .ok ∧ done.view.utxo = view.cache.utxo ∧
        done.view.layer.hashBlock = view.cache.getBestBlock.1 := by
  have hrun : (match connectBlock ctx store block pindex view.cache false with
      | .ok connected => (connected.2.undo pindex).isSome
      | .error _ => false) = true := by decide +kernel
  rcases hconn : connectBlock ctx store block pindex view.cache false with
    failure | ⟨view', store'⟩
  · rw [hconn] at hrun
    cases hrun
  · rw [hconn] at hrun
    refine ⟨view', store', rfl, disconnectBlock_inverts_connectBlock view hconn rfl ?_
      (by decide +kernel) fresh_block ?_⟩
    · exact Option.isSome_iff_ne_none.1 hrun
    · intro o coin hcoin
      rw [database_coin hcoin]
      decide

end UndoInverseWitness

end Catoshi
