/-
What disconnecting a block does to the unspent coins, whatever the view held.
-/
import Catoshi.ConnectSpec
import Catoshi.Disconnect

namespace Catoshi

open Outcome CCoinsViewCache.Writes CCoinsViewCache CTransaction WriteLog IndexChanges
open List hiding keys keys_append append_assoc

/-- The writes that put coins back, from the last on. -/
def restores : List COutPoint → List Coin → List (COutPoint × Option Coin)
  | out :: outs, coin :: coins => restores outs coins ++ [(out, some coin)]
  | _, _ => []

def txUndoWrites (nHeight : ℕ) (tx : CTransaction) (undo : Option CTxUndo) :
    List (COutPoint × Option Coin) :=
  WriteLog.erases (WriteLog.keys (tx.creates nHeight)) ++
    match undo with
    | none => []
    | some txundo => restores tx.prevouts txundo.vprevout

def undoWrites (nHeight : ℕ) :
    List CTransaction → List (Option CTxUndo) → List (COutPoint × Option Coin)
  | tx :: txs, undo :: undos => undoWrites nHeight txs undos ++ txUndoWrites nHeight tx undo
  | _, _ => []

/-- The index changes that take the inputs back. -/
def unindexInputs (options : IndexOptions) (nHeight i : ℕ) (hash : Uint256) :
    ℕ → List COutPoint → List Coin → IndexChanges
  | j, out :: outs, coin :: coins =>
    unindexInputs options nHeight i hash (j + 1) outs coins ++
      unindexInput options nHeight i hash j out coin.out coin.nHeight
  | _, _, _ => .empty

def unindexTx (options : IndexOptions) (nHeight i : ℕ) (tx : CTransaction)
    (undo : Option CTxUndo) : IndexChanges :=
  unindexOutputs options nHeight i tx.getHash 0 tx.vout ++
    match undo with
    | none => .empty
    | some txundo => unindexInputs options nHeight i tx.getHash 0 tx.prevouts txundo.vprevout

def unindexTxs (options : IndexOptions) (nHeight : ℕ) :
    ℕ → List CTransaction → List (Option CTxUndo) → IndexChanges
  | i, tx :: txs, undo :: undos =>
    unindexTxs options nHeight (i + 1) txs undos ++ unindexTx options nHeight i tx undo
  | _, _, _ => .empty

/-- The first unspent output of a transaction. -/
def firstOutput (utxo : UtxoMap) (txid : Uint256) : Option Coin :=
  (range' 0 maxOutputsPerBlock).findSome? fun n => utxo ⟨txid, n⟩

/-- The coin of an undo record. Without a height, height and coinbase flag are those of an unspent
output of its transaction. -/
def completeCoin (utxo : UtxoMap) (txid : Uint256) (undo : Coin) : Option Coin :=
  if undo.nHeight = 0 then
    (firstOutput utxo txid).map fun found => ⟨undo.out, found.fCoinBase, found.nHeight⟩
  else
    some undo

/-- The coins of inputs, each completed when the inputs after it are back. -/
def completeInputs (utxo : UtxoMap) : List COutPoint → List Coin → Option (List Coin)
  | out :: outs, undo :: undos => do
      let coins ← completeInputs utxo outs undos
      let coin ← completeCoin (WriteLog.apply (restores outs coins) utxo) out.hash undo
      return coin :: coins
  | _, _ => some []

def completeTx (nHeight : ℕ) (utxo : UtxoMap) (tx : CTransaction) :
    Option CTxUndo → Option (Option CTxUndo)
  | none => some none
  | some txundo =>
    if txundo.vprevout.length ≠ tx.vin.length then
      none
    else do
      let coins ← completeInputs (WriteLog.apply (WriteLog.erases (WriteLog.keys
        (tx.creates nHeight))) utxo) tx.prevouts txundo.vprevout
      return some ⟨coins⟩

def completeTxs (nHeight : ℕ) (utxo : UtxoMap) :
    List CTransaction → List (Option CTxUndo) → Option (List (Option CTxUndo))
  | tx :: txs, undo :: undos => do
      let later ← completeTxs nHeight utxo txs undos
      let first ← completeTx nHeight (WriteLog.apply (undoWrites nHeight txs later) utxo) tx undo
      return first :: later
  | _, _ => some []

/-- The undo data of a block made complete with the coins there are, if it is there, has the right
sizes and every record without a height finds another output of its transaction. -/
def completeUndo (store : BlockStore) (block : CBlock) (pindex : CBlockIndex) (utxo : UtxoMap) :
    Option (List (Option CTxUndo)) :=
  match store.undo pindex with
  | none => none
  | some blockUndo =>
    if blockUndo.vtxundo.length + 1 ≠ block.vtx.length then
      none
    else
      completeTxs pindex.nHeight utxo block.vtx (none :: blockUndo.vtxundo.map some)

/-- How undoing a part of a block ends: at a spent coin, without the data to complete a record, or
with the writes and index changes of the completed ones. -/
inductive DisconnectState.Ends {α : Type} (s : DisconnectState) (spent : Prop)
    (completed : Option α) (log : α → List (COutPoint × Option Coin)) (index : α → IndexChanges) :
    Except Fault DisconnectState → Prop
  | fault {fault : Fault} (hspent : spent) : s.Ends spent completed log index (.error fault)
  | failed {s' : DisconnectState} {writes : List (COutPoint × Option Coin)}
      (hnone : completed = none) (hfail : s'.failed = true) (hlog : s.view.Writes writes s'.view) :
      s.Ends spent completed log index (.ok s')
  | undone {s' : DisconnectState} {coins : α} (hcoins : completed = some coins)
      (hgoing : s'.failed = false) (hlog : s.view.Writes (log coins) s'.view)
      (hindex : s'.index = s.index ++ index coins) : s.Ends spent completed log index (.ok s')

variable {i j nHeight : ℕ} {undo : Coin} {block : CBlock} {utxo : UtxoMap} {out : COutPoint}
  {store : BlockStore} {pindex : CBlockIndex} {options : IndexOptions} {tx : CTransaction}
  {outs : List COutPoint} {s s' : DisconnectState} {view : CCoinsViewCache}
  {txs : List CTransaction}
  {o : COutPoint} {hash : Uint256} {undos coins : List Coin} {coin : Coin}
  {blockUndo : CBlockUndo} {done : Disconnected}

theorem keys_restores_subset (hmem : o ∈ keys (restores outs coins)) :
    o ∈ outs := by
  induction outs generalizing coins with
  | nil => simp [restores] at hmem
  | cons out outs ih =>
    cases coins with
    | nil => simp [restores] at hmem
    | cons coin coins =>
      simp only [restores, keys_append, mem_append] at hmem
      rcases hmem with hrest | hhead
      · exact mem_cons_of_mem out (ih hrest)
      · simp at hhead
        exact hhead ▸ mem_cons_self

theorem accessByTxidFrom_spec (hwf : view.Wf) (txid : Uint256) (n left : ℕ) :
    (accessByTxidFrom view txid n left).1.unspent? =
        (range' n left).findSome? (fun n => view.utxo ⟨txid, n⟩) ∧
      view.Writes [] (accessByTxidFrom view txid n left).2 := by
  induction left generalizing view n with
  | zero => exact ⟨rfl, refl hwf⟩
  | succ left ih =>
    obtain ⟨hval, hreads⟩ := accessCoin_spec hwf ⟨txid, n⟩
    rcases haccess : view.accessCoin ⟨txid, n⟩ with ⟨alternate, next⟩
    rw [haccess] at hval hreads
    simp only [accessByTxidFrom, haccess, range'_succ, findSome?_cons, ← hval]
    cases hspent : alternate.isSpent with
    | false => simpa [Coin.unspent?, hspent] using hreads
    | true =>
      obtain ⟨hfound, hmore⟩ := ih hreads.wf (n + 1)
      rw [hreads.utxo_nil] at hfound
      simp only [Coin.unspent?_of_spent hspent, if_true]
      exact ⟨hfound, hreads.trans hmore⟩

theorem undoMetadata_spec (hwf : view.Wf) (undo : Coin) (txid : Uint256) :
    (undoMetadata undo view txid).1 = completeCoin view.utxo txid undo ∧
      view.Writes [] (undoMetadata undo view txid).2 := by
  obtain ⟨hfound, hreads⟩ := accessByTxidFrom_spec hwf txid 0 maxOutputsPerBlock
  unfold undoMetadata completeCoin firstOutput
  rw [← hfound, accessByTxid]
  split
  · cases hspent : (accessByTxidFrom view txid 0 maxOutputsPerBlock).1.isSpent with
    | true => simpa [Coin.unspent?, hspent] using hreads
    | false => simpa [Coin.unspent?, hspent] using hreads
  · exact ⟨rfl, refl hwf⟩

theorem completeCoin_out {txid : Uint256} (hcoin : completeCoin utxo txid undo = some coin) :
    coin.out = undo.out := by
  unfold completeCoin at hcoin
  split at hcoin
  · obtain ⟨found, -, rfl⟩ := Option.map_eq_some_iff.1 hcoin
    rfl
  · rw [Option.some.inj hcoin]

/-- `ApplyTxInUndo` puts a completed coin back, noting one already there. -/
theorem applyTxInUndo_spec (hwf : view.Wf)
    (hscr : undo.out.scriptPubKey.isUnspendable = false) (out : COutPoint) :
    (∃ fault, applyTxInUndo undo view out = .error fault) ∧ undo.isSpent = true ∨
      ∃ res restored view', applyTxInUndo undo view out = .ok (res, restored, view') ∧
        (completeCoin view.utxo out.hash undo = none ∧ res = .failed ∧ view.Writes [] view' ∨
          completeCoin view.utxo out.hash undo = some restored ∧
            res = (if (view.utxo out).isSome then .unclean else .ok) ∧
            view.Writes [(out, some restored)] view') := by
  obtain ⟨hf, hasked⟩ := haveCoin_spec hwf out
  obtain ⟨hmeta, hreads⟩ := undoMetadata_spec hasked.wf undo out.hash
  rw [hasked.utxo_nil] at hmeta
  rcases hrun : undoMetadata undo (view.haveCoin out).2 out.hash with ⟨_ | coin, next⟩
  · rw [hrun] at hmeta hreads
    exact .inr ⟨.failed, undo, next, by simp [applyTxInUndo, hrun],
      .inl ⟨hmeta.symm, rfl, hasked.trans hreads⟩⟩
  · rw [hrun] at hmeta hreads
    have hout := completeCoin_out hmeta.symm
    have hall := hasked.trans hreads
    cases hspent : coin.isSpent with
    | true =>
      refine .inl ⟨?_, ?_⟩
      · simp [applyTxInUndo, hrun, addCoin, CCoinsCacheLayer.addCoin, hspent]
      · rwa [Coin.isSpent, hout] at hspent
    | false =>
      have hsafe : (view.haveCoin out).1 = true ∨ next.utxo out = none := by
        rw [hf, hall.utxo]
        cases hno : view.utxo out <;> simp [hno]
      obtain ⟨view', hadd⟩ := addCoin_ok hspent hsafe
      have hwrites := hall.trans
        (addCoin_writes hall.wf (fun _ => hsafe.imp_right known_of_utxo_none) hadd)
      have hlog : addWrites out coin = [(out, some coin)] := by
        rw [addWrites, hout, hscr]
        rfl
      rw [hlog] at hwrites
      refine .inr ⟨_, coin, view', ?_, .inr ⟨hmeta.symm, rfl, hwrites⟩⟩
      rw [hf] at hadd
      simp only [applyTxInUndo, hrun, Bool.not_not, hf, hadd]
      cases (view.utxo out).isSome <;> rfl

theorem addressEvent_off (hoff : options.fAddressIndex = false) (script : CScript) (nHeight i : ℕ)
    (txhash : Uint256) (index : ℕ) (spending : Bool) (amount : CAmount) :
    addressEvent options script nHeight i txhash index spending amount = [] := by
  unfold addressEvent
  split <;> simp [hoff]

theorem unspentEvent_off (hoff : options.fAddressIndex = false) (script : CScript)
    (outpoint : COutPoint) (value : CAddressUnspentValue) :
    unspentEvent options script outpoint value = [] := by
  unfold unspentEvent
  split <;> simp [hoff]

/-- Without the address index the restored script is not looked at. -/
theorem unindexInput_off (hoff : options.fAddressIndex = false) (nHeight i : ℕ) (hash : Uint256)
    (j : ℕ) (outpoint : COutPoint) (first second : CTxOut) (undoHeight : ℕ) :
    unindexInput options nHeight i hash j outpoint first undoHeight =
      unindexInput options nHeight i hash j outpoint second undoHeight := by
  simp [unindexInput, addressEvent_off hoff, unspentEvent_off hoff]

/-- What restoring the coin of an input does, and that it notes one already there. -/
theorem disconnectInput_spec (options : IndexOptions) (nHeight i : ℕ) (hash : Uint256) (j : ℕ)
    (hscr : undo.out.scriptPubKey.isUnspendable = false) (hwf : s.view.Wf)
    (hgoing : s.failed = false) (out : COutPoint) :
    s.Ends (undo.isSpent = true) (completeCoin s.view.utxo out.hash undo)
        (fun coin => [(out, some coin)])
        (fun coin => unindexInput options nHeight i hash j out coin.out coin.nHeight)
        (disconnectInput options nHeight i hash j out undo s) ∧
      ∀ s', disconnectInput options nHeight i hash j out undo s = .ok s' → s'.failed = false →
        s'.fClean = (s.fClean && (s.view.utxo out).isNone) := by
  rcases applyTxInUndo_spec hwf hscr out with ⟨⟨fault, happly⟩, hspent⟩ |
    ⟨res, restored, view', happly, ⟨hnone, rfl, hlog⟩ | ⟨hcoin, hres, hlog⟩⟩
  · have hrun : disconnectInput options nHeight i hash j out undo s = .error fault := by
      simp [disconnectInput, hgoing, happly]
    rw [hrun]
    exact ⟨.fault hspent, nofun⟩
  · have hrun : disconnectInput options nHeight i hash j out undo s =
        .ok { s with view := view', failed := true } := by
      simp [disconnectInput, hgoing, happly]
    rw [hrun]
    refine ⟨.failed hnone rfl hlog, ?_⟩
    rintro s' ⟨⟩ hgoing'
    cases hgoing'
  · have hutxo : view'.utxo out = some restored := by
      rw [hlog.utxo]
      exact Function.update_self _ _ _
    -- the coin read back is the one just restored
    obtain ⟨accessed, haccessed, hreads, hindex⟩ : ∃ accessed : Coin × CCoinsViewCache,
        (if options.fAddressIndex then view'.accessCoin out else (Coin.empty, view')) =
          accessed ∧ view'.Writes [] accessed.2 ∧
        unindexInput options nHeight i hash j out accessed.1.out restored.nHeight =
          unindexInput options nHeight i hash j out restored.out restored.nHeight := by
      cases hidx : options.fAddressIndex with
      | false =>
        exact ⟨_, rfl, refl hlog.wf, unindexInput_off hidx nHeight i hash j out _ _ _⟩
      | true =>
        obtain ⟨hval, hreads⟩ := accessCoin_spec hlog.wf out
        rw [hutxo, Coin.unspent?_eq_some_iff] at hval
        exact ⟨view'.accessCoin out, rfl, hreads, by rw [hval.2]⟩
    have hrun : disconnectInput options nHeight i hash j out undo s = .ok { s with
        view := accessed.2
        fClean := s.fClean && (s.view.utxo out).isNone
        index := s.index ++
          unindexInput options nHeight i hash j out accessed.1.out restored.nHeight } := by
      cases hpresent : s.view.utxo out <;>
        simp [disconnectInput, hgoing, happly, haccessed, hres, hpresent]
    rw [hrun]
    refine ⟨.undone hcoin hgoing (hlog.trans hreads) (by rw [hindex]), ?_⟩
    rintro s' ⟨⟩ -
    rfl

theorem disconnectInputs_spec (options : IndexOptions) (nHeight i : ℕ) (hash : Uint256) (j : ℕ)
    (hundos : ∀ undo ∈ undos, undo.out.scriptPubKey.isUnspendable = false) (hwf : s.view.Wf)
    (hgoing : s.failed = false) (outs : List COutPoint) :
    s.Ends (∃ undo ∈ undos, undo.isSpent = true) (completeInputs s.view.utxo outs undos)
      (restores outs) (unindexInputs options nHeight i hash j outs)
      (disconnectInputs options nHeight i hash j outs undos s) := by
  induction outs generalizing j undos with
  | nil => exact .undone rfl hgoing (refl hwf) (by simp [unindexInputs])
  | cons out outs ih =>
    cases undos with
    | nil => exact .undone rfl hgoing (refl hwf) (by simp [unindexInputs])
    | cons undo undos =>
      rw [forall_mem_cons] at hundos
      have hrest := ih (j + 1) hundos.2
      rw [disconnectInputs]
      generalize disconnectInputs options nHeight i hash (j + 1) outs undos s = run at hrest ⊢
      cases hrest with
      | fault hspent => exact .fault (exists_mem_cons_of_exists hspent)
      | @failed mid _ hnone hfail hlog =>
        have hskip : disconnectInput options nHeight i hash j out undo mid = .ok mid := by
          simp [disconnectInput, hfail]
        change s.Ends _ _ _ _ (disconnectInput options nHeight i hash j out undo mid)
        rw [hskip]
        refine .failed ?_ hfail hlog
        simp [completeInputs, hnone]
      | @undone mid coins hcoins hgoing' hlog hindex =>
        have hfst := (disconnectInput_spec options nHeight i hash j hundos.1 hlog.wf hgoing' out).1
        rw [hlog.utxo] at hfst
        change s.Ends _ _ _ _ (disconnectInput options nHeight i hash j out undo mid)
        generalize disconnectInput options nHeight i hash j out undo mid = run at hfst ⊢
        cases hfst with
        | fault hspent => exact .fault ⟨undo, mem_cons_self, hspent⟩
        | failed hnone hfail hmore =>
          refine .failed ?_ hfail (hlog.trans hmore)
          simp [completeInputs, hcoins, hnone]
        | @undone _ coin hcoin hgoing hmore hidx =>
          have hall : completeInputs s.view.utxo (out :: outs) (undo :: undos) =
              some (coin :: coins) := by
            simp [completeInputs, hcoins, hcoin]
          refine .undone hall hgoing (hlog.trans hmore) ?_
          rw [hidx, hindex, append_assoc]
          rfl

theorem length_completeInputs (hlen : undos.length = outs.length)
    (hcoins : completeInputs utxo outs undos = some coins) : coins.length = outs.length := by
  induction outs generalizing undos coins with
  | nil =>
    cases hcoins
    rfl
  | cons out outs ih =>
    cases undos with
    | nil => cases hlen
    | cons undo undos =>
      simp only [completeInputs, Option.bind_eq_bind, Option.bind_eq_some_iff] at hcoins
      obtain ⟨rest, hrest, coin, -, hcons⟩ := hcoins
      cases hcons
      exact congrArg (· + 1) (ih (Nat.succ.inj hlen) hrest)

/-- Every input is back after the restoring writes. -/
theorem isSome_apply_restores (hlen : coins.length = outs.length) (ho : o ∈ outs)
    (start : UtxoMap) : (apply (restores outs coins) start o).isSome := by
  induction outs generalizing coins with
  | nil => cases ho
  | cons out outs ih =>
    cases coins with
    | nil => cases hlen
    | cons coin coins =>
      rw [restores, apply_append, apply_cons, apply_nil]
      by_cases heq : o = out
      · rw [heq, Function.update_self]
        rfl
      · rw [Function.update_of_ne heq]
        exact ih (Nat.succ.inj hlen) ((mem_cons.1 ho).resolve_left heq)

/-- Restoring inputs is clean just if they are distinct and none was there. -/
theorem disconnectInputs_fClean (hlen : undos.length = outs.length)
    (hundos : ∀ undo ∈ undos, undo.out.scriptPubKey.isUnspendable = false) (hwf : s.view.Wf)
    (hgoing : s.failed = false)
    (hrun : disconnectInputs options nHeight i hash j outs undos s = .ok s')
    (hend : s'.failed = false) :
    s'.fClean = true ↔ s.fClean = true ∧ outs.Nodup ∧ ∀ o ∈ outs, s.view.utxo o = none := by
  induction outs generalizing j undos s' with
  | nil =>
    cases hrun
    simp
  | cons out outs ih =>
    cases undos with
    | nil => cases hlen
    | cons undo undos =>
      rw [forall_mem_cons] at hundos
      simp only [disconnectInputs, bind_ok_iff] at hrun
      obtain ⟨mid, hrest, hfst⟩ := hrun
      have hends := disconnectInputs_spec options nHeight i hash (j + 1) hundos.2 hwf hgoing outs
      rw [hrest] at hends
      cases hends with
      | failed hnone hfail hlog =>
        simp only [disconnectInput, hfail, if_true, Except.ok.injEq] at hfst
        rw [← hfst, hfail] at hend
        cases hend
      | @undone _ coins hcoins hmid hlog _ =>
        have hclean := (disconnectInput_spec options nHeight i hash j hundos.1 hlog.wf hmid
          out).2 s' hfst hend
        rw [hclean, Bool.and_eq_true, ih (Nat.succ.inj hlen) hundos.2 hrest hmid, hlog.utxo,
          nodup_cons, forall_mem_cons]
        have hlength := length_completeInputs (Nat.succ.inj hlen) hcoins
        by_cases hmem : out ∈ outs
        · have hsome := isSome_apply_restores hlength hmem s.view.utxo
          simp [hmem, Option.isSome_iff_ne_none.1 hsome]
        · have hkeys : out ∉ keys (restores outs coins) := fun hkey =>
            hmem (keys_restores_subset hkey)
          rw [apply_of_notMem hkeys]
          simp only [hmem, not_false_eq_true, true_and, Option.isNone_iff_eq_none]
          tauto

/-- What taking the outputs of a transaction back does. -/
theorem disconnectOutputs_spec {isCoinbase : Bool} {k : ℕ} {vout : List CTxOut} (hwf : s.view.Wf) :
    let s' := disconnectOutputs nHeight hash isCoinbase k vout s
    let created := createsFrom hash isCoinbase nHeight k vout
    s.view.Writes (erases (keys created)) s'.view ∧
      s'.failed = s.failed ∧ s'.index = s.index ∧ (s'.fClean = true → s.fClean = true) ∧
      ((∀ write ∈ created, s.view.utxo write.1 = write.2) → s'.fClean = s.fClean) := by
  induction vout generalizing k s with
  | nil => exact ⟨refl hwf, rfl, rfl, id, fun _ => rfl⟩
  | cons out rest ih =>
    cases hscr : out.scriptPubKey.isUnspendable with
    | true =>
      simp only [disconnectOutputs, hscr, if_true, createsFrom, addWrites, nil_append]
      exact ih hwf
    | false =>
      obtain ⟨hmoved, hspent⟩ := spendCoin_spec hwf ⟨hash, k⟩
      simp only [disconnectOutputs, hscr, Bool.false_eq_true, if_false, createsFrom, addWrites]
      obtain ⟨hwrites, hfail, hindex, hpre, hclean⟩ := ih
        (s := { s with
          view := (s.view.spendCoin ⟨hash, k⟩).2
          fClean := s.fClean && (s.view.spendCoin ⟨hash, k⟩).1.any
            (outputMatches nHeight isCoinbase out) }) hspent.wf
      refine ⟨hspent.trans hwrites, hfail, hindex,
        fun hafter => (Bool.and_eq_true_iff.1 (hpre hafter)).1, fun hall => ?_⟩
      have hhead : s.view.utxo ⟨hash, k⟩ = some ⟨out, isCoinbase, nHeight⟩ := hall _ mem_cons_self
      -- the coin moved out is the one the output made
      have hmatch : (s.view.spendCoin ⟨hash, k⟩).1 = some ⟨out, isCoinbase, nHeight⟩ := by
        rw [hhead] at hmoved
        rcases hcoin : (s.view.spendCoin ⟨hash, k⟩).1 with _ | coin
        · rw [hcoin] at hmoved
          cases hmoved
        · rw [hcoin, Option.bind_some, Coin.unspent?_eq_some_iff] at hmoved
          rw [hmoved.2]
      rw [hclean ?_, hmatch]
      · simp [outputMatches]
      · intro write hwrite
        have hge := mem_keys_createsFrom_ge (mem_map_of_mem hwrite)
        have hne : write.1 ≠ ⟨hash, k⟩ := by
          intro heq
          rw [heq] at hge
          simp at hge
        rw [hspent.utxo]
        exact (Function.update_of_ne hne _ _).trans (hall write (mem_cons_of_mem _ hwrite))

/-- What undoing one transaction does to the state. -/
theorem disconnectTx_spec (options : IndexOptions) (nHeight i : ℕ) (tx : CTransaction)
    {undo : Option CTxUndo} (hundos : ∀ txundo, undo = some txundo → ∀ coin ∈ txundo.vprevout,
      coin.out.scriptPubKey.isUnspendable = false) (hwf : s.view.Wf) (hgoing : s.failed = false) :
    s.Ends (∃ txundo, undo = some txundo ∧ ∃ coin ∈ txundo.vprevout, coin.isSpent = true)
        (completeTx nHeight s.view.utxo tx undo) (txUndoWrites nHeight tx)
        (unindexTx options nHeight i tx) (disconnectTx options nHeight i tx undo s) ∧
      ∀ s', disconnectTx options nHeight i tx undo s = .ok s' → s'.failed = false →
        (s'.fClean = true → s.fClean = true ∧ (undo ≠ none → tx.prevouts.Nodup)) ∧
        ((∀ write ∈ tx.creates nHeight, s.view.utxo write.1 = write.2) →
          (undo ≠ none → tx.prevouts.Nodup ∧ ∀ p ∈ tx.prevouts,
            apply (erases (keys (tx.creates nHeight))) s.view.utxo p = none) →
          s.fClean = true → s'.fClean = true) := by
  let indexed : DisconnectState := { s with
    index := s.index ++ unindexOutputs options nHeight i tx.getHash 0 tx.vout }
  let mid := disconnectOutputs nHeight tx.getHash tx.isCoinBase 0 tx.vout indexed
  have hmid : indexed.view.Wf := hwf
  obtain ⟨hwrites, hfail, hindex, hpre, hclean⟩ :
      s.view.Writes (erases (keys (tx.creates nHeight))) mid.view ∧
      mid.failed = indexed.failed ∧ mid.index = indexed.index ∧
      (mid.fClean = true → s.fClean = true) ∧
      ((∀ write ∈ tx.creates nHeight, s.view.utxo write.1 = write.2) →
        mid.fClean = s.fClean) := disconnectOutputs_spec hmid
  have hgoing' : mid.failed = false := hfail.trans hgoing
  cases undo with
  | none =>
    have hrun : disconnectTx options nHeight i tx none s = .ok mid := by
      simp [disconnectTx, hgoing, mid, indexed]
    rw [hrun]
    refine ⟨.undone rfl hgoing' ?_ ?_, ?_⟩
    · simpa [txUndoWrites] using hwrites
    · simp [unindexTx, hindex, indexed]
    · rintro s' ⟨⟩ -
      exact ⟨fun hafter => ⟨hpre hafter, nofun⟩, fun hall _ hs => (hclean hall).trans hs⟩
  | some txundo =>
    by_cases hlen : txundo.vprevout.length = tx.vin.length
    · have hrun : disconnectTx options nHeight i tx (some txundo) s =
          disconnectInputs options nHeight i tx.getHash 0 tx.prevouts txundo.vprevout mid := by
        simp [disconnectTx, hgoing, hlen, mid, indexed]
      have hprevouts : txundo.vprevout.length = tx.prevouts.length := by
        rw [hlen, prevouts, length_map]
      have hends := disconnectInputs_spec options nHeight i tx.getHash 0 (hundos txundo rfl)
        hwrites.wf hgoing' tx.prevouts
      rw [hrun]
      constructor
      · rw [hwrites.utxo] at hends
        generalize disconnectInputs options nHeight i tx.getHash 0 tx.prevouts
          txundo.vprevout mid = run at hends ⊢
        cases hends with
        | fault hspent => exact .fault ⟨txundo, rfl, hspent⟩
        | failed hnone hfail hlog =>
          refine .failed ?_ hfail (hwrites.trans hlog)
          simp [completeTx, hlen, hnone]
        | @undone _ coins hcoins hgoing hlog hidx =>
          have hall : completeTx nHeight s.view.utxo tx (some txundo) = some (some ⟨coins⟩) := by
            simp [completeTx, hlen, hcoins]
          refine .undone hall hgoing (hwrites.trans hlog) ?_
          rw [hidx, hindex, unindexTx, ← append_assoc]
      · intro s' hs' hend
        rw [disconnectInputs_fClean hprevouts (hundos txundo rfl) hwrites.wf hgoing' hs' hend,
          hwrites.utxo]
        refine ⟨fun hafter => ⟨hpre hafter.1, fun _ => hafter.2.1⟩, fun hall hins hs => ?_⟩
        exact ⟨(hclean hall).trans hs, hins (by simp)⟩
    · have hrun : disconnectTx options nHeight i tx (some txundo) s =
          .ok { mid with failed := true } := by
        simp [disconnectTx, hgoing, hlen, mid, indexed]
      rw [hrun]
      refine ⟨.failed (by simp [completeTx, hlen]) rfl hwrites, ?_⟩
      rintro s' ⟨⟩ hend
      cases hend

/-- What undoing a list of transactions does to the state. -/
theorem disconnectTxs_spec (options : IndexOptions) (nHeight i : ℕ) {undos : List (Option CTxUndo)}
    (hundos : ∀ txundo, some txundo ∈ undos → ∀ coin ∈ txundo.vprevout,
      coin.out.scriptPubKey.isUnspendable = false) (hwf : s.view.Wf) (hgoing : s.failed = false)
    (txs : List CTransaction) :
    s.Ends (∃ txundo, some txundo ∈ undos ∧ ∃ coin ∈ txundo.vprevout, coin.isSpent = true)
      (completeTxs nHeight s.view.utxo txs undos) (undoWrites nHeight txs)
      (unindexTxs options nHeight i txs) (disconnectTxs options nHeight i txs undos s) := by
  induction txs generalizing i undos with
  | nil => exact .undone rfl hgoing (refl hwf) (by simp [unindexTxs])
  | cons tx txs ih =>
    cases undos with
    | nil => exact .undone rfl hgoing (refl hwf) (by simp [unindexTxs])
    | cons undo undos =>
      have hrest := ih (i + 1) fun txundo hmem => hundos txundo (mem_cons_of_mem undo hmem)
      rw [disconnectTxs]
      generalize disconnectTxs options nHeight (i + 1) txs undos s = run at hrest ⊢
      cases hrest with
      | fault hspent =>
        obtain ⟨txundo, hmem, hspent⟩ := hspent
        exact .fault ⟨txundo, mem_cons_of_mem undo hmem, hspent⟩
      | @failed mid _ hnone hfail hlog =>
        have hskip : disconnectTx options nHeight i tx undo mid = .ok mid := by
          simp [disconnectTx, hfail]
        change s.Ends _ _ _ _ (disconnectTx options nHeight i tx undo mid)
        rw [hskip]
        refine .failed ?_ hfail hlog
        simp [completeTxs, hnone]
      | @undone mid later hlater hgoing' hlog hindex =>
        have hfst := (disconnectTx_spec options nHeight i tx (fun txundo hundo => hundos txundo
          (hundo ▸ mem_cons_self)) hlog.wf hgoing').1
        rw [hlog.utxo] at hfst
        change s.Ends _ _ _ _ (disconnectTx options nHeight i tx undo mid)
        generalize disconnectTx options nHeight i tx undo mid = run at hfst ⊢
        cases hfst with
        | fault hspent =>
          obtain ⟨txundo, rfl, hspent⟩ := hspent
          exact .fault ⟨txundo, mem_cons_self, hspent⟩
        | failed hnone hfail hmore =>
          refine .failed ?_ hfail (hlog.trans hmore)
          simp [completeTxs, hlater, hnone]
        | @undone _ first hfst hgoing hmore hidx =>
          have hall : completeTxs nHeight s.view.utxo (tx :: txs) (undo :: undos) =
              some (first :: later) := by
            simp [completeTxs, hlater, hfst]
          refine .undone hall hgoing (hlog.trans hmore) ?_
          rw [hidx, hindex, append_assoc]
          rfl

/-- What `DisconnectBlock` leaves if every undo record can be put back. -/
structure BlockDisconnected (options : IndexOptions) (store : BlockStore) (block : CBlock)
    (pindex : CBlockIndex) (undos : List (Option CTxUndo)) (view : CCoinsViewCache)
    (done : Disconnected) : Prop where
  result : done.result ≠ .failed
  utxo : done.view.utxo = WriteLog.apply (undoWrites pindex.nHeight block.vtx undos) view.utxo
  wf : done.view.Wf
  hashBlock : done.view.layer.hashBlock = pindex.hashPrevBlock
  store_eq : done.store = { store with
    blocktree := store.blocktree.writeDisconnected options
      (unindexTxs options pindex.nHeight 0 block.vtx undos) }

/-- What `DisconnectBlock` went through. It writes to the index database unless it gives up. -/
theorem of_disconnectBlock (hdone : disconnectBlock options store block pindex view = .ok done) :
    done.result = .failed ∧ done.store = store ∨ ∃ blockUndo s,
      store.undo pindex = some blockUndo ∧ blockUndo.vtxundo.length + 1 = block.vtx.length ∧
      disconnectTxs options pindex.nHeight 0 block.vtx (none :: blockUndo.vtxundo.map some)
        ⟨view, true, false, .empty⟩ = .ok s ∧ s.failed = false ∧
      done = ⟨if s.fClean then .ok else .unclean, s.view.setBestBlock pindex.hashPrevBlock,
        { store with blocktree := store.blocktree.writeDisconnected options s.index }⟩ := by
  unfold disconnectBlock at hdone
  split at hdone
  · cases hdone
    exact .inl ⟨rfl, rfl⟩
  · next blockUndo hundo =>
    split_ifs at hdone with hlen
    · cases hdone
      exact .inl ⟨rfl, rfl⟩
    · rw [bind_ok_iff] at hdone
      obtain ⟨s, hs, hrest⟩ := hdone
      cases hfail : s.failed with
      | true =>
        simp only [hfail, if_true, pure_ok_iff] at hrest
        exact .inl (hrest ▸ ⟨rfl, rfl⟩)
      | false =>
        simp only [hfail, Bool.false_eq_true, if_false, pure_ok_iff] at hrest
        exact .inr ⟨blockUndo, s, hundo, not_not.1 hlen, hs, hfail, hrest.symm⟩

section Block

variable (hwf : view.Wf) (hundos : ∀ blockUndo, store.undo pindex = some blockUndo →
    ∀ txundo ∈ blockUndo.vtxundo, ∀ coin ∈ txundo.vprevout,
      coin.out.scriptPubKey.isUnspendable = false)

include hwf hundos

/-- The loop of `DisconnectBlock` over the transactions. -/
theorem disconnectTxs_ends (hundo : store.undo pindex = some blockUndo) (options : IndexOptions)
    (block : CBlock) :
    DisconnectState.Ends ⟨view, true, false, .empty⟩
      (∃ txundo, some txundo ∈ none :: blockUndo.vtxundo.map some ∧
        ∃ coin ∈ txundo.vprevout, coin.isSpent = true)
      (completeTxs pindex.nHeight view.utxo block.vtx (none :: blockUndo.vtxundo.map some))
      (undoWrites pindex.nHeight block.vtx) (unindexTxs options pindex.nHeight 0 block.vtx)
      (disconnectTxs options pindex.nHeight 0 block.vtx (none :: blockUndo.vtxundo.map some)
        ⟨view, true, false, .empty⟩) := by
  refine disconnectTxs_spec options pindex.nHeight 0 (fun txundo hmem => ?_) hwf rfl block.vtx
  exact hundos blockUndo hundo txundo (by simpa using hmem)

/-- `DisconnectBlock` gives up just if the undo data cannot be made complete. -/
theorem disconnectBlock_spec (hdone : disconnectBlock options store block pindex view = .ok done) :
    view.base.Reads done.view.base ∧
      (completeUndo store block pindex view.utxo = none ∧ done.result = .failed ∧
          done.store = store ∨
        ∃ undos, completeUndo store block pindex view.utxo = some undos ∧
          BlockDisconnected options store block pindex undos view done) := by
  have hrefl := CCoinsView.Reads.refl hwf.2
  unfold disconnectBlock at hdone
  cases hundo : store.undo pindex with
  | none =>
    simp only [hundo, Except.ok.injEq] at hdone
    exact hdone ▸ ⟨hrefl, .inl ⟨by simp [completeUndo, hundo], rfl, rfl⟩⟩
  | some blockUndo =>
    simp only [hundo] at hdone
    by_cases hlen : blockUndo.vtxundo.length + 1 = block.vtx.length
    · rw [if_neg (not_not.2 hlen), bind_ok_iff] at hdone
      obtain ⟨s, hs, hrest⟩ := hdone
      have hends := disconnectTxs_ends hwf hundos hundo options block
      have hcompl : completeUndo store block pindex view.utxo = completeTxs pindex.nHeight
          view.utxo block.vtx (none :: blockUndo.vtxundo.map some) := by
        simp [completeUndo, hundo, hlen]
      rw [hs] at hends
      rw [hcompl]
      cases hends with
      | failed hnone hfail hlog =>
        simp only [hfail, if_true, pure_ok_iff] at hrest
        exact hrest ▸ ⟨hlog.base, .inl ⟨hnone, rfl, rfl⟩⟩
      | @undone _ undos hcoins hgoing hlog hindex =>
        simp only [hgoing, Bool.false_eq_true, if_false, pure_ok_iff] at hrest
        rw [empty_append] at hindex
        refine hrest ▸ ⟨hlog.base, .inr ⟨undos, hcoins, ?_, hlog.utxo, hlog.wf, rfl, ?_⟩⟩
        · cases s.fClean <;> simp
        · simp only [hindex]
    · rw [if_pos hlen] at hdone
      cases hdone
      exact ⟨hrefl, .inl ⟨by simp [completeUndo, hundo, hlen], rfl, rfl⟩⟩

/-- Undo data without a spent coin makes no assertion fail. -/
theorem disconnectBlock_ok (options : IndexOptions) (hunspent : ∀ blockUndo,
      store.undo pindex = some blockUndo →
        ∀ txundo ∈ blockUndo.vtxundo, ∀ coin ∈ txundo.vprevout, coin.isSpent = false)
    (block : CBlock) : ∃ done, disconnectBlock options store block pindex view = .ok done := by
  unfold disconnectBlock
  cases hundo : store.undo pindex with
  | none => exact ⟨_, rfl⟩
  | some blockUndo =>
    simp only
    split_ifs
    · exact ⟨_, rfl⟩
    · have hends := disconnectTxs_ends hwf hundos hundo options block
      generalize disconnectTxs options pindex.nHeight 0 block.vtx _ _ = run at hends ⊢
      cases hends with
      | fault hspent =>
        obtain ⟨txundo, hmem, coin, hcoin, hspent⟩ := hspent
        rw [hunspent blockUndo hundo txundo (by simpa using hmem) coin hcoin] at hspent
        cases hspent
      | @failed s _ _ hfail _ => exact ⟨_, by simp [hfail]; rfl⟩
      | @undone s _ _ hgoing _ _ => exact ⟨_, by simp [hgoing]; rfl⟩

end Block

end Catoshi
