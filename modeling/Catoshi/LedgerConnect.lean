/-
Connecting a block on the ledger alone: acceptance depends on the coins of the chain below, not on
the caches.
-/
import Catoshi.ConnectSpec

namespace Catoshi

open Outcome CCoinsViewCache ConnectFailure Follows CTransaction List

/-- The failures that say something about the block. -/
def ConnectFailure.reported : ConnectFailure → Option Reject
  | .invalid reject => some reject
  | .fault _ => none

/-! ### The rules on the ledger -/

/-- The value of the coins spent, if they may be. -/
def coinsIn (nSpendHeight : ℕ) : CAmount → List Coin → Except Reject CAmount
  | nValueIn, [] => .ok nValueIn
  | nValueIn, coin :: rest => do
      require (!(coin.fCoinBase &&
          decide ((nSpendHeight : ℤ) - coin.nHeight < coinbaseMaturity)))
        (dos 0 "bad-txns-premature-spend-of-coinbase")
      require (moneyRange coin.out.nValue && moneyRange (nValueIn + coin.out.nValue))
        (dos 100 "bad-txns-inputvalues-outofrange")
      coinsIn nSpendHeight (nValueIn + coin.out.nValue) rest

def ledgerFee (tx : CTransaction) (utxo : UtxoMap) (nSpendHeight : ℕ) :
    Except Reject CAmount := do
  require (tx.prevouts.all fun prevout => (utxo prevout).isSome)
    (dos 100 "bad-txns-inputs-missingorspent")
  let nValueIn ← coinsIn nSpendHeight 0 (tx.prevouts.filterMap utxo)
  require (decide (tx.valueOut ≤ nValueIn)) (dos 100 "bad-txns-in-belowout")
  require (moneyRange (nValueIn - tx.valueOut)) (dos 100 "bad-txns-fee-outofrange")
  return nValueIn - tx.valueOut

/-- The ledger and the totals between two transactions. -/
structure LedgerState where
  utxo : UtxoMap
  nFees : CAmount
  nSigOpsCost : ℕ

section

variable (ctx : ValidationContext) (pindex : CBlockIndex)

/-- The fees with those of one more transaction. -/
def ledgerFees (tx : CTransaction) (l : LedgerState) : Except Reject CAmount :=
  if tx.isCoinBase then
    .ok l.nFees
  else do
    let txfee ← ledgerFee tx l.utxo pindex.nHeight
    require (moneyRange (l.nFees + txfee)) (dos 100 "bad-txns-accumulated-fee-outofrange")
    require (ctx.checks.sequenceLocks tx ((tx.prevouts.filterMap l.utxo).map Coin.nHeight) pindex)
      (dos 100 "bad-txns-nonfinal")
    return l.nFees + txfee

def ledgerScripts (tx : CTransaction) (coins : List Coin) : Except Reject Unit :=
  if tx.isCoinBase then
    .ok ()
  else
    match ctx.checks.checkInputs tx coins pindex with
    | some reject => .error reject
    | none => .ok ()

def ledgerTx (l : LedgerState) (tx : CTransaction) : Except Reject LedgerState := do
  let nFees ← ledgerFees ctx pindex tx l
  let nSigOpsCost := l.nSigOpsCost +
    ctx.checks.transactionSigOpCost tx (tx.coins l.utxo) pindex
  require (decide (nSigOpsCost ≤ maxBlockSigopsCost)) (dos 100 "bad-blk-sigops")
  ledgerScripts ctx pindex tx (tx.coins l.utxo)
  return ⟨afterTx pindex.nHeight l.utxo tx, nFees, nSigOpsCost⟩

def CBlock.coinbaseValue (block : CBlock) : CAmount :=
  match block.vtx with
  | [] => 0
  | coinbase :: _ => coinbase.valueOut

/-- The ledger after a block, or why the block is invalid. -/
def ledgerBlock (block : CBlock) (pprev pindex : CBlockIndex)
    (utxo : UtxoMap) : Except Reject UtxoMap := do
  checkBlock ctx.checks block true true
  require (!(fEnforceBIP30 ctx.params pprev &&
      (block.vtx.flatMap outpoints).any fun outpoint => (utxo outpoint).isSome))
    (dos 100 "bad-txns-BIP30")
  let l ← block.vtx.foldlM (ledgerTx ctx pindex) ⟨utxo, 0, 0⟩
  require (decide (block.coinbaseValue ≤ l.nFees + getBlockSubsidy pindex.nHeight ctx.params))
    (dos 100 "bad-cb-amount")
  require (ctx.checks.checkQueue block pindex) (dos 100 "block-validation-failed")
  return l.utxo

/-! ### The caches follow the ledger -/

end

variable {block : CBlock} {pindex : CBlockIndex} {l : LedgerState} {tx : CTransaction}
  {s : ConnectState} {view : CCoinsViewCache} {ctx : ValidationContext}

theorem checkTxInputsLoop_follows {nSpendHeight : ℕ} (hwf : view.Wf) {start : CAmount}
    {prevouts : List COutPoint} (hall : ∀ p ∈ prevouts, (view.utxo p).isSome) :
    Follows reported (fun result nValueIn => result.1 = nValueIn)
      (checkTxInputsLoop nSpendHeight view start prevouts)
      (coinsIn nSpendHeight start (prevouts.filterMap view.utxo)) := by
  induction prevouts generalizing view start with
  | nil => exact .of_ok rfl
  | cons prevout rest ih =>
    obtain ⟨hval, hlog⟩ := accessCoin_spec hwf prevout
    apply guard rfl
    intro hunspent
    rw [Coin.unspent?_of_unspent (by simpa using hunspent)] at hval
    rw [filterMap_cons_some hval.symm]
    apply check
    · rfl
    · rfl
    · intro _
      apply check
      · rfl
      · rfl
      · intro _
        have hrest : ∀ p ∈ rest, ((view.accessCoin prevout).2.utxo p).isSome := by
          rw [hlog.utxo_nil]
          exact (List.forall_mem_cons.1 hall).2
        rw [← hlog.utxo_nil]
        exact ih hlog.wf hrest

theorem checkTxInputs_follows (hwf : view.Wf) (hcbase : tx.isCoinBase = false) (nSpendHeight : ℕ) :
    Follows reported (fun result txfee => result.1 = txfee)
      (checkTxInputs tx view nSpendHeight) (ledgerFee tx view.utxo nSpendHeight) := by
  obtain ⟨hf, hreads⟩ := haveCoins_spec hwf tx.prevouts
  have hasked : view.haveInputs tx = view.haveCoins tx.prevouts := by
    rw [haveInputs, hcbase]
    rfl
  rw [checkTxInputs, hasked]
  apply check
  · rfl
  · rw [Bool.eq_iff_iff, hf, all_eq_true]
  · intro hall
    have hthere : ∀ p ∈ tx.prevouts, ((view.haveCoins tx.prevouts).2.utxo p).isSome := by
      rw [hreads.utxo_nil]
      exact hf.1 hall
    rw [← hreads.utxo_nil]
    apply bind (checkTxInputsLoop_follows hreads.wf hthere)
    rintro ⟨nValueIn, last⟩ _ - rfl
    cases hval : tx.getValueOut with
    | error fault => exact .of_silent _ rfl _
    | ok valueOut =>
      obtain rfl := tx.getValueOut_eq hval
      apply check
      · rfl
      · rfl
      · intro _
        apply check
        · rfl
        · rfl
        · exact fun _ => .of_ok rfl

theorem checkSpends_follows (hwf : s.view.Wf) (hutxo : s.view.utxo = l.utxo)
    (hfees : s.nFees = l.nFees) :
    Follows reported (fun result nFees => result.1 = nFees)
      (checkSpends ctx pindex tx s) (ledgerFees ctx pindex tx l) := by
  rw [checkSpends, ledgerFees]
  cases hcbase : tx.isCoinBase with
  | true => exact .of_ok hfees
  | false =>
    rw [← hutxo, ← hfees]
    apply bind (checkTxInputs_follows hwf hcbase pindex.nHeight)
    rintro ⟨txfee, view⟩ _ hcheck rfl
    obtain ⟨hreads, hall, -⟩ := checkTxInputs_spec hwf hcheck
    obtain ⟨haccess, -⟩ := accessCoins_spec hreads.wf tx.prevouts
    rw [hreads.utxo_nil] at haccess
    apply check
    · rfl
    · rfl
    · intro _
      apply check
      · rfl
      · rw [haccess hall]
      · exact fun _ => .of_ok rfl

theorem checkScripts_follows (ctx : ValidationContext) (pindex : CBlockIndex) (tx : CTransaction)
    (coins : List Coin) :
    Follows reported (fun _ _ => True) (checkScripts ctx pindex tx coins)
      (ledgerScripts ctx pindex tx coins) := by
  rw [checkScripts, ledgerScripts]
  cases tx.isCoinBase with
  | true => exact .of_ok trivial
  | false =>
    cases ctx.checks.checkInputs tx coins pindex with
    | none => exact .of_ok trivial
    | some reject => exact .of_error _ rfl

/-- The state of the loop holds the ledger and the totals. -/
structure ConnectState.Holds (s : ConnectState) (l : LedgerState) : Prop where
  utxo : s.view.utxo = l.utxo
  nFees : s.nFees = l.nFees
  nSigOpsCost : s.nSigOpsCost = l.nSigOpsCost

theorem connectTx_follows (i : ℕ) (hwf : s.view.Wf)
    (hin : ∀ o ∈ WriteLog.keys (tx.creates pindex.nHeight), s.view.Known o)
    (hcbase : tx.isCoinBase = true →
      ∀ o ∈ WriteLog.keys (tx.creates pindex.nHeight), s.view.utxo o = none) (hholds : s.Holds l) :
    Follows reported ConnectState.Holds (connectTx ctx pindex i tx s)
      (ledgerTx ctx pindex l tx) := by
  apply bind (checkSpends_follows hwf hholds.utxo hholds.nFees)
  rintro ⟨nFees, coins, view⟩ _ hcheck rfl
  obtain ⟨hreads, hins, hranges, hcoins, -, -⟩ := checkSpends_spec hwf hcheck
  have hutxo := hreads.utxo_nil
  obtain rfl : coins = tx.coins l.utxo := by rw [hcoins, hholds.utxo]
  apply check
  · rfl
  · rw [hholds.nSigOpsCost]
  · intro _
    apply bind (checkScripts_follows ctx pindex tx _)
    intro _ _ _ _
    cases hupd : updateCoins tx view pindex.nHeight with
    | error fault => exact .of_silent _ rfl _
    | ok updated =>
      obtain ⟨-, hlog, -⟩ := updateCoins_spec hreads.wf (fun o ho => hreads.known o (hin o ho))
        (by rw [hutxo]; exact hcbase) (by rw [hutxo]; exact hins)
        (by rw [hutxo]; exact hranges) hupd
      apply of_ok
      constructor
      · rw [hlog.utxo, hutxo, hholds.utxo, afterTx]
      · rfl
      · rw [hholds.nSigOpsCost]

theorem connectTxs_follows {i : ℕ} {txs : List CTransaction} (hwf : s.view.Wf)
    (hcbase : ∀ tx ∈ txs, tx.isCoinBase = false)
    (hin : ∀ tx ∈ txs, ∀ o ∈ WriteLog.keys (tx.creates pindex.nHeight), s.view.Known o)
    (hholds : s.Holds l) :
    Follows reported ConnectState.Holds (connectTxs ctx pindex i txs s)
      (txs.foldlM (ledgerTx ctx pindex) l) := by
  induction txs generalizing i s l with
  | nil => exact .of_ok hholds
  | cons tx rest ih =>
    have hnot : tx.isCoinBase = true → ∀ o ∈ WriteLog.keys (tx.creates pindex.nHeight),
        s.view.utxo o = none := by
      rw [hcbase tx mem_cons_self]
      nofun
    apply bind (connectTx_follows i hwf (hin tx mem_cons_self) hnot hholds)
    intro mid after hmid hholds
    have hstep := connectTx_spec hwf (hin tx mem_cons_self) hnot hmid
    exact ih hstep.writes.wf (List.forall_mem_cons.1 hcbase).2
      (fun other hother o ho => hstep.writes.known o
        (hin other (mem_cons_of_mem _ hother) o ho)) hholds

theorem checkBIP30_follows (params : ConsensusParams) (pprev : CBlockIndex) (block : CBlock)
    (hwf : view.Wf) :
    Follows reported (fun _ _ => True) (checkBIP30 params pprev block view)
      (require (!(fEnforceBIP30 params pprev &&
        (block.vtx.flatMap outpoints).any fun outpoint =>
          (view.utxo outpoint).isSome)) (dos 100 "bad-txns-BIP30")) := by
  rw [checkBIP30]
  cases fEnforceBIP30 params pprev with
  | false => exact .of_ok trivial
  | true =>
    obtain ⟨hno, -⟩ := haveAny_spec hwf (block.vtx.flatMap outpoints)
    have heq : (view.haveAny (block.vtx.flatMap outpoints)).1 =
        (block.vtx.flatMap outpoints).any fun outpoint =>
          (view.utxo outpoint).isSome := by
      rw [Bool.eq_iff_iff, ← not_iff_not, Bool.not_eq_true, hno]
      simp only [any_eq_true, not_exists, not_and, Option.not_isSome_iff_eq_none]
    rw [← heq]
    change Follows _ _ (require (!(view.haveAny _).1) _ >>= fun _ => pure (view.haveAny _).2) _
    cases (view.haveAny (block.vtx.flatMap outpoints)).1 with
    | false => exact .of_ok trivial
    | true => exact .of_error _ rfl

theorem CBlock.coinbaseValueOut_eq {valueOut : CAmount}
    (hval : block.coinbaseValueOut = .ok valueOut) : valueOut = block.coinbaseValue := by
  rw [coinbaseValueOut] at hval
  rw [coinbaseValue]
  cases hvtx : block.vtx with
  | nil =>
    rw [hvtx] at hval
    exact (Except.ok.inj hval).symm
  | cons coinbase rest =>
    rw [hvtx] at hval
    exact coinbase.getValueOut_eq hval

theorem connectCoins_follows {pprev : CBlockIndex} (hwf : view.Wf) (hchecked : block.Checked)
    (hfresh : fEnforceBIP30 ctx.params pprev = true ∨
      FreshOutputs pindex.nHeight view.utxo block.vtx) :
    Follows reported (fun s utxo => s.view.utxo = utxo) (connectCoins ctx block pprev pindex view)
      (do
        require (!(fEnforceBIP30 ctx.params pprev &&
          (block.vtx.flatMap outpoints).any fun outpoint =>
            (view.utxo outpoint).isSome)) (dos 100 "bad-txns-BIP30")
        let l ← block.vtx.foldlM (ledgerTx ctx pindex) ⟨view.utxo, 0, 0⟩
        require (decide (block.coinbaseValue ≤
          l.nFees + getBlockSubsidy pindex.nHeight ctx.params)) (dos 100 "bad-cb-amount")
        require (ctx.checks.checkQueue block pindex) (dos 100 "block-validation-failed")
        return l.utxo) := by
  apply Follows.bind (checkBIP30_follows ctx.params pprev block hwf)
  intro start _ hbip30 _
  obtain ⟨hreads, henforced⟩ := checkBIP30_spec hwf hbip30 pindex.nHeight
  have hutxo := hreads.utxo_nil
  have hno : FreshOutputs pindex.nHeight view.utxo block.vtx := hfresh.elim henforced id
  have hin : ∀ tx ∈ block.vtx, ∀ o ∈ WriteLog.keys (tx.creates pindex.nHeight),
      start.Known o := fun tx htx o ho =>
    CCoinsViewCache.known_of_utxo_none (by rw [hutxo]; exact hno tx htx o ho)
  have hloop : Follows reported ConnectState.Holds
      (connectTxs ctx pindex 0 block.vtx ⟨start, 0, 0, [], .empty⟩)
      (block.vtx.foldlM (ledgerTx ctx pindex) ⟨view.utxo, 0, 0⟩) := by
    obtain ⟨coinbase, rest, hvtx, -, hothers⟩ := hchecked.shape
    have hcbase : coinbase.isCoinBase = true →
        ∀ o ∈ WriteLog.keys (coinbase.creates pindex.nHeight), start.utxo o = none := by
      intro _ o ho
      rw [hutxo]
      exact hno coinbase (hvtx ▸ mem_cons_self) o ho
    rw [hvtx] at hin ⊢
    apply Follows.bind (connectTx_follows 0 hreads.wf (hin coinbase mem_cons_self)
      hcbase ⟨hutxo, rfl, rfl⟩)
    intro mid after hmid hholds
    have hstep := connectTx_spec (s := ⟨start, 0, 0, [], .empty⟩) hreads.wf
      (hin coinbase mem_cons_self) hcbase hmid
    exact connectTxs_follows hstep.writes.wf hothers (fun tx htx o ho => hstep.writes.known o
        (hin tx (mem_cons_of_mem coinbase htx) o ho)) hholds
  apply Follows.bind hloop
  intro s l _ hholds
  cases hval : block.coinbaseValueOut with
  | error fault => exact .of_silent _ rfl _
  | ok valueOut =>
    obtain rfl := CBlock.coinbaseValueOut_eq hval
    apply Follows.check
    · rfl
    · rw [hholds.nFees]
    · intro _
      apply Follows.check
      · rfl
      · rfl
      · exact fun _ => .of_ok hholds.utxo

/-- `ConnectBlock` accepts a block just if the ledger does, and leaves its coins. -/
theorem connectBlock_follows {pprev : CBlockIndex} (store : BlockStore) (hwf : view.Wf)
    (hprev : pindex.pprev = some pprev) (hgen : block.getHash ≠ ctx.params.hashGenesisBlock)
    (hfresh : fEnforceBIP30 ctx.params pprev = true ∨
      FreshOutputs pindex.nHeight view.utxo block.vtx) :
    Follows reported (fun result utxo => result.1.utxo = utxo)
      (connectBlock ctx store block pindex view false)
      (ledgerBlock ctx block pprev pindex view.utxo) := by
  obtain ⟨hutxo, hwf', -⟩ := CCoinsViewCache.getBestBlock_spec hwf
  apply Follows.guard rfl
  intro _
  have hchecks : Follows reported (· = ·) (lift invalid (checkBlock ctx.checks block true true))
      (checkBlock ctx.checks block true true) := by
    apply Follows.lift
    exact fun _ => rfl
  apply Follows.bind hchecks
  intro _ _ hcheck _
  have hchecked := checked_of_checkBlock (lift_ok_iff.1 hcheck)
  apply Follows.guard rfl
  intro _
  rw [if_neg hgen, hprev]
  rw [← hutxo] at hfresh ⊢
  apply Follows.map (connectCoins_follows hwf' hchecked hfresh)
  exact fun s utxo heq => heq

end Catoshi
