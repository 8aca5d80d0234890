/-
What connecting a block does to the unspent coins.
-/
import Catoshi.Ledger

namespace Catoshi

open Outcome CCoinsViewCache WriteLog CTransaction
open List hiding keys keys_append

def coinsValue (coins : List Coin) : CAmount := (coins.map fun coin => coin.out.nValue).sum

theorem rereadAmount_natCast {n : ℕ} (hsmall : n ≤ 2100000000000000) : rereadAmount n = n := by
  have hcompact : compressExact n % 2 ^ 64 = compressExact n := by
    refine Nat.mod_eq_of_lt ?_
    have hbound := compressExact_le n
    omega
  have hlt : n % 2 ^ 64 = n := Nat.mod_eq_of_lt (by omega)
  have hint : (n : CAmount) % 2 ^ 64 = n := Int.emod_eq_of_lt (by omega) (by omega)
  have hback : decompressAmount (compressAmount n) = n := by
    rw [compressAmount, hcompact, decompressAmount, decompressExact_compressExact, hlt]
  have hbmod : Int.bmod (n : ℤ) (2 ^ 64) = n :=
    Int.bmod_eq_of_le (by norm_num) (by norm_num; omega)
  unfold rereadAmount
  rw [hint, Int.toNat_natCast, hback, hbmod]

/-- A coin with an amount of money survives the undo file. -/
theorem Coin.reread_of_moneyRange {coin : Coin} (hrange : moneyRange coin.out.nValue = true) :
    coin.reread = coin := by
  obtain ⟨hnonneg, hle⟩ := moneyRange_iff.1 hrange
  obtain ⟨n, hn⟩ := Int.eq_ofNat_of_zero_le hnonneg
  have hsmall : n ≤ 2100000000000000 := by
    rw [hn] at hle
    exact Int.ofNat_le.1 hle
  rw [Coin.reread, hn, rereadAmount_natCast hsmall, ← hn]

/-- A cache never answers with a spent coin. -/
theorem CCoinsView.getCoin_unspent {base : CCoinsView} (hbase : base.hashes ≠ []) {o : COutPoint}
    {coin : Coin} (hcoin : (base.getCoin o).1 = some coin) : coin.isSpent = false := by
  cases base with
  | db store => exact absurd rfl hbase
  | cache layer base =>
    unfold getCoin at hcoin
    split at hcoin
    · obtain ⟨hunspent, rfl⟩ := Coin.unspent?_eq_some_iff.1 hcoin
      exact hunspent
    · obtain ⟨entry, -, hentry⟩ := Option.bind_eq_some_iff.1 hcoin
      obtain ⟨hunspent, rfl⟩ := Coin.unspent?_eq_some_iff.1 hentry
      exact hunspent

namespace CCoinsViewCache

variable {view view' : CCoinsViewCache} {outpoints : List COutPoint} {o outpoint : COutPoint}
  {coin : Coin}


theorem Writes.utxo_nil (hlog : view.Writes [] view') : view'.utxo = view.utxo := hlog.utxo

theorem haveCoins_spec (hwf : view.Wf) (outpoints : List COutPoint) :
    ((view.haveCoins outpoints).1 = true ↔ ∀ o ∈ outpoints, (view.utxo o).isSome) ∧
      view.Writes [] (view.haveCoins outpoints).2 := by
  induction outpoints generalizing view with
  | nil => exact ⟨by simp [haveCoins], Writes.refl hwf⟩
  | cons outpoint rest ih =>
    obtain ⟨hf, hlog⟩ := haveCoin_spec hwf outpoint
    rcases hasked : view.haveCoin outpoint with ⟨found, next⟩
    simp only [hasked] at hf hlog
    cases found with
    | false =>
      simp only [haveCoins, hasked]
      exact ⟨by simp [← hf], hlog⟩
    | true =>
      obtain ⟨hrest, hreads⟩ := ih hlog.wf
      simp only [haveCoins, hasked]
      refine ⟨?_, hlog.trans hreads⟩
      rw [hrest, hlog.utxo_nil]
      simp [← hf]

theorem haveAny_spec (hwf : view.Wf) (outpoints : List COutPoint) :
    ((view.haveAny outpoints).1 = false ↔ ∀ o ∈ outpoints, view.utxo o = none) ∧
      view.Writes [] (view.haveAny outpoints).2 := by
  induction outpoints generalizing view with
  | nil => exact ⟨by simp [haveAny], Writes.refl hwf⟩
  | cons outpoint rest ih =>
    obtain ⟨hf, hlog⟩ := haveCoin_spec hwf outpoint
    rcases hasked : view.haveCoin outpoint with ⟨found, next⟩
    simp only [hasked] at hf hlog
    cases found with
    | true =>
      simp only [haveAny, hasked]
      refine ⟨⟨fun hfalse => (by cases hfalse), fun hall => ?_⟩, hlog⟩
      rw [hall outpoint mem_cons_self] at hf
      cases hf
    | false =>
      have hno : view.utxo outpoint = none := by simpa using hf.symm
      obtain ⟨hrest, hreads⟩ := ih hlog.wf
      simp only [haveAny, hasked]
      refine ⟨?_, hlog.trans hreads⟩
      rw [hrest, hlog.utxo_nil]
      simp [hno]

/-- Reading coins that are all there returns them. -/
theorem accessCoins_spec (hwf : view.Wf) (outpoints : List COutPoint) :
    ((∀ o ∈ outpoints, (view.utxo o).isSome) →
        (view.accessCoins outpoints).1 = outpoints.filterMap view.utxo) ∧
      view.Writes [] (view.accessCoins outpoints).2 := by
  induction outpoints generalizing view with
  | nil => exact ⟨fun _ => rfl, Writes.refl hwf⟩
  | cons outpoint rest ih =>
    obtain ⟨hval, hlog⟩ := accessCoin_spec hwf outpoint
    obtain ⟨hrest, hreads⟩ := ih hlog.wf
    refine ⟨fun hall => ?_, hlog.trans hreads⟩
    obtain ⟨coin, hcoin⟩ := Option.isSome_iff_exists.1 (hall outpoint mem_cons_self)
    rw [hcoin, Coin.unspent?_eq_some_iff] at hval
    rw [hlog.utxo_nil] at hrest
    rw [accessCoins, hrest (forall_mem_cons.1 hall).2, filterMap_cons_some hcoin, hval.2]

variable {coins : List Coin}

/-- What a successful round of the spending loop does. -/
theorem spendCoins_cons (hwf : view.Wf) {outpoint : COutPoint} {rest : List COutPoint}
    (hspend : view.spendCoins (outpoint :: rest) = .ok (coins, view')) :
    ∃ coin others next, coins = coin :: others ∧ coin.unspent? = view.utxo outpoint ∧
      view.spendCoin outpoint = (some coin, next) ∧ view.Writes [(outpoint, none)] next ∧
      next.spendCoins rest = .ok (others, view') := by
  obtain ⟨hmoved, hlog⟩ := spendCoin_spec hwf outpoint
  rcases hfst : view.spendCoin outpoint with ⟨moved, next⟩
  simp only [hfst] at hmoved hlog
  cases moved with
  | none => simp [spendCoins, hfst] at hspend
  | some coin =>
    simp only [spendCoins, hfst] at hspend
    rcases hothers : next.spendCoins rest with fault | ⟨others, last⟩
    · simp [hothers] at hspend
    · simp only [hothers, Except.ok.injEq, Prod.mk.injEq] at hspend
      obtain ⟨rfl, rfl⟩ := hspend
      exact ⟨coin, others, next, rfl, hmoved, rfl, hlog, hothers⟩

/-- The entry of a spent coin, if there is one, is empty. -/
def Emptied (view : CCoinsViewCache) (outpoint : COutPoint) : Prop :=
  ∀ entry, view.layer.find outpoint = some entry → entry.coin = .empty

theorem find_spendCoin_of_ne (hne : o ≠ outpoint) (view : CCoinsViewCache) :
    (view.spendCoin outpoint).2.layer.find o = view.layer.find o := by
  have hfetched : (view.fetchCoin outpoint).2.layer.find o = view.layer.find o := by
    cases hfind : view.layer.find outpoint with
    | some entry => simp [fetchCoin, hfind]
    | none =>
      cases hcoin : (view.base.getCoin outpoint).1 with
      | none => simp [fetchCoin, hfind, hcoin, CCoinsCacheLayer.fetched]
      | some coin =>
        simp only [fetchCoin, hfind, hcoin, CCoinsCacheLayer.fetched]
        exact AList.lookup_insert_ne hne
  rcases hfetch : view.fetchCoin outpoint with ⟨_ | entry, next⟩
  · rw [hfetch] at hfetched
    simpa [spendCoin, hfetch] using hfetched
  · rw [hfetch] at hfetched
    simp only [spendCoin, hfetch, CCoinsCacheLayer.spend]
    rw [← hfetched]
    split
    · exact AList.lookup_erase_ne hne
    · exact AList.lookup_insert_ne hne

theorem emptied_spendCoin (hmoved : (view.spendCoin outpoint).1 = some coin) :
    (view.spendCoin outpoint).2.Emptied outpoint := by
  intro entry hentry
  rcases hfetch : view.fetchCoin outpoint with ⟨_ | found, next⟩
  · simp [spendCoin, hfetch] at hmoved
  · cases hfresh : found.fresh with
    | true => simp [spendCoin, hfetch, CCoinsCacheLayer.spend, hfresh, CCoinsCacheLayer.find,
        CCoinsCacheLayer.erase] at hentry
    | false =>
      simp only [spendCoin, hfetch, CCoinsCacheLayer.spend, hfresh, CCoinsCacheLayer.find,
        CCoinsCacheLayer.put, Bool.false_eq_true, if_false, AList.lookup_insert,
        Option.some.injEq] at hentry
      rw [← hentry]

theorem eq_empty_of_spendCoin (hbase : view.base.hashes ≠ []) (hgone : view.Emptied outpoint)
    (hmoved : (view.spendCoin outpoint).1 = some coin) (hspent : coin.isSpent = true) :
    coin = .empty := by
  unfold spendCoin fetchCoin at hmoved
  cases hfind : view.layer.find outpoint with
  | some entry =>
    simp only [hfind, Option.some.injEq] at hmoved
    exact hmoved ▸ hgone entry hfind
  | none =>
    cases hcoin : (view.base.getCoin outpoint).1 with
    | none => simp [hfind, hcoin, CCoinsCacheLayer.fetched] at hmoved
    | some found =>
      simp only [hfind, hcoin, CCoinsCacheLayer.fetched, Option.some.injEq] at hmoved
      rw [← hmoved, CCoinsView.getCoin_unspent hbase hcoin] at hspent
      cases hspent

/-- Inputs that are found and not listed twice have their coins in the undo record. -/
theorem undoCoins_of_nodup {utxo : UtxoMap} (hnd : outpoints.Nodup)
    (hall : ∀ o ∈ outpoints, (utxo o).isSome) :
    undoCoins utxo outpoints = outpoints.filterMap utxo := by
  induction outpoints generalizing utxo with
  | nil => rfl
  | cons out rest ih =>
    rw [nodup_cons] at hnd
    obtain ⟨coin, hcoin⟩ := Option.isSome_iff_exists.1 (hall out mem_cons_self)
    have hsame : ∀ o ∈ rest, Function.update utxo out none o = utxo o := fun o ho =>
      Function.update_of_ne (fun heq : o = out => hnd.1 (heq ▸ ho)) _ _
    rw [undoCoins, filterMap_cons_some hcoin, hcoin, Option.getD_some, ih hnd.2 fun o ho => by
      rw [hsame o ho]
      exact hall o (mem_cons_of_mem out ho), filterMap_congr hsame]

/-- What the undo file holds of the coins moved out: those found once, and an empty one with an
amount for each input listed again. Over a database alone this needs distinct inputs. -/
theorem spendCoins_spec (hwf : view.Wf) (hspend : view.spendCoins outpoints = .ok (coins, view')) :
    view.Writes (erases outpoints) view' ∧
      ((∀ o ∈ outpoints, view.utxo o = none → view.Emptied o) →
        (∀ o ∈ outpoints, ∀ coin, view.utxo o = some coin → moneyRange coin.out.nValue = true) →
        (outpoints.Nodup ∧ (∀ o ∈ outpoints, (view.utxo o).isSome) ∨ view.base.hashes ≠ []) →
        coins.map Coin.reread = undoCoins view.utxo outpoints) := by
  induction outpoints generalizing view coins with
  | nil =>
    obtain ⟨rfl, rfl⟩ := hspend
    exact ⟨Writes.refl hwf, fun _ _ _ => rfl⟩
  | cons outpoint rest ih =>
    obtain ⟨coin, others, next, rfl, hmoved, hnext, hlog, hothers⟩ := spendCoins_cons hwf hspend
    obtain ⟨hrest, hcoins⟩ := ih hlog.wf hothers
    refine ⟨hlog.trans hrest, fun hgone hrange hbase => ?_⟩
    have hutxo : next.utxo = Function.update view.utxo outpoint none := hlog.utxo
    have hold : ∀ o, o ≠ outpoint → next.utxo o = view.utxo o := fun o hne => by
      rw [hutxo, Function.update_of_ne hne]
    have hfst : coin.reread = (view.utxo outpoint).getD Coin.empty.reread := by
      cases hf : view.utxo outpoint with
      | some found =>
        obtain rfl := (Coin.unspent?_eq_some_iff.1 (hmoved.trans hf)).2
        exact Coin.reread_of_moneyRange (hrange outpoint mem_cons_self coin hf)
      | none =>
        rcases hbase with ⟨-, hall⟩ | hbase
        · have hsome := hall outpoint mem_cons_self
          rw [hf] at hsome
          cases hsome
        · rw [eq_empty_of_spendCoin hbase (hgone outpoint mem_cons_self hf)
            (congrArg Prod.fst hnext) (Coin.unspent?_eq_none_iff.1 (hmoved.trans hf))]
          rfl
    rw [undoCoins, List.map_cons, hfst, hcoins, hutxo]
    · intro o ho hnone
      by_cases heq : o = outpoint
      · have hemptied := emptied_spendCoin (congrArg Prod.fst hnext)
        rwa [hnext, ← heq] at hemptied
      · have hfind := find_spendCoin_of_ne heq view
        rw [hnext] at hfind
        rw [hold o heq] at hnone
        intro entry hentry
        exact hgone o (mem_cons_of_mem _ ho) hnone entry (hfind ▸ hentry)
    · intro o ho found hf
      have hne : o ≠ outpoint := by
        rintro rfl
        rw [hutxo, Function.update_self] at hf
        cases hf
      exact hrange o (mem_cons_of_mem _ ho) found (hold o hne ▸ hf)
    · rcases hbase with ⟨hnd, hall⟩ | hbase
      · rw [nodup_cons] at hnd
        refine .inl ⟨hnd.2, fun o ho => ?_⟩
        rw [hold o fun heq => hnd.1 (heq ▸ ho)]
        exact hall o (mem_cons_of_mem _ ho)
      · rw [hlog.base.hashes]
        exact .inr hbase

end CCoinsViewCache

variable {nHeight : ℕ} {block : CBlock} {store store' : BlockStore} {pindex pprev : CBlockIndex}
  {tx : CTransaction} {s : ConnectState} {view view' : CCoinsViewCache} {ctx : ValidationContext}
  {nSpendHeight i : ℕ} {s' : ConnectState} {txs : List CTransaction}

/-- The loop of `CheckTxInputs` finds every input and adds up the values. -/
theorem checkTxInputsLoop_spec (hwf : view.Wf) {start total : CAmount} {prevouts : List COutPoint}
    (hloop : checkTxInputsLoop nSpendHeight view start prevouts = .ok (total, view')) :
    view.Writes [] view' ∧ (∀ p ∈ prevouts, (view.utxo p).isSome) ∧
      (∀ p ∈ prevouts, ∀ coin, view.utxo p = some coin → moneyRange coin.out.nValue = true) ∧
      total = start + coinsValue (prevouts.filterMap view.utxo) := by
  induction prevouts generalizing view start with
  | nil =>
    obtain ⟨rfl, rfl⟩ := hloop
    exact ⟨CCoinsViewCache.Writes.refl hwf, by simp, by simp, by simp [coinsValue]⟩
  | cons prevout rest ih =>
    obtain ⟨hval, hlog⟩ := accessCoin_spec hwf prevout
    simp only [checkTxInputsLoop, bind_ok_iff, require_ok_iff] at hloop
    obtain ⟨-, hunspent, -, -, -, hrange, hrest⟩ := hloop
    obtain ⟨hreads, hall, hranges, htotal⟩ := ih hlog.wf hrest
    rw [Coin.unspent?_of_unspent (by simpa using hunspent)] at hval
    rw [hlog.utxo_nil] at hall hranges htotal
    refine ⟨hlog.trans hreads, ?_, ?_, ?_⟩
    · intro p hp
      rcases mem_cons.1 hp with rfl | hp
      · rw [← hval]
        rfl
      · exact hall p hp
    · intro p hp
      rcases mem_cons.1 hp with rfl | hp
      · intro coin hcoin
        obtain rfl := Option.some.inj (hval.trans hcoin)
        exact (Bool.and_eq_true_iff.1 hrange).1
      · exact hranges p hp
    · rw [htotal, filterMap_cons_some hval.symm]
      simp [coinsValue, add_assoc]

/-- `CheckTxInputs` of a transaction that is no coinbase. -/
theorem checkTxInputs_spec (hwf : view.Wf) {txfee : CAmount}
    (hcheck : checkTxInputs tx view nSpendHeight = .ok (txfee, view')) :
    view.Writes [] view' ∧ (∀ p ∈ tx.prevouts, (view.utxo p).isSome) ∧
      (∀ p ∈ tx.prevouts, ∀ coin, view.utxo p = some coin → moneyRange coin.out.nValue = true) ∧
      txfee = coinsValue (tx.prevouts.filterMap view.utxo) - tx.valueOut := by
  simp only [checkTxInputs, bind_ok_iff, require_ok_iff, lift_ok_iff,
    pure_ok_iff, Prod.exists, Prod.mk.injEq] at hcheck
  obtain ⟨-, -, nValueIn, last, hloop, valueOut, hout, -, -, -, -, rfl, rfl⟩ := hcheck
  have hasked : view.Writes [] (view.haveInputs tx).2 := by
    unfold haveInputs
    split
    · exact CCoinsViewCache.Writes.refl hwf
    · exact (haveCoins_spec hwf tx.prevouts).2
  obtain ⟨hreads, hall, hranges, htotal⟩ := checkTxInputsLoop_spec hasked.wf hloop
  rw [hasked.utxo_nil] at hall hranges htotal
  refine ⟨hasked.trans hreads, hall, hranges, ?_⟩
  rw [htotal, tx.getValueOut_eq hout, zero_add]

theorem isSpent_of_nonneg {coin : Coin} (hval : 0 ≤ coin.out.nValue) : coin.isSpent = false := by
  simp only [Coin.isSpent, CTxOut.isNull, beq_eq_false_iff_ne, ne_eq]
  intro hnull
  rw [hnull] at hval
  exact absurd hval (by decide)

namespace CCoinsViewCache

open CTransaction (createsFrom)

variable {start : ℕ} {txid : Uint256} {vout : List CTxOut} {fCoinbase : Bool}

/-- `AddCoins` adds the spendable outputs if it asks first, may overwrite, or knows the outpoints.
-/
theorem addCoinsFrom_writes {check : Bool} (hwf : view.Wf)
    (hsafe : check = true ∨ fCoinbase = true ∨
      ∀ o ∈ keys (createsFrom txid fCoinbase nHeight start vout), view.Known o)
    (hadd : addCoinsFrom txid fCoinbase nHeight check view start vout = .ok view') :
    view.Writes (createsFrom txid fCoinbase nHeight start vout) view' := by
  induction vout generalizing view start with
  | nil =>
    simp only [addCoinsFrom, Except.ok.injEq] at hadd
    exact hadd ▸ Writes.refl hwf
  | cons out rest ih =>
    let coin : Coin := ⟨out, fCoinbase, nHeight⟩
    -- the question asked before the coin is added only reads
    obtain ⟨overwrite, asked, hasked, hreads, hin⟩ : ∃ overwrite asked,
        (if check then view.haveCoin ⟨txid, start⟩ else (fCoinbase, view)) =
          (overwrite, asked) ∧ view.Writes [] asked ∧
        (out.scriptPubKey.isUnspendable = false →
          overwrite = true ∨ asked.Known ⟨txid, start⟩) := by
      cases check with
      | false =>
        refine ⟨fCoinbase, view, rfl, Writes.refl hwf, fun hscr => ?_⟩
        rcases hsafe with hcheck | hcbase | hin
        · cases hcheck
        · exact .inl hcbase
        · exact .inr (hin _ (by simp [createsFrom, mem_keys_addWrites, hscr]))
      | true =>
        obtain ⟨hf, hreads⟩ := haveCoin_spec hwf ⟨txid, start⟩
        refine ⟨(view.haveCoin ⟨txid, start⟩).1, (view.haveCoin ⟨txid, start⟩).2, rfl,
          hreads, fun _ => ?_⟩
        cases hutxo : view.utxo ⟨txid, start⟩ with
        | some coin => exact .inl (by rw [hf, hutxo]; rfl)
        | none => exact .inr (known_of_utxo_none (by rw [hreads.utxo_nil]; exact hutxo))
    simp only [addCoinsFrom, hasked] at hadd
    rcases hfst : asked.addCoin ⟨txid, start⟩ coin overwrite with fault | next
    · simp only [coin] at hfst
      simp [hfst] at hadd
    · have hlog := hreads.trans (addCoin_writes hreads.wf hin hfst)
      simp only [coin] at hfst
      simp only [hfst] at hadd
      refine hlog.trans (ih hlog.wf ?_ hadd)
      rcases hsafe with hcheck | hcbase | hall
      · exact .inl hcheck
      · exact .inr (.inl hcbase)
      · refine .inr (.inr fun o ho => hlog.known o (hall o ?_))
        rw [createsFrom, keys_append]
        exact mem_append_right _ ho

/-- Without permission to overwrite there was no coin where one is added. -/
theorem utxo_none_of_addCoinsFrom (hwf : view.Wf)
    (hin : ∀ o ∈ keys (createsFrom txid false nHeight start vout), view.Known o)
    (hadd : addCoinsFrom txid false nHeight false view start vout = .ok view') :
    ∀ o ∈ keys (createsFrom txid false nHeight start vout), view.utxo o = none := by
  induction vout generalizing view start with
  | nil => simp [createsFrom]
  | cons out rest ih =>
    intro o ho
    rcases hfst : view.addCoin ⟨txid, start⟩ ⟨out, false, nHeight⟩ false with fault | next
    · simp [addCoinsFrom, hfst] at hadd
    · simp only [createsFrom, keys_append, mem_append, mem_keys_addWrites] at hin ho
      have hhead (hscr : out.scriptPubKey.isUnspendable = false) : view.Known ⟨txid, start⟩ :=
        hin _ (.inl ⟨hscr, rfl⟩)
      have hlog := addCoin_writes hwf (fun hscr => .inr (hhead hscr)) hfst
      have htail : addCoinsFrom txid false nHeight false next (start + 1) rest = .ok view' := by
        simpa [addCoinsFrom, hfst] using hadd
      rcases ho with ⟨hscr, rfl⟩ | hrest
      · exact utxo_none_of_addCoin (hhead hscr) hscr hfst
      · -- the coin just added is under a smaller index
        have hlater := ih hlog.wf (fun o ho => hlog.known o (hin o (.inr ho))) htail o hrest
        have hkey : o ∉ keys (addWrites ⟨txid, start⟩ ⟨out, false, nHeight⟩) := by
          intro hmem
          have hge := mem_keys_createsFrom_ge hrest
          rw [(mem_keys_addWrites.1 hmem).2] at hge
          simp at hge
        rwa [hlog.utxo, apply_of_notMem hkey] at hlater

/-- Outputs not null are always added if they may overwrite. -/
theorem addCoinsFrom_ok (hwf : view.Wf) (hvout : ∀ out ∈ vout, 0 ≤ out.nValue) :
    ∃ view', addCoinsFrom txid fCoinbase nHeight true view start vout = .ok view' := by
  induction vout generalizing view start with
  | nil => exact ⟨view, rfl⟩
  | cons out rest ih =>
    obtain ⟨hf, hreads⟩ := haveCoin_spec hwf ⟨txid, start⟩
    have hunspent : Coin.isSpent ⟨out, fCoinbase, nHeight⟩ = false :=
      isSpent_of_nonneg (hvout out mem_cons_self)
    have hsafe : (view.haveCoin ⟨txid, start⟩).1 = true ∨
        (view.haveCoin ⟨txid, start⟩).2.utxo ⟨txid, start⟩ = none := by
      rw [hf, hreads.utxo_nil]
      cases view.utxo ⟨txid, start⟩ <;> simp
    obtain ⟨next, hadd⟩ := addCoin_ok hunspent hsafe
    have hlog := addCoin_writes hreads.wf (fun _ => hsafe.imp_right known_of_utxo_none) hadd
    obtain ⟨last, hlast⟩ := ih hlog.wf (forall_mem_cons.1 hvout).2
    exact ⟨last, by simpa [addCoinsFrom, hadd] using hlast⟩

end CCoinsViewCache

theorem updateCoins_spec (hwf : view.Wf) {undo : CTxUndo}
    (hin : ∀ o ∈ keys (tx.creates nHeight), view.Known o)
    (hcbase : tx.isCoinBase = true → ∀ o ∈ keys (tx.creates nHeight), view.utxo o = none)
    (hins : ∀ p ∈ tx.inputs, (view.utxo p).isSome)
    (hranges : ∀ p ∈ tx.inputs, ∀ coin, view.utxo p = some coin →
      moneyRange coin.out.nValue = true)
    (hupd : updateCoins tx view nHeight = .ok (undo, view')) :
    TxFits nHeight view.utxo tx ∧ view.Writes (tx.writes nHeight) view' ∧
      (tx.inputs.Nodup ∨ view.base.hashes ≠ [] →
        undo.reread = ⟨undoCoins view.utxo tx.inputs⟩) := by
  simp only [updateCoins, bind_ok_iff, pure_ok_iff, Prod.exists, Prod.mk.injEq] at hupd
  obtain ⟨spent, mid, hspend, last, hadd, rfl, rfl⟩ := hupd
  obtain ⟨hspends, hcoins⟩ := spendCoins_spec hwf hspend
  have hmid : ∀ o ∈ keys (tx.creates nHeight), mid.Known o :=
    fun o ho => hspends.known o (hin o ho)
  have hcreates := addCoinsFrom_writes hspends.wf (.inr (.inr hmid)) hadd
  refine ⟨⟨hins, fun o ho => ?_⟩, hspends.trans hcreates, fun hbase => ?_⟩
  · cases hfst : tx.isCoinBase with
    | true =>
      have hno : tx.inputs = [] := by simp [inputs, hfst]
      rw [spends, hno]
      exact hcbase hfst o ho
    | false =>
      have hutxo : mid.utxo = apply tx.spends view.utxo := hspends.utxo
      rw [← hutxo]
      have hcreates : tx.creates nHeight = createsFrom tx.getHash false nHeight 0 tx.vout := by
        rw [creates, hfst]
      rw [hcreates] at ho hmid
      rw [addCoins, hfst] at hadd
      exact utxo_none_of_addCoinsFrom hspends.wf hmid hadd o ho
  · rw [CTxUndo.reread, hcoins ?_ hranges (hbase.imp_left fun hnd => ⟨hnd, hins⟩)]
    intro p hp hnone
    have hsome := hins p hp
    rw [hnone] at hsome
    cases hsome

/-- What an accepted transaction does to the state. -/
structure ConnectsTx (ctx : ValidationContext) (nHeight i : ℕ) (tx : CTransaction)
    (s s' : ConnectState) : Prop where
  fits : TxFits nHeight s.view.utxo tx
  writes : s.view.Writes (tx.writes nHeight) s'.view
  index : s'.index = s.index ++ indexTx ctx.options nHeight i tx (tx.coins s.view.utxo)
  undo : ∃ undo, s'.vtxundo = s.vtxundo ++ (if 0 < i then [undo] else []) ∧
    (tx.inputs.Nodup ∨ s.view.base.hashes ≠ [] →
      undo.reread = ⟨undoCoins s.view.utxo tx.inputs⟩)
  fees : tx.isCoinBase = false →
    s'.nFees = s.nFees + (coinsValue (tx.coins s.view.utxo) - tx.valueOut)
  coinbaseFees : tx.isCoinBase = true → s'.nFees = s.nFees

theorem checkSpends_spec (hwf : s.view.Wf) {nFees : CAmount} {coins : List Coin}
    (hcheck : checkSpends ctx pindex tx s = .ok (nFees, coins, view')) :
    s.view.Writes [] view' ∧ (∀ p ∈ tx.inputs, (s.view.utxo p).isSome) ∧
      (∀ p ∈ tx.inputs, ∀ coin, s.view.utxo p = some coin →
        moneyRange coin.out.nValue = true) ∧
      coins = tx.coins s.view.utxo ∧
      (tx.isCoinBase = true → nFees = s.nFees) ∧
      (tx.isCoinBase = false →
        nFees = s.nFees + (coinsValue (tx.coins s.view.utxo) - tx.valueOut)) := by
  cases hcbase : tx.isCoinBase with
  | true =>
    have hno : tx.inputs = [] := by simp [inputs, hcbase]
    simp only [checkSpends, hcbase, if_true, Except.ok.injEq, Prod.mk.injEq] at hcheck
    obtain ⟨rfl, rfl, rfl⟩ := hcheck
    refine ⟨CCoinsViewCache.Writes.refl hwf, ?_, ?_, ?_, fun _ => rfl, fun h => (by cases h)⟩
    · simp [hno]
    · simp [hno]
    · rw [coins, hno]
      rfl
  | false =>
    have hins : tx.inputs = tx.prevouts := by simp [inputs, hcbase]
    simp only [checkSpends, hcbase, Bool.false_eq_true, if_false, bind_ok_iff,
      require_ok_iff, pure_ok_iff, Prod.exists, Prod.mk.injEq] at hcheck
    obtain ⟨txfee, mid, hfee, -, -, -, -, rfl, rfl, rfl⟩ := hcheck
    obtain ⟨hreads, hall, hranges, hval⟩ := checkTxInputs_spec hwf hfee
    obtain ⟨haccess, hmore⟩ := accessCoins_spec hreads.wf tx.prevouts
    rw [hreads.utxo_nil] at haccess
    rw [coins, hins]
    refine ⟨hreads.trans hmore, hall, hranges, haccess hall, fun h => (by cases h), fun _ => ?_⟩
    rw [hval]

theorem connectTx_spec (hwf : s.view.Wf)
    (hin : ∀ o ∈ keys (tx.creates pindex.nHeight), s.view.Known o)
    (hcbase : tx.isCoinBase = true → ∀ o ∈ keys (tx.creates pindex.nHeight), s.view.utxo o = none)
    (hconn : connectTx ctx pindex i tx s = .ok s') :
    ConnectsTx ctx pindex.nHeight i tx s s' := by
  simp only [connectTx, bind_ok_iff, require_ok_iff, lift_ok_iff, pure_ok_iff, Prod.exists] at hconn
  obtain ⟨nFees, coins, mid, hcheck, -, -, -, -, undo, last, hupd, rfl⟩ := hconn
  obtain ⟨hreads, hins, hranges, hcoins, hsame, hfees⟩ := checkSpends_spec hwf hcheck
  have hutxo := hreads.utxo_nil
  obtain ⟨hfits, hlog, hundo⟩ := updateCoins_spec hreads.wf (fun o ho => hreads.known o (hin o ho))
    (by rw [hutxo]; exact hcbase) (by rw [hutxo]; exact hins) (by rw [hutxo]; exact hranges) hupd
  rw [hutxo] at hfits hundo
  rw [hreads.base.hashes] at hundo
  exact ⟨hfits, hreads.trans hlog, by rw [hcoins], ⟨undo, rfl, hundo⟩, hfees, hsame⟩

def feesTxs (nHeight : ℕ) : UtxoMap → List CTransaction → CAmount
  | _, [] => 0
  | utxo, tx :: rest =>
    coinsValue (tx.coins utxo) - tx.valueOut + feesTxs nHeight (afterTx nHeight utxo tx) rest

/-- What accepted transactions do to the state. -/
structure ConnectsTxs (ctx : ValidationContext) (nHeight i : ℕ) (txs : List CTransaction)
    (s s' : ConnectState) : Prop where
  fits : TxsFit nHeight s.view.utxo txs
  writes : s.view.Writes (txs.flatMap fun tx => tx.writes nHeight) s'.view
  index : s'.index = s.index ++ indexTxs ctx.options nHeight i s.view.utxo txs
  undo : 0 < i → ∃ undos, s'.vtxundo = s.vtxundo ++ undos ∧
    ((∀ tx ∈ txs, tx.inputs.Nodup) ∨ s.view.base.hashes ≠ [] →
      (undos.map CTxUndo.reread).map some = blockUndos nHeight s.view.utxo txs)
  fees : s'.nFees = s.nFees + feesTxs nHeight s.view.utxo txs

theorem connectTxs_spec (hwf : s.view.Wf) (hcbase : ∀ tx ∈ txs, tx.isCoinBase = false)
    (hin : ∀ tx ∈ txs, ∀ o ∈ keys (tx.creates pindex.nHeight), s.view.Known o)
    (hconn : connectTxs ctx pindex i txs s = .ok s') :
    ConnectsTxs ctx pindex.nHeight i txs s s' := by
  induction txs generalizing i s with
  | nil =>
    simp only [connectTxs, Except.ok.injEq] at hconn
    subst hconn
    exact ⟨trivial, CCoinsViewCache.Writes.refl hwf, by simp [indexTxs],
      fun _ => ⟨[], by simp, fun _ => rfl⟩, by simp [feesTxs]⟩
  | cons tx rest ih =>
    simp only [connectTxs, bind_ok_iff] at hconn
    obtain ⟨mid, hfst, hrest⟩ := hconn
    have hnot : tx.isCoinBase = false := hcbase tx mem_cons_self
    have hstep := connectTx_spec hwf (hin tx mem_cons_self)
      (fun h => absurd h (by simp [hnot])) hfst
    have hafter : mid.view.utxo = afterTx pindex.nHeight s.view.utxo tx := hstep.writes.utxo
    have hmore := ih hstep.writes.wf (forall_mem_cons.1 hcbase).2
      (fun other hother o ho => hstep.writes.known o
        (hin other (mem_cons_of_mem tx hother) o ho)) hrest
    refine ⟨⟨hstep.fits, hafter ▸ hmore.fits⟩, hstep.writes.trans hmore.writes, ?_, ?_, ?_⟩
    · rw [hmore.index, hstep.index, hafter, IndexChanges.append_assoc]
      rfl
    · intro hpos
      obtain ⟨undo, hundo, hfst⟩ := hstep.undo
      obtain ⟨undos, hundos, hothers⟩ := hmore.undo (by omega)
      refine ⟨undo :: undos, ?_, fun hbase => ?_⟩
      · rw [hundos, hundo, if_pos hpos, append_assoc]
        rfl
      · rw [List.map_cons, List.map_cons, hfst (hbase.imp_left fun hnd => hnd tx mem_cons_self),
          hothers ?_, blockUndos, hnot, hafter]
        · rfl
        · rw [hstep.writes.base.hashes]
          exact hbase.imp_left fun hnd => (forall_mem_cons.1 hnd).2
    · rw [hmore.fees, hstep.fees hnot, hafter, add_assoc]
      rfl

theorem mem_outpoints_of_mem_keys_creates {o : COutPoint}
    (hmem : o ∈ keys (tx.creates nHeight)) : o ∈ tx.outpoints := by
  obtain ⟨⟨_, value⟩, hwrite, rfl⟩ := mem_map.1 hmem
  obtain ⟨k, out, hout, -, rfl, -⟩ := mem_creates.1 hwrite
  simp only [outpoints, mem_map, mem_range]
  exact ⟨k, (List.getElem?_eq_some_iff.1 hout).1, rfl⟩

/-- No spendable output of the block is already unspent. -/
def FreshOutputs (nHeight : ℕ) (utxo : UtxoMap) (txs : List CTransaction) : Prop :=
  ∀ tx ∈ txs, ∀ o ∈ keys (tx.creates nHeight), utxo o = none

theorem checkBIP30_spec {params : ConsensusParams} (hwf : view.Wf)
    (hcheck : checkBIP30 params pprev block view = .ok view') (nHeight : ℕ) :
    view.Writes [] view' ∧
      (fEnforceBIP30 params pprev = true → FreshOutputs nHeight view.utxo block.vtx) := by
  cases henforce : fEnforceBIP30 params pprev with
  | false =>
    simp only [checkBIP30, henforce, Bool.false_eq_true, if_false, Except.ok.injEq] at hcheck
    exact ⟨hcheck ▸ CCoinsViewCache.Writes.refl hwf, fun h => (by cases h)⟩
  | true =>
    simp only [checkBIP30, henforce, if_true, bind_ok_iff, require_ok_iff, pure_ok_iff] at hcheck
    obtain ⟨-, hno, rfl⟩ := hcheck
    obtain ⟨hall, hreads⟩ := haveAny_spec hwf (block.vtx.flatMap outpoints)
    refine ⟨hreads, fun _ tx htx o ho => hall.1 (by simpa using hno) o ?_⟩
    exact mem_flatMap.2 ⟨tx, htx, mem_outpoints_of_mem_keys_creates ho⟩

/-- What the part of `ConnectBlock` on the coins establishes. -/
structure ConnectsBlock (ctx : ValidationContext) (nHeight : ℕ) (block : CBlock)
    (view : CCoinsViewCache) (s : ConnectState) : Prop where
  fits : TxsFit nHeight view.utxo block.vtx
  writes : view.Writes (block.vtx.flatMap fun tx => tx.writes nHeight) s.view
  index : s.index = indexTxs ctx.options nHeight 0 view.utxo block.vtx
  undo : (∀ tx ∈ block.vtx, tx.inputs.Nodup) ∨ view.base.hashes ≠ [] →
    none :: (s.vtxundo.map CTxUndo.reread).map some = blockUndos nHeight view.utxo block.vtx
  reward : ∀ coinbase rest, block.vtx = coinbase :: rest →
    coinbase.valueOut ≤ feesTxs nHeight (afterTx nHeight view.utxo coinbase) rest +
      getBlockSubsidy nHeight ctx.params

theorem connectCoins_spec (hwf : view.Wf) (hchecked : block.Checked)
    (hfresh : fEnforceBIP30 ctx.params pprev = true ∨
      FreshOutputs pindex.nHeight view.utxo block.vtx)
    (hconn : connectCoins ctx block pprev pindex view = .ok s) :
    FreshOutputs pindex.nHeight view.utxo block.vtx ∧
      ConnectsBlock ctx pindex.nHeight block view s := by
  simp only [connectCoins, bind_ok_iff, require_ok_iff, lift_ok_iff, pure_ok_iff] at hconn
  obtain ⟨start, hbip30, last, htxs, valueOut, hval, -, hreward, -, -, rfl⟩ := hconn
  obtain ⟨hreads, henforced⟩ := checkBIP30_spec hwf hbip30 pindex.nHeight
  have hutxo := hreads.utxo_nil
  have hno : FreshOutputs pindex.nHeight view.utxo block.vtx := hfresh.elim henforced id
  have hin : ∀ tx ∈ block.vtx, ∀ o ∈ keys (tx.creates pindex.nHeight),
      start.Known o := fun tx htx o ho =>
    known_of_utxo_none (by rw [hutxo]; exact hno tx htx o ho)
  obtain ⟨coinbase, rest, hvtx, hfst, hothers⟩ := hchecked.shape
  rw [hvtx] at htxs hin
  simp only [connectTxs, bind_ok_iff] at htxs
  obtain ⟨mid, hcbase, hrest⟩ := htxs
  have hhead : coinbase ∈ block.vtx := by simp [hvtx]
  -- the coinbase may overwrite, but its outputs are fresh
  have hstep := connectTx_spec (s := ⟨start, 0, 0, [], .empty⟩) hreads.wf
    (hin coinbase mem_cons_self)
    (fun _ o ho => by rw [hutxo]; exact hno coinbase hhead o ho) hcbase
  have hafter : mid.view.utxo = afterTx pindex.nHeight view.utxo coinbase := by
    rw [hstep.writes.utxo, hutxo, afterTx]
  have hmore := connectTxs_spec hstep.writes.wf hothers (fun tx htx o ho => hstep.writes.known o
      (hin tx (mem_cons_of_mem coinbase htx) o ho)) hrest
  refine ⟨hno, ?_, ?_, ?_, ?_, ?_⟩
  · rw [hvtx]
    exact ⟨hutxo ▸ hstep.fits, hafter ▸ hmore.fits⟩
  · rw [hvtx]
    exact (hreads.trans hstep.writes).trans hmore.writes
  · rw [hmore.index, hstep.index, hafter, hvtx]
    simp only [indexTxs, hutxo, IndexChanges.empty_append]
  · intro hbase
    obtain ⟨undo, hundo, -⟩ := hstep.undo
    obtain ⟨undos, hundos, hundone⟩ := hmore.undo (by omega)
    rw [hvtx, blockUndos, hfst, ← hafter, ← hundone ?_, hundos, hundo]
    · rfl
    · rw [hstep.writes.base.hashes, hreads.base.hashes]
      exact hbase.imp_left fun hnd tx htx => hnd tx (by simp [hvtx, htx])
  · intro coinbase' rest' hvtx'
    rw [hvtx] at hvtx'
    obtain ⟨rfl, rfl⟩ := hvtx'
    rw [CBlock.coinbaseValueOut, hvtx] at hval
    have hfees : last.nFees =
        feesTxs pindex.nHeight (afterTx pindex.nHeight view.utxo coinbase) rest := by
      rw [hmore.fees, hstep.coinbaseFees hfst, hafter, zero_add]
    rw [← coinbase.getValueOut_eq hval, ← hfees]
    simpa using hreward

/-- What connecting a block on `pprev` leaves. -/
structure BlockConnected (ctx : ValidationContext) (store : BlockStore) (block : CBlock)
    (pprev pindex : CBlockIndex) (view view' : CCoinsViewCache) (store' : BlockStore) :
    Prop where
  checked : block.Checked
  hash : pindex.getBlockHash = block.getHash
  best : view.getBestBlock.1 = pprev.getBlockHash
  fresh : FreshOutputs pindex.nHeight view.utxo block.vtx
  fits : TxsFit pindex.nHeight view.utxo block.vtx
  reward : ∀ coinbase rest, block.vtx = coinbase :: rest →
    coinbase.valueOut ≤
      feesTxs pindex.nHeight (afterTx pindex.nHeight view.utxo coinbase) rest +
        getBlockSubsidy pindex.nHeight ctx.params
  utxo : view'.utxo = afterTxs pindex.nHeight view.utxo block.vtx
  wf : view'.Wf
  base : view.base.Stays view'.base
  hashBlock : view'.layer.hashBlock = pindex.getBlockHash
  blocks : store'.blocks = store.blocks
  undo : ∃ blockundo : CBlockUndo,
    store'.undo = (store.writeUndoDataForBlock blockundo pindex).undo ∧
    ((∀ tx ∈ block.vtx, tx.inputs.Nodup) ∨ view.base.hashes ≠ [] →
      none :: blockundo.reread.vtxundo.map some = blockUndos pindex.nHeight view.utxo block.vtx)
  blocktree : store'.blocktree = store.blocktree.writeConnected ctx.options pindex
    (indexTxs ctx.options pindex.nHeight 0 view.utxo block.vtx)

theorem BlockStore.writeUndoDataForBlock_rest (store : BlockStore) (blockundo : CBlockUndo)
    (pindex : CBlockIndex) :
    (store.writeUndoDataForBlock blockundo pindex).blocks = store.blocks ∧
      (store.writeUndoDataForBlock blockundo pindex).blocktree = store.blocktree := by
  unfold BlockStore.writeUndoDataForBlock
  split <;> exact ⟨rfl, rfl⟩

/-- What a successful `ConnectBlock` went through. The genesis block only becomes the best block. -/
theorem of_connectBlock
    (hconn : connectBlock ctx store block pindex view false = .ok (view', store')) :
    pindex.getBlockHash = block.getHash ∧
      checkBlock ctx.checks block true true = .ok () ∧
      pindex.hashPrevBlock = view.getBestBlock.1 ∧
      (block.getHash = ctx.params.hashGenesisBlock ∧
          view' = view.getBestBlock.2.setBestBlock pindex.getBlockHash ∧ store' = store ∨
        block.getHash ≠ ctx.params.hashGenesisBlock ∧ ∃ pprev s, pindex.pprev = some pprev ∧
          connectCoins ctx block pprev pindex view.getBestBlock.2 = .ok s ∧
          view' = s.view.setBestBlock pindex.getBlockHash ∧
          store' = { store.writeUndoDataForBlock ⟨s.vtxundo⟩ pindex with
            blocktree := (store.writeUndoDataForBlock ⟨s.vtxundo⟩ pindex).blocktree.writeConnected
              ctx.options pindex s.index }) := by
  simp only [connectBlock, bind_ok_iff, require_ok_iff, lift_ok_iff, decide_eq_true_eq] at hconn
  obtain ⟨-, hhash, ⟨⟩, hcheck, -, hbest, hrest⟩ := hconn
  refine ⟨hhash, hcheck, hbest, ?_⟩
  split at hrest
  · next hgen =>
    simp only [Bool.false_eq_true, if_false, pure_ok_iff, Prod.mk.injEq] at hrest
    exact .inl ⟨hgen, hrest.1.symm, hrest.2.symm⟩
  · next hgen =>
    cases hprev : pindex.pprev with
    | none => simp [hprev] at hrest
    | some pprev =>
      simp only [hprev, bind_ok_iff, Bool.false_eq_true, if_false, pure_ok_iff,
        Prod.mk.injEq] at hrest
      obtain ⟨s, hcoins, hview, hstore⟩ := hrest
      exact .inr ⟨hgen, pprev, s, rfl, hcoins, hview.symm, hstore.symm⟩

theorem blocks_of_connectBlock
    (hconn : connectBlock ctx store block pindex view false = .ok (view', store')) :
    store'.blocks = store.blocks := by
  rcases (of_connectBlock hconn).2.2.2 with ⟨-, -, rfl⟩ | ⟨-, pprev, s, -, -, -, rfl⟩
  · rfl
  · exact (store.writeUndoDataForBlock_rest ⟨s.vtxundo⟩ pindex).1

theorem connectBlock_spec (hwf : view.Wf) (hgen : block.getHash ≠ ctx.params.hashGenesisBlock)
    (hfresh : ∀ pprev, pindex.pprev = some pprev → fEnforceBIP30 ctx.params pprev = true ∨
      FreshOutputs pindex.nHeight view.utxo block.vtx)
    (hconn : connectBlock ctx store block pindex view false = .ok (view', store')) :
    ∃ pprev, pindex.pprev = some pprev ∧
      BlockConnected ctx store block pprev pindex view view' store' := by
  obtain ⟨hhash, hcheck, hbest, hrun⟩ := of_connectBlock hconn
  rcases hrun with ⟨hsame, -⟩ | ⟨-, pprev, s, hprev, hcoins, rfl, rfl⟩
  · exact absurd hsame hgen
  · have hchecked := checked_of_checkBlock hcheck
    obtain ⟨hutxo, hwf', hstays⟩ := getBestBlock_spec hwf
    obtain ⟨hno, hblk⟩ := connectCoins_spec hwf' hchecked
      (by rw [hutxo]; exact hfresh pprev hprev) hcoins
    obtain ⟨hblocks, htree⟩ := store.writeUndoDataForBlock_rest ⟨s.vtxundo⟩ pindex
    rw [hutxo] at hno
    refine ⟨pprev, hprev, hchecked, hhash, ?_, hno, hutxo ▸ hblk.fits,
      hutxo ▸ hblk.reward, ?_, hblk.writes.wf, hstays.trans hblk.writes.base.stays,
      rfl, hblocks, ?_, ?_⟩
    · rw [← hbest, CBlockIndex.hashPrevBlock, hprev]
      rfl
    · rw [setBestBlock_utxo, hblk.writes.utxo, hutxo, afterTxs_eq_apply]
    · refine ⟨⟨s.vtxundo⟩, rfl, fun hbase => hutxo ▸ hblk.undo (hbase.imp_right ?_)⟩
      rw [← List.length_pos_iff, ← List.length_pos_iff, hstays.depth]
      exact id
    · simp only [htree, hblk.index, hutxo]

end Catoshi
