/-
What connecting and disconnecting do to the address indexes: the address-unspent index follows the
coins.
-/
import Catoshi.UndoInverse

namespace Catoshi

open IndexChanges CTransaction WriteLog Function CBlockTreeDB
open List hiding keys keys_append

open CBlockTreeDB (unspentWrites)
open CCoinsViewCache (addWrites)

def CAddressUnspentKey.outpoint (key : CAddressUnspentKey) : COutPoint := ⟨key.txhash, key.index⟩

def CAddressUnspentKey.address (key : CAddressUnspentKey) : ℕ × Uint160 :=
  (key.type, key.hashBytes)

def Coin.indexed (address : ℕ × Uint160) (coin : Coin) : Option CAddressUnspentValue :=
  if coin.out.scriptPubKey.address = some address then
    some ⟨coin.out.nValue, coin.out.scriptPubKey, coin.nHeight⟩
  else
    none

/-- The coins that pay to an address, by the keys of the address-unspent index. -/
def projectUnspent (utxo : UtxoMap) (key : CAddressUnspentKey) : Option CAddressUnspentValue :=
  (utxo key.outpoint).bind (Coin.indexed key.address)

theorem unspentWrites_append (first second : List (CAddressUnspentKey × CAddressUnspentValue)) :
    unspentWrites (first ++ second) = unspentWrites first ++ unspentWrites second :=
  map_append

/-- Coins that pay to other addresses have no entry. -/
theorem bind_indexed_of_ne {address : ℕ × Uint160} {found : Option Coin}
    (hne : ∀ coin, found = some coin → coin.out.scriptPubKey.address ≠ some address) :
    found.bind (Coin.indexed address) = none := by
  cases found with
  | none => rfl
  | some coin => rw [Option.bind_some, Coin.indexed, if_neg (hne coin rfl)]

variable {script : CScript}

/-- A script nobody can spend pays to no address. -/
theorem address_of_unspendable (hscr : script.isUnspendable = true) : script.address = none := by
  cases haddress : script.address with
  | none => rfl
  | some address =>
    rw [CScript.spendable_of_address haddress] at hscr
    cases hscr

section Unspent

variable {options : IndexOptions} (hon : options.fAddressIndex = true)

include hon

theorem apply_unspentEvent_apply (script : CScript) (o : COutPoint) (value : CAddressUnspentValue)
    (table : CAddressUnspentKey → Option CAddressUnspentValue) (key : CAddressUnspentKey) :
    apply (unspentWrites (unspentEvent options script o value)) table key =
      if key.outpoint = o ∧ script.address = some key.address then
        if value.isNull then none else some value
      else
        table key := by
  cases haddress : script.address with
  | none => simp [unspentEvent, haddress, unspentWrites]
  | some address =>
    by_cases hkey : key = ⟨address.1, address.2, o.hash, o.n⟩
    · subst hkey
      simp [unspentEvent, haddress, hon, unspentWrites, CAddressUnspentKey.outpoint,
        CAddressUnspentKey.address]
    · have hnot : ¬ (key.outpoint = o ∧ some address = some key.address) := by
        rintro ⟨rfl, haddr⟩
        obtain rfl := Option.some.inj haddr
        exact hkey rfl
      rw [if_neg hnot]
      simp [unspentEvent, haddress, hon, unspentWrites, update_of_ne hkey]

variable {nHeight : ℕ} {utxo : UtxoMap} {o : COutPoint}

theorem apply_unspentEvent {value : CAddressUnspentValue} {after : Option Coin}
    (hold : ∀ coin, utxo o = some coin → ∀ address, coin.out.scriptPubKey.address = some address →
      script.address = some address)
    (hafter : ∀ coin, after = some coin → coin.out.scriptPubKey = script ∧
      value = ⟨coin.out.nValue, script, coin.nHeight⟩) (hnull : value.isNull = after.isNone) :
    apply (unspentWrites (unspentEvent options script o value))
      (projectUnspent utxo) = projectUnspent (update utxo o after) := by
  funext key
  rw [apply_unspentEvent_apply hon, projectUnspent, projectUnspent]
  by_cases hkey : key.outpoint = o
  · rw [hkey, update_self]
    by_cases haddress : script.address = some key.address
    · rw [if_pos ⟨rfl, haddress⟩, hnull]
      cases after with
      | none => rfl
      | some coin =>
        obtain ⟨hscr, hval⟩ := hafter coin rfl
        simp [Coin.indexed, hscr, haddress, hval]
    · rw [if_neg fun hboth => haddress hboth.2, bind_indexed_of_ne, bind_indexed_of_ne]
      · intro coin hcoin
        rw [(hafter coin hcoin).1]
        exact haddress
      · exact fun coin hcoin hpays => haddress (hold coin hcoin _ hpays)
  · rw [if_neg fun hboth => hkey hboth.1, update_of_ne hkey]

theorem apply_unspentEvent_null
    (hold : ∀ coin, utxo o = some coin → coin.out.scriptPubKey = script) :
    apply (unspentWrites (unspentEvent options script o .null))
      (projectUnspent utxo) = projectUnspent (update utxo o none) :=
  apply_unspentEvent hon (fun coin hcoin _ hpays => hold coin hcoin ▸ hpays)
    (fun _ hno => by cases hno) rfl

/-- A coin comes in where no address is paid. -/
theorem apply_unspentEvent_coin
    (hold : ∀ found, utxo o = some found → found.out.scriptPubKey.address = none) {coin : Coin}
    (hcoin : coin.isSpent = false) :
    apply (unspentWrites (unspentEvent options coin.out.scriptPubKey o
        ⟨coin.out.nValue, coin.out.scriptPubKey, coin.nHeight⟩)) (projectUnspent utxo) =
      projectUnspent (update utxo o (some coin)) := by
  refine apply_unspentEvent hon (fun found hf address hpays => ?_) (fun other ho => ?_) hcoin
  · rw [hold found hf] at hpays
    cases hpays
  · cases ho
    exact ⟨rfl, rfl⟩

variable {outs : List COutPoint} {txid : Uint256} {fCoinbase : Bool} {k : ℕ} {vout : List CTxOut}
  {tx : CTransaction} {txs : List CTransaction}

/-- The events of the inputs take the spent coins out. -/
theorem apply_indexInputs (hnd : outs.Nodup) (hall : ∀ o ∈ outs, (utxo o).isSome) (nHeight i : ℕ)
    (txhash : Uint256) (j : ℕ) :
    apply (unspentWrites (indexInputs options nHeight i txhash j
        (outs.zip (outs.filterMap utxo))).addressUnspentIndex) (projectUnspent utxo) =
      projectUnspent (apply (erases outs) utxo) := by
  induction outs generalizing utxo j with
  | nil => rfl
  | cons out rest ih =>
    rw [nodup_cons] at hnd
    obtain ⟨coin, hcoin⟩ := Option.isSome_iff_exists.1 (hall out mem_cons_self)
    have hsame : ∀ o ∈ rest, update utxo out none o = utxo o := fun o ho =>
      update_of_ne (fun heq : o = out => hnd.1 (heq ▸ ho)) _ _
    have hcoins : rest.filterMap utxo = rest.filterMap (update utxo out none) :=
      filterMap_congr fun o ho => (hsame o ho).symm
    rw [filterMap_cons_some hcoin, zip_cons_cons, indexInputs,
      addressUnspentIndex_append, unspentWrites_append, apply_append,
      hcoins]
    have hold : ∀ other, utxo out = some other →
        other.out.scriptPubKey = coin.out.scriptPubKey := by
      intro other hother
      rw [hcoin] at hother
      cases hother
      rfl
    simp only [indexInput]
    rw [apply_unspentEvent_null hon hold, ih hnd.2 fun o ho => by
      rw [hsame o ho]
      exact hall o (mem_cons_of_mem out ho)]
    rfl

/-- The events of the outputs put the new coins in. An unspendable output pays to no address. -/
theorem apply_indexOutputs
    (hfresh : ∀ o ∈ keys (createsFrom txid fCoinbase nHeight k vout), utxo o = none)
    (hvout : ∀ out ∈ vout, 0 ≤ out.nValue) (i : ℕ) :
    apply (unspentWrites (indexOutputs options nHeight i txid k vout).addressUnspentIndex)
        (projectUnspent utxo) =
      projectUnspent (apply (createsFrom txid fCoinbase nHeight k vout) utxo) := by
  induction vout generalizing utxo k with
  | nil => rfl
  | cons out rest ih =>
    rw [indexOutputs, addressUnspentIndex_append, unspentWrites_append, createsFrom, apply_append]
    rw [createsFrom, keys_append] at hfresh
    have hrest : ∀ other ∈ rest, 0 ≤ other.nValue := (forall_mem_cons.1 hvout).2
    cases hscr : out.scriptPubKey.isUnspendable with
    | true =>
      simp only [indexOutput, unspentEvent, address_of_unspendable hscr, addWrites, hscr, if_true]
      exact ih (fun o ho => hfresh o (mem_append_right _ ho)) hrest
    | false =>
      let coin : Coin := ⟨out, fCoinbase, nHeight⟩
      have hadd : addWrites ⟨txid, k⟩ coin = [(⟨txid, k⟩, some coin)] := by
        simp [addWrites, coin, hscr]
      have hno : utxo ⟨txid, k⟩ = none := by
        refine hfresh _ (mem_append_left _ ?_)
        rw [hadd]
        exact mem_singleton_self _
      have hunspent : coin.isSpent = false := isSpent_of_nonneg (hvout out mem_cons_self)
      have hold : ∀ found, utxo ⟨txid, k⟩ = some found →
          found.out.scriptPubKey.address = none := by simp [hno]
      have hfst := apply_unspentEvent_coin hon hold hunspent
      simp only [indexOutput]
      rw [hfst, ih ?_ hrest, hadd]
      · rfl
      · intro o ho
        have hge := mem_keys_createsFrom_ge ho
        have hne : o ≠ ⟨txid, k⟩ := by
          rintro rfl
          simp at hge
        rw [update_of_ne hne]
        exact hfresh o (mem_append_right _ ho)

/-- The events of a transaction. -/
theorem apply_indexTx (hfits : TxFits nHeight utxo tx) (hnd : tx.inputs.Nodup)
    (hchecked : tx.Checked) (i : ℕ) :
    apply (unspentWrites (indexTx options nHeight i tx (tx.coins utxo)).addressUnspentIndex)
        (projectUnspent utxo) =
      projectUnspent (afterTx nHeight utxo tx) := by
  have houtputs := apply_indexOutputs hon hfits.outputs hchecked.vout_nonneg i
  rw [spends] at houtputs
  rw [indexTx, addressUnspentIndex_append, unspentWrites_append,
    apply_append, coins, apply_indexInputs hon hnd hfits.inputs,
    houtputs, afterTx, writes, apply_append]
  rfl

/-- The events of the transactions of a block. -/
theorem apply_indexTxs (hfits : TxsFit nHeight utxo txs) (hnd : ∀ tx ∈ txs, tx.inputs.Nodup)
    (hchecked : ∀ tx ∈ txs, tx.Checked) (i : ℕ) :
    apply (unspentWrites (indexTxs options nHeight i utxo txs).addressUnspentIndex)
        (projectUnspent utxo) =
      projectUnspent (afterTxs nHeight utxo txs) := by
  induction txs generalizing utxo i with
  | nil => rfl
  | cons tx rest ih =>
    rw [indexTxs, addressUnspentIndex_append, unspentWrites_append,
      apply_append, apply_indexTx hon hfits.1 (hnd tx mem_cons_self) (hchecked tx mem_cons_self),
      ih hfits.2 (forall_mem_cons.1 hnd).2 (forall_mem_cons.1 hchecked).2,
      afterTxs_cons]

/-- The events that take the outputs back. -/
theorem apply_unindexOutputs
    (hmade : ∀ write ∈ createsFrom txid fCoinbase nHeight k vout, utxo write.1 = write.2) (i : ℕ) :
    apply (unspentWrites (unindexOutputs options nHeight i txid k vout).addressUnspentIndex)
        (projectUnspent utxo) =
      projectUnspent (apply (erases (keys (createsFrom txid fCoinbase nHeight k vout))) utxo) := by
  induction vout generalizing k with
  | nil => rfl
  | cons out rest ih =>
    rw [unindexOutputs, addressUnspentIndex_append, unspentWrites_append, apply_append]
    rw [createsFrom] at hmade ⊢
    rw [ih fun write hwrite => hmade write (mem_append_right _ hwrite)]
    cases hscr : out.scriptPubKey.isUnspendable with
    | true =>
      simp only [unindexOutput, unspentEvent, address_of_unspendable hscr, addWrites,
        hscr, if_true, nil_append]
      rfl
    | false =>
      have hadd : addWrites ⟨txid, k⟩ ⟨out, fCoinbase, nHeight⟩ =
          [(⟨txid, k⟩, some ⟨out, fCoinbase, nHeight⟩)] := by
        simp [addWrites, hscr]
      rw [hadd] at hmade ⊢
      let later := erases (V := Coin) (keys (createsFrom txid fCoinbase nHeight (k + 1) rest))
      -- the later outputs are gone, this one is still there
      have hold : ∀ coin, apply later utxo ⟨txid, k⟩ = some coin →
          coin.out.scriptPubKey = out.scriptPubKey := by
        intro coin hcoin
        by_cases hmem : (⟨txid, k⟩ : COutPoint) ∈
            keys (createsFrom txid fCoinbase nHeight (k + 1) rest)
        · rw [apply_erases_of_mem hmem] at hcoin
          cases hcoin
        · rw [apply_erases_of_notMem hmem, hmade _ mem_cons_self] at hcoin
          cases hcoin
          rfl
      simp only [unindexOutput]
      rw [apply_unspentEvent_null hon hold, update_apply_erases]
      rfl

omit hon in
/-- A record without a coin pays to no address. -/
theorem address_of_restored {start : UtxoMap} (hno : utxo o = none) (hstart : start o = none)
    {found : Coin} (hf : apply (restores outs (undoCoins utxo outs)) start o = some found) :
    found.out.scriptPubKey.address = none := by
  induction outs generalizing utxo with
  | nil =>
    change start o = some found at hf
    rw [hstart] at hf
    cases hf
  | cons out outs ih =>
    rw [undoCoins, restores, apply_append, apply_cons, apply_nil] at hf
    by_cases heq : o = out
    · subst heq
      rw [update_self, hno, Option.getD_none] at hf
      rw [← Option.some.inj hf]
      rfl
    · rw [update_of_ne heq] at hf
      exact ih (by rw [update_of_ne heq, hno]) hf

/-- The events that put the inputs back. -/
theorem apply_unindexInputs {start : UtxoMap} (hsound : Sound utxo)
    (habsent : ∀ o ∈ outs, start o = none) (nHeight i : ℕ) (hash : Uint256) (j : ℕ) :
    apply (unspentWrites (unindexInputs options nHeight i hash j outs
        (undoCoins utxo outs)).addressUnspentIndex) (projectUnspent start) =
      projectUnspent (apply (restores outs (undoCoins utxo outs)) start) := by
  induction outs generalizing utxo j with
  | nil => rfl
  | cons out outs ih =>
    have hmem : (utxo out).getD Coin.empty.reread ∈ undoCoins utxo (out :: outs) := mem_cons_self
    rw [forall_mem_cons] at habsent
    rw [undoCoins, unindexInputs, addressUnspentIndex_append, unspentWrites_append,
      apply_append, ih (hsound.update out) habsent.2]
    simp only [unindexInput]
    rw [apply_unspentEvent_coin hon (fun found => address_of_restored (update_self ..) habsent.1)
      (of_mem_undoCoins hsound hmem).1, restores, apply_append]
    rfl

/-- The events that take a transaction back. -/
theorem apply_unindexTx (hfits : TxFits nHeight utxo tx) (hsound : Sound utxo) (i : ℕ) :
    apply (unspentWrites (unindexTx options nHeight i tx
        (if tx.isCoinBase then none else some ⟨undoCoins utxo tx.inputs⟩)).addressUnspentIndex)
        (projectUnspent (afterTx nHeight utxo tx)) = projectUnspent utxo := by
  have hmade : ∀ write ∈ tx.creates nHeight, afterTx nHeight utxo tx write.1 = write.2 := by
    intro write hwrite
    rw [afterTx, writes, apply_append, apply_of_mem (tx.nodup_keys_creates nHeight) hwrite]
  have hundo := apply_txUndoWrites hfits
  unfold txUndoWrites at hundo
  rw [apply_append] at hundo
  unfold unindexTx
  rw [addressUnspentIndex_append, unspentWrites_append, apply_append,
    apply_unindexOutputs hon hmade]
  rw [apply_erases_afterTx hfits] at hundo
  have hspent : apply (erases (keys
      (createsFrom tx.getHash tx.isCoinBase nHeight 0 tx.vout))) (afterTx nHeight utxo tx) =
        apply tx.spends utxo := apply_erases_afterTx hfits
  rw [hspent]
  cases hcbase : tx.isCoinBase with
  | true =>
    simp only [hcbase, if_true] at hundo
    exact congrArg projectUnspent hundo
  | false =>
    have hins : tx.inputs = tx.prevouts := by simp [inputs, hcbase]
    simp only [hcbase, Bool.false_eq_true, if_false, hins] at hundo ⊢
    rw [apply_unindexInputs hon hsound, hundo]
    intro o ho
    rw [spends, hins]
    exact apply_erases_of_mem ho utxo

/-- The events that take the transactions of a block back. -/
theorem apply_unindexTxs (hfits : TxsFit nHeight utxo txs) (hchecked : ∀ tx ∈ txs, tx.Checked)
    (hheight : nHeight ≠ 0) (hsound : Sound utxo) (i : ℕ) :
    apply (unspentWrites (unindexTxs options nHeight i txs
        (blockUndos nHeight utxo txs)).addressUnspentIndex)
        (projectUnspent (afterTxs nHeight utxo txs)) = projectUnspent utxo := by
  induction txs generalizing utxo i with
  | nil => rfl
  | cons tx rest ih =>
    rw [forall_mem_cons] at hchecked
    rw [blockUndos, unindexTxs, addressUnspentIndex_append,
      unspentWrites_append, apply_append, afterTxs_cons,
      ih hfits.2 hchecked.2 (hsound.afterTx hheight hchecked.1),
      apply_unindexTx hon hfits.1 hsound]

end Unspent

section Tables

variable {options : IndexOptions} (hon : options.fAddressIndex = true) (db : CBlockTreeDB)
  (index : IndexChanges)

include hon

theorem content_writeDisconnected_unspent :
    content (db.writeDisconnected options index).addressUnspentIndex =
      apply (unspentWrites index.addressUnspentIndex) (content db.addressUnspentIndex) := by
  rw [writeDisconnected, if_pos hon]
  exact content_store _ _

theorem content_writeDisconnected_address :
    content (db.writeDisconnected options index).addressIndex =
      apply (erases (index.addressIndex.map Prod.fst)) (content db.addressIndex) := by
  rw [writeDisconnected, if_pos hon, erases, map_map]
  exact content_store _ _

theorem content_writeConnected_unspent (pindex : CBlockIndex) :
    content (db.writeConnected options pindex index).addressUnspentIndex =
      apply (unspentWrites index.addressUnspentIndex) (content db.addressUnspentIndex) := by
  rw [writeConnected, if_pos hon]
  cases options.fSpentIndex <;> cases options.fTimestampIndex <;> exact content_store _ _

theorem content_writeConnected_address (pindex : CBlockIndex) :
    content (db.writeConnected options pindex index).addressIndex =
      apply (index.addressIndex.map fun change => (change.1, some change.2))
        (content db.addressIndex) := by
  rw [writeConnected, if_pos hon]
  cases options.fSpentIndex <;> cases options.fTimestampIndex <;> exact content_store _ _

end Tables

end Catoshi
