/-
What a block does to the unspent coins, on maps, and that undoing it gives the old map.
-/
import Catoshi.CoinsRefine
import Catoshi.Connect

namespace Catoshi

open CTransaction WriteLog

open CCoinsViewCache (addWrites)

namespace CTransaction

/-- The writes that remove the spent coins. -/
def spends (tx : CTransaction) : List (COutPoint × Option Coin) :=
  WriteLog.erases tx.inputs

/-- The writes that add the outputs from `k` on. -/
def createsFrom (txid : Uint256) (fCoinbase : Bool) (nHeight : ℕ) :
    ℕ → List CTxOut → List (COutPoint × Option Coin)
  | _, [] => []
  | k, out :: rest =>
    addWrites ⟨txid, k⟩ ⟨out, fCoinbase, nHeight⟩ ++ createsFrom txid fCoinbase nHeight (k + 1) rest

/-- The writes that add the spendable outputs. -/
def creates (tx : CTransaction) (nHeight : ℕ) : List (COutPoint × Option Coin) :=
  createsFrom tx.getHash tx.isCoinBase nHeight 0 tx.vout

def writes (tx : CTransaction) (nHeight : ℕ) : List (COutPoint × Option Coin) :=
  tx.spends ++ tx.creates nHeight

/-- The coins a transaction finds under its inputs. -/
def coins (tx : CTransaction) (utxo : UtxoMap) : List Coin := tx.inputs.filterMap utxo

end CTransaction

section

variable (nHeight : ℕ) (utxo : UtxoMap) (txs : List CTransaction)

def afterTx (tx : CTransaction) : UtxoMap :=
  WriteLog.apply (tx.writes nHeight) utxo

def afterTxs : UtxoMap :=
  txs.foldl (afterTx nHeight) utxo

/-- The transaction finds its inputs and replaces no other coin. -/
structure TxFits (nHeight : ℕ) (utxo : UtxoMap) (tx : CTransaction) : Prop where
  inputs : ∀ prevout ∈ tx.inputs, (utxo prevout).isSome
  outputs : ∀ outpoint ∈ WriteLog.keys (tx.creates nHeight),
    WriteLog.apply tx.spends utxo outpoint = none

def TxsFit (nHeight : ℕ) : UtxoMap → List CTransaction → Prop
  | _, [] => True
  | utxo, tx :: rest => TxFits nHeight utxo tx ∧ TxsFit nHeight (afterTx nHeight utxo tx) rest

/-- The undo record of inputs as it is read back. An input listed before has no coin left. -/
def undoCoins : UtxoMap → List COutPoint → List Coin
  | _, [] => []
  | utxo, out :: outs =>
    (utxo out).getD Coin.empty.reread :: undoCoins (Function.update utxo out none) outs

/-- The undo data of transactions from `utxo` on: none for a coinbase. -/
def blockUndos (nHeight : ℕ) : UtxoMap → List CTransaction → List (Option CTxUndo)
  | _, [] => []
  | utxo, tx :: rest =>
    (if tx.isCoinBase then none else some ⟨undoCoins utxo tx.inputs⟩) ::
      blockUndos nHeight (afterTx nHeight utxo tx) rest

/-- The coins each transaction of the list spends. -/
def undoTxs (nHeight : ℕ) : UtxoMap → List CTransaction → List CTxUndo
  | _, [] => []
  | utxo, tx :: rest => ⟨tx.coins utxo⟩ :: undoTxs nHeight (afterTx nHeight utxo tx) rest

/-- The index changes from transaction `i` on. -/
def indexTxs (options : IndexOptions) (nHeight : ℕ) :
    ℕ → UtxoMap → List CTransaction → IndexChanges
  | _, _, [] => .empty
  | i, utxo, tx :: rest =>
    indexTx options nHeight i tx (tx.coins utxo) ++
      indexTxs options nHeight (i + 1) (afterTx nHeight utxo tx) rest

@[simp]
theorem afterTxs_nil : afterTxs nHeight utxo [] = utxo := rfl

@[simp]
theorem afterTxs_cons (tx : CTransaction) (rest : List CTransaction) :
    afterTxs nHeight utxo (tx :: rest) = afterTxs nHeight (afterTx nHeight utxo tx) rest :=
  rfl

theorem afterTxs_eq_apply :
    afterTxs nHeight utxo txs = apply (txs.flatMap fun tx => tx.writes nHeight) utxo := by
  induction txs generalizing utxo with
  | nil => rfl
  | cons tx rest ih =>
    rw [afterTxs_cons, ih, List.flatMap_cons, apply_append, afterTx]

end

namespace CTransaction

variable {nHeight : ℕ} {outpoint : COutPoint}
  {txid : Uint256} {fCoinbase : Bool} {vout : List CTxOut} {start : ℕ} {value : Option Coin}
  {tx : CTransaction}

theorem mem_keys_addWrites {coin : Coin} {o : COutPoint} :
    o ∈ keys (addWrites outpoint coin) ↔
      coin.out.scriptPubKey.isUnspendable = false ∧ o = outpoint := by
  unfold addWrites
  split <;> simp [*]

/-- The outputs of a transaction are under its hash. -/
theorem mem_createsFrom :
    (outpoint, value) ∈ createsFrom txid fCoinbase nHeight start vout ↔
      ∃ k out, vout[k]? = some out ∧ out.scriptPubKey.isUnspendable = false ∧
        outpoint = ⟨txid, start + k⟩ ∧ value = some ⟨out, fCoinbase, nHeight⟩ := by
  induction vout generalizing start with
  | nil => simp [createsFrom]
  | cons first rest ih =>
    have hfst : (outpoint, value) ∈ addWrites ⟨txid, start⟩ ⟨first, fCoinbase, nHeight⟩ ↔
        first.scriptPubKey.isUnspendable = false ∧ outpoint = ⟨txid, start⟩ ∧
          value = some ⟨first, fCoinbase, nHeight⟩ := by
      unfold addWrites
      split <;> simp [*]
    rw [createsFrom, List.mem_append, ih, hfst]
    constructor
    · rintro (hmade | ⟨k, out, hout, hmade⟩)
      · exact ⟨0, first, rfl, hmade⟩
      · exact ⟨k + 1, out, hout, by rwa [add_comm k 1, ← add_assoc]⟩
    · rintro ⟨_ | k, out, hout, hmade⟩
      · cases hout
        exact .inl hmade
      · exact .inr ⟨k, out, hout, by rwa [add_comm k 1, ← add_assoc] at hmade⟩

theorem mem_creates :
    (outpoint, value) ∈ tx.creates nHeight ↔
      ∃ k out, tx.vout[k]? = some out ∧ out.scriptPubKey.isUnspendable = false ∧
        outpoint = ⟨tx.getHash, k⟩ ∧ value = some ⟨out, tx.isCoinBase, nHeight⟩ := by
  rw [creates, mem_createsFrom]
  simp only [zero_add]

theorem hash_of_mem_keys_creates (hmem : outpoint ∈ keys (tx.creates nHeight)) :
    outpoint.hash = tx.getHash := by
  obtain ⟨⟨_, value⟩, hwrite, rfl⟩ := List.mem_map.1 hmem
  obtain ⟨k, out, -, -, houtpoint, -⟩ := mem_creates.1 hwrite
  rw [houtpoint]

theorem mem_keys_createsFrom_ge
    (hmem : outpoint ∈ keys (createsFrom txid fCoinbase nHeight start vout)) :
    start ≤ outpoint.n := by
  obtain ⟨⟨_, value⟩, hwrite, rfl⟩ := List.mem_map.1 hmem
  obtain ⟨k, out, -, -, houtpoint, -⟩ := mem_createsFrom.1 hwrite
  rw [houtpoint]
  exact Nat.le_add_right start k

theorem nodup_keys_createsFrom (txid : Uint256) (fCoinbase : Bool) (nHeight : ℕ)
    (vout : List CTxOut) (start : ℕ) :
    (keys (createsFrom txid fCoinbase nHeight start vout)).Nodup := by
  induction vout generalizing start with
  | nil => exact List.nodup_nil
  | cons out rest ih =>
    rw [createsFrom, keys_append, addWrites]
    split
    · simpa using ih (start + 1)
    · rw [keys_cons, keys_nil, List.singleton_append, List.nodup_cons]
      refine ⟨fun hmem => ?_, ih (start + 1)⟩
      have hge := mem_keys_createsFrom_ge hmem
      simp at hge

theorem nodup_keys_creates (tx : CTransaction) (nHeight : ℕ) :
    (keys (tx.creates nHeight)).Nodup :=
  nodup_keys_createsFrom _ _ _ _ _

end CTransaction

variable {utxo : UtxoMap} {nHeight : ℕ}

theorem afterTx_cases {tx : CTransaction} {o : COutPoint} {coin : Coin}
    (hcoin : afterTx nHeight utxo tx o = some coin) :
    (o, some coin) ∈ tx.creates nHeight ∨
      o ∉ keys (tx.creates nHeight) ∧ o ∉ tx.inputs ∧ utxo o = some coin := by
  rw [afterTx, writes, apply_append] at hcoin
  by_cases hmem : o ∈ keys (tx.creates nHeight)
  · obtain ⟨⟨_, value⟩, hwrite, rfl⟩ := List.mem_map.1 hmem
    rw [apply_of_mem (tx.nodup_keys_creates nHeight) hwrite] at hcoin
    exact .inl (hcoin ▸ hwrite)
  · rw [apply_of_notMem hmem] at hcoin
    by_cases hspent : o ∈ tx.inputs
    · rw [spends, apply_erases_of_mem hspent] at hcoin
      cases hcoin
    · rw [spends, apply_erases_of_notMem hspent] at hcoin
      exact .inr ⟨hmem, hspent, hcoin⟩

/-- A property of coins that the outputs have stays one of all coins. -/
theorem afterTxs_forall {property : COutPoint → Coin → Prop} {txs : List CTransaction}
    (hold : ∀ o coin, utxo o = some coin → property o coin)
    (hnew : ∀ tx ∈ txs, ∀ o coin, (o, some coin) ∈ tx.creates nHeight → property o coin) :
    ∀ o coin, afterTxs nHeight utxo txs o = some coin → property o coin := by
  induction txs generalizing utxo with
  | nil => exact hold
  | cons tx rest ih =>
    refine ih ?_ (List.forall_mem_cons.1 hnew).2
    intro o coin hcoin
    rcases afterTx_cases hcoin with hmade | ⟨-, -, hkept⟩
    · exact hnew tx List.mem_cons_self o coin hmade
    · exact hold o coin hkept

theorem SpendableCoins.afterTxs (hspendable : SpendableCoins utxo) (nHeight : ℕ)
    (txs : List CTransaction) :
    SpendableCoins (afterTxs nHeight utxo txs) := by
  refine afterTxs_forall hspendable fun tx _ o coin hmade => ?_
  obtain ⟨k, out, -, hscr, -, hcoin⟩ := mem_creates.1 hmade
  cases hcoin
  exact hscr

section Sequences

variable {nHeight : ℕ} {utxo : UtxoMap}

theorem txsFit_append {first second : List CTransaction} :
    TxsFit nHeight utxo (first ++ second) ↔
      TxsFit nHeight utxo first ∧ TxsFit nHeight (afterTxs nHeight utxo first) second := by
  induction first generalizing utxo with
  | nil => simp [TxsFit]
  | cons tx rest ih => simp [TxsFit, ih, and_assoc]

theorem afterTxs_append (first second : List CTransaction) :
    afterTxs nHeight utxo (first ++ second) =
      afterTxs nHeight (afterTxs nHeight utxo first) second :=
  List.foldl_append

/-- A coin after some transactions was there before or made by one. -/
theorem known_of_afterTxs {txs : List CTransaction} {o : COutPoint}
    (hcoin : (afterTxs nHeight utxo txs o).isSome) :
    (utxo o).isSome ∨ ∃ made ∈ txs, o ∈ keys (made.creates nHeight) := by
  obtain ⟨coin, hf⟩ := Option.isSome_iff_exists.1 hcoin
  have hall : ∀ o coin, afterTxs nHeight utxo txs o = some coin →
      (utxo o).isSome ∨ ∃ made ∈ txs, o ∈ keys (made.creates nHeight) :=
    afterTxs_forall (fun o coin hold => .inl (hold ▸ rfl))
      fun tx htx o coin hnew => .inr ⟨tx, htx, List.mem_map_of_mem hnew⟩
  exact hall o coin hf

end Sequences

section Weight

variable {nHeight : ℕ} {utxo : UtxoMap} {support : Finset COutPoint} (weight : Coin → ℤ)

/-- Spending distinct coins takes away their weight. -/
theorem total_spends {inputs : List COutPoint} (hnd : inputs.Nodup)
    (hsupp : ∀ o ∈ inputs, o ∈ support) :
    total weight support (apply (erases inputs) utxo) =
      total weight support utxo - ((inputs.filterMap utxo).map weight).sum := by
  rw [total_apply (by rwa [keys_erases]) (by rwa [keys_erases])]
  congr 1
  clear hnd hsupp
  induction inputs with
  | nil => rfl
  | cons input rest ih =>
    rw [erases, List.map_cons, List.map_cons, List.sum_cons]
    rw [erases] at ih
    rw [ih]
    cases hcoin : utxo input with
    | none => simp [List.filterMap_cons_none hcoin]
    | some coin =>
      rw [List.filterMap_cons_some hcoin]
      simp only [List.map_cons, List.sum_cons, weightOf_none, weightOf_some]
      ring

theorem total_afterTx {tx : CTransaction} (hfits : TxFits nHeight utxo tx)
    (hnd : tx.inputs.Nodup) (hsupp : ∀ o ∈ keys (tx.writes nHeight), o ∈ support) :
    total weight support (afterTx nHeight utxo tx) =
      total weight support utxo - ((tx.coins utxo).map weight).sum +
        ((tx.creates nHeight).map fun write => weightOf weight write.2).sum := by
  rw [writes, keys_append] at hsupp
  have hspend : total weight support (apply tx.spends utxo) =
      total weight support utxo - ((tx.coins utxo).map weight).sum := by
    refine total_spends weight hnd fun o ho => hsupp o (List.mem_append_left _ ?_)
    rwa [spends, keys_erases]
  rw [afterTx, writes, apply_append, total_apply (tx.nodup_keys_creates nHeight)
      (fun o ho => hsupp o (List.mem_append_right _ ho))]
  congr 2
  -- nothing is overwritten, so only the new coins count
  refine List.map_congr_left fun write hwrite => ?_
  rw [hfits.outputs write.1 (List.mem_map_of_mem hwrite), weightOf_none, sub_zero]

end Weight

end Catoshi
