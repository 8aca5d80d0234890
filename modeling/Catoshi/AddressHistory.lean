/-
What happens to addresses along a chain, and that connecting a block collects exactly these events.
-/
import Catoshi.Chain
import Catoshi.IndexSpec

namespace Catoshi

open WriteLog CBlockIndex
open List hiding keys

section

variable (blocks : CBlockIndex → Option CBlock)

/-- Output `k` of transaction `i` of a block above the genesis block. -/
def MakesOutput (pindex : CBlockIndex) (i : ℕ) (tx : CTransaction) (k : ℕ) (out : CTxOut) : Prop :=
  ∃ pprev block, pindex.pprev = some pprev ∧ blocks pindex = some block ∧
    block.vtx[i]? = some tx ∧ tx.vout[k]? = some out

/-- Input `j` of transaction `i` spends `coin`, unspent after the transactions before. -/
def SpendsCoin (pindex : CBlockIndex) (i : ℕ)
    (tx : CTransaction) (j : ℕ) (prevout : COutPoint) (coin : Coin) : Prop :=
  ∃ pprev block, pindex.pprev = some pprev ∧ blocks pindex = some block ∧
    block.vtx[i]? = some tx ∧ tx.inputs[j]? = some prevout ∧
    afterTxs pindex.nHeight (utxoAt blocks pprev) (block.vtx.take i) prevout = some coin

inductive BlockEvent (blocks : CBlockIndex → Option CBlock) (pindex : CBlockIndex) :
    CAddressIndexKey → CAmount → Prop
  | received {i : ℕ} {tx : CTransaction} {k : ℕ} {out : CTxOut} {type : ℕ}
      {hashBytes : Uint160} (hmade : MakesOutput blocks pindex i tx k out)
      (haddress : out.scriptPubKey.address = some (type, hashBytes)) :
      BlockEvent blocks pindex ⟨type, hashBytes, pindex.nHeight, i, tx.getHash, k, false⟩ out.nValue
  | spent {i : ℕ} {tx : CTransaction} {j : ℕ} {prevout : COutPoint} {coin : Coin} {type : ℕ}
      {hashBytes : Uint160} (hspent : SpendsCoin blocks pindex i tx j prevout coin)
      (haddress : coin.out.scriptPubKey.address = some (type, hashBytes)) :
      BlockEvent blocks pindex ⟨type, hashBytes, pindex.nHeight, i, tx.getHash, j, true⟩
        (coin.out.nValue * -1)

/-- The outpoints of addresses a block makes or spends. -/
inductive BlockTouches (blocks : CBlockIndex → Option CBlock) (pindex : CBlockIndex) :
    CAddressUnspentKey → Prop
  | made {i : ℕ} {tx : CTransaction} {k : ℕ} {out : CTxOut} {type : ℕ} {hashBytes : Uint160}
      (hmade : MakesOutput blocks pindex i tx k out)
      (haddress : out.scriptPubKey.address = some (type, hashBytes)) :
      BlockTouches blocks pindex ⟨type, hashBytes, tx.getHash, k⟩
  | spent {i : ℕ} {tx : CTransaction} {j : ℕ} {prevout : COutPoint} {coin : Coin} {type : ℕ}
      {hashBytes : Uint160} (hspent : SpendsCoin blocks pindex i tx j prevout coin)
      (haddress : coin.out.scriptPubKey.address = some (type, hashBytes)) :
      BlockTouches blocks pindex ⟨type, hashBytes, prevout.hash, prevout.n⟩

/-- An event that undoing the block takes back: of an input listed again nothing is left. -/
def FirstListed (pindex : CBlockIndex) (key : CAddressIndexKey) : Prop :=
  ∀ block tx prevout, blocks pindex = some block → block.vtx[key.txindex]? = some tx →
    key.spending = true → tx.inputs[key.index]? = some prevout →
      prevout ∉ tx.inputs.take key.index

def AddressEvent (tip : Option CBlockIndex) (key : CAddressIndexKey) (amount : CAmount) : Prop :=
  ∃ pindex ∈ activeChain tip, BlockEvent blocks pindex key amount

/-- The address indexes show the chain up to `tip`. -/
structure CBlockTreeDB.IndexesAddresses (db : CBlockTreeDB)
    (blocks : CBlockIndex → Option CBlock) (tip : Option CBlockIndex) : Prop where
  unspent : content db.addressUnspentIndex = projectUnspent (utxoAtTip blocks tip)
  history : ∀ key amount, db.addressIndex.lookup key = some amount ↔
    AddressEvent blocks tip key amount

structure IndexChanges.Collects {E : Type} (field : IndexChanges → List E) : Prop where
  empty : field .empty = []
  append : ∀ first second, field (first ++ second) = field first ++ field second

end

section Members

variable {E : Type} {field : IndexChanges → List E} (hfield : IndexChanges.Collects field)
  {options : IndexOptions} {nHeight : ℕ}

include hfield

theorem field_indexInputs (i : ℕ) (txhash : Uint256) (start : ℕ) (spent : List (COutPoint × Coin)) :
    field (indexInputs options nHeight i txhash start spent) =
      (spent.zipIdx start).flatMap fun entry =>
        field (indexInput options nHeight i txhash entry.2 entry.1.1 entry.1.2) := by
  induction spent generalizing start with
  | nil => exact hfield.empty
  | cons first rest ih =>
    rw [indexInputs, hfield.append, ih, zipIdx_cons, flatMap_cons]

theorem field_indexOutputs (i : ℕ) (txhash : Uint256) (start : ℕ) (vout : List CTxOut) :
    field (indexOutputs options nHeight i txhash start vout) =
      (vout.zipIdx start).flatMap fun entry =>
        field (indexOutput options nHeight i txhash entry.2 entry.1) := by
  induction vout generalizing start with
  | nil => exact hfield.empty
  | cons first rest ih =>
    rw [indexOutputs, hfield.append, ih, zipIdx_cons, flatMap_cons]

theorem field_indexTxs (start : ℕ) (utxo : UtxoMap) (txs : List CTransaction) :
    field (indexTxs options nHeight start utxo txs) =
      ((txs.zip (undoTxs nHeight utxo txs)).zipIdx start).flatMap fun entry =>
        field (indexTx options nHeight entry.2 entry.1.1 entry.1.2.vprevout) := by
  induction txs generalizing start utxo with
  | nil => exact hfield.empty
  | cons tx rest ih =>
    rw [indexTxs, hfield.append, ih, undoTxs, zip_cons_cons, zipIdx_cons, flatMap_cons]

omit hfield in
theorem exists_getElem?_cons {A : Type} {first : A} {rest : List A} {P : ℕ → A → Prop} :
    (∃ j entry, (first :: rest)[j]? = some entry ∧ P j entry) ↔
      P 0 first ∨ ∃ j entry, rest[j]? = some entry ∧ P (j + 1) entry := by
  rw [← Nat.or_exists_add_one]
  simp

theorem mem_field_unindexInputs {change : E} {i : ℕ} {hash : Uint256} {start : ℕ}
    {outs : List COutPoint} {coins : List Coin} :
    change ∈ field (unindexInputs options nHeight i hash start outs coins) ↔
      ∃ j entry, (outs.zip coins)[j]? = some entry ∧
        change ∈ field (unindexInput options nHeight i hash (start + j) entry.1 entry.2.out
          entry.2.nHeight) := by
  induction outs generalizing coins start with
  | nil => simp [unindexInputs, hfield.empty]
  | cons out outs ih =>
    cases coins with
    | nil => simp [unindexInputs, hfield.empty]
    | cons coin coins =>
      rw [unindexInputs, hfield.append, mem_append, ih, or_comm, zip_cons_cons,
        exists_getElem?_cons]
      simp only [Nat.add_zero, Nat.add_assoc, Nat.add_comm 1]

theorem mem_field_unindexOutputs {change : E} {i : ℕ} {hash : Uint256} {start : ℕ}
    {vout : List CTxOut} :
    change ∈ field (unindexOutputs options nHeight i hash start vout) ↔
      ∃ k out, vout[k]? = some out ∧
        change ∈ field (unindexOutput options nHeight i hash (start + k) out) := by
  induction vout generalizing start with
  | nil => simp [unindexOutputs, hfield.empty]
  | cons out rest ih =>
    rw [unindexOutputs, hfield.append, mem_append, ih, or_comm, exists_getElem?_cons]
    simp only [Nat.add_zero, Nat.add_assoc, Nat.add_comm 1]

theorem mem_field_unindexTxs {change : E} {start : ℕ} {utxo : UtxoMap} {txs : List CTransaction} :
    change ∈ field (unindexTxs options nHeight start txs (blockUndos nHeight utxo txs)) ↔
      ∃ i tx, txs[i]? = some tx ∧ change ∈ field (unindexTx options nHeight (start + i) tx
        (if tx.isCoinBase then none
          else some ⟨undoCoins (afterTxs nHeight utxo (txs.take i)) tx.inputs⟩)) := by
  induction txs generalizing start utxo with
  | nil => simp [unindexTxs, hfield.empty]
  | cons tx rest ih =>
    rw [blockUndos, unindexTxs, hfield.append, mem_append, ih, or_comm, exists_getElem?_cons]
    simp only [Nat.add_zero, Nat.add_assoc, Nat.add_comm 1, take_succ_cons, afterTxs_cons]
    rfl

end Members

variable {nHeight : ℕ} {amount : CAmount} {utxo : UtxoMap} {pindex : CBlockIndex}
  {options : IndexOptions} {db : CBlockTreeDB} {key : CAddressIndexKey}
  {blocks : CBlockIndex → Option CBlock}

/-- Coins that are all found are in the order of their outpoints. -/
theorem getElem?_filterMap_of_isSome {outs : List COutPoint} (hall : ∀ o ∈ outs, (utxo o).isSome)
    (j : ℕ) :
    (outs.filterMap utxo)[j]? = outs[j]?.bind utxo := by
  induction outs generalizing j with
  | nil => rfl
  | cons out rest ih =>
    obtain ⟨coin, hcoin⟩ := Option.isSome_iff_exists.1 (hall out mem_cons_self)
    rw [filterMap_cons_some hcoin]
    cases j with
    | zero => exact hcoin.symm
    | succ j => exact ih (forall_mem_cons.1 hall).2 j

theorem getElem?_undoTxs (nHeight : ℕ) (utxo : UtxoMap) (txs : List CTransaction) (i : ℕ) :
    (undoTxs nHeight utxo txs)[i]? =
      txs[i]?.map fun tx => ⟨tx.coins (afterTxs nHeight utxo (txs.take i))⟩ := by
  induction txs generalizing utxo i with
  | nil => rfl
  | cons tx rest ih =>
    cases i with
    | zero => rfl
    | succ i => exact ih (afterTx nHeight utxo tx) i

/-- The undo coins in the order of their outpoints. One listed again has the record of a spent
coin. -/
theorem getElem?_undoCoins (utxo : UtxoMap) (outs : List COutPoint) (j : ℕ) :
    (undoCoins utxo outs)[j]? = outs[j]?.map fun o =>
      if o ∈ outs.take j then Coin.empty.reread else (utxo o).getD Coin.empty.reread := by
  induction outs generalizing utxo j with
  | nil => rfl
  | cons out outs ih =>
    cases j with
    | zero => rfl
    | succ j =>
      rw [undoCoins, getElem?_cons_succ, getElem?_cons_succ, ih, take_succ_cons]
      refine congrArg (Option.map · _) (funext fun o => ?_)
      by_cases heq : o = out
      · simp [heq]
      · simp [heq]

variable {txs : List CTransaction} {i : ℕ} {tx : CTransaction}

theorem TxsFit.getElem (hfits : TxsFit nHeight utxo txs) (htx : txs[i]? = some tx) :
    TxFits nHeight (afterTxs nHeight utxo (txs.take i)) tx := by
  induction txs generalizing utxo i with
  | nil => cases htx
  | cons first rest ih =>
    cases i with
    | zero =>
      obtain rfl : first = tx := by simpa using htx
      exact hfits.1
    | succ i => exact ih hfits.2 htx

/-- What is collected for transactions comes from their inputs and outputs. -/
theorem mem_field_indexTxs {E : Type} {field : IndexChanges → List E}
    (hfield : IndexChanges.Collects field) {change : E} (hfits : TxsFit nHeight utxo txs) :
    change ∈ field (indexTxs options nHeight 0 utxo txs) ↔
      ∃ i tx, txs[i]? = some tx ∧
        ((∃ j prevout coin, tx.inputs[j]? = some prevout ∧
          afterTxs nHeight utxo (txs.take i) prevout = some coin ∧
          change ∈ field (indexInput options nHeight i tx.getHash j prevout coin)) ∨
        ∃ k out, tx.vout[k]? = some out ∧
          change ∈ field (indexOutput options nHeight i tx.getHash k out)) := by
  have htx : change ∈ field (indexTxs options nHeight 0 utxo txs) ↔
      ∃ i tx, txs[i]? = some tx ∧ change ∈ field (indexTx options nHeight i tx
        (tx.coins (afterTxs nHeight utxo (txs.take i)))) := by
    simp only [field_indexTxs hfield, mem_flatMap, Prod.exists,
      mk_mem_zipIdx_iff_getElem?, List.getElem?_zip_eq_some, getElem?_undoTxs,
      Option.map_eq_some_iff]
    constructor
    · rintro ⟨tx, undo, i, ⟨htx, other, ho, rfl⟩, hmem⟩
      obtain rfl : tx = other := Option.some.inj (htx.symm.trans ho)
      exact ⟨i, tx, htx, hmem⟩
    · rintro ⟨i, tx, htx, hmem⟩
      exact ⟨tx, _, i, ⟨htx, tx, htx, rfl⟩, hmem⟩
  rw [htx]
  refine exists_congr fun i => exists_congr fun tx => and_congr_right fun hget => ?_
  have hall := (hfits.getElem hget).inputs
  simp only [indexTx, hfield.append, mem_append, field_indexInputs hfield,
    field_indexOutputs hfield, mem_flatMap, Prod.exists, mk_mem_zipIdx_iff_getElem?,
    List.getElem?_zip_eq_some, CTransaction.coins, getElem?_filterMap_of_isSome hall]
  refine or_congr ⟨?_, ?_⟩ ⟨?_, ?_⟩
  · rintro ⟨prevout, coin, j, ⟨hprevout, hcoin⟩, hmem⟩
    rw [hprevout] at hcoin
    exact ⟨j, prevout, coin, hprevout, hcoin, hmem⟩
  · rintro ⟨j, prevout, coin, hprevout, hcoin, hmem⟩
    exact ⟨prevout, coin, j, ⟨hprevout, by rw [hprevout]; exact hcoin⟩, hmem⟩
  · rintro ⟨out, k, hout, hmem⟩
    exact ⟨k, out, hout, hmem⟩
  · rintro ⟨k, out, hout, hmem⟩
    exact ⟨out, k, hout, hmem⟩

theorem collects_addressIndex : IndexChanges.Collects IndexChanges.addressIndex :=
  ⟨rfl, fun _ _ => rfl⟩

theorem collects_unspentKeys :
    IndexChanges.Collects fun changes => changes.addressUnspentIndex.map Prod.fst :=
  ⟨rfl, fun _ _ => map_append⟩

/-- What is taken back for a transaction comes from its outputs and the first listing of each
input. -/
theorem mem_field_unindexTx {E : Type} {field : IndexChanges → List E}
    (hfield : IndexChanges.Collects field) {change : E} (hall : ∀ o ∈ tx.inputs, (utxo o).isSome)
    (hno : ∀ j o, field (unindexInput options nHeight i tx.getHash j o Coin.empty.reread.out
      Coin.empty.reread.nHeight) = []) :
    change ∈ field (unindexTx options nHeight i tx
        (if tx.isCoinBase then none else some ⟨undoCoins utxo tx.inputs⟩)) ↔
      (∃ j prevout coin, tx.inputs[j]? = some prevout ∧ utxo prevout = some coin ∧
        prevout ∉ tx.inputs.take j ∧
          change ∈ field (unindexInput options nHeight i tx.getHash j prevout coin.out
            coin.nHeight)) ∨
      ∃ k out, tx.vout[k]? = some out ∧
        change ∈ field (unindexOutput options nHeight i tx.getHash k out) := by
  unfold unindexTx
  rw [hfield.append, mem_append, mem_field_unindexOutputs hfield, or_comm]
  simp only [Nat.zero_add]
  refine or_congr_left ?_
  cases hcbase : tx.isCoinBase with
  | true => simp [hfield.empty, CTransaction.inputs, hcbase]
  | false =>
    have hins : tx.prevouts = tx.inputs := by simp [CTransaction.inputs, hcbase]
    simp only [Bool.false_eq_true, if_false, mem_field_unindexInputs hfield, hins, Nat.zero_add]
    constructor
    · rintro ⟨j, ⟨prevout, coin⟩, hentry, hmem⟩
      obtain ⟨hprevout, hcoin⟩ := List.getElem?_zip_eq_some.1 hentry
      rw [getElem?_undoCoins, hprevout, Option.map_some, Option.some.injEq] at hcoin
      obtain ⟨found, hf⟩ := Option.isSome_iff_exists.1 (hall prevout (mem_of_getElem? hprevout))
      by_cases hagain : prevout ∈ tx.inputs.take j
      · rw [if_pos hagain] at hcoin
        rw [← hcoin, hno] at hmem
        cases hmem
      · rw [if_neg hagain, hf, Option.getD_some] at hcoin
        obtain rfl : found = coin := hcoin
        exact ⟨j, prevout, found, hprevout, hf, hagain, hmem⟩
    · rintro ⟨j, prevout, coin, hprevout, hcoin, hagain, hmem⟩
      refine ⟨j, (prevout, coin), List.getElem?_zip_eq_some.2 ⟨hprevout, ?_⟩, hmem⟩
      simp [getElem?_undoCoins, hprevout, hagain, hcoin]

/-- A coin is spent where its outpoint is listed first. -/
theorem SpendsCoin.first {j : ℕ} {prevout : COutPoint} {coin : Coin}
    (hspent : SpendsCoin blocks pindex i tx j prevout coin) :
    ∃ j, SpendsCoin blocks pindex i tx j prevout coin ∧ prevout ∉ tx.inputs.take j := by
  obtain ⟨pprev, block, hprev, hblk, htx, hprevout, hcoin⟩ := hspent
  refine ⟨tx.inputs.idxOf prevout, ⟨pprev, block, hprev, hblk, htx, ?_, hcoin⟩, ?_⟩
  · exact getElem?_idxOf (mem_of_getElem? hprevout)
  · rw [mem_take_iff_idxOf_lt (mem_of_getElem? hprevout)]
    exact lt_irrefl _

theorem SpendsCoin.firstListed {j : ℕ} {prevout : COutPoint} {coin : Coin} {type : ℕ}
    {hashBytes : Uint160} (hspent : SpendsCoin blocks pindex i tx j prevout coin)
    (hfst : prevout ∉ tx.inputs.take j) :
    FirstListed blocks pindex ⟨type, hashBytes, nHeight, i, tx.getHash, j, true⟩ := by
  intro other found listed ho hf _ hlisted
  obtain ⟨-, block, -, hblk, htx, hprevout, -⟩ := hspent
  obtain rfl : block = other := Option.some.inj (hblk.symm.trans ho)
  obtain rfl : tx = found := Option.some.inj (htx.symm.trans hf)
  obtain rfl : prevout = listed := Option.some.inj (hprevout.symm.trans hlisted)
  exact hfst

section Events

variable {options : IndexOptions} (hon : options.fAddressIndex = true)

include hon

variable {script : CScript}

theorem mem_addressEvent {i : ℕ} {txhash : Uint256} {index : ℕ} {spending : Bool} {value : CAmount}
    :
    (key, amount) ∈ addressEvent options script nHeight i txhash index spending value ↔
      ∃ type hashBytes, script.address = some (type, hashBytes) ∧
        key = ⟨type, hashBytes, nHeight, i, txhash, index, spending⟩ ∧ amount = value := by
  cases haddr : script.address with
  | none => simp [addressEvent, haddr]
  | some address => simp [addressEvent, haddr, hon, Prod.ext_iff]

theorem mem_unspentEvent_keys {o : COutPoint} {value : CAddressUnspentValue}
    {key : CAddressUnspentKey} :
    key ∈ (unspentEvent options script o value).map Prod.fst ↔
      ∃ type hashBytes, script.address = some (type, hashBytes) ∧
        key = ⟨type, hashBytes, o.hash, o.n⟩ := by
  cases haddr : script.address with
  | none => simp [unspentEvent, haddr]
  | some address => simp [unspentEvent, haddr, hon, Prod.ext_iff]

end Events

section Block

variable {blocks : CBlockIndex → Option CBlock} {pprev pindex : CBlockIndex} {block : CBlock}
  (hprev : pindex.pprev = some pprev) (hblk : blocks pindex = some block)
  (hfits : TxsFit pindex.nHeight (utxoAt blocks pprev) block.vtx)

include hprev hblk

theorem spendsCoin_iff {j : ℕ} {prevout : COutPoint} {coin : Coin} :
    SpendsCoin blocks pindex i tx j prevout coin ↔
      block.vtx[i]? = some tx ∧ tx.inputs[j]? = some prevout ∧
        afterTxs pindex.nHeight (utxoAt blocks pprev) (block.vtx.take i) prevout = some coin := by
  simp [SpendsCoin, hprev, hblk]

theorem makesOutput_iff {k : ℕ} {out : CTxOut} : MakesOutput blocks pindex i tx k out ↔
    block.vtx[i]? = some tx ∧ tx.vout[k]? = some out := by
  simp [MakesOutput, hprev, hblk]

include hfits

/-- What is collected for a block comes from the coins it spends and makes. -/
theorem mem_field_block {E : Type} {field : IndexChanges → List E}
    (hfield : IndexChanges.Collects field) {change : E} :
    change ∈ field (indexTxs options pindex.nHeight 0 (utxoAt blocks pprev) block.vtx) ↔
      (∃ i tx j prevout coin, SpendsCoin blocks pindex i tx j prevout coin ∧
        change ∈ field (indexInput options pindex.nHeight i tx.getHash j prevout coin)) ∨
      ∃ i tx k out, MakesOutput blocks pindex i tx k out ∧
        change ∈ field (indexOutput options pindex.nHeight i tx.getHash k out) := by
  rw [mem_field_indexTxs hfield hfits]
  simp only [spendsCoin_iff hprev hblk, makesOutput_iff hprev hblk, and_or_left, exists_or,
    and_assoc, exists_and_left]

theorem mem_field_unindexBlock {E : Type} {field : IndexChanges → List E}
    (hfield : IndexChanges.Collects field) {change : E}
    (hno : ∀ i hash j o, field (unindexInput options pindex.nHeight i hash j o
      Coin.empty.reread.out Coin.empty.reread.nHeight) = []) :
    change ∈ field (unindexTxs options pindex.nHeight 0 block.vtx
        (blockUndos pindex.nHeight (utxoAt blocks pprev) block.vtx)) ↔
      (∃ i tx j prevout coin, SpendsCoin blocks pindex i tx j prevout coin ∧
        prevout ∉ tx.inputs.take j ∧ change ∈ field (unindexInput options pindex.nHeight i
          tx.getHash j prevout coin.out coin.nHeight)) ∨
      ∃ i tx k out, MakesOutput blocks pindex i tx k out ∧
        change ∈ field (unindexOutput options pindex.nHeight i tx.getHash k out) := by
  rw [mem_field_unindexTxs hfield]
  simp only [Nat.zero_add]
  rw [exists_congr fun i => exists_congr fun tx => and_congr_right fun hget =>
    mem_field_unindexTx hfield (hfits.getElem hget).inputs (hno i _)]
  simp only [spendsCoin_iff hprev hblk, makesOutput_iff hprev hblk, and_or_left, exists_or,
    and_assoc, exists_and_left]

variable {options : IndexOptions} (hon : options.fAddressIndex = true)

include hon

/-- The history entries collected for a block are its events. -/
theorem mem_indexTxs_addressIndex :
    (key, amount) ∈
        (indexTxs options pindex.nHeight 0 (utxoAt blocks pprev) block.vtx).addressIndex ↔
      BlockEvent blocks pindex key amount := by
  rw [mem_field_block hprev hblk hfits collects_addressIndex]
  simp only [indexInput, indexOutput, mem_addressEvent hon]
  constructor
  · rintro (⟨i, tx, j, prevout, coin, hspent, type, hashBytes, haddr, rfl, rfl⟩ |
      ⟨i, tx, k, out, hmade, type, hashBytes, haddr, rfl, rfl⟩)
    · exact .spent hspent haddr
    · exact .received hmade haddr
  · intro hevent
    cases hevent with
    | spent hspent haddr =>
      exact .inl ⟨_, _, _, _, _, hspent, _, _, haddr, rfl, rfl⟩
    | received hmade haddr =>
      exact .inr ⟨_, _, _, _, hmade, _, _, haddr, rfl, rfl⟩

/-- Undoing a block erases its events but those of inputs listed again. -/
theorem mem_unindexTxs_history :
    key ∈ (unindexTxs options pindex.nHeight 0 block.vtx (blockUndos pindex.nHeight
        (utxoAt blocks pprev) block.vtx)).addressIndex.map Prod.fst ↔
      (∃ amount, BlockEvent blocks pindex key amount) ∧ FirstListed blocks pindex key := by
  have hmem : ∀ amount, (key, amount) ∈ (unindexTxs options pindex.nHeight 0 block.vtx
      (blockUndos pindex.nHeight (utxoAt blocks pprev) block.vtx)).addressIndex ↔ _ :=
    fun amount => mem_field_unindexBlock hprev hblk hfits collects_addressIndex fun _ _ _ _ => rfl
  simp only [unindexInput, unindexOutput, mem_addressEvent hon] at hmem
  simp only [mem_map, Prod.exists, exists_and_right, exists_eq_right, hmem]
  constructor
  · rintro ⟨amount, ⟨i, tx, j, prevout, coin, hspent, hfst, type, hashBytes, haddr, rfl, rfl⟩ |
      ⟨i, tx, k, out, hmade, type, hashBytes, haddr, rfl, rfl⟩⟩
    · exact ⟨⟨_, .spent hspent haddr⟩, hspent.firstListed hfst⟩
    · exact ⟨⟨_, .received hmade haddr⟩, fun _ _ _ _ _ hspending => by cases hspending⟩
  · rintro ⟨⟨amount, hevent⟩, hfst⟩
    cases hevent with
    | spent hspent haddr =>
      have hfirst := hspent
      obtain ⟨-, block, -, hblk, htx, hprevout, -⟩ := hfirst
      exact ⟨_, .inl ⟨_, _, _, _, _, hspent, hfst block _ _ hblk htx rfl hprevout, _, _, haddr,
        rfl, rfl⟩⟩
    | received hmade haddr => exact ⟨_, .inr ⟨_, _, _, _, hmade, _, _, haddr, rfl, rfl⟩⟩

/-- Undoing a block touches what the block touches. -/
theorem mem_unindexTxs_unspentKeys {key : CAddressUnspentKey} :
    key ∈ (unindexTxs options pindex.nHeight 0 block.vtx (blockUndos pindex.nHeight
        (utxoAt blocks pprev) block.vtx)).addressUnspentIndex.map Prod.fst ↔
      BlockTouches blocks pindex key := by
  rw [mem_field_unindexBlock hprev hblk hfits collects_unspentKeys fun _ _ _ _ => rfl]
  simp only [unindexInput, unindexOutput, mem_unspentEvent_keys hon]
  constructor
  · rintro (⟨i, tx, j, prevout, coin, hspent, -, type, hashBytes, haddr, rfl⟩ |
      ⟨i, tx, k, out, hmade, type, hashBytes, haddr, rfl⟩)
    · exact .spent hspent haddr
    · exact .made hmade haddr
  · intro htouches
    cases htouches with
    | spent hspent haddr =>
      obtain ⟨j, hspent, hfst⟩ := hspent.first
      exact .inl ⟨_, _, _, _, _, hspent, hfst, _, _, haddr, rfl⟩
    | made hmade haddr => exact .inr ⟨_, _, _, _, hmade, _, _, haddr, rfl⟩

end Block

/-- A block with an event has one that undoing it takes back. -/
theorem BlockEvent.first (hevent : BlockEvent blocks pindex key amount) :
    ∃ key amount, BlockEvent blocks pindex key amount ∧ FirstListed blocks pindex key := by
  cases hevent with
  | received hmade haddr =>
    exact ⟨_, _, .received hmade haddr, fun _ _ _ _ _ hspending => by cases hspending⟩
  | spent hspent haddr =>
    obtain ⟨j, hspent, hfst⟩ := hspent.first
    exact ⟨_, _, .spent hspent haddr, hspent.firstListed hfst⟩

theorem BlockEvent.blockHeight (hevent : BlockEvent blocks pindex key amount) :
    key.blockHeight = pindex.nHeight := by
  cases hevent <;> rfl

/-- The genesis block has no history. -/
theorem BlockEvent.pprev_ne (hevent : BlockEvent blocks pindex key amount) :
    pindex.pprev ≠ none := by
  cases hevent with
  | received hmade _ =>
    obtain ⟨pprev, _, hprev, _⟩ := hmade
    simp [hprev]
  | spent hspent _ =>
    obtain ⟨pprev, _, hprev, _⟩ := hspent
    simp [hprev]

theorem collects_addressKeys :
    IndexChanges.Collects fun changes => changes.addressIndex.map Prod.fst :=
  ⟨rfl, fun _ _ => map_append⟩

/-- Where the key of an event says it happened. -/
theorem of_mem_addressEvent_keys {script : CScript} {txhash : Uint256} {index : ℕ} {spending : Bool}
    (hmem : key ∈
      (addressEvent options script nHeight i txhash index spending amount).map Prod.fst) :
    key.txindex = i ∧ key.index = index ∧ key.spending = spending := by
  unfold addressEvent at hmem
  split at hmem
  · split at hmem
    · obtain rfl := mem_singleton.1 hmem
      exact ⟨rfl, rfl, rfl⟩
    · cases hmem
  · cases hmem

theorem nodup_addressEvent_keys (options : IndexOptions) (script : CScript) (nHeight i : ℕ)
    (txhash : Uint256) (index : ℕ) (spending : Bool) (amount : CAmount) :
    ((addressEvent options script nHeight i txhash index spending amount).map Prod.fst).Nodup := by
  unfold addressEvent
  split
  · split
    · exact nodup_singleton _
    · exact nodup_nil
  · exact nodup_nil

theorem nodup_flatMap_zipIdx {A B : Type} {position : B → ℕ} {made : A × ℕ → List B}
    (entries : List A) (hpos : ∀ entry, ∀ member ∈ made entry, position member = entry.2)
    (hnd : ∀ entry, (made entry).Nodup) : (entries.zipIdx.flatMap made).Nodup := by
  rw [nodup_flatMap]
  refine ⟨fun entry _ => hnd entry, ?_⟩
  have hnumbers := nodup_zipIdx_map_snd entries
  rw [List.Nodup, pairwise_map] at hnumbers
  refine hnumbers.imp fun hne member hfst hsnd => hne ?_
  rw [← hpos _ member hfst, hpos _ member hsnd]

theorem nodup_indexTx_keys (options : IndexOptions) (nHeight i : ℕ) (tx : CTransaction)
    (coins : List Coin) :
    ((indexTx options nHeight i tx coins).addressIndex.map Prod.fst).Nodup := by
  rw [indexTx, collects_addressKeys.append, field_indexInputs collects_addressKeys,
    field_indexOutputs collects_addressKeys, nodup_append]
  refine ⟨?_, ?_, ?_⟩
  · exact nodup_flatMap_zipIdx _ (fun entry key hkey => (of_mem_addressEvent_keys hkey).2.1)
      fun entry => nodup_addressEvent_keys _ _ _ _ _ _ _ _
  · exact nodup_flatMap_zipIdx _ (fun entry key hkey => (of_mem_addressEvent_keys hkey).2.1)
      fun entry => nodup_addressEvent_keys _ _ _ _ _ _ _ _
  · -- a spend and a receive differ in their flag
    intro key hspent other hreceived heq
    obtain ⟨entry, -, hent⟩ := mem_flatMap.1 hspent
    obtain ⟨made, -, hmade⟩ := mem_flatMap.1 hreceived
    have hspending := (of_mem_addressEvent_keys hent).2.2
    rw [heq, (of_mem_addressEvent_keys hmade).2.2] at hspending
    cases hspending

theorem txindex_of_mem_indexTx {coins : List Coin}
    (hmem : key ∈ (indexTx options nHeight i tx coins).addressIndex.map Prod.fst) :
    key.txindex = i := by
  rw [indexTx, collects_addressKeys.append, field_indexInputs collects_addressKeys,
    field_indexOutputs collects_addressKeys, mem_append, mem_flatMap,
    mem_flatMap] at hmem
  rcases hmem with ⟨entry, -, hent⟩ | ⟨entry, -, hent⟩
  · exact (of_mem_addressEvent_keys hent).1
  · exact (of_mem_addressEvent_keys hent).1

/-- A block has every history entry once. -/
theorem nodup_indexTxs_keys (options : IndexOptions) (nHeight : ℕ) (utxo : UtxoMap)
    (txs : List CTransaction) :
    ((indexTxs options nHeight 0 utxo txs).addressIndex.map Prod.fst).Nodup := by
  rw [field_indexTxs collects_addressKeys]
  exact nodup_flatMap_zipIdx _ (fun entry key hkey => txindex_of_mem_indexTx hkey)
    fun entry => nodup_indexTx_keys _ _ _ _ _

theorem addressEvent_of_pprev {pprev : CBlockIndex} (hprev : pindex.pprev = some pprev) :
    AddressEvent blocks (some pindex) key amount ↔
      BlockEvent blocks pindex key amount ∨ AddressEvent blocks (some pprev) key amount := by
  simp [AddressEvent, activeChain, ancestors_of_pprev hprev]

/-- The events of a chain are not above its tip. -/
theorem AddressEvent.blockHeight_le {tip : CBlockIndex}
    (hevent : AddressEvent blocks (some tip) key amount) : key.blockHeight ≤ tip.nHeight := by
  obtain ⟨pindex, hmem, hblk⟩ := hevent
  rw [hblk.blockHeight]
  exact nHeight_le_of_mem hmem

/-- The genesis block has no coins and no history. -/
theorem CBlockTreeDB.indexesAddresses_genesis (hgen : pindex.pprev = none) :
    db.IndexesAddresses blocks (some pindex) ↔ db.IndexesAddresses blocks none := by
  have hevents : ∀ key amount, AddressEvent blocks (some pindex) key amount ↔
      AddressEvent blocks none key amount := by
    intro key amount
    refine ⟨?_, fun ⟨other, ho, _⟩ => by cases ho⟩
    rintro ⟨other, ho, hevent⟩
    obtain rfl := eq_of_mem_ancestors hgen ho
    exact absurd hgen hevent.pprev_ne
  have hutxo : utxoAtTip blocks (some pindex) = utxoAtTip blocks none := by
    cases pindex with
    | child below hash time => cases hgen
    | genesis hash time => rfl
  constructor
  · rintro ⟨hunspent, hhist⟩
    exact ⟨hutxo ▸ hunspent, fun key amount => (hhist key amount).trans (hevents key amount)⟩
  · rintro ⟨hunspent, hhist⟩
    exact ⟨hutxo ▸ hunspent, fun key amount => (hhist key amount).trans (hevents key amount).symm⟩

section Steps

variable {blocks : CBlockIndex → Option CBlock} {pprev pindex : CBlockIndex} {block : CBlock}
  (hprev : pindex.pprev = some pprev) (hblk : blocks pindex = some block)
  (hfits : TxsFit pindex.nHeight (utxoAt blocks pprev) block.vtx)
  (hnd : ∀ tx ∈ block.vtx, tx.inputs.Nodup) (hchecked : ∀ tx ∈ block.vtx, tx.Checked)
  {options : IndexOptions} (hon : options.fAddressIndex = true)

include hprev hblk hfits hnd hchecked hon

/-- Connecting a block takes the indexes to the next tip. -/
theorem CBlockTreeDB.IndexesAddresses.connect (hidxs : db.IndexesAddresses blocks (some pprev)) :
    (db.writeConnected options pindex (indexTxs options pindex.nHeight 0
      (utxoAt blocks pprev) block.vtx)).IndexesAddresses blocks (some pindex) := by
  constructor
  · rw [content_writeConnected_unspent hon, hidxs.unspent]
    simp only [utxoAtTip]
    rw [apply_indexTxs hon hfits hnd hchecked, utxoAt_child hprev hblk]
  · intro key amount
    let events := (indexTxs options pindex.nHeight 0 (utxoAt blocks pprev) block.vtx).addressIndex
    let log := events.map fun change => (change.1, some change.2)
    have hkeys : keys log = events.map Prod.fst := by
      simp [keys, log, Function.comp_def]
    have hlook : (db.writeConnected options pindex (indexTxs options pindex.nHeight 0
        (utxoAt blocks pprev) block.vtx)).addressIndex.lookup key =
          apply log (content db.addressIndex) key :=
      congrFun (content_writeConnected_address hon db _ pindex) key
    have hevent : ∀ value, (key, value) ∈ events ↔ BlockEvent blocks pindex key value :=
      fun value => mem_indexTxs_addressIndex hprev hblk hfits hon
    rw [hlook, addressEvent_of_pprev hprev]
    by_cases hmem : key ∈ events.map Prod.fst
    · -- the block has one event under the key, and there is none below it
      obtain ⟨⟨other, value⟩, hval, heq⟩ := mem_map.1 hmem
      obtain rfl : other = key := heq
      have hwrite : (other, some value) ∈ log := mem_map.2 ⟨_, hval, rfl⟩
      rw [apply_of_mem (hkeys ▸ nodup_indexTxs_keys _ _ _ _) hwrite]
      constructor
      · intro heq
        obtain rfl := Option.some.inj heq
        exact .inl ((hevent value).1 hval)
      · rintro (hsame | hbelow)
        · have hpair := inj_on_of_nodup_map (nodup_indexTxs_keys _ _ _ _) hval
            ((hevent amount).2 hsame) rfl
          rw [Prod.mk.injEq] at hpair
          rw [hpair.2]
        · have hlow := hbelow.blockHeight_le
          rw [((hevent value).1 hval).blockHeight, nHeight_of_pprev hprev] at hlow
          omega
    · rw [apply_of_notMem (by rwa [hkeys])]
      constructor
      · intro hf
        exact .inr ((hidxs.history key amount).1 hf)
      · rintro (hsame | hbelow)
        · exact absurd (mem_map_of_mem ((hevent amount).2 hsame)) hmem
        · exact (hidxs.history key amount).2 hbelow

/-- Disconnecting a block takes the indexes back. -/
theorem CBlockTreeDB.IndexesAddresses.disconnect (hsound : Sound (utxoAt blocks pprev))
    (hidxs : db.IndexesAddresses blocks (some pindex)) :
    (db.writeDisconnected options (unindexTxs options pindex.nHeight 0 block.vtx
      (blockUndos pindex.nHeight (utxoAt blocks pprev) block.vtx))).IndexesAddresses
        blocks (some pprev) := by
  have hheight := nHeight_of_pprev hprev
  constructor
  · rw [content_writeDisconnected_unspent hon, hidxs.unspent]
    simp only [utxoAtTip]
    rw [utxoAt_child hprev hblk, apply_unindexTxs hon hfits hchecked (by omega) hsound]
  · intro key amount
    let back := (unindexTxs options pindex.nHeight 0 block.vtx
      (blockUndos pindex.nHeight (utxoAt blocks pprev) block.vtx)).addressIndex
    have hevent : key ∈ back.map Prod.fst ↔ ∃ amount, BlockEvent blocks pindex key amount := by
      rw [mem_unindexTxs_history hprev hblk hfits hon, and_iff_left_iff_imp]
      intro _ found tx prevout hf htx _ hprevout
      obtain rfl : block = found := Option.some.inj (hblk.symm.trans hf)
      obtain ⟨hlt, rfl⟩ := List.getElem?_eq_some_iff.1 hprevout
      rw [mem_take_iff_idxOf_lt (getElem_mem hlt), (hnd tx (mem_of_getElem? htx)).idxOf_getElem]
      exact lt_irrefl _
    have hlook : (db.writeDisconnected options (unindexTxs options pindex.nHeight 0 block.vtx
        (blockUndos pindex.nHeight (utxoAt blocks pprev) block.vtx))).addressIndex.lookup key =
          apply (erases (back.map Prod.fst)) (content db.addressIndex) key :=
      congrFun (content_writeDisconnected_address hon db _) key
    rw [hlook]
    by_cases hmem : key ∈ back.map Prod.fst
    · rw [apply_erases_of_mem hmem]
      obtain ⟨value, hval⟩ := hevent.1 hmem
      constructor
      · intro hno
        cases hno
      · intro hbelow
        have hlow := hbelow.blockHeight_le
        rw [hval.blockHeight] at hlow
        omega
    · rw [apply_erases_of_notMem hmem]
      have hf := hidxs.history key amount
      rw [addressEvent_of_pprev hprev] at hf
      constructor
      · intro hsome
        rcases hf.1 hsome with hsame | hbelow
        · exact absurd (hevent.2 ⟨amount, hsame⟩) hmem
        · exact hbelow
      · intro hbelow
        exact hf.2 (.inr hbelow)

end Steps

end Catoshi
