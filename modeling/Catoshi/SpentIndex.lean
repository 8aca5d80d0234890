/-
The spent index over the whole life of a node. Disconnecting does not write the keys it collects,
so the index follows the chain just while the blocks taken back spend nothing.
-/
import Catoshi.AddressIndex

namespace Catoshi

open WriteLog Outcome CBlockTreeDB IndexChanges
open List hiding append_assoc keys

structure Spender where
  txid : Uint256
  inputIndex : ℕ
  blockHeight : ℕ
deriving DecidableEq, Repr

def CSpentIndexValue.spender (value : CSpentIndexValue) : Spender :=
  ⟨value.txid, value.inputIndex, value.blockHeight⟩

/-- What inputs of a block above the genesis spend. -/
inductive BlockSpends (blocks : CBlockIndex → Option CBlock) (pindex : CBlockIndex) :
    CSpentIndexKey → Spender → Prop
  | input {pprev : CBlockIndex} {block : CBlock} {tx : CTransaction} {j : ℕ}
      {prevout : COutPoint} (hprev : pindex.pprev = some pprev)
      (hread : blocks pindex = some block) (htx : tx ∈ block.vtx)
      (hinput : tx.inputs[j]? = some prevout) :
      BlockSpends blocks pindex ⟨prevout.hash, prevout.n⟩ ⟨tx.getHash, j, pindex.nHeight⟩

def ChainSpends (blocks : CBlockIndex → Option CBlock) (tip : Option CBlockIndex)
    (key : CSpentIndexKey) (spender : Spender) : Prop :=
  ∃ pindex ∈ activeChain tip, BlockSpends blocks pindex key spender

/-- The spent index has an entry for exactly the outputs the active chain spends, naming the last
input that spends the output. -/
structure CChainState.SpentIndexed (s : CChainState) : Prop where
  spent : ∀ key, (s.store.blocktree.spentIndex.lookup key).isSome ↔
    ∃ spender, ChainSpends s.store.readBlockFromDisk s.tip key spender
  named : ∀ key value, s.store.blocktree.spentIndex.lookup key = some value →
    ChainSpends s.store.readBlockFromDisk s.tip key value.spender ∧
      ∀ other, ChainSpends s.store.readBlockFromDisk s.tip key other →
        other.blockHeight ≤ value.blockHeight

/-- The states in which the blocks of the active chain were connected, the tip's first. -/
def connectedIn : List (CChainState × TipCall) → List CChainState
  | [] => []
  | (s, .connect _ _ _) :: earlier => s :: connectedIn earlier
  | (_, .disconnect _) :: earlier => (connectedIn earlier).tail

/-- All states show their chain in the spent index, and a block taken back leaves the index as
before it was connected. -/
def SpentIndexFollows : List (CChainState × TipCall) → CChainState → Prop
  | [], s => s.SpentIndexed
  | (before, .connect _ _ _) :: earlier, s => SpentIndexFollows earlier before ∧ s.SpentIndexed
  | (before, .disconnect _) :: earlier, s =>
    SpentIndexFollows earlier before ∧ s.SpentIndexed ∧
      ∃ start, (connectedIn earlier).head? = some start ∧
        s.store.blocktree.spentIndex = start.store.blocktree.spentIndex

def SpendsNothing (blocks : CBlockIndex → Option CBlock) (pindex : CBlockIndex) : Prop :=
  ∀ key spender, ¬ BlockSpends blocks pindex key spender

def TipCall.TakesBackNoSpend (s : CChainState) : TipCall → Prop
  | .connect _ _ _ => True
  | .disconnect _ => ∀ pindex, s.tip = some pindex →
      SpendsNothing s.store.readBlockFromDisk pindex

variable {pindex : CBlockIndex} {s : CChainState} {key : CSpentIndexKey}
  {blocks : CBlockIndex → Option CBlock} {spender : Spender} {steps : List (CChainState × TipCall)}

theorem BlockSpends.blockHeight (hspends : BlockSpends blocks pindex key spender) :
    spender.blockHeight = pindex.nHeight := by
  cases hspends
  rfl

theorem ChainSpends.blockHeight_le {tip : CBlockIndex}
    (hspends : ChainSpends blocks (some tip) key spender) : spender.blockHeight ≤ tip.nHeight := by
  obtain ⟨pindex, hmem, hblk⟩ := hspends
  rw [hblk.blockHeight]
  exact CBlockIndex.nHeight_le_of_mem hmem

/-- The chain spends what its last block and the chain below do. -/
theorem chainSpends_some :
    ChainSpends blocks (some pindex) key spender ↔
      BlockSpends blocks pindex key spender ∨ ChainSpends blocks pindex.pprev key spender := by
  rw [ChainSpends, activeChain_some, exists_mem_cons_iff, ChainSpends]

/-- The spent index without amounts and addresses. -/
def spentNames (changes : List (CSpentIndexKey × CSpentIndexValue)) :
    List (CSpentIndexKey × Spender) :=
  changes.map fun change => (change.1, change.2.spender)

theorem spentNames_append (first second : List (CSpentIndexKey × CSpentIndexValue)) :
    spentNames (first ++ second) = spentNames first ++ spentNames second :=
  map_append

/-- What a transaction's inputs add to the spent index. -/
def CTransaction.spentNames (tx : CTransaction) (nHeight : ℕ) : List (CSpentIndexKey × Spender) :=
  tx.inputs.zipIdx.map fun entry =>
    (⟨entry.1.hash, entry.1.n⟩, ⟨tx.getHash, entry.2, nHeight⟩)

theorem spentIndex_indexOutputs (options : IndexOptions) (nHeight i : ℕ) (txhash : Uint256)
    (k : ℕ) (vout : List CTxOut) :
    (indexOutputs options nHeight i txhash k vout).spentIndex = [] := by
  induction vout generalizing k with
  | nil => rfl
  | cons out rest ih =>
    rw [indexOutputs, spentIndex_append, ih]
    rfl

theorem length_accessCoins (view : CCoinsViewCache) (outs : List COutPoint) :
    (view.accessCoins outs).1.length = outs.length := by
  induction outs generalizing view with
  | nil => rfl
  | cons out rest ih => simp only [CCoinsViewCache.accessCoins, length_cons, ih]

/-- The index gets one coin for each input. -/
theorem length_of_checkSpends {s : ConnectState} {nFees : CAmount} {coins : List Coin}
    (hspends : checkSpends ctx pindex tx s = .ok (nFees, coins, view)) :
    coins.length = tx.inputs.length := by
  unfold checkSpends at hspends
  split_ifs at hspends with hcbase
  · simp only [Except.ok.injEq, Prod.mk.injEq] at hspends
    simp [← hspends.2.1, CTransaction.inputs, hcbase]
  · simp only [bind_ok_iff, require_ok_iff, pure_ok_iff, Prod.mk.injEq] at hspends
    obtain ⟨checked, -, -, -, -, -, -, rfl, -⟩ := hspends
    rw [length_accessCoins, CTransaction.inputs, if_neg hcbase]

section Collected

variable {ctx : ValidationContext} (hon : ctx.options.fSpentIndex = true)

include hon

theorem spentNames_indexInputs (nHeight i : ℕ) (txhash : Uint256) (j : ℕ)
    (spent : List (COutPoint × Coin)) :
    spentNames (indexInputs ctx.options nHeight i txhash j spent).spentIndex =
      ((spent.map Prod.fst).zipIdx j).map fun entry =>
        (⟨entry.1.hash, entry.1.n⟩, ⟨txhash, entry.2, nHeight⟩) := by
  induction spent generalizing j with
  | nil => rfl
  | cons first rest ih =>
    rw [indexInputs, spentIndex_append, spentNames_append, ih]
    simp [indexInput, hon, spentNames, CSpentIndexValue.spender]

variable {tx : CTransaction} {view : CCoinsViewCache} {i : ℕ} {s' : ConnectState}

theorem spentNames_connectTx {s : ConnectState} (hconn : connectTx ctx pindex i tx s = .ok s') :
    spentNames s'.index.spentIndex =
      spentNames s.index.spentIndex ++ tx.spentNames pindex.nHeight := by
  simp only [connectTx, bind_ok_iff, require_ok_iff, lift_ok_iff, pure_ok_iff] at hconn
  obtain ⟨⟨nFees, coins, view⟩, hspends, -, -, -, -, updated, -, rfl⟩ := hconn
  have hlen := length_of_checkSpends hspends
  have hins := spentNames_indexInputs hon pindex.nHeight i tx.getHash 0 (tx.inputs.zip coins)
  rw [map_fst_zip hlen.ge] at hins
  rw [spentIndex_append, indexTx, spentIndex_append,
    spentIndex_indexOutputs, append_nil, spentNames_append, hins, CTransaction.spentNames]

theorem spentNames_connectTxs {txs : List CTransaction} {s : ConnectState}
    (hconn : connectTxs ctx pindex i txs s = .ok s') :
    spentNames s'.index.spentIndex = spentNames s.index.spentIndex ++
      txs.flatMap fun tx => tx.spentNames pindex.nHeight := by
  induction txs generalizing i s with
  | nil =>
    cases hconn
    simp
  | cons tx rest ih =>
    simp only [connectTxs, bind_ok_iff] at hconn
    obtain ⟨mid, hfst, hrest⟩ := hconn
    rw [ih hrest, spentNames_connectTx hon hfst, flatMap_cons, List.append_assoc]

/-- `ConnectBlock` collects what the block spends. -/
theorem spentNames_connectCoins {block : CBlock} {pprev : CBlockIndex} {s : ConnectState}
    (hconn : connectCoins ctx block pprev pindex view = .ok s) :
    spentNames s.index.spentIndex = block.vtx.flatMap fun tx => tx.spentNames pindex.nHeight := by
  simp only [connectCoins, bind_ok_iff, require_ok_iff, lift_ok_iff, pure_ok_iff] at hconn
  obtain ⟨start, -, last, htxs, -, -, -, -, -, -, rfl⟩ := hconn
  rw [spentNames_connectTxs hon htxs]
  rfl

end Collected

theorem mem_spentNames_txs {pprev : CBlockIndex} {block : CBlock}
    (hprev : pindex.pprev = some pprev) (hread : blocks pindex = some block) :
    (key, spender) ∈ block.vtx.flatMap (fun tx => tx.spentNames pindex.nHeight) ↔
      BlockSpends blocks pindex key spender := by
  simp only [mem_flatMap, CTransaction.spentNames, mem_map, Prod.mk.injEq]
  constructor
  · rintro ⟨tx, htx, ⟨prevout, j⟩, hinput, rfl, rfl⟩
    exact .input hprev hread htx (mk_mem_zipIdx_iff_getElem?.1 hinput)
  · rintro ⟨-, hf, htx, hinput⟩
    obtain rfl := Option.some.inj (hread.symm.trans hf)
    exact ⟨_, htx, (_, _), mk_mem_zipIdx_iff_getElem?.2 hinput, rfl, rfl⟩

/-- The keys collected for the spent index are dropped. -/
theorem CBlockTreeDB.spentIndex_writeDisconnected (db : CBlockTreeDB) (options : IndexOptions)
    (index : IndexChanges) : (db.writeDisconnected options index).spentIndex = db.spentIndex := by
  unfold writeDisconnected
  split <;> rfl

/-- What a move of the tip adds to the spent index. -/
structure AddsSpends (s s' : CChainState) (pindexNew : CBlockIndex)
    (changes : List (CSpentIndexKey × CSpentIndexValue)) : Prop where
  tip : s'.tip = some pindexNew
  pprev : pindexNew.pprev = s.tip
  read : s'.store.readBlockFromDisk = s.store.readBlockFromDisk
  spentIndex : s'.store.blocktree.spentIndex =
    WriteLog.store (spentWrites changes) s.store.blocktree.spentIndex
  changes : ∀ key spender, (key, spender) ∈ spentNames changes ↔
    BlockSpends s.store.readBlockFromDisk pindexNew key spender

namespace CChainState

variable {ctx : ValidationContext} {s' : CChainState} {env : FlushEnv}

theorem read_of_call {call : TipCall} (hcall : s.call ctx call = .ok (.ok (), s')) :
    s'.store.readBlockFromDisk = s.store.readBlockFromDisk :=
  BlockStore.readBlockFromDisk_congr (blocks_of_call hcall)

theorem addsSpends_of_connectTip (hon : ctx.options.fSpentIndex = true) {pindexNew : CBlockIndex}
    {pblock : Option CBlock} (hpromised : TipCall.Promised ctx s (.connect env pindexNew pblock))
    (hcall : s.call ctx (.connect env pindexNew pblock) = .ok (.ok (), s')) :
    ∃ changes, AddsSpends s s' pindexNew changes := by
  obtain ⟨hprev, block, view, store, hf, hconn, hmove⟩ := of_connectTip hcall
  obtain ⟨htip, hstore, -⟩ := of_moveTip hmove
  have hread := hpromised.read hf
  obtain ⟨hhash, -, -, hcases⟩ := of_connectBlock hconn
  rcases hcases with ⟨hgen, -, hsame⟩ | ⟨-, pprev, last, hpprev, hcoins, -, hwrote⟩
  · -- the genesis block only becomes the tip
    have hno := hpromised.2 (hhash.trans hgen)
    refine ⟨[], htip, hprev, read_of_call hcall, by rw [hstore, hsame]; rfl, ?_⟩
    intro key spender
    constructor
    · intro hmem
      cases hmem
    · rintro ⟨hsome, -, -, -⟩
      rw [hno] at hsome
      cases hsome
  · have htree := (s.store.writeUndoDataForBlock_rest ⟨last.vtxundo⟩ pindexNew).2
    refine ⟨last.index.spentIndex, htip, hprev, read_of_call hcall, ?_, ?_⟩
    · rw [hstore, hwrote, htree, writeConnected]
      split <;> split <;> rfl
    · intro key spender
      rw [spentNames_connectCoins hon hcoins]
      exact mem_spentNames_txs hpprev hread

theorem spentIndex_of_disconnectTip (hcall : s.call ctx (.disconnect env) = .ok (.ok (), s')) :
    ∃ pindex, s.tip = some pindex ∧ s'.tip = pindex.pprev ∧
      s'.store.readBlockFromDisk = s.store.readBlockFromDisk ∧
      s'.store.blocktree.spentIndex = s.store.blocktree.spentIndex := by
  obtain ⟨pindex, block, done, htip, -, hdone, -, hmove⟩ := of_disconnectTip hcall
  obtain ⟨htip', hstore, -⟩ := of_moveTip hmove
  refine ⟨pindex, htip, htip', read_of_call hcall, ?_⟩
  rw [hstore]
  rcases of_disconnectBlock hdone with ⟨-, hsame⟩ | ⟨blockUndo, last, -, -, -, -, rfl⟩
  · rw [hsame]
  · exact spentIndex_writeDisconnected _ _ _

end CChainState

/-- An entry that names an input never asks for an erase. -/
theorem BlockSpends.not_isNull {value : CSpentIndexValue}
    (hspends : BlockSpends blocks pindex key value.spender) : value.isNull = false := by
  obtain ⟨txid, inputIndex, blockHeight, satoshis, addressType, addressHash⟩ := value
  cases hspends with
  | @input pprev block tx j prevout hprev hread htx hinput =>
    exact decide_eq_false tx.hash_ne_null

section Connect

variable {s s' : CChainState} {pindexNew : CBlockIndex}
  {changes : List (CSpentIndexKey × CSpentIndexValue)}

section

variable (hadds : AddsSpends s s' pindexNew changes)

include hadds

/-- An output the block spends has an entry naming the block. -/
theorem AddsSpends.lookup_of_spends {spender : Spender}
    (hspends : BlockSpends s.store.readBlockFromDisk pindexNew key spender) :
    ∃ value, s'.store.blocktree.spentIndex.lookup key = some value ∧
      BlockSpends s.store.readBlockFromDisk pindexNew key value.spender := by
  have hkey : key ∈ keys (spentWrites changes) := by
    obtain ⟨change, hmem, heq⟩ := mem_map.1 ((hadds.changes key spender).2 hspends)
    rw [keys, spentWrites, map_map]
    exact mem_map.2 ⟨change, hmem, congrArg Prod.fst heq⟩
  obtain ⟨written, hmem, hwrote⟩ := exists_mem_apply hkey (content s.store.blocktree.spentIndex)
  obtain ⟨⟨other, value⟩, hchange, heq⟩ := mem_map.1 hmem
  obtain ⟨rfl, rfl⟩ := Prod.mk.inj heq
  have hval := (hadds.changes other value.spender).1 (mem_map.2 ⟨_, hchange, rfl⟩)
  refine ⟨value, ?_, hval⟩
  rw [← content_store, ← hadds.spentIndex] at hwrote
  rw [hval.not_isNull] at hwrote
  exact hwrote

/-- An output the block does not spend keeps its entry. -/
theorem AddsSpends.lookup_of_not_spends
    (hnot : ∀ spender, ¬ BlockSpends s.store.readBlockFromDisk pindexNew key spender) :
    s'.store.blocktree.spentIndex.lookup key = s.store.blocktree.spentIndex.lookup key := by
  have hkey : key ∉ keys (spentWrites changes) := by
    intro hmem
    rw [keys, spentWrites, map_map] at hmem
    obtain ⟨change, hchange, rfl⟩ := mem_map.1 hmem
    exact hnot change.2.spender ((hadds.changes _ _).1 (mem_map.2 ⟨change, hchange, rfl⟩))
  have hsame := apply_of_notMem hkey (content s.store.blocktree.spentIndex)
  rw [← content_store, ← hadds.spentIndex] at hsame
  exact hsame

/-- Connecting keeps the spent index on the chain. -/
theorem AddsSpends.spentIndexed (hs : s.SpentIndexed) : s'.SpentIndexed := by
  have hchain : ∀ key spender, ChainSpends s'.store.readBlockFromDisk s'.tip key spender ↔
      BlockSpends s.store.readBlockFromDisk pindexNew key spender ∨
        ChainSpends s.store.readBlockFromDisk s.tip key spender := by
    intro key spender
    rw [hadds.read, hadds.tip, chainSpends_some, hadds.pprev]
  constructor
  · intro key
    simp only [hchain]
    by_cases hspent : ∃ spender, BlockSpends s.store.readBlockFromDisk pindexNew key spender
    · obtain ⟨spender, hspends⟩ := hspent
      obtain ⟨value, hf, -⟩ := hadds.lookup_of_spends hspends
      rw [hf]
      exact ⟨fun _ => ⟨spender, .inl hspends⟩, fun _ => rfl⟩
    · rw [hadds.lookup_of_not_spends fun spender hspends => hspent ⟨spender, hspends⟩, hs.spent]
      constructor
      · rintro ⟨spender, hbelow⟩
        exact ⟨spender, .inr hbelow⟩
      · rintro ⟨spender, hspends | hbelow⟩
        · exact absurd ⟨spender, hspends⟩ hspent
        · exact ⟨spender, hbelow⟩
  · intro key value hf
    simp only [hchain]
    by_cases hspent : ∃ spender, BlockSpends s.store.readBlockFromDisk pindexNew key spender
    · -- the entry is from the new block, which is above all others
      obtain ⟨spender, hspends⟩ := hspent
      obtain ⟨written, hwrote, hnamed⟩ := hadds.lookup_of_spends hspends
      obtain rfl : written = value := Option.some.inj (hwrote.symm.trans hf)
      refine ⟨.inl hnamed, fun other ho => ?_⟩
      have htop : written.blockHeight = pindexNew.nHeight := hnamed.blockHeight
      rw [htop]
      have hbelow : ChainSpends s.store.readBlockFromDisk (some pindexNew) key other := by
        rw [chainSpends_some, hadds.pprev]
        exact ho
      exact hbelow.blockHeight_le
    · have hnot : ∀ spender, ¬ BlockSpends s.store.readBlockFromDisk pindexNew key spender :=
        fun spender hspends => hspent ⟨spender, hspends⟩
      rw [hadds.lookup_of_not_spends hnot] at hf
      obtain ⟨hnamed, hlast⟩ := hs.named key value hf
      refine ⟨.inr hnamed, fun other ho => ?_⟩
      exact hlast other (ho.resolve_left (hnot other))

theorem AddsSpends.spentIndex_eq (hnothing : SpendsNothing s.store.readBlockFromDisk pindexNew) :
    s'.store.blocktree.spentIndex = s.store.blocktree.spentIndex :=
  Finmap.ext_lookup fun _ => hadds.lookup_of_not_spends (hnothing _)

end

end Connect

/-- Taking back a block keeps the spent index on the chain only if it spends nothing. -/
theorem spentIndexed_pprev_iff {s' : CChainState} (htip : s.tip = some pindex)
    (htip' : s'.tip = pindex.pprev) (hread : s'.store.readBlockFromDisk = s.store.readBlockFromDisk)
    (hsame : s'.store.blocktree.spentIndex = s.store.blocktree.spentIndex) (hs : s.SpentIndexed) :
    s'.SpentIndexed ↔ SpendsNothing s.store.readBlockFromDisk pindex := by
  constructor
  · intro hs' key spender hspends
    have hchain : ChainSpends s.store.readBlockFromDisk s.tip key spender := by
      rw [htip, chainSpends_some]
      exact .inl hspends
    obtain ⟨value, hf⟩ := Option.isSome_iff_exists.1 ((hs.spent key).2 ⟨spender, hchain⟩)
    have hhigh := (hs.named key value hf).2 spender hchain
    rw [hspends.blockHeight] at hhigh
    have hlow := (hs'.named key value (by rw [hsame]; exact hf)).1
    rw [htip'] at hlow
    cases pindex with
    | genesis hash time =>
      obtain ⟨other, hmem, -⟩ := hlow
      cases hmem
    | child pprev hash time =>
      have hle : value.blockHeight ≤ pprev.nHeight := hlow.blockHeight_le
      rw [CBlockIndex.nHeight] at hhigh
      omega
  · intro hnothing
    have hchain : ∀ key spender, ChainSpends s'.store.readBlockFromDisk s'.tip key spender ↔
        ChainSpends s.store.readBlockFromDisk s.tip key spender := by
      intro key spender
      rw [hread, htip', htip, chainSpends_some]
      exact (or_iff_right (hnothing key spender)).symm
    constructor
    · intro key
      simp only [hchain, hsame]
      exact hs.spent key
    · intro key value hf
      simp only [hchain]
      rw [hsame] at hf
      exact hs.named key value hf

/-- A block of the active chain that spends nothing left the spent index as it found it. -/
def Snapshots (blocks : CBlockIndex → Option CBlock) : List CBlockIndex → List CChainState →
    (Finmap fun _ : CSpentIndexKey => CSpentIndexValue) → Prop
  | [], [], _ => True
  | pindex :: below, start :: earlier, table =>
    (SpendsNothing blocks pindex → table = start.store.blocktree.spentIndex) ∧
      Snapshots blocks below earlier start.store.blocktree.spentIndex
  | _, _, _ => False

/-- The snapshots of a run that takes back only blocks that spend nothing. -/
theorem CChainState.Trace.snapshots {ctx : ValidationContext} (hon : ctx.options.fSpentIndex = true)
    {start : CChainState} (hstart : start.Initial) (htrace : Trace ctx start steps s)
    (hpromised : ∀ step ∈ steps, step.2.Promised ctx step.1)
    (hnothing : ∀ step ∈ steps, step.2.TakesBackNoSpend step.1) :
    Snapshots s.store.readBlockFromDisk (activeChain s.tip) (connectedIn steps)
      s.store.blocktree.spentIndex := by
  induction htrace with
  | start =>
    rw [hstart.tip]
    trivial
  | @step steps s s' call htrace hcall ih =>
    have hearlier := ih (forall_mem_cons.1 hpromised).2 (forall_mem_cons.1 hnothing).2
    cases call with
    | connect env pindexNew pblock =>
      obtain ⟨changes, hadds⟩ := addsSpends_of_connectTip hon (hpromised _ mem_cons_self) hcall
      rw [hadds.tip, hadds.read, activeChain_some, hadds.pprev]
      exact ⟨hadds.spentIndex_eq, hearlier⟩
    | disconnect env =>
      obtain ⟨pindex, htip, htip', hread, hsame⟩ := spentIndex_of_disconnectTip hcall
      have hspends : SpendsNothing s.store.readBlockFromDisk pindex :=
        hnothing _ mem_cons_self pindex htip
      rw [htip, activeChain_some] at hearlier
      rw [htip', hread, hsame]
      cases hstates : connectedIn steps with
      | nil =>
        rw [hstates] at hearlier
        exact hearlier.elim
      | cons snapshot others =>
        rw [hstates] at hearlier
        rw [connectedIn, hstates, hearlier.1 hspends]
        exact hearlier.2

/-- A node with no block has nothing spent. -/
theorem CChainState.Initial.spentIndexed (hs : s.Initial) : s.SpentIndexed := by
  have hno : ∀ key spender, ¬ ChainSpends s.store.readBlockFromDisk s.tip key spender := by
    rintro key spender ⟨pindex, hmem, -⟩
    rw [hs.tip] at hmem
    cases hmem
  constructor
  · intro key
    simp only [hno, exists_false, iff_false]
    rw [hs.blocktree]
    exact Bool.false_ne_true
  · intro key value hf
    rw [hs.blocktree] at hf
    cases hf

theorem SpentIndexFollows.spentIndexed (hfollows : SpentIndexFollows steps s) : s.SpentIndexed := by
  cases steps with
  | nil => exact hfollows
  | cons step earlier =>
    obtain ⟨before, call⟩ := step
    cases call with
    | connect env pindexNew pblock => exact hfollows.2
    | disconnect env => exact hfollows.2.1

/-- Along a run of connects and disconnects the spent index follows the chain,
and every disconnect restores it, exactly if no block that is taken back spends
an output. -/
theorem spent_index_follows_iff {ctx : ValidationContext} (hon : ctx.options.fSpentIndex = true)
    {start s : CChainState} {steps : List (CChainState × TipCall)} (hstart : start.Initial)
    (htrace : CChainState.Trace ctx start steps s)
    (hpromised : ∀ step ∈ steps, step.2.Promised ctx step.1) :
    SpentIndexFollows steps s ↔ ∀ step ∈ steps, step.2.TakesBackNoSpend step.1 := by
  induction htrace with
  | start =>
    constructor
    · intro _ step hstep
      cases hstep
    · intro _
      exact hstart.spentIndexed
  | @step steps s s' call htrace hcall ih =>
    have hearlier : ∀ step ∈ steps, step.2.Promised ctx step.1 := (forall_mem_cons.1 hpromised).2
    have ih := ih hearlier
    rw [forall_mem_cons]
    cases call with
    | connect env pindexNew pblock =>
      obtain ⟨changes, hadds⟩ := CChainState.addsSpends_of_connectTip hon
        (hpromised _ mem_cons_self) hcall
      constructor
      · rintro ⟨hfollows, -⟩
        exact ⟨trivial, ih.1 hfollows⟩
      · rintro ⟨-, hnothing⟩
        have hfollows := ih.2 hnothing
        exact ⟨hfollows, hadds.spentIndexed hfollows.spentIndexed⟩
    | disconnect env =>
      obtain ⟨pindex, htip, htip', hread, hsame⟩ := CChainState.spentIndex_of_disconnectTip hcall
      constructor
      · rintro ⟨hfollows, hs', -⟩
        refine ⟨fun other ho => ?_, ih.1 hfollows⟩
        obtain rfl : pindex = other := Option.some.inj (htip.symm.trans ho)
        exact (spentIndexed_pprev_iff htip htip' hread hsame hfollows.spentIndexed).1 hs'
      · rintro ⟨htaken, hnothing⟩
        have hfollows := ih.2 hnothing
        have hspends : SpendsNothing s.store.readBlockFromDisk pindex := htaken pindex htip
        have hs' := (spentIndexed_pprev_iff htip htip' hread hsame hfollows.spentIndexed).2 hspends
        -- the table has been the same since the block was connected
        have hsnapshots := htrace.snapshots hon hstart hearlier hnothing
        rw [htip, activeChain_some] at hsnapshots
        cases hstates : connectedIn steps with
        | nil =>
          rw [hstates] at hsnapshots
          exact hsnapshots.elim
        | cons snapshot others =>
          rw [hstates] at hsnapshots
          refine ⟨hfollows, hs', snapshot, by rw [hstates]; rfl, ?_⟩
          rw [hsame, hsnapshots.1 hspends]

namespace SpentIndexWitness

open UndoInverseWitness CrashRecoveryWitness AddressIndexWitness

theorem spendsNothing_index (n : ℕ) : SpendsNothing newNode.store.readBlockFromDisk (index n) := by
  rintro key spender ⟨hprev, hread, htx, hinput⟩
  cases n with
  | zero => cases hprev
  | succ n =>
    rw [read_newNode_index] at hread
    cases hread
    obtain rfl := mem_singleton.1 htx
    cases hinput

theorem spent_index_follows_iff_up_and_down :
    ∃ steps s, CChainState.Trace ctx newNode steps s ∧ s.tip = some (index 2) ∧
      (SpentIndexFollows steps s ↔ ∀ step ∈ steps, step.2.TakesBackNoSpend step.1) := by
  obtain ⟨made, s, htrace, hend, hmade⟩ := exists_trace upAndDown_runs
  have hon : ctx.options.fSpentIndex = true := rfl
  refine ⟨made, s, htrace, of_decide_eq_true hend,
    spent_index_follows_iff hon newNode_initial htrace ?_⟩
  rintro ⟨before, call⟩ hstep
  rcases mem_upAndDown (hmade _ hstep).2 with rfl | ⟨env, n, -, rfl⟩
  · trivial
  · exact promised_connectIndex env before n

/-- Connect a block that spends the first coinbase and take it back. -/
def spendAndBack : List TipCall :=
  (List.range 101).map (connectIndex keepInMemory) ++
    [.connect keepInMemory top none, .disconnect keepInMemory]

theorem spent_entry_outlives_its_block :
    ∃ steps s, CChainState.Trace ctx newNode steps s ∧
      (∀ step ∈ steps, step.2.Promised ctx step.1) ∧
      (s.store.blocktree.spentIndex.lookup ⟨(minted 0).hash, 0⟩).isSome ∧
      ∀ spender, ¬ ChainSpends s.store.readBlockFromDisk s.tip ⟨(minted 0).hash, 0⟩ spender := by
  have hend : endsIn spendAndBack (fun s => decide (s.tip = some (index 100)) &&
      (s.store.blocktree.spentIndex.lookup ⟨(minted 0).hash, 0⟩).isSome) = true := by
    decide +kernel
  obtain ⟨made, s, htrace, hcheck, hmade⟩ := exists_trace hend
  obtain ⟨htip, hent⟩ := Bool.and_eq_true_iff.1 hcheck
  refine ⟨made, s, htrace, ?_, hent, ?_⟩
  · rintro ⟨before, call⟩ hstep
    rcases mem_append.1 (hmade _ hstep).2 with hindex | hlast
    · obtain ⟨n, -, rfl⟩ := mem_map.1 hindex
      exact promised_connectIndex keepInMemory before n
    · simp only [mem_cons, not_mem_nil, or_false] at hlast
      rcases hlast with rfl | rfl
      · constructor
        · intro block hblk
          cases hblk
        · intro hhash
          have hne : hashOf 100 ≠ hashOf 1 := by decide
          exact absurd hhash hne
      · trivial
  · rintro spender ⟨pindex, hmem, hspends⟩
    rw [of_decide_eq_true htip] at hmem
    obtain ⟨k, -, rfl⟩ := exists_index_of_mem_ancestors hmem
    rw [read_of_blocks htrace.blocks] at hspends
    exact spendsNothing_index k _ spender hspends

end SpentIndexWitness

end Catoshi
