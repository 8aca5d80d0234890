/-
Transactions with unknown inputs (`net_processing.cpp`): the orphans, and the index of the
outpoints they spend.
-/
import Catoshi.Lib.MultiMap
import Catoshi.Lib.Outcome
import Catoshi.Lib.Runs
import Catoshi.Lib.Tally
import Catoshi.Primitives

namespace Catoshi

open MultiMap Table List

open Table (Rows)

def maxStandardTxWeight : ℕ := 400000

def orphanTxExpireTime : ℤ := 20 * 60

def orphanTxExpireInterval : ℤ := 5 * 60

structure COrphanTx where
  tx : CTransaction
  fromPeer : ℤ
  nTimeExpire : ℤ

/-- The orphans and their index. An iterator into `mapOrphanTransactions` is its hash; of
`vExtraTxnForCompact` the transactions are kept. -/
structure OrphanPool where
  mapOrphanTransactions : Rows Uint256 COrphanTx
  mapOrphanTransactionsByPrev : Rows COutPoint (List Uint256)
  nNextSweep : ℤ
  vExtraTxnForCompact : List (Option CTransaction)
  vExtraTxnForCompactIt : ℕ

inductive OrphanFailure where
  | endIterator
  | danglingIterator
  | outOfFuel
deriving DecidableEq, Repr

inductive OrphanCall where
  | addOrphanTx (now : ℤ) (tx : CTransaction) (peer : ℤ)
  | eraseOrphanTx (hash : Uint256)
  | eraseOrphansFor (peer : ℤ)
  | limitOrphanTxSize (now : ℤ) (nMaxOrphans : ℕ) (randomhash : ℕ → Uint256)
  | blockConnected (vtx : List CTransaction)

namespace OrphanPool

def create : OrphanPool where
  mapOrphanTransactions := ∅
  mapOrphanTransactionsByPrev := ∅
  nNextSweep := 0
  vExtraTxnForCompact := []
  vExtraTxnForCompactIt := 0

def size (pool : OrphanPool) : ℕ :=
  pool.mapOrphanTransactions.entries.length

def addToCompactExtraTransactions (maxExtraTxn : ℕ) (tx : CTransaction) (pool : OrphanPool) :
    OrphanPool :=
  if maxExtraTxn = 0 then pool
  else
    let extra :=
      if pool.vExtraTxnForCompact.isEmpty then List.replicate maxExtraTxn none
      else pool.vExtraTxnForCompact
    { pool with
      vExtraTxnForCompact := extra.set pool.vExtraTxnForCompactIt (some tx)
      vExtraTxnForCompactIt := (pool.vExtraTxnForCompactIt + 1) % maxExtraTxn }

/-- Enter an orphan under its hash and the outpoints it spends. -/
def emplace (orphan : COrphanTx) (pool : OrphanPool) : OrphanPool :=
  { pool with
    mapOrphanTransactions := pool.mapOrphanTransactions.insert orphan.tx.getHash orphan
    mapOrphanTransactionsByPrev :=
      addAll orphan.tx.prevouts orphan.tx.getHash pool.mapOrphanTransactionsByPrev }

def addOrphanTx (weight : CTransaction → ℕ) (maxExtraTxn : ℕ) (now : ℤ) (tx : CTransaction)
    (peer : ℤ) (pool : OrphanPool) : Bool × OrphanPool :=
  if tx.getHash ∈ pool.mapOrphanTransactions then (false, pool)
  else if maxStandardTxWeight ≤ weight tx then (false, pool)
  else
    let added := pool.emplace ⟨tx, peer, now + orphanTxExpireTime⟩
    (true, added.addToCompactExtraTransactions maxExtraTxn tx)

def eraseOrphanTx (hash : Uint256) (pool : OrphanPool) : ℕ × OrphanPool :=
  match pool.mapOrphanTransactions.lookup hash with
  | none => (0, pool)
  | some orphan =>
    (1, { pool with
      mapOrphanTransactionsByPrev :=
        removeAll orphan.tx.prevouts hash pool.mapOrphanTransactionsByPrev
      mapOrphanTransactions := pool.mapOrphanTransactions.erase hash })

/-- One turn of the loop of `EraseOrphansFor`. -/
def eraseIfFrom (peer : ℤ) (pool : OrphanPool) (hash : Uint256) : OrphanPool :=
  match pool.mapOrphanTransactions.lookup hash with
  | none => pool
  | some orphan =>
    if orphan.fromPeer = peer then (pool.eraseOrphanTx orphan.tx.getHash).2 else pool

def eraseOrphansFor (peer : ℤ) (pool : OrphanPool) : OrphanPool :=
  pool.mapOrphanTransactions.keys.foldl (eraseIfFrom peer) pool

/-- A turn of the sweep, with the least time a staying orphan expires. -/
def eraseIfExpired (now : ℤ) (swept : ℤ × OrphanPool) (hash : Uint256) : ℤ × OrphanPool :=
  match swept.2.mapOrphanTransactions.lookup hash with
  | none => swept
  | some orphan =>
    if orphan.nTimeExpire ≤ now then (swept.1, (swept.2.eraseOrphanTx orphan.tx.getHash).2)
    else (min orphan.nTimeExpire swept.1, swept.2)

/-- The sweep at the start of `LimitOrphanTxSize`. -/
def sweep (now : ℤ) (pool : OrphanPool) : OrphanPool :=
  if pool.nNextSweep ≤ now then
    let swept := pool.mapOrphanTransactions.keys.foldl (eraseIfExpired now)
      (now + orphanTxExpireTime - orphanTxExpireInterval, pool)
    { swept.2 with nNextSweep := swept.1 + orphanTxExpireInterval }
  else pool

/-- The bytes of a hash in the order they are compared. -/
def hashBytes (hash : Uint256) : List ℕ :=
  hash.data.map UInt8.toNat

/-- `lower_bound`, or `begin` if there is none. -/
def pickOrphan (randomhash : Uint256) (pool : OrphanPool) : Option Uint256 :=
  let hashes := pool.mapOrphanTransactions.keys
  match (hashes.filter (hashBytes randomhash ≤ hashBytes ·)).argmin hashBytes with
  | some hash => some hash
  | none => hashes.argmin hashBytes

def evict (nMaxOrphans : ℕ) (randomhash : ℕ → Uint256) :
    ℕ → ℕ → OrphanPool → Except OrphanFailure (ℕ × OrphanPool)
  | fuel, nEvicted, pool =>
    if pool.size ≤ nMaxOrphans then .ok (nEvicted, pool)
    else
      match fuel with
      | 0 => .error .outOfFuel
      | fuel + 1 =>
        match pool.pickOrphan (randomhash nEvicted) with
        | none => .error .endIterator
        | some hash => evict nMaxOrphans randomhash fuel (nEvicted + 1)
            (pool.eraseOrphanTx hash).2

def limitOrphanTxSize (now : ℤ) (nMaxOrphans : ℕ) (randomhash : ℕ → Uint256)
    (pool : OrphanPool) : Except OrphanFailure (ℕ × OrphanPool) :=
  let swept := pool.sweep now
  evict nMaxOrphans randomhash swept.size 0 swept

/-- The hash an iterator of the index stands at. -/
def orphanHash (pool : OrphanPool) (it : Uint256) : Except OrphanFailure Uint256 :=
  match pool.mapOrphanTransactions.lookup it with
  | none => .error .danglingIterator
  | some orphan => .ok orphan.tx.getHash

def eraseOrphans (hashes : List Uint256) (pool : OrphanPool) : OrphanPool :=
  hashes.foldl (fun pool hash => (pool.eraseOrphanTx hash).2) pool

/-- The iterators of orphans that spend an input of the block. -/
def conflicting (vtx : List CTransaction) (pool : OrphanPool) : List Uint256 :=
  vtx.flatMap fun tx => tx.prevouts.flatMap (values pool.mapOrphanTransactionsByPrev)

def blockConnected (vtx : List CTransaction) (pool : OrphanPool) :
    Except OrphanFailure OrphanPool := do
  let vOrphanErase ← (pool.conflicting vtx).mapM pool.orphanHash
  pure (pool.eraseOrphans vOrphanErase)

def step (weight : CTransaction → ℕ) (maxExtraTxn : ℕ) (pool : OrphanPool) :
    OrphanCall → Except OrphanFailure OrphanPool
  | .addOrphanTx now tx peer => .ok (pool.addOrphanTx weight maxExtraTxn now tx peer).2
  | .eraseOrphanTx hash => .ok (pool.eraseOrphanTx hash).2
  | .eraseOrphansFor peer => .ok (pool.eraseOrphansFor peer)
  | .limitOrphanTxSize now nMaxOrphans randomhash =>
    (pool.limitOrphanTxSize now nMaxOrphans randomhash).map Prod.snd
  | .blockConnected vtx => pool.blockConnected vtx

/-- Each outpoint leads to just the orphans that spend it, and none to nothing. -/
structure Indexed (pool : OrphanPool) : Prop where
  keyed : ∀ hash orphan, pool.mapOrphanTransactions.lookup hash = some orphan →
    orphan.tx.getHash = hash ∧ orphan.tx.vin ≠ []
  inverse : ∀ outpoint hash,
    hash ∈ values pool.mapOrphanTransactionsByPrev outpoint ↔
      ∃ orphan, pool.mapOrphanTransactions.lookup hash = some orphan ∧ outpoint ∈ orphan.tx.prevouts
  proper : MultiMap.Proper pool.mapOrphanTransactionsByPrev

variable {pool : OrphanPool}

theorem indexed_create : create.Indexed where
  keyed hash orphan horphan := by simp [create] at horphan
  inverse outpoint hash := by simp [create, values]
  proper key held hheld := by simp [create] at hheld

theorem lookup_eraseOrphanTx (hash other : Uint256) (pool : OrphanPool) :
    (pool.eraseOrphanTx hash).2.mapOrphanTransactions.lookup other =
      if other = hash then none else pool.mapOrphanTransactions.lookup other := by
  rw [eraseOrphanTx]
  split
  · next hno =>
    split
    · next heq => rw [heq, hno]
    · rfl
  · exact lookup_erase hash _ other

theorem size_eraseOrphanTx_lt {hash : Uint256} (hmem : hash ∈ pool.mapOrphanTransactions) :
    (pool.eraseOrphanTx hash).2.size < pool.size := by
  obtain ⟨orphan, horphan⟩ := mem_iff.1 hmem
  rw [eraseOrphanTx, horphan]
  exact length_erase_lt hmem

/-- There is an orphan to pick while there is any. -/
theorem exists_pickOrphan (pool : OrphanPool) (randomhash : Uint256) (hsize : 0 < pool.size) :
    ∃ hash, pool.pickOrphan randomhash = some hash ∧ hash ∈ pool.mapOrphanTransactions := by
  rw [pickOrphan]
  split
  · next hash hpick =>
    exact ⟨hash, rfl, (mem_filter.1 (argmin_mem hpick)).1⟩
  · cases hpick : pool.mapOrphanTransactions.keys.argmin hashBytes with
    | none =>
      have hempty := congrArg List.length (argmin_eq_none.1 hpick)
      rw [AList.keys, List.keys, length_map] at hempty
      exact absurd hempty (Nat.ne_of_gt hsize)
    | some hash => exact ⟨hash, rfl, argmin_mem hpick⟩

theorem lookup_eraseOrphans (hashes : List Uint256) (other : Uint256) (pool : OrphanPool) :
    (pool.eraseOrphans hashes).mapOrphanTransactions.lookup other =
      if other ∈ hashes then none else pool.mapOrphanTransactions.lookup other := by
  induction hashes generalizing pool with
  | nil => simp [eraseOrphans]
  | cons hash hashes ih =>
    rw [eraseOrphans, foldl_cons, ← eraseOrphans, ih, lookup_eraseOrphanTx]
    by_cases ho : other = hash <;> by_cases hrest : other ∈ hashes <;> simp [ho, hrest]

section

variable (hindexed : pool.Indexed)

include hindexed

/-- Pools that differ in neither of the two maps. -/
theorem Indexed.congr {other : OrphanPool}
    (horphans : other.mapOrphanTransactions = pool.mapOrphanTransactions)
    (hindex : other.mapOrphanTransactionsByPrev = pool.mapOrphanTransactionsByPrev) :
    other.Indexed := by
  constructor
  · rw [horphans]
    exact hindexed.keyed
  · rw [horphans, hindex]
    exact hindexed.inverse
  · rw [hindex]
    exact hindexed.proper

theorem Indexed.addToCompactExtraTransactions (maxExtraTxn : ℕ)
    (tx : CTransaction) : (pool.addToCompactExtraTransactions maxExtraTxn tx).Indexed := by
  rw [OrphanPool.addToCompactExtraTransactions]
  split
  · exact hindexed
  · exact hindexed.congr rfl rfl

theorem Indexed.emplace {orphan : COrphanTx}
    (hnew : orphan.tx.getHash ∉ pool.mapOrphanTransactions) (hins : orphan.tx.vin ≠ []) :
    (pool.emplace orphan).Indexed where
  keyed hash found hf := by
    rw [OrphanPool.emplace, lookup_insert] at hf
    split_ifs at hf with heq
    · cases hf
      exact ⟨heq.symm, hins⟩
    · exact hindexed.keyed hash found hf
  inverse outpoint hash := by
    rw [OrphanPool.emplace, mem_values_addAll, lookup_insert, hindexed.inverse]
    split_ifs with heq
    · subst heq
      simp [AList.lookup_eq_none.2 hnew]
    · simp [heq]
  proper := hindexed.proper.addAll _ _

theorem Indexed.addOrphanTx (weight : CTransaction → ℕ)
    (maxExtraTxn : ℕ) (now : ℤ) {tx : CTransaction} (peer : ℤ) (hins : tx.vin ≠ []) :
    (pool.addOrphanTx weight maxExtraTxn now tx peer).2.Indexed := by
  rw [OrphanPool.addOrphanTx]
  split
  · exact hindexed
  · next hnew =>
    split
    · exact hindexed
    · exact (hindexed.emplace hnew hins).addToCompactExtraTransactions maxExtraTxn tx

theorem Indexed.eraseOrphanTx (hash : Uint256) :
    (pool.eraseOrphanTx hash).2.Indexed where
  keyed other orphan horphan := by
    rw [lookup_eraseOrphanTx] at horphan
    split_ifs at horphan
    exact hindexed.keyed other orphan horphan
  inverse outpoint other := by
    rw [lookup_eraseOrphanTx, OrphanPool.eraseOrphanTx]
    split
    · next hno =>
      rw [hindexed.inverse]
      split_ifs with heq
      · subst heq
        simp [hno]
      · rfl
    · next orphan horphan =>
      rw [mem_values_removeAll, hindexed.inverse]
      split_ifs with heq
      · subst heq
        simp [horphan]
      · simp [heq]
  proper := by
    rw [OrphanPool.eraseOrphanTx]
    split
    · exact hindexed.proper
    · exact hindexed.proper.removeAll _ _

theorem Indexed.eraseOrphansFor (peer : ℤ) : (pool.eraseOrphansFor peer).Indexed := by
  rw [OrphanPool.eraseOrphansFor]
  generalize pool.mapOrphanTransactions.keys = hashes
  induction hashes generalizing pool with
  | nil => exact hindexed
  | cons hash hashes ih =>
    apply ih
    rw [eraseIfFrom]
    split
    · exact hindexed
    · split
      · exact hindexed.eraseOrphanTx _
      · exact hindexed

theorem Indexed.sweep (now : ℤ) : (pool.sweep now).Indexed := by
  have hloop : ∀ (hashes : List Uint256) (swept : ℤ × OrphanPool), swept.2.Indexed →
      (hashes.foldl (eraseIfExpired now) swept).2.Indexed := by
    intro hashes
    induction hashes with
    | nil => exact fun swept hswept => hswept
    | cons hash hashes ih =>
      intro swept hswept
      apply ih
      rw [eraseIfExpired]
      split
      · exact hswept
      · split
        · exact hswept.eraseOrphanTx _
        · exact hswept
  rw [OrphanPool.sweep]
  split
  · exact (hloop _ (_, pool) hindexed).congr rfl rfl
  · exact hindexed

theorem Indexed.evict (nMaxOrphans : ℕ) (randomhash : ℕ → Uint256)
    (fuel nEvicted : ℕ) (hfuel : pool.size ≤ fuel) :
    ∃ evicted next, evict nMaxOrphans randomhash fuel nEvicted pool = .ok (evicted, next) ∧
      next.Indexed ∧ next.size ≤ nMaxOrphans := by
  induction fuel generalizing nEvicted pool with
  | zero =>
    rw [OrphanPool.evict, if_pos (by omega)]
    exact ⟨nEvicted, pool, rfl, hindexed, by omega⟩
  | succ fuel ih =>
    rw [OrphanPool.evict]
    split_ifs with hsmall
    · exact ⟨nEvicted, pool, rfl, hindexed, hsmall⟩
    · obtain ⟨hash, hpick, hmem⟩ := exists_pickOrphan pool (randomhash nEvicted) (by omega)
      have hsmaller := size_eraseOrphanTx_lt hmem
      simp only [hpick]
      exact ih (hindexed.eraseOrphanTx hash) (nEvicted + 1) (by omega)

theorem Indexed.limitOrphanTxSize (now : ℤ) (nMaxOrphans : ℕ) (randomhash : ℕ → Uint256) :
    ∃ evicted next, pool.limitOrphanTxSize now nMaxOrphans randomhash = .ok (evicted, next) ∧
      next.Indexed ∧ next.size ≤ nMaxOrphans :=
  (hindexed.sweep now).evict nMaxOrphans randomhash _ 0 le_rfl

theorem Indexed.eraseOrphans (hashes : List Uint256) : (pool.eraseOrphans hashes).Indexed := by
  induction hashes generalizing pool with
  | nil => exact hindexed
  | cons hash hashes ih => exact ih (hindexed.eraseOrphanTx hash)

/-- The iterators of the index can be followed. -/
theorem Indexed.mapM_orphanHash {hashes : List Uint256}
    (hhashes : ∀ hash ∈ hashes, hash ∈ pool.mapOrphanTransactions) :
    hashes.mapM pool.orphanHash = .ok hashes := by
  induction hashes with
  | nil => rfl
  | cons hash hashes ih =>
    obtain ⟨hfst, hrest⟩ := forall_mem_cons.1 hhashes
    obtain ⟨orphan, horphan⟩ := mem_iff.1 hfst
    have hhash : pool.orphanHash hash = .ok hash := by
      rw [orphanHash, horphan]
      exact congrArg Except.ok (hindexed.keyed hash orphan horphan).1
    rw [mapM_cons, hhash, ih hrest]
    rfl

theorem Indexed.mem_conflicting {vtx : List CTransaction}
    {hash : Uint256} : hash ∈ pool.conflicting vtx ↔
      ∃ orphan, pool.mapOrphanTransactions.lookup hash = some orphan ∧
        ∃ tx ∈ vtx, ∃ outpoint ∈ tx.prevouts, outpoint ∈ orphan.tx.prevouts := by
  simp only [conflicting, mem_flatMap, hindexed.inverse]
  tauto

theorem Indexed.blockConnected (vtx : List CTransaction) :
    pool.blockConnected vtx = .ok (pool.eraseOrphans (pool.conflicting vtx)) := by
  have hiterators : ∀ hash ∈ pool.conflicting vtx, hash ∈ pool.mapOrphanTransactions := by
    intro hash hhash
    obtain ⟨orphan, horphan, -⟩ := hindexed.mem_conflicting.1 hhash
    exact mem_of_lookup horphan
  rw [OrphanPool.blockConnected, hindexed.mapM_orphanHash hiterators]
  rfl

end

end OrphanPool

def OrphanCall.HasInputs : OrphanCall → Prop
  | .addOrphanTx _ tx _ => tx.vin ≠ []
  | _ => True

namespace OrphanPool

variable {pool : OrphanPool} {weight : CTransaction → ℕ} {maxExtraTxn : ℕ}

theorem Indexed.step (hindexed : pool.Indexed) {call : OrphanCall} (hins : call.HasInputs) :
    ∃ next, pool.step weight maxExtraTxn call = .ok next ∧ next.Indexed := by
  cases call with
  | addOrphanTx now tx peer =>
    exact ⟨_, rfl, hindexed.addOrphanTx weight maxExtraTxn now peer hins⟩
  | eraseOrphanTx hash => exact ⟨_, rfl, hindexed.eraseOrphanTx hash⟩
  | eraseOrphansFor peer => exact ⟨_, rfl, hindexed.eraseOrphansFor peer⟩
  | limitOrphanTxSize now nMaxOrphans randomhash =>
    obtain ⟨evicted, next, hlimit, hnext, -⟩ :=
      hindexed.limitOrphanTxSize now nMaxOrphans randomhash
    exact ⟨next, by rw [OrphanPool.step, hlimit]; rfl, hnext⟩
  | blockConnected vtx =>
    exact ⟨_, hindexed.blockConnected vtx, hindexed.eraseOrphans _⟩

/-- A transaction's hash says which outpoints it spends. -/
def Identifies (pool : OrphanPool) (vtx : List CTransaction) : Prop :=
  ∀ hash orphan, pool.mapOrphanTransactions.lookup hash = some orphan →
    ∀ tx ∈ vtx, tx.getHash = hash → tx.prevouts = orphan.tx.prevouts

/-- The index is exact, calls that add orphans with inputs return, `LimitOrphanTxSize` leaves at
most so many orphans, and `BlockConnected` none the block conflicts with or holds. -/
structure Consistent (weight : CTransaction → ℕ) (maxExtraTxn : ℕ) (pool : OrphanPool) : Prop
    extends pool.Indexed where
  returns : ∀ call : OrphanCall, call.HasInputs →
    ∃ next, pool.step weight maxExtraTxn call = .ok next
  limited : ∀ now nMaxOrphans randomhash next,
    pool.step weight maxExtraTxn (.limitOrphanTxSize now nMaxOrphans randomhash) = .ok next →
      next.size ≤ nMaxOrphans
  cleared : ∀ vtx next, pool.step weight maxExtraTxn (.blockConnected vtx) = .ok next →
    ∀ hash orphan, next.mapOrphanTransactions.lookup hash = some orphan → ∀ tx ∈ vtx,
      (∀ outpoint ∈ tx.prevouts, outpoint ∉ orphan.tx.prevouts) ∧
        (pool.Identifies vtx → tx.getHash ≠ hash)

theorem Indexed.consistent (hindexed : pool.Indexed) : Consistent weight maxExtraTxn pool where
  toIndexed := hindexed
  returns call hins := by
    obtain ⟨next, hnext, -⟩ := hindexed.step hins
    exact ⟨next, hnext⟩
  limited now nMaxOrphans randomhash next hstep := by
    obtain ⟨evicted, after, hlimit, -, hsize⟩ :=
      hindexed.limitOrphanTxSize now nMaxOrphans randomhash
    rw [OrphanPool.step, hlimit] at hstep
    cases hstep
    exact hsize
  cleared vtx next hstep hash orphan horphan tx htx := by
    rw [OrphanPool.step, hindexed.blockConnected] at hstep
    cases hstep
    rw [lookup_eraseOrphans] at horphan
    split_ifs at horphan with hspared
    have hapart : ∀ outpoint ∈ tx.prevouts, outpoint ∉ orphan.tx.prevouts :=
      fun outpoint hspent hheld => hspared
        (hindexed.mem_conflicting.2 ⟨orphan, horphan, tx, htx, outpoint, hspent, hheld⟩)
    refine ⟨hapart, fun hidentifies hhash => ?_⟩
    -- the orphan would spend the outpoints of the transaction, and it has inputs
    have hsame := hidentifies hash orphan horphan tx htx hhash
    have hins : orphan.tx.prevouts ≠ [] :=
      fun hnil => (hindexed.keyed hash orphan horphan).2 (map_eq_nil_iff.1 hnil)
    obtain ⟨outpoint, hheld⟩ := exists_mem_of_ne_nil _ hins
    exact hapart outpoint (hsame ▸ hheld) hheld

/-- All along every run in which the orphans added have inputs, the orphan pool is consistent. -/
theorem always_consistent {calls : List OrphanCall} (hinputs : ∀ call ∈ calls, call.HasInputs) :
    Runs.Always (step weight maxExtraTxn) (Consistent weight maxExtraTxn) calls create := by
  have hkeeps : ∀ (pool : OrphanPool) (call : OrphanCall) next, pool.Indexed →
      True ∧ call.HasInputs → pool.step weight maxExtraTxn call = .ok next → next.Indexed := by
    intro pool call next hindexed hcall hstep
    obtain ⟨after, hafter, hnext⟩ := hindexed.step hcall.2
    rw [hstep] at hafter
    exact Except.ok.inj hafter ▸ hnext
  have hfit : Runs.Throughout (step weight maxExtraTxn) (fun _ call => True ∧ call.HasInputs)
      calls create := (Runs.throughout_true calls create).and_forall hinputs
  exact (hfit.always hkeeps indexed_create).imp fun _ hindexed => hindexed.consistent

end OrphanPool

namespace OrphanPoolWitness

theorem hashOf_two_ne_null : hashOf 2 ≠ BaseBlob.null 32 := by decide

def orphan : CTransaction where
  nVersion := 1
  vin := [⟨⟨hashOf 1, 0⟩, [], 0, []⟩]
  vout := []
  nLockTime := 0
  hash := hashOf 2
  hash_ne_null := hashOf_two_ne_null

theorem added_and_connected :
    Runs.Always (OrphanPool.step (fun _ => 1000) 100) (OrphanPool.Consistent (fun _ => 1000) 100)
      [.addOrphanTx 0 orphan 1, .limitOrphanTxSize 5 1 fun _ => orphan.hash,
        .blockConnected [orphan]] OrphanPool.create := by
  apply OrphanPool.always_consistent
  intro call hcall
  simp only [mem_cons, not_mem_nil, or_false] at hcall
  rcases hcall with rfl | rfl | rfl
  · exact cons_ne_nil _ _
  · trivial
  · trivial

end OrphanPoolWitness

end Catoshi
