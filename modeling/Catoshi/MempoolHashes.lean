/-
Runs of the memory pool, and the vector of witness hashes, through which the matcher of compact
blocks (`blockencodings.cpp`) reads the pool.
-/
import Catoshi.Lib.Runs
import Catoshi.MempoolSteps

namespace Catoshi

open Outcome Table CTxMemPool.Shrinks AcceptContext List

inductive PoolCall where
  | accept (ctx : AcceptContext) (args : AcceptArgs) (tx : CTransaction)
  | prioritiseTransaction (hash : Uint256) (nFeeDelta : CAmount)
  | clearPrioritisation (hash : Uint256)
  | removeStaged (stage : List Uint256) (updateDescendants : Bool)
  | removeRecursive (origTx : CTransaction)
  | removeForReorg (chain : ReorgView)
  | removeConflicts (tx : CTransaction)
  | removeForBlock (vtx : List CTransaction)
  | expire (time : ℤ)
  | trimToSize (order : TrimOrder) (sizelimit : ℕ)
  | updateTransactionsFromBlock (vHashesToUpdate : List Uint256)
  | clear

def PoolCall.apply (pool : CTxMemPool) : PoolCall → Except Fault CTxMemPool
  | accept ctx args tx => do
      let (pool, _) ← ctx.acceptToMemoryPoolWorker args pool tx
      return pool
  | prioritiseTransaction hash nFeeDelta => pool.prioritiseTransaction hash nFeeDelta
  | clearPrioritisation hash => .ok (pool.clearPrioritisation hash)
  | removeStaged stage updateDescendants => pool.removeStaged stage updateDescendants
  | removeRecursive origTx => pool.removeRecursive origTx
  | removeForReorg chain => pool.removeForReorg chain
  | removeConflicts tx => pool.removeConflicts tx
  | removeForBlock vtx => pool.removeForBlock vtx
  | expire time => pool.expire time
  | trimToSize order sizelimit => pool.trimToSize order sizelimit
  | updateTransactionsFromBlock vHashesToUpdate =>
    pool.updateTransactionsFromBlock vHashesToUpdate
  | clear => .ok pool.clear

variable {pool pool' : CTxMemPool} {tx : CTransaction}

/-- The entry is that of the transaction. -/
theorem tx_of_makeEntry {ctx : AcceptContext} {args : AcceptArgs} {view : CCoinsViewCache}
    {entry : CTxMemPoolEntry} (hent : ctx.makeEntry args pool tx view = .ok entry) :
    entry.tx = tx := by
  simp only [makeEntry, bind_ok_iff, pure_ok_iff, require_ok_iff] at hent
  obtain ⟨_, _, ⟨_, _⟩, _, _, _, _, _, _, _, _, _, _, _, _, _, rfl⟩ := hent
  rfl

/-- The checks let in a new transaction only. -/
theorem fresh_of_examine {ctx : AcceptContext} {args : AcceptArgs}
    {admission : AcceptContext.Admission} (hexamine : ctx.examine args pool tx = .ok admission) :
    admission.entry.getHash ∉ pool.mapTx := by
  simp only [examine, bind_ok_iff, pure_ok_iff, require_ok_iff] at hexamine
  obtain ⟨_, -, _, hfresh, _, -, _, -, entry, hent, _, -, _, -, _, -, rfl⟩ := hexamine
  rw [CTxMemPoolEntry.getHash, tx_of_makeEntry hent]
  simpa using hfresh

/-- A transaction is let in: conflicts leave, the entry and its index rows come, and the pool may
be cut. -/
structure Accepts (ctx : AcceptContext) (pool pool' : CTxMemPool)
    (admission : AcceptContext.Admission) (removed added : CTxMemPool) : Prop where
  fresh : admission.entry.getHash ∉ pool.mapTx
  removes : pool.removeStaged admission.allConflicting false = .ok removed
  adds : removed.addUnchecked admission.entry admission.setAncestors = .ok added
  limits : (ctx.indexEntry admission added).Shrinks pool'

theorem AcceptContext.indexEntry_rest (ctx : AcceptContext) (admission : AcceptContext.Admission)
    (pool : CTxMemPool) : (ctx.indexEntry admission pool).mapTx = pool.mapTx ∧
      (ctx.indexEntry admission pool).vTxHashes = pool.vTxHashes := by
  rw [indexEntry]
  split <;> split <;> exact ⟨rfl, rfl⟩

/-- Steps that add nothing let nothing in. -/
theorem CTxMemPool.Shrinks.mem_of_mem (hshrinks : pool.Shrinks pool') {it : Uint256}
    (hmem : it ∈ pool'.mapTx) : it ∈ pool.mapTx := by
  induction hshrinks with
  | refl => exact hmem
  | tail _ hstep ih =>
    apply ih
    cases hstep with
    | keep hkeeps => exact hkeeps.mem_iff.1 hmem
    | remove hremoved =>
      obtain ⟨found, hf⟩ := CTxMemPool.mem_mapTx_iff_data.1 hmem
      rw [hremoved.data] at hf
      split_ifs at hf
      exact CTxMemPool.mem_mapTx_iff_data.2 ⟨found, hf⟩

/-- A call that returns left the pool alone or let the transaction in. -/
theorem accepts_of_worker {ctx : AcceptContext} {args : AcceptArgs} {verdict : AcceptVerdict}
    (hcall : ctx.acceptToMemoryPoolWorker args pool tx = .ok (pool', verdict)) :
    pool' = pool ∨ ∃ admission removed added,
      Accepts ctx pool pool' admission removed added := by
  rw [acceptToMemoryPoolWorker] at hcall
  split at hcall
  · cases hcall
  · cases hcall
    exact .inl rfl
  · next admission hexamine =>
    simp only [bind_ok_iff, pure_ok_iff, storeInMemory, Prod.mk.injEq] at hcall
    obtain ⟨stored, ⟨removed, hremoved, added, hadded, rfl⟩, last, hlast, rfl, -⟩ := hcall
    have hlimits : (ctx.indexEntry admission added).Shrinks last := by
      split at hlast
      · cases hlast
        exact .refl
      · exact of_limitMempoolSize hlast
    exact .inr ⟨admission, removed, added, fresh_of_examine hexamine, hremoved, hadded, hlimits⟩

/-- Every call but `clear` adds nothing or lets one transaction in. -/
theorem PoolCall.apply_cases {call : PoolCall} (hcall : call.apply pool = .ok pool') :
    pool.Shrinks pool' ∨ call = .clear ∧ pool' = pool.clear ∨
      ∃ ctx admission removed added, Accepts ctx pool pool' admission removed added := by
  cases call with
  | accept ctx args tx =>
    simp only [apply, bind_ok_iff, pure_ok_iff] at hcall
    obtain ⟨⟨last, verdict⟩, hworker, rfl⟩ := hcall
    rcases accepts_of_worker hworker with rfl | haccepts
    · exact .inl .refl
    · exact .inr (.inr ⟨ctx, haccepts⟩)
  | prioritiseTransaction hash nFeeDelta =>
    exact .inl (CTxMemPool.Keeps.of_prioritiseTransaction hcall).shrinks
  | clearPrioritisation hash =>
    cases hcall
    exact .inl (CTxMemPool.Keeps.clearPrioritisation pool hash).shrinks
  | removeStaged stage updateDescendants =>
    exact .inl (of_removeStaged hcall)
  | removeRecursive origTx => exact .inl (of_removeRecursive hcall)
  | removeForReorg chain => exact .inl (of_removeForReorg hcall)
  | removeConflicts tx => exact .inl (of_removeConflicts hcall)
  | removeForBlock vtx => exact .inl (of_removeForBlock hcall)
  | expire time => exact .inl (of_expire hcall)
  | trimToSize order sizelimit => exact .inl (of_trimLoop hcall)
  | updateTransactionsFromBlock vHashesToUpdate =>
    exact .inl (CTxMemPool.Keeps.of_updateTransactionsFromBlock hcall).shrinks
  | clear =>
    cases hcall
    exact .inr (.inl ⟨rfl, rfl⟩)

open CTxMemPool

/-- What `InitData` fills in over the pool. -/
structure MatchState where
  txnAvailable : ℕ → Option CTransaction
  haveTxn : ℕ → Bool
  mempoolCount : ℕ

/-- A pair of `vTxHashes` in `InitData`. A second match for a short id takes the first back. -/
def CTxMemPool.matchPair (pool : CTxMemPool) (getShortID : Uint256 → ℕ)
    (shorttxids : Rows ℕ ℕ) (pair : Uint256 × Uint256) (state : MatchState) :
    Except Fault MatchState :=
  match shorttxids.lookup (getShortID pair.1) with
  | none => .ok state
  | some index =>
    if state.haveTxn index then
      .ok (if (state.txnAvailable index).isSome then
          { state with
            txnAvailable := Function.update state.txnAvailable index none
            mempoolCount := state.mempoolCount - 1 }
        else
          state)
    else do
      let entry ← pool.deref pair.2
      return {
        txnAvailable := Function.update state.txnAvailable index (some entry.tx)
        haveTxn := Function.update state.haveTxn index true
        mempoolCount := state.mempoolCount + 1 }

/-- The loop of `InitData` over `vTxHashes`. -/
def CTxMemPool.matchLoop (pool : CTxMemPool) (getShortID : Uint256 → ℕ)
    (shorttxids : Rows ℕ ℕ) :
    List (Uint256 × Uint256) → MatchState → Except Fault MatchState
  | [], state => .ok state
  | pair :: rest, state => do
      let state ← pool.matchPair getShortID shorttxids pair state
      if state.mempoolCount = shorttxids.keys.length then
        return state
      else
        pool.matchLoop getShortID shorttxids rest state

namespace CTxMemPool

/-- Every pair of `vTxHashes` is that of the entry it points at, every entry has its pair and knows
its position. -/
structure HashesExact (pool : CTxMemPool) : Prop where
  live : ∀ i pair, pool.vTxHashes[i]? = some pair →
    ∃ entry, pool.mapTx.lookup pair.2 = some entry ∧ entry.witnessHash = pair.1 ∧
      entry.vTxHashesIdx = i
  listed : ∀ it entry, pool.mapTx.lookup it = some entry →
    pool.vTxHashes[entry.vTxHashesIdx]? = some (entry.witnessHash, it)

/-- The matcher of compact blocks can read every pair. -/
def Matches (pool : CTxMemPool) : Prop :=
  ∀ getShortID shorttxids state,
    ∃ matched, pool.matchLoop getShortID shorttxids pool.vTxHashes state = .ok matched

variable {pool pool' : CTxMemPool} {entry : CTxMemPoolEntry}
  {it : Uint256} {vTxHashes : List (Uint256 × Uint256)}

theorem fixed_eq_some_iff {data : EntryData} {idx : ℕ} :
    pool.fixed it = some (data, idx) ↔ ∃ entry, pool.mapTx.lookup it = some entry ∧
      entry.toEntryData = data ∧ entry.vTxHashesIdx = idx := by
  rw [fixed, Option.map_eq_some_iff]
  simp only [CTxMemPoolEntry.fixed, Prod.mk.injEq]

theorem hashesExact_iff :
    pool.HashesExact ↔
      (∀ i pair, pool.vTxHashes[i]? = some pair →
        ∃ data, pool.fixed pair.2 = some (data, i) ∧ data.witnessHash = pair.1) ∧
      ∀ it data idx, pool.fixed it = some (data, idx) →
        pool.vTxHashes[idx]? = some (data.witnessHash, it) := by
  constructor
  · intro hexact
    refine ⟨fun i pair hpair => ?_, fun it data idx hfixed => ?_⟩
    · obtain ⟨entry, hent, hhash, hidx⟩ := hexact.live i pair hpair
      exact ⟨entry.toEntryData, fixed_eq_some_iff.2 ⟨entry, hent, rfl, hidx⟩, hhash⟩
    · obtain ⟨entry, hent, rfl, rfl⟩ := fixed_eq_some_iff.1 hfixed
      exact hexact.listed it entry hent
  · rintro ⟨hlive, hlisted⟩
    refine ⟨fun i pair hpair => ?_, fun it entry hent => ?_⟩
    · obtain ⟨data, hfixed, hhash⟩ := hlive i pair hpair
      obtain ⟨entry, hent, rfl, rfl⟩ := fixed_eq_some_iff.1 hfixed
      exact ⟨entry, hent, hhash, rfl⟩
    · exact hlisted it entry.toEntryData entry.vTxHashesIdx
        (fixed_eq_some_iff.2 ⟨entry, hent, rfl, rfl⟩)

/-- The vector is about the fixed part of entries. -/
theorem HashesExact.congr (hexact : pool.HashesExact)
    (hfixed : ∀ it, pool'.fixed it = pool.fixed it) (hvector : pool'.vTxHashes = pool.vTxHashes) :
    pool'.HashesExact := by
  rw [hashesExact_iff] at hexact ⊢
  simpa only [hfixed, hvector] using hexact

theorem hashesExact_empty : empty.HashesExact :=
  ⟨fun i pair hpair => by simp [empty] at hpair, fun it entry hent => by simp [empty] at hent⟩

theorem HashesExact.added (hexact : pool.HashesExact) (hnew : entry.getHash ∉ pool.mapTx)
    (hadded : pool.Added entry pool') : pool'.HashesExact := by
  rw [hashesExact_iff] at hexact ⊢
  obtain ⟨hlive, hlisted⟩ := hexact
  have hold : ∀ it found, pool.fixed it = some found → it ≠ entry.getHash := by
    rintro it found hf rfl
    exact hnew (mem_mapTx_iff.2 (by rw [hf]; rfl))
  refine ⟨fun i pair hpair => ?_, fun it data idx hfixed => ?_⟩
  · rw [hadded.vTxHashes, List.getElem?_append] at hpair
    split_ifs at hpair with hpast
    · obtain ⟨data, hfixed, hhash⟩ := hlive i pair hpair
      rw [hadded.fixed, if_neg (hold _ _ hfixed)]
      exact ⟨data, hfixed, hhash⟩
    · obtain ⟨hlast, rfl⟩ : i = pool.vTxHashes.length ∧
          (entry.witnessHash, entry.getHash) = pair := by
        rw [List.getElem?_singleton] at hpair
        split_ifs at hpair
        exact ⟨by omega, Option.some.inj hpair⟩
      rw [hadded.fixed, if_pos rfl, hlast]
      exact ⟨entry.toEntryData, rfl, rfl⟩
  · rw [hadded.fixed] at hfixed
    split_ifs at hfixed with heq
    · cases hfixed
      rw [hadded.vTxHashes, List.getElem?_concat_length, heq]
    · have hheld := hlisted it data idx hfixed
      rw [hadded.vTxHashes, List.getElem?_append_left (List.getElem?_eq_some_iff.1 hheld).1, hheld]

/-- The last pair takes the place of the one that leaves. -/
theorem dropTxHash_of_last (idx : ℕ) (mapTx : Rows Uint256 CTxMemPoolEntry)
    {back : Uint256 × Uint256} (hback : vTxHashes[vTxHashes.length - 1]? = some back)
    (hmany : 1 < vTxHashes.length) :
    dropTxHash idx vTxHashes mapTx = ((vTxHashes.set idx back).dropLast,
      Table.modify back.2 (fun entry => { entry with vTxHashesIdx := idx }) mapTx) := by
  rw [← List.getLast?_eq_getElem?] at hback
  rw [dropTxHash, hback]
  simp only [hmany, if_true]

theorem getElem?_set_dropLast {α : Type} (items : List α) (idx i : ℕ) (item : α) :
    (items.set idx item).dropLast[i]? =
      if i < items.length - 1 then if i = idx then some item else items[i]? else none := by
  rw [List.getElem?_dropLast, length_set]
  split
  · rw [List.getElem?_set]
    by_cases heq : idx = i
    · rw [if_pos heq, if_pos heq.symm, if_pos (by omega)]
    · rw [if_neg heq, if_neg (Ne.symm heq)]
  · rfl

theorem dropTxHash_of_single (idx : ℕ) (mapTx : Rows Uint256 CTxMemPoolEntry)
    (hfew : ¬ 1 < vTxHashes.length) : dropTxHash idx vTxHashes mapTx = ([], mapTx) := by
  rw [dropTxHash]
  split
  · rfl
  · rw [if_neg hfew]

section

variable (hexact : pool.HashesExact)

include hexact

theorem HashesExact.idx_inj {first second : Uint256} {other : CTxMemPoolEntry}
    (hent : pool.mapTx.lookup first = some entry) (ho : pool.mapTx.lookup second = some other)
    (hidx : entry.vTxHashesIdx = other.vTxHashesIdx) : first = second := by
  have hpair := hexact.listed first entry hent
  rw [hidx, hexact.listed second other ho] at hpair
  exact (Prod.mk.inj (Option.some.inj hpair)).2.symm

theorem HashesExact.removed (hremoved : pool.Removed it entry pool') : pool'.HashesExact := by
  obtain ⟨hlt, -⟩ := List.getElem?_eq_some_iff.1 (hexact.listed it entry hremoved.found)
  by_cases hmany : 1 < pool.vTxHashes.length
  · -- the entry that is last in the vector moves to the free place
    obtain ⟨back, hback⟩ : ∃ back, pool.vTxHashes[pool.vTxHashes.length - 1]? = some back :=
      ⟨_, List.getElem?_eq_getElem (by omega)⟩
    obtain ⟨last, hlast, hlasthash, hlastidx⟩ := hexact.live _ back hback
    have hdrop := dropTxHash_of_last entry.vTxHashesIdx pool.mapTx hback hmany
    have hlook := hremoved.lookup
    have hvector := hremoved.vTxHashes
    simp only [hdrop, lookup_modify] at hlook hvector
    refine ⟨fun i pair hpair => ?_, fun other found hf => ?_⟩
    · rw [hvector, getElem?_set_dropLast] at hpair
      split at hpair
      · next hbound =>
        split at hpair
        · next heq =>
          cases hpair
          have hne : back.2 ≠ it := fun hsame => by
            rw [hsame, hremoved.found] at hlast
            cases hlast
            omega
          rw [hlook, if_neg hne, if_pos rfl, hlast]
          exact ⟨_, rfl, hlasthash, heq.symm⟩
        · next hidx =>
          obtain ⟨found, hf, hhash, hplace⟩ := hexact.live i pair hpair
          have hne : pair.2 ≠ it := fun hsame => by
            rw [hsame, hremoved.found] at hf
            cases hf
            exact hidx hplace.symm
          have hnotlast : pair.2 ≠ back.2 := fun hsame => by
            rw [hsame, hlast] at hf
            cases hf
            omega
          rw [hlook, if_neg hne, if_neg hnotlast]
          exact ⟨found, hf, hhash, hplace⟩
      · cases hpair
    · rw [hlook] at hf
      split at hf
      · cases hf
      · next hne =>
        split at hf
        · next hsame =>
          rw [hsame, hlast] at hf
          cases hf
          have hidx : entry.vTxHashesIdx ≠ last.vTxHashesIdx := fun heq =>
            hne (hsame.trans (hexact.idx_inj hremoved.found hlast heq).symm)
          have hbound : entry.vTxHashesIdx < pool.vTxHashes.length - 1 := by omega
          rw [hvector, getElem?_set_dropLast]
          rw [if_pos hbound, if_pos rfl, hlasthash, hsame]
        · next hnotlast =>
          have hheld := hexact.listed other found hf
          obtain ⟨hbound, -⟩ := List.getElem?_eq_some_iff.1 hheld
          have hidx : found.vTxHashesIdx ≠ entry.vTxHashesIdx := fun heq =>
            hne (hexact.idx_inj hf hremoved.found heq)
          have hend : found.vTxHashesIdx ≠ last.vTxHashesIdx := fun heq =>
            hnotlast (hexact.idx_inj hf hlast heq)
          rw [hvector, getElem?_set_dropLast, if_pos (by omega), if_neg hidx, hheld]
  · -- the entry was the only one
    have hdrop := dropTxHash_of_single entry.vTxHashesIdx pool.mapTx hmany
    refine ⟨fun i pair hpair => ?_, fun other found hf => ?_⟩
    · simp [hremoved.vTxHashes, hdrop] at hpair
    · rw [hremoved.lookup, hdrop] at hf
      split_ifs at hf with hne
      obtain ⟨hbound, -⟩ := List.getElem?_eq_some_iff.1 (hexact.listed other found hf)
      exact absurd (hexact.idx_inj hf hremoved.found (by omega)) hne

/-- An exact vector is empty just when the pool is. -/
theorem HashesExact.vTxHashes_eq_nil_iff : pool.vTxHashes = [] ↔ pool.mapTx.keys = [] := by
  constructor
  · intro hnil
    rw [eq_nil_iff_forall_not_mem]
    intro it hit
    obtain ⟨entry, hent⟩ := mem_iff.1 (AList.mem_keys.2 hit)
    have hlisted := hexact.listed it entry hent
    rw [hnil] at hlisted
    cases hlisted
  · intro hnil
    rw [eq_nil_iff_forall_not_mem]
    intro pair hpair
    obtain ⟨i, hi⟩ := mem_iff_getElem?.1 hpair
    obtain ⟨entry, hent, -⟩ := hexact.live i pair hi
    have hkey := AList.mem_keys.1 (mem_of_lookup hent)
    rw [hnil] at hkey
    cases hkey

/-- `clear` leaves the vector as it was. -/
theorem HashesExact.clear_iff : pool.clear.HashesExact ↔ pool.mapTx.keys = [] := by
  rw [← hexact.vTxHashes_eq_nil_iff]
  constructor
  · intro hclear
    exact hclear.vTxHashes_eq_nil_iff.2 rfl
  · intro hnil
    refine ⟨fun i pair hpair => ?_, fun it entry hent => ?_⟩
    · rw [clear, hnil] at hpair
      cases hpair
    · cases hent

theorem HashesExact.matches : pool.Matches := by
  intro getShortID shorttxids state
  suffices hall : ∀ pairs, (∀ pair ∈ pairs, pair ∈ pool.vTxHashes) → ∀ state,
      ∃ matched, pool.matchLoop getShortID shorttxids pairs state = .ok matched from
    hall pool.vTxHashes (fun _ => id) state
  intro pairs hpairs
  induction pairs with
  | nil => exact fun state => ⟨state, rfl⟩
  | cons pair pairs ih =>
    intro state
    obtain ⟨i, hi⟩ := mem_iff_getElem?.1 (hpairs pair mem_cons_self)
    obtain ⟨entry, hent, -⟩ := hexact.live i pair hi
    obtain ⟨next, hnext⟩ : ∃ next, pool.matchPair getShortID shorttxids pair state = .ok next := by
      rw [matchPair, deref_eq_ok_iff.2 hent]
      split
      · exact ⟨_, rfl⟩
      · split <;> exact ⟨_, rfl⟩
    obtain ⟨matched, hmatched⟩ := ih (List.forall_mem_cons.1 hpairs).2 next
    rw [matchLoop, hnext]
    simp only [Bind.bind, Except.bind]
    split
    · exact ⟨next, rfl⟩
    · exact ⟨matched, hmatched⟩

end

/-- Steps that add nothing keep the vector exact. -/
theorem Shrinks.hashesExact (hshrinks : pool.Shrinks pool') (hexact : pool.HashesExact) :
    pool'.HashesExact :=
  hshrinks.keeps (fun hkeeps hexact => hexact.congr hkeeps.fixed hkeeps.vTxHashes)
    (fun hremoved hexact => hexact.removed hremoved) hexact

end CTxMemPool

variable {pool : CTxMemPool}

theorem Accepts.hashesExact {ctx : AcceptContext} {pool' : CTxMemPool}
    {admission : AcceptContext.Admission} {removed added : CTxMemPool}
    (haccepts : Accepts ctx pool pool' admission removed added) (hexact : pool.HashesExact) :
    pool'.HashesExact := by
  have hshrinks := of_removeStaged haccepts.removes
  have hfresh : admission.entry.getHash ∉ removed.mapTx := fun hmem =>
    haccepts.fresh (hshrinks.mem_of_mem hmem)
  have hadded := (hshrinks.hashesExact hexact).added hfresh
    (CTxMemPool.added_of_addUnchecked hfresh haccepts.adds)
  obtain ⟨hmapTx, hvector⟩ := ctx.indexEntry_rest admission added
  exact haccepts.limits.hashesExact (hadded.congr (fun it => by rw [fixed, fixed, hmapTx]) hvector)

def PoolCall.ClearsEmpty (pool : CTxMemPool) : PoolCall → Prop
  | clear => pool.mapTx.keys = []
  | _ => True

/-- A call keeps the vector exact unless it clears a pool with entries. -/
theorem PoolCall.hashesExact_iff {call : PoolCall} (hexact : pool.HashesExact) :
    (∀ pool', call.apply pool = .ok pool' → pool'.HashesExact ∧ pool'.Matches) ↔
      call.ClearsEmpty pool := by
  constructor
  · intro hkeeps
    cases call with
    | clear => exact hexact.clear_iff.1 (hkeeps pool.clear rfl).1
    | _ => trivial
  · intro hfit pool' hcall
    have hnext : pool'.HashesExact := by
      rcases PoolCall.apply_cases hcall with hshrinks | ⟨rfl, rfl⟩ |
        ⟨ctx, admission, removed, added, haccepts⟩
      · exact hshrinks.hashesExact hexact
      · exact hexact.clear_iff.2 hfit
      · exact haccepts.hashesExact hexact
    exact ⟨hnext, hnext.matches⟩

/-- Along a run from an empty pool, `vTxHashes` is a bijection with the entries and
the matcher of compact blocks reads live entries only, just when `clear` is never
called on a pool that has entries. -/
theorem vTxHashes_bijection_iff_clears_empty (calls : List PoolCall) :
    Runs.Always PoolCall.apply (fun pool => pool.HashesExact ∧ pool.Matches) calls .empty ↔
      Runs.Throughout PoolCall.apply PoolCall.ClearsEmpty calls .empty :=
  Runs.always_iff_throughout (fun _ => True) (fun _ _ _ _ _ => trivial)
    (fun _ _ _ hgood => PoolCall.hashesExact_iff hgood.1) trivial
    ⟨hashesExact_empty, hashesExact_empty.matches⟩

namespace MempoolWitness

/-- Spends the given outpoints and pays each amount to a key. -/
def spendTx (byte : UInt8) (hbyte : hashOf byte ≠ BaseBlob.null 32) (prevouts : List COutPoint)
    (amounts : List CAmount) : CTransaction :=
  ⟨1, prevouts.map fun prevout => ⟨prevout, [], 0, []⟩,
    amounts.map fun amount => ⟨amount, [opDup, opHash160, 0x14] ++ List.replicate 20 byte ++
      [opEqualVerify, opCheckSig]⟩, 0, hashOf byte, hbyte⟩

/-- Outputs of 1000 are confirmed under hash 1, and everything is relayed. -/
def ctx : AcceptContext where
  checks :=
    { checkProofOfWork := fun _ => true
      blockMerkleRoot := fun block => (block.hashMerkleRoot, false)
      txSize := fun _ => 100
      blockSize := fun _ => 1000
      legacySigOpCount := fun _ => 1
      sequenceLocks := fun _ _ _ => true
      transactionSigOpCost := fun _ _ _ => 4
      checkInputs := fun _ _ _ => none
      checkQueue := fun _ _ => true }
  coins outpoint := if outpoint.hash = hashOf 1 then some ⟨⟨1000, [0x51]⟩, false, 1⟩ else none
  haveCoinInCache _ := false
  nSpendHeight := 200
  prematureWitness _ := false
  fRequireStandard := false
  nonStandard _ := none
  checkFinalTx _ := true
  checkSequenceLocks _ _ := some ⟨0, 0, none⟩
  areInputsStandard _ _ := true
  isWitnessStandard _ _ := true
  sigOpCost _ _ := 4
  witnessHash tx := tx.getHash
  txSize _ _ := 100
  txSize_pos _ _ := by decide
  minFee _ := 0
  minRelayTxFee := 0
  incrementalRelayFee := 0
  limits := ⟨some 25, some 101000, some 25, some 101000⟩
  fEnableReplacement := true
  checkInputs _ _ := none
  checkInputsForBlock _ _ := none
  fAddressIndex := true
  fSpentIndex := true
  trimOrder := ⟨fun _ => 0, fun _ => BaseBlob.null 32⟩
  maxMempool := 300000000
  expiryTime := 0

def args : AcceptArgs := ⟨100, false, 0⟩

def payment : CTransaction := spendTx 2 (by decide) [⟨hashOf 1, 0⟩] [900]

def acceptAndClear : List PoolCall := [.accept ctx args payment, .clear]

/-- After `clear` the vector still has the pair of the transaction that was in the
pool, and the matcher follows its iterator. -/
theorem cleared_pool_keeps_stale_hash :
    ∃ pool, Runs.run PoolCall.apply acceptAndClear .empty = .ok pool ∧ ¬ pool.HashesExact ∧
      pool.matchLoop (fun _ => 7) (AList.singleton 7 0) pool.vTxHashes
        ⟨fun _ => none, fun _ => false, 0⟩ = .error dangling := by
  have hends : Runs.endsIn PoolCall.apply (fun pool =>
      decide (pool.vTxHashes = [(hashOf 2, hashOf 2)]) && decide (pool.mapTx.keys = []))
      acceptAndClear .empty = true := by
    decide +kernel
  obtain ⟨pool, hrun, htest⟩ := Runs.exists_of_endsIn hends
  simp only [Bool.and_eq_true, decide_eq_true_eq] at htest
  obtain ⟨hvector, hkeys⟩ := htest
  refine ⟨pool, hrun, fun hexact => ?_, ?_⟩
  · have hnil := hexact.vTxHashes_eq_nil_iff.2 hkeys
    rw [hvector] at hnil
    cases hnil
  · have hgone : pool.mapTx.lookup (hashOf 2) = none := by
      rw [AList.lookup_eq_none, AList.mem_keys, hkeys]
      exact not_mem_nil
    rw [hvector, matchLoop, matchPair, deref, hgone]
    rfl

end MempoolWitness

end Catoshi
