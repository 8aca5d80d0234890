/-
What the operations of the memory pool do to entries and maps.
-/
import Catoshi.MempoolAccept

namespace Catoshi

open Outcome Table CTxMemPoolEntry CTxMemPool Option

/-- What an update of totals leaves alone. -/
def CTxMemPoolEntry.fixed (entry : CTxMemPoolEntry) : EntryData × ℕ :=
  (entry.toEntryData, entry.vTxHashesIdx)

variable {entry : CTxMemPoolEntry} {entry' : CTxMemPoolEntry} {modifySize modifyFee modifyCount : ℤ}

theorem CTxMemPoolEntry.fixed_updateDescendantState
    (hupd : entry.updateDescendantState modifySize modifyFee modifyCount = .ok entry') :
    entry'.fixed = entry.fixed := by
  simp only [updateDescendantState, bind_ok_iff, pure_ok_iff, require_ok_iff] at hupd
  obtain ⟨-, -, -, -, rfl⟩ := hupd
  rfl

theorem CTxMemPoolEntry.fixed_updateAncestorState {modifySigOps : ℤ}
    (hupd : entry.updateAncestorState modifySize modifyFee modifyCount modifySigOps = .ok entry') :
    entry'.fixed = entry.fixed := by
  simp only [updateAncestorState, bind_ok_iff, pure_ok_iff, require_ok_iff] at hupd
  obtain ⟨-, -, -, -, -, -, rfl⟩ := hupd
  rfl

namespace CTxMemPool

def fixed (pool : CTxMemPool) (it : Uint256) : Option (EntryData × ℕ) :=
  (pool.mapTx.lookup it).map CTxMemPoolEntry.fixed

/-- The entries differ in totals and lock points at most, and the hashes stay. -/
structure Keeps (pool pool' : CTxMemPool) : Prop where
  fixed : ∀ it, pool'.fixed it = pool.fixed it
  vTxHashes : pool'.vTxHashes = pool.vTxHashes

theorem Keeps.refl (pool : CTxMemPool) : pool.Keeps pool :=
  ⟨fun _ => rfl, rfl⟩

theorem Keeps.trans {first second third : CTxMemPool} (hfst : first.Keeps second)
    (hsnd : second.Keeps third) : first.Keeps third where
  fixed it := (hsnd.fixed it).trans (hfst.fixed it)
  vTxHashes := hsnd.vTxHashes.trans hfst.vTxHashes

variable {α : Type} {it : Uint256} {pool pool' : CTxMemPool} {its setAncestors : List Uint256}
  {mapTx : Rows Uint256 CTxMemPoolEntry}

/-- Replacing entries by ones with the same fixed part. -/
theorem Keeps.of_mapTx
    (hfixed : ∀ it, (mapTx.lookup it).map CTxMemPoolEntry.fixed = pool.fixed it) :
    pool.Keeps { pool with mapTx } :=
  ⟨hfixed, rfl⟩

theorem mem_mapTx_iff : it ∈ pool.mapTx ↔ (pool.fixed it).isSome = true := by
  rw [← AList.lookup_isSome, fixed, isSome_map]

theorem Keeps.mem_iff (hkeeps : pool.Keeps pool') : it ∈ pool'.mapTx ↔ it ∈ pool.mapTx := by
  rw [mem_mapTx_iff, mem_mapTx_iff, hkeeps.fixed]

theorem deref_eq_ok_iff : pool.deref it = .ok entry ↔ pool.mapTx.lookup it = some entry := by
  rw [deref]
  split <;> simp_all

variable {mapTx' : Rows Uint256 CTxMemPoolEntry}
  {change : CTxMemPoolEntry → Except Fault CTxMemPoolEntry} {updateDescendants : Bool}
  {hash : Uint256} {setAlreadyIncluded : List Uint256} {chain : ReorgView} {order : TrimOrder}

theorem fixed_of_amend
    (hchange : ∀ entry entry', change entry = .ok entry' → entry'.fixed = entry.fixed)
    (hamend : amend dangling it change mapTx = .ok mapTx') (other : Uint256) :
    (mapTx'.lookup other).map CTxMemPoolEntry.fixed =
      (mapTx.lookup other).map CTxMemPoolEntry.fixed := by
  obtain ⟨entry, entry', hent, hentry', hlook⟩ := lookup_amend hamend
  rw [hlook]
  split_ifs with heq
  · rw [heq, hent, map_some, map_some, hchange entry entry' hentry']
  · rfl

theorem fixed_of_amendAll
    (hchange : ∀ entry entry', change entry = .ok entry' → entry'.fixed = entry.fixed)
    (hamend : amendAll dangling change its mapTx = .ok mapTx') (other : Uint256) :
    (mapTx'.lookup other).map CTxMemPoolEntry.fixed =
      (mapTx.lookup other).map CTxMemPoolEntry.fixed := by
  induction its generalizing mapTx with
  | nil =>
    cases hamend
    rfl
  | cons it its ih =>
    rw [amendAll] at hamend
    split at hamend
    · cases hamend
    · next middle hmiddle => rw [ih hamend, fixed_of_amend hchange hmiddle]

section Modify

variable {pool pool' : CTxMemPool} {change : CTxMemPoolEntry → Except Fault CTxMemPoolEntry}
  (hchange : ∀ entry entry', change entry = .ok entry' → entry'.fixed = entry.fixed)

include hchange

theorem Keeps.of_modify (hmodify : pool.modify it change = .ok pool') : pool.Keeps pool' := by
  simp only [modify, bind_ok_iff, pure_ok_iff] at hmodify
  obtain ⟨mapTx, hamend, rfl⟩ := hmodify
  exact .of_mapTx (fixed_of_amend hchange hamend)

theorem Keeps.of_modifyAll (hmodify : pool.modifyAll its change = .ok pool') :
    pool.Keeps pool' := by
  simp only [modifyAll, bind_ok_iff, pure_ok_iff] at hmodify
  obtain ⟨mapTx, hamend, rfl⟩ := hmodify
  exact .of_mapTx (fixed_of_amendAll hchange hamend)

end Modify

theorem Keeps.of_foldl {step : CTxMemPool → α → CTxMemPool}
    (hstep : ∀ (pool : CTxMemPool) (item : α), pool.Keeps (step pool item)) (items : List α)
    (pool : CTxMemPool) :
    pool.Keeps (items.foldl step pool) := by
  induction items generalizing pool with
  | nil => exact .refl pool
  | cons item items ih => exact (hstep pool item).trans (ih (step pool item))

theorem Keeps.of_foldlM {step : CTxMemPool → α → Except Fault CTxMemPool}
    (hstep : ∀ pool item pool', step pool item = .ok pool' → pool.Keeps pool') {items : List α}
    (hloop : items.foldlM step pool = .ok pool') :
    pool.Keeps pool' :=
  foldlM_keeps (fun middle item next hmiddle hnext =>
    hmiddle.trans (hstep middle item next hnext)) hloop (.refl pool)

theorem Keeps.updateChild (pool : CTxMemPool) (entry child : Uint256) (add : Bool) :
    pool.Keeps (pool.updateChild entry child add) :=
  ⟨fun _ => rfl, rfl⟩

theorem Keeps.updateParent (pool : CTxMemPool) (entry parent : Uint256) (add : Bool) :
    pool.Keeps (pool.updateParent entry parent add) :=
  ⟨fun _ => rfl, rfl⟩

theorem Keeps.clearPrioritisation (pool : CTxMemPool) (hash : Uint256) :
    pool.Keeps (pool.clearPrioritisation hash) :=
  ⟨fun _ => rfl, rfl⟩

theorem Keeps.of_updateAncestorsOf {add : Bool}
    (hupd : pool.updateAncestorsOf add it setAncestors = .ok pool') : pool.Keeps pool' := by
  simp only [updateAncestorsOf, bind_ok_iff] at hupd
  obtain ⟨parentIters, -, entry, -, hmodify⟩ := hupd
  exact (Keeps.of_foldl (fun pool piter => .updateChild pool piter it add) parentIters pool).trans
    (.of_modifyAll (fun _ _ => fixed_updateDescendantState) hmodify)

theorem Keeps.of_updateEntryForAncestors
    (hupd : pool.updateEntryForAncestors it setAncestors = .ok pool') :
    pool.Keeps pool' := by
  simp only [updateEntryForAncestors, bind_ok_iff] at hupd
  obtain ⟨ancestors, -, hmodify⟩ := hupd
  exact .of_modify (fun _ _ => fixed_updateAncestorState) hmodify

theorem Keeps.of_updateForRemoveFromMempool {entriesToRemove : List Uint256}
    (hupd : pool.updateForRemoveFromMempool entriesToRemove updateDescendants = .ok pool') :
    pool.Keeps pool' := by
  simp only [updateForRemoveFromMempool, bind_ok_iff] at hupd
  obtain ⟨first, hfst, second, hsnd, hthird⟩ := hupd
  have hone : pool.Keeps first := by
    split at hfst
    · refine .of_foldlM (fun pool it pool' hstep => ?_) hfst
      simp only [updateDescendantsForRemoval, bind_ok_iff] at hstep
      obtain ⟨setDescendants, -, entry, -, hmodify⟩ := hstep
      exact .of_modifyAll (fun _ _ => fixed_updateAncestorState) hmodify
    · cases hfst
      exact .refl _
  have htwo : first.Keeps second := by
    refine .of_foldlM (fun pool it pool' hstep => ?_) hsnd
    simp only [updateAncestorsForRemoval, bind_ok_iff] at hstep
    obtain ⟨entry, -, setAncestors, -, hstep⟩ := hstep
    exact .of_updateAncestorsOf hstep
  have hthree : second.Keeps pool' := by
    refine .of_foldlM (fun pool it pool' hstep => ?_) hthird
    simp only [updateChildrenForRemoval, bind_ok_iff, pure_ok_iff] at hstep
    obtain ⟨children, -, rfl⟩ := hstep
    exact .of_foldl (fun pool child => .updateParent pool child it false) children pool
  exact (hone.trans htwo).trans hthree

theorem Keeps.of_prioritiseTransaction {nFeeDelta : CAmount}
    (hcall : pool.prioritiseTransaction hash nFeeDelta = .ok pool') : pool.Keeps pool' := by
  simp only [prioritiseTransaction] at hcall
  split at hcall
  · cases hcall
    exact ⟨fun _ => rfl, rfl⟩
  · next found hf =>
    simp only [bind_ok_iff] at hcall
    obtain ⟨setAncestors, -, second, hsnd, setDescendants, -, hthird⟩ := hcall
    refine Keeps.trans ?_ ((Keeps.of_modifyAll (fun _ _ =>
      CTxMemPoolEntry.fixed_updateDescendantState) hsnd).trans (.of_modifyAll (fun _ _ =>
      CTxMemPoolEntry.fixed_updateAncestorState) hthird))
    refine ⟨fun it => ?_, rfl⟩
    change ((pool.mapTx.insert hash _).lookup it).map CTxMemPoolEntry.fixed = pool.fixed it
    rw [lookup_insert, CTxMemPool.fixed]
    split_ifs with heq
    · rw [heq, hf]
      rfl
    · rfl

theorem Keeps.of_linkChildren {children setChildren : List Uint256}
    (hlink : linkChildren it setAlreadyIncluded children setChildren pool = .ok pool') :
    pool.Keeps pool' := by
  induction children generalizing setChildren pool with
  | nil =>
    cases hlink
    exact .refl _
  | cons child children ih =>
    rw [linkChildren] at hlink
    split at hlink
    · cases hlink
    · split at hlink
      · exact ih hlink
      · exact ((Keeps.updateChild pool it child true).trans
          (.updateParent _ child it true)).trans (ih hlink)

theorem Keeps.of_updateForDescendants {updateIt : Uint256}
    {cached cached' : Rows Uint256 (List Uint256)} {setExclude : List Uint256}
    (hupd : pool.updateForDescendants updateIt cached setExclude = .ok (pool', cached')) :
    pool.Keeps pool' := by
  simp only [updateForDescendants, bind_ok_iff, pure_ok_iff, Prod.mk.injEq] at hupd
  obtain ⟨stage, -, all, -, updated, -, descendants, -, second, hsnd, third, hthird, rfl, -⟩ := hupd
  exact (Keeps.of_modifyAll (fun _ _ => fixed_updateAncestorState) hsnd).trans
    (.of_modify (fun _ _ => fixed_updateDescendantState) hthird)

theorem Keeps.of_updateTransactionFromBlock
    {state state' : CTxMemPool × Rows Uint256 (List Uint256)}
    (hupd : updateTransactionFromBlock setAlreadyIncluded state hash = .ok state') :
    state.1.Keeps state'.1 := by
  rw [updateTransactionFromBlock] at hupd
  split at hupd
  · rw [bind_ok_iff] at hupd
    obtain ⟨linked, hlinked, hupd⟩ := hupd
    exact (Keeps.of_linkChildren hlinked).trans (.of_updateForDescendants hupd)
  · cases hupd
    exact .refl _

theorem Keeps.of_updateTransactionsFromBlock {vHashesToUpdate : List Uint256}
    (hupd : pool.updateTransactionsFromBlock vHashesToUpdate = .ok pool') :
    pool.Keeps pool' := by
  simp only [updateTransactionsFromBlock, bind_ok_iff, pure_ok_iff] at hupd
  obtain ⟨⟨last, cached⟩, hloop, rfl⟩ := hupd
  have hstep : ∀ state hash state', pool.Keeps state.1 →
      updateTransactionFromBlock vHashesToUpdate state hash = .ok state' → pool.Keeps state'.1 :=
    fun _ _ _ hst hnext => hst.trans (.of_updateTransactionFromBlock hnext)
  exact foldlM_keeps hstep hloop (Keeps.refl pool)

def data (pool : CTxMemPool) (it : Uint256) : Option EntryData :=
  (pool.mapTx.lookup it).map CTxMemPoolEntry.toEntryData

theorem mem_mapTx_iff_data : it ∈ pool.mapTx ↔ ∃ found, pool.data it = some found := by
  rw [← isSome_iff_exists, data, isSome_map, AList.lookup_isSome]

/-- The address and spent indexes are maps of their own. -/
theorem unindexed (pool : CTxMemPool) (it : Uint256) :
    ((pool.removeAddressIndex it).removeSpentIndex it).mapTx = pool.mapTx ∧
      ((pool.removeAddressIndex it).removeSpentIndex it).vTxHashes = pool.vTxHashes := by
  rw [removeAddressIndex, removeSpentIndex]
  cases pool.mapAddressInserted.lookup it with
  | none | some keys => cases pool.mapSpentInserted.lookup it <;> exact ⟨rfl, rfl⟩

/-- What `removeUnchecked` does to an entry. -/
structure Removed (pool : CTxMemPool) (it : Uint256) (entry : CTxMemPoolEntry)
    (pool' : CTxMemPool) : Prop where
  found : pool.mapTx.lookup it = some entry
  lookup : ∀ other, pool'.mapTx.lookup other = if other = it then none else
    (dropTxHash entry.vTxHashesIdx pool.vTxHashes pool.mapTx).2.lookup other
  vTxHashes : pool'.vTxHashes = (dropTxHash entry.vTxHashesIdx pool.vTxHashes pool.mapTx).1

theorem removed_of_removeUnchecked (hremove : pool.removeUnchecked it = .ok pool') :
    ∃ entry, pool.Removed it entry pool' := by
  simp only [removeUnchecked, bind_ok_iff, pure_ok_iff, deref_eq_ok_iff] at hremove
  obtain ⟨entry, hent, rfl⟩ := hremove
  obtain ⟨hmap, hhashes⟩ := unindexed
    { pool with
      mapNextTx := eraseAll entry.tx.prevouts pool.mapNextTx
      vTxHashes := (dropTxHash entry.vTxHashesIdx pool.vTxHashes pool.mapTx).1
      totalTxSize := pool.totalTxSize - entry.nTxSize
      mapLinks := pool.mapLinks.erase it
      mapTx := (dropTxHash entry.vTxHashesIdx pool.vTxHashes pool.mapTx).2.erase it } it
  refine ⟨entry, hent, fun other => ?_, hhashes⟩
  rw [hmap, lookup_erase]

/-- Moving a pair of the vector changes an index and no data. -/
theorem map_lookup_dropTxHash (idx : ℕ) (vTxHashes : List (Uint256 × Uint256))
    (mapTx : Rows Uint256 CTxMemPoolEntry) (it : Uint256) :
    ((dropTxHash idx vTxHashes mapTx).2.lookup it).map toEntryData =
      (mapTx.lookup it).map toEntryData := by
  rw [dropTxHash]
  split
  · rfl
  · split
    · rw [lookup_modify]
      split
      · rw [map_map]
        rfl
      · rfl
    · rfl

theorem Removed.data (hremoved : pool.Removed it entry pool') (other : Uint256) :
    pool'.data other = if other = it then none else pool.data other := by
  rw [CTxMemPool.data, hremoved.lookup, apply_ite (Option.map toEntryData), map_lookup_dropTxHash]
  rfl

/-- One step of an operation that adds nothing. -/
inductive Shrink : CTxMemPool → CTxMemPool → Prop where
  | keep {pool pool' : CTxMemPool} : pool.Keeps pool' → Shrink pool pool'
  | remove {pool pool' : CTxMemPool} {it : Uint256} {entry : CTxMemPoolEntry} :
      pool.Removed it entry pool' → Shrink pool pool'

/-- The steps of an operation that adds nothing. -/
abbrev Shrinks : CTxMemPool → CTxMemPool → Prop := Relation.ReflTransGen Shrink

theorem Keeps.shrinks (hkeeps : pool.Keeps pool') :
    pool.Shrinks pool' :=
  .single (.keep hkeeps)

/-- What both kinds of steps keep, an operation that adds nothing keeps. -/
theorem Shrinks.keeps {good : CTxMemPool → Prop}
    (hkeep : ∀ {pool pool' : CTxMemPool}, pool.Keeps pool' → good pool → good pool')
    (hremove : ∀ {pool pool' : CTxMemPool} {it : Uint256} {entry : CTxMemPoolEntry},
      pool.Removed it entry pool' → good pool → good pool') (hshrinks : pool.Shrinks pool')
    (hgood : good pool) :
    good pool' := by
  induction hshrinks with
  | refl => exact hgood
  | tail _ hstep ih =>
    cases hstep with
    | keep hkeeps => exact hkeep hkeeps ih
    | remove hremoved => exact hremove hremoved ih

theorem Shrinks.of_foldlM {step : CTxMemPool → α → Except Fault CTxMemPool}
    (hstep : ∀ pool item pool', step pool item = .ok pool' → pool.Shrinks pool') {items : List α}
    (hloop : items.foldlM step pool = .ok pool') :
    pool.Shrinks pool' :=
  foldlM_keeps (fun middle item next hmiddle hnext =>
    hmiddle.trans (hstep middle item next hnext)) hloop .refl

theorem Shrinks.of_removeStaged {stage : List Uint256}
    (hremove : pool.removeStaged stage updateDescendants = .ok pool') : pool.Shrinks pool' := by
  simp only [removeStaged, bind_ok_iff] at hremove
  obtain ⟨middle, hupd, hloop⟩ := hremove
  refine (Keeps.of_updateForRemoveFromMempool hupd).shrinks.trans
    (Shrinks.of_foldlM (fun pool it pool' hstep => ?_) hloop)
  obtain ⟨entry, hremoved⟩ := removed_of_removeUnchecked hstep
  exact .single (.remove hremoved)

theorem Shrinks.of_removeRecursive {origTx : CTransaction}
    (hremove : pool.removeRecursive origTx = .ok pool') : pool.Shrinks pool' := by
  simp only [removeRecursive, bind_ok_iff] at hremove
  obtain ⟨_, _, _, _, hremove⟩ := hremove
  exact .of_removeStaged hremove

theorem Keeps.of_reorgLoop {txToRemove txToRemove' : List Uint256}
    (hloop : reorgLoop chain its pool txToRemove = .ok (pool', txToRemove')) :
    pool.Keeps pool' := by
  induction its generalizing pool txToRemove with
  | nil =>
    cases hloop
    exact .refl _
  | cons it its ih =>
    simp only [reorgLoop, bind_ok_iff] at hloop
    obtain ⟨entry, -, middle, hmiddle, hloop⟩ := hloop
    refine Keeps.trans ?_ (ih hloop)
    split at hmiddle
    · cases hmiddle
      exact .refl _
    · refine .of_modify (fun entry entry' hent => ?_) hmiddle
      cases hent
      rfl

theorem Shrinks.of_removeForReorg (hremove : pool.removeForReorg chain = .ok pool') :
    pool.Shrinks pool' := by
  simp only [removeForReorg, bind_ok_iff] at hremove
  obtain ⟨⟨middle, txToRemove⟩, hloop, _, _, hremove⟩ := hremove
  exact (Keeps.of_reorgLoop hloop).shrinks.trans (Shrinks.of_removeStaged hremove)

theorem Shrinks.of_removeConflicts {tx : CTransaction}
    (hremove : pool.removeConflicts tx = .ok pool') : pool.Shrinks pool' := by
  refine .of_foldlM (fun pool prevout pool' hstep => ?_) hremove
  rw [removeConflictsAt] at hstep
  split at hstep
  · cases hstep
    exact .refl
  · split at hstep
    · cases hstep
      exact .refl
    · exact (Keeps.clearPrioritisation pool _).shrinks.trans (Shrinks.of_removeRecursive hstep)

theorem Shrinks.of_removeForBlock {vtx : List CTransaction}
    (hremove : pool.removeForBlock vtx = .ok pool') : pool.Shrinks pool' := by
  refine .of_foldlM (fun pool tx pool' hstep => ?_) hremove
  simp only [removeConfirmed, bind_ok_iff, pure_ok_iff] at hstep
  obtain ⟨first, hfst, second, hsnd, rfl⟩ := hstep
  have hone : pool.Shrinks first := by
    split at hfst
    · exact .of_removeStaged hfst
    · cases hfst
      exact .refl
  exact (hone.trans (Shrinks.of_removeConflicts hsnd)).trans
    (Keeps.clearPrioritisation second tx.getHash).shrinks

theorem Shrinks.of_expire {time : ℤ} (hexpire : pool.expire time = .ok pool') :
    pool.Shrinks pool' := by
  simp only [expire, bind_ok_iff] at hexpire
  obtain ⟨_, _, hremove⟩ := hexpire
  exact .of_removeStaged hremove

theorem Shrinks.of_trimLoop {sizelimit fuel : ℕ}
    (htrim : trimLoop order sizelimit fuel pool = .ok pool') : pool.Shrinks pool' := by
  induction fuel generalizing pool with
  | zero =>
    cases htrim
    exact .refl
  | succ fuel ih =>
    rw [trimLoop] at htrim
    split at htrim
    · simp only [bind_ok_iff] at htrim
      obtain ⟨stage, -, middle, hremove, htrim⟩ := htrim
      exact (Shrinks.of_removeStaged hremove).trans (ih htrim)
    · cases htrim
      exact .refl

theorem Shrinks.of_limitMempoolSize {limit : ℕ} {oldest : ℤ}
    (hlimit : pool.limitMempoolSize order limit oldest = .ok pool') : pool.Shrinks pool' := by
  simp only [limitMempoolSize, bind_ok_iff] at hlimit
  obtain ⟨middle, hexpire, htrim⟩ := hlimit
  exact (Shrinks.of_expire hexpire).trans (Shrinks.of_trimLoop htrim)

/-- What `addUnchecked` does with a new entry. -/
structure Added (pool : CTxMemPool) (entry : CTxMemPoolEntry) (pool' : CTxMemPool) : Prop where
  fixed : ∀ it, pool'.fixed it =
    if it = entry.getHash then some (entry.toEntryData, pool.vTxHashes.length)
    else pool.fixed it
  vTxHashes : pool'.vTxHashes = pool.vTxHashes ++ [(entry.witnessHash, entry.getHash)]

/-- Before the totals are set only the entry and its inputs are new. -/
theorem insertEntry_keeps (pool : CTxMemPool) (entry : CTxMemPoolEntry) :
    Keeps
      { pool with
        mapTx := insertNew entry.getHash entry pool.mapTx
        mapNextTx :=
          insertAll (entry.tx.prevouts.map fun prevout => (prevout, entry.tx)) pool.mapNextTx }
      (pool.insertEntry entry) := by
  refine Keeps.trans ?_ (.of_foldl (fun pool phash => ?_) _ _)
  · refine ⟨fun it => ?_, rfl⟩
    rw [fixed]
    split
    · rfl
    · split
      · rfl
      · rw [lookup_modify]
        split
        · rw [map_map]
          rfl
        · rfl
  · split
    · exact .updateParent pool _ phash true
    · exact .refl pool

theorem added_of_addUnchecked (hnew : entry.getHash ∉ pool.mapTx)
    (hadd : pool.addUnchecked entry setAncestors = .ok pool') : pool.Added entry pool' := by
  simp only [addUnchecked, bind_ok_iff, pure_ok_iff] at hadd
  obtain ⟨first, hfst, second, hsnd, rfl⟩ := hadd
  have hkeeps := ((insertEntry_keeps pool entry).trans (.of_updateAncestorsOf hfst)).trans
    (.of_updateEntryForAncestors hsnd)
  refine ⟨fun it => ?_, ?_⟩
  · have hfixed := hkeeps.fixed it
    rw [fixed, fixed] at hfixed
    rw [fixed]
    rw [lookup_insertNew, AList.lookup_eq_none.2 hnew] at hfixed
    rw [lookup_modify, hkeeps.vTxHashes]
    by_cases heq : it = entry.getHash
    · rw [if_pos heq] at hfixed ⊢
      rw [map_some, map_eq_some_iff] at hfixed
      obtain ⟨stored, hstored, hsame⟩ := hfixed
      rw [hstored, if_pos heq]
      exact congrArg (fun same => some (same, pool.vTxHashes.length)) (Prod.mk.inj hsame).1
    · rw [if_neg heq] at hfixed ⊢
      rw [if_neg heq, hfixed]
      rfl
  · rw [hkeeps.vTxHashes]

end CTxMemPool

end Catoshi
