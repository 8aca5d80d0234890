/-
The key pool of the wallet (`wallet/wallet.cpp`): keys generated in advance, reserved, kept or
returned, and marked as used.
-/
import Catoshi.Lib.Table
import Catoshi.Lib.Runs
import Mathlib.Data.Finset.Sort

namespace Catoshi

open Table Finset

universe u v

/-- A pool entry as stored in the wallet database. Its time is not read. -/
structure CKeyPool (K : Type u) where
  vchPubKey : K
  fInternal : Bool
deriving DecidableEq

/-- What the calls throw, and assertions that can fail. -/
inductive PoolThrow where
  | tooManyKeys
  | writeFailed
  | readFailed
  | unknownKey
  | misclassified
  | assertionFailed
deriving DecidableEq, Repr

/-- Whether the wallet is locked and splits its keys into internal and external ones, the
`-keypool` argument, and which writes fail. -/
structure PoolEnv where
  locked : Bool
  hdSplit : Bool
  keypoolArg : ℤ
  fails : ℕ → Bool

/-- The pool, its entries in the database, and the number of keys generated. For the statement also
the entries ever written. The steps note which are reserved and not yet kept or returned (a
`CReserveKey` holds one), and the indices kept, marked as used or dropped. -/
structure KeyPool (K : Type u) (I : Type v) where
  setInternalKeyPool : Finset ℕ
  setExternalKeyPool : Finset ℕ
  mMaxKeypoolIndex : ℕ
  mPoolKeyToIndex : Rows I ℕ
  stored : Rows ℕ (CKeyPool K)
  generated : ℕ
  reserved : Rows ℕ (CKeyPool K)
  written : Rows ℕ (CKeyPool K)
  used : Finset ℕ

inductive KeyPoolCall where
  | newKeyPool (env : PoolEnv)
  | topUpKeyPool (env : PoolEnv) (kpSize : ℕ)
  | reserveKey (env : PoolEnv) (fRequestedInternal : Bool)
  | keepKey (nIndex : ℕ)
  | returnKey (nIndex : ℕ)
  | markReserveKeysAsUsed (keypoolId : ℕ)

/-- A call made without what it needs. -/
inductive PoolMisuse where
  | notReserved
  | notFound

def maxInt64 : ℕ := 2 ^ 63 - 1

namespace KeyPool

variable {K : Type u} {I : Type v} [DecidableEq I]

def create : KeyPool K I where
  setInternalKeyPool := ∅
  setExternalKeyPool := ∅
  mMaxKeypoolIndex := 0
  mPoolKeyToIndex := ∅
  stored := ∅
  generated := 0
  reserved := ∅
  written := ∅
  used := ∅

/-- The one set or the other. -/
def setKeyPool (pool : KeyPool K I) (internal : Bool) : Finset ℕ :=
  if internal then pool.setInternalKeyPool else pool.setExternalKeyPool

def withKeyPool (internal : Bool) (set : Finset ℕ) (pool : KeyPool K I) : KeyPool K I :=
  if internal then { pool with setInternalKeyPool := set }
  else { pool with setExternalKeyPool := set }

section Calls

variable (getID : K → I) (generate : ℕ → K)

/-- A key that was written: it enters the pool. -/
def enter (index : ℕ) (entry : CKeyPool K) (pool : KeyPool K I) : KeyPool K I :=
  { pool.withKeyPool entry.fInternal (insert index (pool.setKeyPool entry.fInternal)) with
    stored := pool.stored.insert index entry
    written := pool.written.insert index entry
    mPoolKeyToIndex := pool.mPoolKeyToIndex.insert (getID entry.vchPubKey) index }

section

variable (env : PoolEnv) (internal : Bool) (nIndex : ℕ) (pool : KeyPool K I)

/-- One turn of the loop of `TopUpKeyPool`. -/
def addKey : Except PoolThrow Unit × KeyPool K I :=
  if maxInt64 ≤ pool.mMaxKeypoolIndex then (.error .tooManyKeys, pool)
  else
    let index := pool.mMaxKeypoolIndex + 1
    let entry := { vchPubKey := generate pool.generated, fInternal := internal }
    let next := { pool with mMaxKeypoolIndex := index, generated := pool.generated + 1 }
    if env.fails index then (.error .writeFailed, next)
    else (.ok (), next.enter getID index entry)

/-- The loop of `TopUpKeyPool`: the last `missingInternal` keys are internal. -/
def addKeys (env : PoolEnv) (missingInternal : ℕ) :
    ℕ → Bool → KeyPool K I → Except PoolThrow Unit × KeyPool K I
  | 0, _, pool => (.ok (), pool)
  | i + 1, internal, pool =>
    let internal := internal || decide (i < missingInternal)
    match pool.addKey getID generate env internal with
    | (.error thrown, pool) => (.error thrown, pool)
    | (.ok (), pool) => addKeys env missingInternal i internal pool

def topUpKeyPool (kpSize : ℕ) (pool : KeyPool K I) : Except PoolThrow Bool × KeyPool K I :=
  if env.locked then (.ok false, pool)
  else
    let nTargetSize := if 0 < kpSize then kpSize else (max env.keypoolArg 0).toNat % 2 ^ 32
    let missingExternal := max nTargetSize 1 - pool.setExternalKeyPool.card
    let missingInternal :=
      if env.hdSplit then max nTargetSize 1 - pool.setInternalKeyPool.card else 0
    match pool.addKeys getID generate env missingInternal (missingInternal + missingExternal)
        false with
    | (.error thrown, pool) => (.error thrown, pool)
    | (.ok (), pool) => (.ok true, pool)

/-- What `NewKeyPool` leaves before generating keys. -/
def clear : KeyPool K I :=
  { pool with
    stored := Table.eraseAll (pool.setExternalKeyPool.sort (· ≤ ·))
      (Table.eraseAll (pool.setInternalKeyPool.sort (· ≤ ·)) pool.stored)
    setInternalKeyPool := ∅
    setExternalKeyPool := ∅
    mPoolKeyToIndex := ∅ }

def newKeyPool : Except PoolThrow Bool × KeyPool K I :=
  pool.clear.topUpKeyPool getID generate env 0

/-- `HaveKey`: every generated key is in the key store. -/
def haveKey (id : I) : Bool :=
  (List.range pool.generated).any fun n => getID (generate n) = id

/-- `ReserveKeyFromKeyPool` takes the oldest key of a set. -/
def takeKey : Except PoolThrow (Option (ℕ × CKeyPool K)) × KeyPool K I :=
  let taken := pool.withKeyPool internal ((pool.setKeyPool internal).erase nIndex)
  match pool.stored.lookup nIndex with
  | none => (.error .readFailed, taken)
  | some keypool =>
    if ¬pool.haveKey getID generate (getID keypool.vchPubKey) then (.error .unknownKey, taken)
    else if keypool.fInternal ≠ internal then (.error .misclassified, taken)
    else (.ok (some (nIndex, keypool)), { taken with
      mPoolKeyToIndex := pool.mPoolKeyToIndex.erase (getID keypool.vchPubKey) })

/-- `ReserveKeyFromKeyPool`. Index -1 of an empty pool is `none`. -/
def reserveKey (fRequestedInternal : Bool) (pool : KeyPool K I) :
    Except PoolThrow (Option (ℕ × CKeyPool K)) × KeyPool K I :=
  match if env.locked then (.ok false, pool) else pool.topUpKeyPool getID generate env 0 with
  | (.error thrown, pool) => (.error thrown, pool)
  | (.ok _, pool) =>
    let fReturningInternal := env.hdSplit && fRequestedInternal
    match (pool.setKeyPool fReturningInternal).min with
    | ⊤ => (.ok none, pool)
    | (nIndex : ℕ) => pool.takeKey getID generate fReturningInternal nIndex

def keepKey : KeyPool K I :=
  { pool with stored := pool.stored.erase nIndex }

/-- `ReturnKey`, with the key and kind of the `CReserveKey`. -/
def returnKey (keypool : CKeyPool K) (pool : KeyPool K I) : KeyPool K I :=
  { pool.withKeyPool keypool.fInternal (insert nIndex (pool.setKeyPool keypool.fInternal)) with
    mPoolKeyToIndex := pool.mPoolKeyToIndex.insert (getID keypool.vchPubKey) nIndex }

/-- One turn of the loop of `MarkReserveKeysAsUsed`. -/
def markAsUsed (index : ℕ) : KeyPool K I :=
  { pool.withKeyPool internal ((pool.setKeyPool internal).erase index) with
    mPoolKeyToIndex :=
      match pool.stored.lookup index with
      | none => pool.mPoolKeyToIndex
      | some keypool => pool.mPoolKeyToIndex.erase (getID keypool.vchPubKey)
    stored := pool.stored.erase index }

def markReserveKeysAsUsed (keypoolId : ℕ) (pool : KeyPool K I) :
    Except PoolThrow Unit × KeyPool K I :=
  let internal := decide (keypoolId ∈ pool.setInternalKeyPool)
  if ¬internal ∧ keypoolId ∉ pool.setExternalKeyPool then (.error .assertionFailed, pool)
  else
    -- the set is ordered, and the loop ends at the first index above
    let indices := ((pool.setKeyPool internal).sort (· ≤ ·)).takeWhile (· ≤ keypoolId)
    (.ok (), indices.foldl (markAsUsed getID internal) pool)

/-- The key handed out is reserved. -/
def hold : Except PoolThrow (Option (ℕ × CKeyPool K)) × KeyPool K I → KeyPool K I
  | (.ok (some (nIndex, keypool)), pool) =>
    { pool with reserved := pool.reserved.insert nIndex keypool }
  | (_, pool) => pool

def release : KeyPool K I :=
  { pool with reserved := pool.reserved.erase nIndex }

def useUp (indices : Finset ℕ) (pool : KeyPool K I) : KeyPool K I :=
  { pool with used := pool.used ∪ indices }

/-- The indices up to one in its set. -/
def upTo (keypoolId : ℕ) : Finset ℕ :=
  {index ∈ pool.setKeyPool (decide (keypoolId ∈ pool.setInternalKeyPool)) | index ≤ keypoolId}

def pooled : Finset ℕ :=
  pool.setInternalKeyPool ∪ pool.setExternalKeyPool

/-- What a call keeps, marks as used or drops. -/
def usesUp : KeyPoolCall → Finset ℕ
  | .newKeyPool _ => pool.pooled
  | .keepKey nIndex => {nIndex}
  | .markReserveKeysAsUsed keypoolId => pool.upTo keypoolId
  | _ => ∅

/-- A call that throws leaves the state of that moment. A reserved index is kept or returned once,
and one marked as used is in `m_pool_key_to_index`. -/
def step : KeyPoolCall → Except PoolMisuse (KeyPool K I)
  | .newKeyPool env => .ok ((pool.useUp pool.pooled).newKeyPool getID generate env).2
  | .topUpKeyPool env kpSize => .ok (pool.topUpKeyPool getID generate env kpSize).2
  | .reserveKey env fRequestedInternal =>
    .ok (hold (pool.reserveKey getID generate env fRequestedInternal))
  | .keepKey nIndex =>
    match pool.reserved.lookup nIndex with
    | none => .error .notReserved
    | some _ => .ok (((pool.release nIndex).keepKey nIndex).useUp {nIndex})
  | .returnKey nIndex =>
    match pool.reserved.lookup nIndex with
    | none => .error .notReserved
    | some keypool => .ok ((pool.release nIndex).returnKey getID nIndex keypool)
  | .markReserveKeysAsUsed keypoolId =>
    if keypoolId ∈ pool.mPoolKeyToIndex.entries.map Sigma.snd then
      .ok ((pool.markReserveKeysAsUsed getID keypoolId).2.useUp (pool.upTo keypoolId))
    else .error .notFound

end

end Calls

variable {index : ℕ} {internal : Bool} {other next : KeyPool K I} {entry : CKeyPool K}

omit [DecidableEq I] in
theorem mem_pooled {pool : KeyPool K I} :
    index ∈ pool.pooled ↔ ∃ internal, index ∈ pool.setKeyPool internal := by
  rw [pooled, mem_union, Bool.exists_bool]
  exact or_comm

omit [DecidableEq I] in
theorem setKeyPool_withKeyPool (pool : KeyPool K I) (internal other : Bool) (set : Finset ℕ) :
    (pool.withKeyPool internal set).setKeyPool other =
      if other = internal then set else pool.setKeyPool other := by
  cases internal <;> cases other <;> rfl

def idAt (getID : K → I) (entries : Rows ℕ (CKeyPool K)) (pool : KeyPool K I) (index : ℕ) :
    Option I :=
  if index ∈ pool.pooled then (entries.lookup index).map fun entry => getID entry.vchPubKey
  else none

/-- The entries ever written have their own indices and generated keys. -/
structure Ledger (getID : K → I) (generate : ℕ → K) (pool : KeyPool K I) : Prop where
  bounded : ∀ index entry, pool.written.lookup index = some entry →
    index ≤ pool.mMaxKeypoolIndex ∧ ∃ n < pool.generated, entry.vchPubKey = generate n
  distinct : ∀ index other entry found, pool.written.lookup index = some entry →
    pool.written.lookup other = some found →
      getID entry.vchPubKey = getID found.vchPubKey → index = other

/-- An index is in one of the two sets, reserved, or used up, and `m_pool_key_to_index` leads to
the indices of the sets. -/
structure Sound (getID : K → I) (generate : ℕ → K) (pool : KeyPool K I) : Prop extends
    pool.Ledger getID generate where
  inSet : ∀ internal index, index ∈ pool.setKeyPool internal →
    ∃ entry, pool.stored.lookup index = some entry ∧ pool.written.lookup index = some entry ∧
      entry.fInternal = internal ∧ index ∉ pool.reserved ∧ index ∉ pool.used
  held : ∀ index entry, pool.reserved.lookup index = some entry →
    pool.stored.lookup index = some entry ∧ pool.written.lookup index = some entry ∧
      index ∉ pool.used
  gone : ∀ index ∈ pool.used, index ∈ pool.written
  inverse : Table.Inverse pool.mPoolKeyToIndex (idAt getID pool.written pool)

variable {getID : K → I} {generate : ℕ → K} {pool : KeyPool K I}

theorem sound_create : Sound getID generate (create : KeyPool K I) where
  bounded index entry hent := by simp [create] at hent
  distinct index other entry found hent := by simp [create] at hent
  inSet internal index hindex := by cases internal <;> simp [create, setKeyPool] at hindex
  held index entry hent := by simp [create] at hent
  gone index hindex := by simp [create] at hindex
  inverse := inverse_empty fun index => by simp [idAt, pooled, create]

omit [DecidableEq I] in
theorem mem_of_inserted {kind : Bool} {place : ℕ} (hplace : place ∈
      if kind = internal then insert index (pool.setKeyPool internal) else pool.setKeyPool kind) :
    (place = index ∧ internal = kind) ∨ place ∈ pool.setKeyPool kind := by
  split_ifs at hplace with heq
  · subst heq
    exact (mem_insert.1 hplace).imp_left fun hindex => ⟨hindex, rfl⟩
  · exact .inr hplace

section

variable (hsound : Sound getID generate pool)

include hsound

theorem Sound.kind_eq {kind : Bool} (hkind : index ∈ pool.setKeyPool kind)
    (hinternal : index ∈ pool.setKeyPool internal) : kind = internal := by
  obtain ⟨entry, -, hent, hfst, -⟩ := hsound.inSet kind index hkind
  obtain ⟨found, -, hf, hsnd, -⟩ := hsound.inSet internal index hinternal
  rw [hent] at hf
  cases hf
  exact hfst.symm.trans hsnd

theorem Sound.mem_pooled_erase
    (hindex : index ∈ pool.setKeyPool internal) (hset : ∀ kind, other.setKeyPool kind =
      if kind = internal then (pool.setKeyPool internal).erase index else pool.setKeyPool kind)
    (place : ℕ) : place ∈ other.pooled ↔ place ∈ pool.pooled ∧ place ≠ index := by
  rw [mem_pooled, mem_pooled]
  constructor
  · rintro ⟨kind, hplace⟩
    rw [hset] at hplace
    split_ifs at hplace with heq
    · subst heq
      exact ⟨⟨kind, mem_of_mem_erase hplace⟩, ne_of_mem_erase hplace⟩
    · refine ⟨⟨kind, hplace⟩, ?_⟩
      rintro rfl
      exact heq (hsound.kind_eq hplace hindex)
  · rintro ⟨⟨kind, hplace⟩, hne⟩
    refine ⟨kind, ?_⟩
    rw [hset]
    split_ifs with heq
    · subst heq
      exact mem_erase.2 ⟨hne, hplace⟩
    · exact hplace

theorem Sound.idAt_eq
    (hindex : index ∈ pool.setKeyPool internal) (hent : pool.stored.lookup index = some entry) :
    idAt getID pool.written pool index = some (getID entry.vchPubKey) := by
  obtain ⟨found, hstored, hwrote, -⟩ := hsound.inSet internal index hindex
  rw [hent] at hstored
  cases hstored
  rw [idAt, if_pos (mem_pooled.2 ⟨internal, hindex⟩), hwrote, Option.map_some]

/-- An id written only with an index outside the pool is not in the map. -/
theorem Sound.id_not_mem {id : I}
    (hid : ∀ index ∈ pool.pooled, ∀ entry, pool.written.lookup index = some entry →
      getID entry.vchPubKey ≠ id) : id ∉ pool.mPoolKeyToIndex := by
  rw [hsound.inverse.not_mem_iff]
  intro index hindex
  rw [idAt] at hindex
  split_ifs at hindex with hmem
  obtain ⟨entry, hent, hsame⟩ := Option.map_eq_some_iff.1 hindex
  exact hid index hmem entry hent hsame

theorem Sound.written_of_pooled (hindex : index ∈ pool.pooled) :
    index ∉ pool.reserved ∧ index ∈ pool.written := by
  obtain ⟨kind, hkind⟩ := mem_pooled.1 hindex
  obtain ⟨entry, -, hwrote, -, hnot, -⟩ := hsound.inSet kind index hkind
  exact ⟨hnot, mem_of_lookup hwrote⟩

/-- A failed write leaves an index and a key nothing refers to. -/
theorem Sound.skip :
    Sound getID generate { pool with
      mMaxKeypoolIndex := pool.mMaxKeypoolIndex + 1, generated := pool.generated + 1 } where
  bounded index entry hent := by
    obtain ⟨hle, n, hn, hkey⟩ := hsound.bounded index entry hent
    exact ⟨Nat.le_succ_of_le hle, n, Nat.lt_succ_of_lt hn, hkey⟩
  distinct := hsound.distinct
  inSet := hsound.inSet
  held := hsound.held
  gone := hsound.gone
  inverse := hsound.inverse

end

section Return

variable {index : ℕ} {entry : CKeyPool K}

theorem setKeyPool_returnKey (kind : Bool) : (pool.returnKey getID index entry).setKeyPool kind =
    if kind = entry.fInternal then insert index (pool.setKeyPool entry.fInternal)
    else pool.setKeyPool kind :=
  setKeyPool_withKeyPool pool entry.fInternal kind _

theorem mem_pooled_returnKey (place : ℕ) : place ∈ (pool.returnKey getID index entry).pooled ↔
    place = index ∨ place ∈ pool.pooled := by
  rw [mem_pooled, mem_pooled]
  constructor
  · rintro ⟨kind, hplace⟩
    rw [setKeyPool_returnKey] at hplace
    exact (mem_of_inserted hplace).imp And.left fun hmem => ⟨kind, hmem⟩
  · rintro (rfl | ⟨kind, hplace⟩)
    · refine ⟨entry.fInternal, ?_⟩
      rw [setKeyPool_returnKey, if_pos rfl]
      exact mem_insert_self _ _
    · refine ⟨kind, ?_⟩
      rw [setKeyPool_returnKey]
      split_ifs with heq
      · exact mem_insert_of_mem (heq ▸ hplace)
      · exact hplace

theorem returnKey_frame :
    (pool.returnKey getID index entry).mMaxKeypoolIndex = pool.mMaxKeypoolIndex ∧
      (pool.returnKey getID index entry).generated = pool.generated ∧
        (pool.returnKey getID index entry).written = pool.written ∧
          (pool.returnKey getID index entry).stored = pool.stored ∧
            (pool.returnKey getID index entry).reserved = pool.reserved ∧
              (pool.returnKey getID index entry).used = pool.used := by
  rw [returnKey, withKeyPool]
  split <;> exact ⟨rfl, rfl, rfl, rfl, rfl, rfl⟩

theorem Sound.returnKey (hsound : Sound getID generate pool) (hfree : index ∉ pool.pooled)
    (hnot : index ∉ pool.reserved) (hkept : pool.stored.lookup index = some entry)
    (hentered : pool.written.lookup index = some entry) (hunused : index ∉ pool.used) :
    Sound getID generate (pool.returnKey getID index entry) := by
  obtain ⟨hmax, hgenerated, hwrote, hstored, hreserved, hused⟩ :=
    @returnKey_frame _ _ _ getID pool index entry
  refine ⟨⟨?_, ?_⟩, fun kind place hplace => ?_, ?_, ?_, ?_⟩
  · rw [hwrote, hmax, hgenerated]
    exact hsound.bounded
  · rw [hwrote]
    exact hsound.distinct
  · rw [hstored, hwrote, hused, hreserved]
    rw [setKeyPool_returnKey] at hplace
    rcases mem_of_inserted hplace with ⟨rfl, hkind⟩ | hmem
    · exact ⟨entry, hkept, hentered, hkind, hnot, hunused⟩
    · exact hsound.inSet kind place hmem
  · rw [hreserved, hstored, hwrote, hused]
    exact hsound.held
  · rw [hused, hwrote]
    exact hsound.gone
  · -- the index was not in the pool, and no other index has its key
    have hid : getID entry.vchPubKey ∉ pool.mPoolKeyToIndex := by
      apply hsound.id_not_mem
      intro place hplace found hf hsame
      rw [hsound.distinct place index found entry hf hentered hsame] at hplace
      exact hfree hplace
    rw [hwrote]
    apply hsound.inverse.insert (if_neg hfree) hid
    intro place
    simp only [idAt, mem_pooled_returnKey]
    by_cases heq : place = index
    · subst heq
      simp [hentered]
    · simp [heq]

end Return

section Enter

variable {index : ℕ} {entry : CKeyPool K}

/-- A new entry has a new index and an unused generated key. -/
structure Fresh (generate : ℕ → K) (getID : K → I) (pool : KeyPool K I) (index : ℕ)
    (entry : CKeyPool K) : Prop where
  new : index ∉ pool.written
  bounded : index ≤ pool.mMaxKeypoolIndex
  generated : ∃ n < pool.generated, entry.vchPubKey = generate n
  unlike : ∀ other found, pool.written.lookup other = some found →
    getID found.vchPubKey ≠ getID entry.vchPubKey

omit [DecidableEq I] in
/-- The entries written before stay. -/
theorem Fresh.lookup (hfresh : Fresh generate getID pool index entry) {other : ℕ}
    {found : CKeyPool K} {entries : Rows ℕ (CKeyPool K)}
    (hwrote : pool.written.lookup other = some found)
    (hf : entries.lookup other = some found) :
    (entries.insert index entry).lookup other = some found := by
  rw [lookup_insert, if_neg]
  · exact hf
  · rintro rfl
    exact hfresh.new (mem_of_lookup hwrote)

/-- A fresh entry is written and in no set yet. -/
theorem Sound.write (hsound : Sound getID generate pool)
    (hfresh : Fresh generate getID pool index entry) :
    Sound getID generate { pool with
      stored := pool.stored.insert index entry, written := pool.written.insert index entry } where
  bounded other found hf := by
    rw [lookup_insert] at hf
    split_ifs at hf with heq
    · cases hf
      exact ⟨heq ▸ hfresh.bounded, hfresh.generated⟩
    · exact hsound.bounded other found hf
  distinct first second held found hfst hsnd hsame := by
    rw [lookup_insert] at hfst hsnd
    split_ifs at hfst with heq
    · cases hfst
      split_ifs at hsnd with heq'
      · rw [heq, heq']
      · exact absurd hsame.symm (hfresh.unlike second found hsnd)
    · split at hsnd
      · cases hsnd
        exact absurd hsame (hfresh.unlike first held hfst)
      · exact hsound.distinct first second held found hfst hsnd hsame
  inSet kind other ho := by
    obtain ⟨found, hstored, hwrote, hrest⟩ := hsound.inSet kind other ho
    exact ⟨found, hfresh.lookup hwrote hstored, hfresh.lookup hwrote hwrote, hrest⟩
  held other found hf := by
    obtain ⟨hstored, hwrote, hunused⟩ := hsound.held other found hf
    exact ⟨hfresh.lookup hwrote hstored, hfresh.lookup hwrote hwrote, hunused⟩
  gone other ho := (AList.mem_insert _).2 (.inr (hsound.gone other ho))
  inverse := hsound.inverse.congr fun other => by
    rw [idAt, idAt]
    by_cases hmem : other ∈ pool.pooled
    · obtain ⟨found, hwrote⟩ := mem_iff.1 (hsound.written_of_pooled hmem).2
      rw [hfresh.lookup hwrote hwrote, hwrote]
      rfl
    · rw [if_neg hmem]
      exact if_neg hmem

theorem enter_eq : pool.enter getID index entry = returnKey getID index entry { pool with
    stored := pool.stored.insert index entry, written := pool.written.insert index entry } := by
  rw [enter, returnKey, withKeyPool, withKeyPool]
  split <;> rfl

theorem Sound.enter (hsound : Sound getID generate pool)
    (hfresh : Fresh generate getID pool index entry) :
    Sound getID generate (pool.enter getID index entry) := by
  rw [enter_eq]
  apply (hsound.write hfresh).returnKey
  · exact fun hmem => hfresh.new (hsound.written_of_pooled hmem).2
  · intro hmem
    obtain ⟨found, hf⟩ := mem_iff.1 hmem
    exact hfresh.new (mem_of_lookup (hsound.held index found hf).2.1)
  · exact AList.lookup_insert _
  · exact AList.lookup_insert _
  · exact fun hmem => hfresh.new (hsound.gone index hmem)

end Enter

/-- Entries were written, and nothing else happened. -/
structure Grown (pool next : KeyPool K I) : Prop where
  used : next.used = pool.used
  reserved : next.reserved = pool.reserved
  written : ∀ index entry, pool.written.lookup index = some entry →
    next.written.lookup index = some entry

omit [DecidableEq I] in
theorem Grown.trans {middle : KeyPool K I} (hfst : Grown pool middle)
    (hsnd : Grown middle next) : Grown pool next where
  used := hsnd.used.trans hfst.used
  reserved := hsnd.reserved.trans hfst.reserved
  written index entry hent := hsnd.written index entry (hfst.written index entry hent)

omit [DecidableEq I] in
theorem grown_refl (pool : KeyPool K I) : Grown pool pool :=
  ⟨rfl, rfl, fun _ _ hent => hent⟩

def Thrown {α : Type*} (outcome : Except PoolThrow α) : Prop :=
  ∀ thrown, outcome = .error thrown → thrown = .tooManyKeys ∨ thrown = .writeFailed

theorem thrown_ok {α : Type*} (value : α) : Thrown (.ok value) := by
  intro thrown hthrown
  cases hthrown

/-- Calls that generate keys throw only if a key cannot be written. -/
structure Grows {α : Type*} (getID : K → I) (generate : ℕ → K) (pool : KeyPool K I)
    (outcome : Except PoolThrow α × KeyPool K I) : Prop where
  sound : Sound getID generate outcome.2
  grown : Grown pool outcome.2
  thrown : Thrown outcome.1

section TopUp

variable (hdistinct : Function.Injective fun n => getID (generate n)) (env : PoolEnv)
include hdistinct

section

variable (hsound : Sound getID generate pool)

include hsound

theorem Sound.addKey (internal : Bool) :
    Grows getID generate pool (pool.addKey getID generate env internal) := by
  rw [KeyPool.addKey]
  split
  · refine ⟨hsound, grown_refl pool, fun thrown hthrown => ?_⟩
    cases hthrown
    exact .inl rfl
  · dsimp only
    split
    · refine ⟨hsound.skip, ⟨rfl, rfl, fun _ _ hent => hent⟩, fun thrown hthrown => ?_⟩
      cases hthrown
      exact .inr rfl
    · have hfresh : Fresh generate getID { pool with
          mMaxKeypoolIndex := pool.mMaxKeypoolIndex + 1, generated := pool.generated + 1 }
          (pool.mMaxKeypoolIndex + 1) ⟨generate pool.generated, internal⟩ := by
        refine ⟨fun hmem => ?_, le_rfl, ⟨pool.generated, Nat.lt_succ_self _, rfl⟩,
          fun other found hf hsame => ?_⟩
        · obtain ⟨entry, hent⟩ := mem_iff.1 hmem
          exact absurd (hsound.bounded _ entry hent).1 (Nat.not_succ_le_self _)
        · obtain ⟨-, n, hn, hkey⟩ := hsound.bounded other found hf
          rw [hkey] at hsame
          exact absurd (hdistinct hsame) (Nat.ne_of_lt hn)
      refine ⟨hsound.skip.enter hfresh, ?_, thrown_ok _⟩
      rw [enter_eq]
      refine ⟨returnKey_frame.2.2.2.2.2, returnKey_frame.2.2.2.2.1, fun index entry hent => ?_⟩
      rw [returnKey_frame.2.2.1]
      exact hfresh.lookup hent hent

theorem Sound.addKeys (missingInternal i : ℕ) (internal : Bool) :
    Grows getID generate pool (pool.addKeys getID generate env missingInternal i internal) := by
  induction i generalizing pool internal with
  | zero => exact ⟨hsound, grown_refl pool, thrown_ok _⟩
  | succ i ih =>
    have hadded := hsound.addKey hdistinct env (internal || decide (i < missingInternal))
    rw [KeyPool.addKeys]
    split
    · next thrown next hadd =>
      rw [hadd] at hadded
      exact hadded
    · next next hadd =>
      rw [hadd] at hadded
      have hrest := ih hadded.sound (internal || decide (i < missingInternal))
      exact ⟨hrest.sound, hadded.grown.trans hrest.grown, hrest.thrown⟩

theorem Sound.topUpKeyPool (kpSize : ℕ) :
    Grows getID generate pool (pool.topUpKeyPool getID generate env kpSize) := by
  rw [KeyPool.topUpKeyPool]
  split
  · exact ⟨hsound, grown_refl pool, thrown_ok _⟩
  · dsimp only
    split
    · next hadd =>
      have hadded := hadd ▸ hsound.addKeys hdistinct env _ _ _
      exact ⟨hadded.sound, hadded.grown,
        fun other ho => hadded.thrown other (congrArg _ (Except.error.inj ho))⟩
    · next hadd =>
      have hadded := hadd ▸ hsound.addKeys hdistinct env _ _ _
      exact ⟨hadded.sound, hadded.grown, thrown_ok _⟩

theorem Sound.topped
    {top : Except PoolThrow Bool × KeyPool K I}
    (htop : (if env.locked then (.ok false, pool)
      else pool.topUpKeyPool getID generate env 0) = top) : Grows getID generate pool top := by
  rw [← htop]
  split
  · exact ⟨hsound, grown_refl pool, thrown_ok _⟩
  · exact hsound.topUpKeyPool hdistinct env 0

end

end TopUp

theorem mem_takeWhile_le {indices : List ℕ} {place bound : ℕ} (hsorted : indices.Pairwise (· ≤ ·))
    (hplace : place ∈ indices) (hle : place ≤ bound) : place ∈ indices.takeWhile (· ≤ bound) := by
  induction indices with
  | nil => cases hplace
  | cons index indices ih =>
    obtain ⟨hhead, htail⟩ := List.pairwise_cons.1 hsorted
    rcases List.mem_cons.1 hplace with rfl | hplace
    · simp [hle]
    · simp [(hhead place hplace).trans hle, ih htail hplace]

section Leave

variable {internal : Bool} {index : ℕ} {entry : CKeyPool K} {other : KeyPool K I}

theorem setKeyPool_markAsUsed (kind : Bool) :
    (pool.markAsUsed getID internal index).setKeyPool kind =
      if kind = internal then (pool.setKeyPool internal).erase index else pool.setKeyPool kind :=
  setKeyPool_withKeyPool pool internal kind _

section

variable (hsound : Sound getID generate pool)

include hsound

/-- An index leaves its set, and its key the map. -/
theorem Sound.leave
    (hindex : index ∈ pool.setKeyPool internal) (hent : pool.stored.lookup index = some entry)
    (hset : ∀ kind, other.setKeyPool kind =
      if kind = internal then (pool.setKeyPool internal).erase index else pool.setKeyPool kind)
    (hledger : other.mMaxKeypoolIndex = pool.mMaxKeypoolIndex ∧
      other.generated = pool.generated ∧ other.written = pool.written ∧
        other.reserved = pool.reserved ∧ other.used = pool.used)
    (hmap : other.mPoolKeyToIndex = pool.mPoolKeyToIndex.erase (getID entry.vchPubKey))
    (hothers : ∀ place ≠ index, other.stored.lookup place = pool.stored.lookup place) :
    Sound getID generate other := by
  obtain ⟨hmax, hgenerated, hwrote, hreserved, hused⟩ := hledger
  obtain ⟨-, -, -, -, hfree, -⟩ := hsound.inSet internal index hindex
  refine ⟨⟨?_, ?_⟩, fun kind place hplace => ?_, fun place found hf => ?_, ?_, ?_⟩
  · rw [hwrote, hmax, hgenerated]
    exact hsound.bounded
  · rw [hwrote]
    exact hsound.distinct
  · have hpooled := (hsound.mem_pooled_erase hindex hset place).1 (mem_pooled.2 ⟨kind, hplace⟩)
    have hplace : place ∈ pool.setKeyPool kind := by
      rw [hset] at hplace
      split_ifs at hplace with heq
      · exact heq ▸ mem_of_mem_erase hplace
      · exact hplace
    rw [hothers place hpooled.2, hwrote, hused, hreserved]
    exact hsound.inSet kind place hplace
  · rw [hreserved] at hf
    have hne : place ≠ index := by
      rintro rfl
      exact hfree (mem_of_lookup hf)
    rw [hothers place hne, hwrote, hused]
    exact hsound.held place found hf
  · rw [hused, hwrote]
    exact hsound.gone
  · rw [hmap, hwrote]
    apply hsound.inverse.erase (hsound.idAt_eq hindex hent)
    intro place
    simp only [idAt, hsound.mem_pooled_erase hindex hset]
    by_cases heq : place = index <;> simp [heq]

theorem Sound.markAsUsed (hindex : index ∈ pool.setKeyPool internal) :
    Sound getID generate (pool.markAsUsed getID internal index) := by
  obtain ⟨entry, hent, -⟩ := hsound.inSet internal index hindex
  apply hsound.leave hindex hent
  · exact setKeyPool_markAsUsed
  · cases internal <;> exact ⟨rfl, rfl, rfl, rfl, rfl⟩
  · rw [KeyPool.markAsUsed, hent]
  · exact fun place hplace => AList.lookup_erase_ne hplace

omit hsound in
/-- A written index neither in the sets nor used up can be reserved. -/
theorem Sound.reserve (hsound : Sound getID generate pool) (hfree : index ∉ pool.pooled)
    (hstored : pool.stored.lookup index = some entry)
    (hwrote : pool.written.lookup index = some entry) (hunused : index ∉ pool.used) :
    Sound getID generate { pool with reserved := pool.reserved.insert index entry } where
  toLedger := ⟨hsound.bounded, hsound.distinct⟩
  inSet kind place hplace := by
    obtain ⟨found, hf, hf', hkind, hnot, hused⟩ := hsound.inSet kind place hplace
    refine ⟨found, hf, hf', hkind, fun hmem => ?_, hused⟩
    rcases (AList.mem_insert _).1 hmem with rfl | hmem
    · exact hfree (mem_pooled.2 ⟨kind, hplace⟩)
    · exact hnot hmem
  held place found hf := by
    rw [lookup_insert] at hf
    split_ifs at hf with heq
    · cases hf
      subst heq
      exact ⟨hstored, hwrote, hunused⟩
    · exact hsound.held place found hf
  gone := hsound.gone
  inverse := hsound.inverse

/-- Written indices neither in the sets nor reserved can be used up. -/
theorem Sound.useUp {indices : Finset ℕ} (hindices : ∀ index ∈ indices,
      index ∉ pool.pooled ∧ index ∉ pool.reserved ∧ index ∈ pool.written) :
    Sound getID generate (pool.useUp indices) where
  toLedger := ⟨hsound.bounded, hsound.distinct⟩
  inSet kind place hplace := by
    obtain ⟨found, hf, hf', hkind, hnot, hused⟩ := hsound.inSet kind place hplace
    refine ⟨found, hf, hf', hkind, hnot, fun hmem => ?_⟩
    rcases mem_union.1 hmem with hmem | hmem
    · exact hused hmem
    · exact (hindices place hmem).1 (mem_pooled.2 ⟨kind, hplace⟩)
  held place found hf := by
    obtain ⟨hstored, hwrote, hused⟩ := hsound.held place found hf
    refine ⟨hstored, hwrote, fun hmem => ?_⟩
    rcases mem_union.1 hmem with hmem | hmem
    · exact hused hmem
    · exact (hindices place hmem).2.1 (mem_of_lookup hf)
  gone place hplace :=
    (mem_union.1 hplace).elim (hsound.gone place) fun hmem => (hindices place hmem).2.2
  inverse := hsound.inverse

/-- A stored key of the pool is taken without a throw. -/
theorem Sound.takeKey (hindex : index ∈ pool.setKeyPool internal) :
    ∃ entry, pool.written.lookup index = some entry ∧
      Sound getID generate (hold (pool.takeKey getID generate internal index)) ∧
        (pool.takeKey getID generate internal index).2.used = pool.used ∧
          (pool.takeKey getID generate internal index).1 = .ok (some (index, entry)) := by
  obtain ⟨entry, hent, hwrote, hkind, -, hunused⟩ := hsound.inSet internal index hindex
  have hhave : pool.haveKey getID generate (getID entry.vchPubKey) = true := by
    obtain ⟨-, n, hn, hkey⟩ := hsound.bounded index entry hwrote
    rw [haveKey, List.any_eq_true]
    exact ⟨n, List.mem_range.2 hn, by simp [hkey]⟩
  refine ⟨entry, hwrote, ?_⟩
  rw [KeyPool.takeKey, hent]
  simp only [hhave, not_true_eq_false, if_false, hkind, ne_eq, and_true, hold]
  refine ⟨?_, by cases internal <;> rfl⟩
  have hset (kind : Bool) := setKeyPool_withKeyPool pool internal kind
    ((pool.setKeyPool internal).erase index)
  have hleft : Sound getID generate
      { pool.withKeyPool internal ((pool.setKeyPool internal).erase index) with
        mPoolKeyToIndex := pool.mPoolKeyToIndex.erase (getID entry.vchPubKey) } := by
    apply hsound.leave hindex hent
    · exact hset
    · cases internal <;> exact ⟨rfl, rfl, rfl, rfl, rfl⟩
    · rfl
    · cases internal <;> exact fun _ _ => rfl
  apply hleft.reserve
  · exact fun hmem => ((hsound.mem_pooled_erase hindex hset index).1 hmem).2 rfl
  · cases internal <;> exact hent
  · cases internal <;> exact hwrote
  · cases internal <;> exact hunused

/-- The loop of `MarkReserveKeysAsUsed` visits different indices. -/
theorem Sound.foldl_markAsUsed {indices : List ℕ}
    (hnd : indices.Nodup) (hindices : ∀ index ∈ indices, index ∈ pool.setKeyPool internal) :
    Sound getID generate (indices.foldl (KeyPool.markAsUsed getID internal) pool) := by
  induction indices generalizing pool with
  | nil => exact hsound
  | cons index indices ih =>
    obtain ⟨hfst, hrest⟩ := List.forall_mem_cons.1 hindices
    obtain ⟨hnot, hnd⟩ := List.nodup_cons.1 hnd
    apply ih (hsound.markAsUsed hfst) hnd
    intro place hplace
    rw [setKeyPool_markAsUsed, if_pos rfl, mem_erase]
    exact ⟨fun heq => hnot (heq ▸ hplace), hrest place hplace⟩

omit hsound in
/-- What the loop leaves of the sets. -/
theorem mem_foldl_markAsUsed {indices : List ℕ} {place : ℕ} {kind : Bool}
    (hplace : place ∈ (indices.foldl (KeyPool.markAsUsed getID internal) pool).setKeyPool kind) :
    place ∈ pool.setKeyPool kind ∧ (kind = internal → place ∉ indices) := by
  induction indices generalizing pool with
  | nil => exact ⟨hplace, fun _ => List.not_mem_nil⟩
  | cons index indices ih =>
    obtain ⟨hmem, hnot⟩ := ih hplace
    rw [setKeyPool_markAsUsed] at hmem
    split_ifs at hmem with hkind
    · rw [hkind]
      exact ⟨mem_of_mem_erase hmem,
        fun _ => by simp [ne_of_mem_erase hmem, hnot hkind]⟩
    · exact ⟨hmem, fun heq => absurd heq hkind⟩

omit hsound in
theorem foldl_markAsUsed_frame (indices : List ℕ) :
    (indices.foldl (KeyPool.markAsUsed getID internal) pool).reserved = pool.reserved ∧
      (indices.foldl (KeyPool.markAsUsed getID internal) pool).written = pool.written ∧
        (indices.foldl (KeyPool.markAsUsed getID internal) pool).used = pool.used := by
  induction indices generalizing pool with
  | nil => exact ⟨rfl, rfl, rfl⟩
  | cons index indices ih =>
    have hrest := @ih (pool.markAsUsed getID internal index)
    cases internal <;> exact hrest

/-- The assertion of `MarkReserveKeysAsUsed` holds for an index of the map, and the indices up to
it can be used up. -/
theorem Sound.markReserveKeysAsUsed {id : I} (hid : pool.mPoolKeyToIndex.lookup id = some index) :
    (pool.markReserveKeysAsUsed getID index).1 = .ok () ∧
      Sound getID generate ((pool.markReserveKeysAsUsed getID index).2.useUp (pool.upTo index)) ∧
        (pool.markReserveKeysAsUsed getID index).2.used = pool.used := by
  have hpooled : index ∈ pool.pooled := by
    have hheld := (hsound.inverse id index).1 hid
    rw [idAt] at hheld
    split_ifs at hheld
    assumption
  rw [KeyPool.markReserveKeysAsUsed, upTo]
  generalize hinternal : decide (index ∈ pool.setInternalKeyPool) = internal
  rw [if_neg]
  · obtain ⟨hreserved, hwrote, hused⟩ := @foldl_markAsUsed_frame _ _ _ getID pool internal
      (((pool.setKeyPool internal).sort (· ≤ ·)).takeWhile (· ≤ index))
    refine ⟨rfl, ?_, hused⟩
    apply Sound.useUp
    · apply hsound.foldl_markAsUsed
      · exact (sort_nodup _ _).sublist (List.takeWhile_sublist _)
      · exact fun place hplace => (mem_sort _).1 ((List.takeWhile_sublist _).subset hplace)
    · intro place hplace
      obtain ⟨hin, hle⟩ := mem_filter.1 hplace
      rw [hreserved, hwrote]
      refine ⟨fun hmem => ?_, hsound.written_of_pooled (mem_pooled.2 ⟨internal, hin⟩)⟩
      obtain ⟨kind, hkind⟩ := mem_pooled.1 hmem
      obtain ⟨hstill, hnot⟩ := mem_foldl_markAsUsed hkind
      refine hnot (hsound.kind_eq hstill hin) ?_
      exact mem_takeWhile_le (pairwise_sort _ _) ((mem_sort _).2 hin) hle
  · rintro ⟨hnot, hexternal⟩
    rcases mem_union.1 hpooled with hmem | hmem
    · simp [← hinternal, hmem] at hnot
    · exact hexternal hmem

theorem Sound.release (index : ℕ) : Sound getID generate (pool.release index) where
  toLedger := ⟨hsound.bounded, hsound.distinct⟩
  inSet kind place hplace := by
    obtain ⟨found, hf, hf', hkind, hnot, hused⟩ := hsound.inSet kind place hplace
    exact ⟨found, hf, hf', hkind, fun hmem => hnot (AList.mem_erase.1 hmem).2, hused⟩
  held place found hf := by
    rw [KeyPool.release, lookup_erase] at hf
    split_ifs at hf
    exact hsound.held place found hf
  gone := hsound.gone
  inverse := hsound.inverse

/-- A reserved index is not in the pool. -/
theorem Sound.not_pooled (hent : pool.reserved.lookup index = some entry) :
    index ∉ pool.pooled :=
  fun hmem => (hsound.written_of_pooled hmem).1 (mem_of_lookup hent)

end

end Leave

theorem Sound.keepKey (hsound : Sound getID generate pool) (hfree : index ∉ pool.pooled)
    (hnot : index ∉ pool.reserved) : Sound getID generate (pool.keepKey index) where
  toLedger := ⟨hsound.bounded, hsound.distinct⟩
  inSet kind place hplace := by
    obtain ⟨found, hstored, hrest⟩ := hsound.inSet kind place hplace
    have hne : place ≠ index := by
      rintro rfl
      exact hfree (mem_pooled.2 ⟨kind, hplace⟩)
    exact ⟨found, (AList.lookup_erase_ne hne).trans hstored, hrest⟩
  held place found hf := by
    have hne : place ≠ index := by
      rintro rfl
      exact hnot (mem_of_lookup hf)
    obtain ⟨hstored, hrest⟩ := hsound.held place found hf
    exact ⟨(AList.lookup_erase_ne hne).trans hstored, hrest⟩
  gone := hsound.gone
  inverse := hsound.inverse

theorem Sound.clear (hsound : Sound getID generate pool) : Sound getID generate pool.clear where
  toLedger := ⟨hsound.bounded, hsound.distinct⟩
  inSet kind place hplace := by
    cases kind <;> exact absurd hplace (notMem_empty place)
  held place found hf := by
    obtain ⟨hstored, hwrote, hused⟩ := hsound.held place found hf
    have hfree := hsound.not_pooled hf
    rw [pooled, mem_union, not_or] at hfree
    refine ⟨?_, hwrote, hused⟩
    simp [KeyPool.clear, lookup_eraseAll, hfree.1, hfree.2, hstored]
  gone := hsound.gone
  inverse := inverse_empty fun place => if_neg (notMem_empty place)

/-- A call that reserves a key throws only if a new key cannot be written, and hands out a key
neither used up nor reserved before. -/
structure HandsOut (getID : K → I) (pool : KeyPool K I)
    (outcome : Except PoolThrow (Option (ℕ × CKeyPool K)) × KeyPool K I) : Prop where
  used : outcome.2.used = pool.used
  thrown : Thrown outcome.1
  fresh : ∀ index entry, outcome.1 = .ok (some (index, entry)) →
    index ∉ pool.used ∧ index ∉ pool.reserved ∧
      ∀ other ∈ pool.used, ∀ found, pool.written.lookup other = some found →
        getID found.vchPubKey ≠ getID entry.vchPubKey

omit [DecidableEq I] in
theorem used_hold (outcome : Except PoolThrow (Option (ℕ × CKeyPool K)) × KeyPool K I) :
    (hold outcome).used = outcome.2.used := by
  rw [hold.eq_def]
  split <;> rfl

section

variable (hdistinct : Function.Injective fun n => getID (generate n))

include hdistinct

theorem Sound.reserveKey
    (env : PoolEnv) (hsound : Sound getID generate pool) (fRequestedInternal : Bool) :
    Sound getID generate (hold (pool.reserveKey getID generate env fRequestedInternal)) ∧
      HandsOut getID pool (pool.reserveKey getID generate env fRequestedInternal) := by
  rw [KeyPool.reserveKey]
  split
  · next thrown next htop =>
    obtain ⟨hnext, hgrown, hthrown⟩ := hsound.topped hdistinct env htop
    refine ⟨hnext, hgrown.used, fun other ho => ?_, fun _ _ hok => by cases hok⟩
    exact hthrown other (congrArg _ (Except.error.inj ho))
  · next done next htop =>
    obtain ⟨hnext, hgrown, -⟩ := hsound.topped hdistinct env htop
    dsimp only
    split
    · exact ⟨hnext, hgrown.used, thrown_ok _, fun _ _ hok => by cases hok⟩
    · next nIndex hmin =>
      have hindex := mem_of_min hmin
      obtain ⟨entry, hwrote, htaken, hused, hok⟩ := hnext.takeKey hindex
      obtain ⟨-, -, -, -, hunreserved, hunused⟩ := hnext.inSet _ nIndex hindex
      refine ⟨htaken, hused.trans hgrown.used, hok ▸ thrown_ok _, fun index found hf => ?_⟩
      rw [hok] at hf
      cases hf
      refine ⟨hgrown.used ▸ hunused, hgrown.reserved ▸ hunreserved,
        fun other ho found hf hsame => hunused ?_⟩
      -- the same key would be the same index
      have heq := hnext.distinct other nIndex found entry (hgrown.written other found hf)
        hwrote hsame
      exact heq ▸ hgrown.used ▸ ho

/-- A call keeps the pool sound, and what it uses up is added to what was. -/
theorem Sound.step (hsound : Sound getID generate pool) {call : KeyPoolCall}
    (hstep : pool.step getID generate call = .ok next) :
    Sound getID generate next ∧ next.used = pool.used ∪ pool.usesUp call := by
  cases call with
  | newKeyPool env =>
    cases hstep
    have hcleared : Sound getID generate (pool.useUp pool.pooled).clear := by
      apply hsound.clear.useUp
      exact fun index hindex => ⟨notMem_empty index, hsound.written_of_pooled hindex⟩
    have htopped := hcleared.topUpKeyPool hdistinct env 0
    exact ⟨htopped.sound, htopped.grown.used⟩
  | topUpKeyPool env kpSize =>
    cases hstep
    have htopped := hsound.topUpKeyPool hdistinct env kpSize
    exact ⟨htopped.sound, htopped.grown.used.trans (union_empty _).symm⟩
  | reserveKey env fRequestedInternal =>
    cases hstep
    obtain ⟨hnext, hhands⟩ := hsound.reserveKey hdistinct env fRequestedInternal
    exact ⟨hnext, (used_hold _).trans (hhands.used.trans (union_empty _).symm)⟩
  | keepKey nIndex =>
    rw [KeyPool.step] at hstep
    split at hstep
    · cases hstep
    · next entry hent =>
      cases hstep
      have hwrote := mem_of_lookup (hsound.held nIndex entry hent).2.1
      have hnot : nIndex ∉ (pool.release nIndex).reserved :=
        fun hmem => (AList.mem_erase.1 hmem).1 rfl
      have hkept := (hsound.release nIndex).keepKey (hsound.not_pooled hent) hnot
      refine ⟨hkept.useUp fun index hindex => ?_, rfl⟩
      rw [mem_singleton.1 hindex]
      exact ⟨hsound.not_pooled hent, hnot, hwrote⟩
  | returnKey nIndex =>
    rw [KeyPool.step] at hstep
    split at hstep
    · cases hstep
    · next entry hent =>
      cases hstep
      obtain ⟨hstored, hwrote, hunused⟩ := hsound.held nIndex entry hent
      refine ⟨(hsound.release nIndex).returnKey (hsound.not_pooled hent) (fun hmem => ?_) hstored
        hwrote hunused, ?_⟩
      · exact (AList.mem_erase.1 hmem).1 rfl
      · exact returnKey_frame.2.2.2.2.2.trans (union_empty _).symm
  | markReserveKeysAsUsed keypoolId =>
    rw [KeyPool.step] at hstep
    split_ifs at hstep with hf
    cases hstep
    obtain ⟨⟨id, _⟩, hrow, rfl⟩ := List.mem_map.1 hf
    obtain ⟨-, hnext, hused⟩ := hsound.markReserveKeysAsUsed (AList.mem_lookup_iff.2 hrow)
    exact ⟨hnext, congrArg (· ∪ _) hused⟩

/-- The two sets are apart, the map leads from the ids of their keys to their indices, a reserved
key was not used up or reserved before, indices stay used up, and the assertion of
`MarkReserveKeysAsUsed` holds. -/
structure NeverTwice (getID : K → I) (generate : ℕ → K) (pool : KeyPool K I) : Prop where
  apart : Disjoint pool.setInternalKeyPool pool.setExternalKeyPool
  exact : Table.Inverse pool.mPoolKeyToIndex (idAt getID pool.stored pool)
  handsOut : ∀ env fRequestedInternal,
    HandsOut getID pool (pool.reserveKey getID generate env fRequestedInternal)
  usedUp : ∀ call next, pool.step getID generate call = .ok next →
    next.used = pool.used ∪ pool.usesUp call
  asserted : ∀ index id, pool.mPoolKeyToIndex.lookup id = some index →
    (pool.markReserveKeysAsUsed getID index).1 = .ok ()

theorem Sound.neverTwice (hsound : Sound getID generate pool) : NeverTwice getID generate pool where
  apart := disjoint_left.2 fun _ hinternal hexternal => by
    have hsame : true = false := hsound.kind_eq hinternal hexternal
    cases hsame
  exact := by
    apply hsound.inverse.congr
    intro index
    rw [idAt, idAt]
    split_ifs with hmem
    · obtain ⟨kind, hkind⟩ := mem_pooled.1 hmem
      obtain ⟨entry, hstored, hwrote, -⟩ := hsound.inSet kind index hkind
      rw [hstored, hwrote]
    · rfl
  handsOut env fRequestedInternal := (hsound.reserveKey hdistinct env fRequestedInternal).2
  usedUp call next hstep := (hsound.step hdistinct hstep).2
  asserted index id hid := (hsound.markReserveKeysAsUsed hid).1

/-- If the keys generated have different ids, the key pool hands out no key twice, whatever
calls are made. -/
theorem always_neverTwice (calls : List KeyPoolCall) :
    Runs.Always (step getID generate) (NeverTwice getID generate) calls (create : KeyPool K I) := by
  have hkeeps : ∀ (pool : KeyPool K I) (call : KeyPoolCall) next, Sound getID generate pool → True →
      pool.step getID generate call = .ok next → Sound getID generate next :=
    fun _ _ _ hsound _ hstep => (hsound.step hdistinct hstep).1
  exact ((Runs.throughout_true calls create).always hkeeps sound_create).imp
    fun _ hsound => hsound.neverTwice hdistinct

end

end KeyPool

namespace KeyPoolWitness

def unlocked : PoolEnv := ⟨false, true, 2, fun _ => false⟩

/-- Keys that are their own ids, the first of them reserved, returned, reserved and kept. -/
theorem reserved_and_kept :
    Runs.Always (KeyPool.step (fun key : ℕ => key) fun n => n)
      (KeyPool.NeverTwice (fun key : ℕ => key) fun n => n)
      [.topUpKeyPool unlocked 0, .reserveKey unlocked false, .returnKey 1,
        .reserveKey unlocked false, .keepKey 1, .markReserveKeysAsUsed 2] KeyPool.create :=
  KeyPool.always_neverTwice (fun _ _ hsame => hsame) _

end KeyPoolWitness

end Catoshi
