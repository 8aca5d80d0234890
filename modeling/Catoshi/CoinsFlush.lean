/-
Flushing a coin cache makes the base what the cache showed.
-/
import Catoshi.CoinsRefine

namespace Catoshi

open CCoinsView WriteLog CCoinsCacheLayer List

open CCoinsViewDB (coinWrites)

theorem keys_coinWrites_sublist (items : List CoinsMapItem) :
    (keys (coinWrites items)).Sublist (items.map Sigma.fst) := by
  induction items with
  | nil => exact List.Sublist.refl _
  | cons item items ih =>
    rw [CCoinsViewDB.coinWrites_cons]
    cases hdirty : item.2.dirty with
    | false => exact List.Sublist.cons _ (by simpa using ih)
    | true => exact List.Sublist.cons_cons _ ih

variable {items : List CoinsMapItem}

theorem mem_coinWrites {outpoint : COutPoint} {value : Option Coin} :
    (outpoint, value) ∈ coinWrites items ↔
      ∃ entry : CCoinsCacheEntry, ⟨outpoint, entry⟩ ∈ items ∧ entry.dirty = true ∧
        entry.coin.unspent? = value := by
  simp only [coinWrites, mem_filterMap]
  constructor
  · rintro ⟨⟨other, entry⟩, hmem, hwrite⟩
    cases hdirty : entry.dirty with
    | false => simp [hdirty] at hwrite
    | true =>
      simp only [hdirty, if_true, Option.some.injEq, Prod.mk.injEq] at hwrite
      obtain ⟨rfl, hval⟩ := hwrite
      exact ⟨entry, hmem, hdirty, hval⟩
  · rintro ⟨entry, hmem, hdirty, rfl⟩
    exact ⟨⟨outpoint, entry⟩, hmem, by simp [hdirty]⟩

namespace CCoinsCacheLayer

variable {layer : CCoinsCacheLayer}

theorem mem_entries_iff {outpoint : COutPoint} {entry : CCoinsCacheEntry} :
    (⟨outpoint, entry⟩ : CoinsMapItem) ∈ layer.cacheCoins.entries ↔
      layer.find outpoint = some entry :=
  (mem_dlookup_iff layer.cacheCoins.nodupKeys).symm

theorem nodup_keys_of_perm (hperm : items.Perm layer.cacheCoins.entries) :
    (keys (coinWrites items)).Nodup := by
  refine (keys_coinWrites_sublist items).nodup ?_
  exact (hperm.map Sigma.fst).nodup_iff.2 layer.cacheCoins.nodupKeys

variable {parent : UtxoMap}

/-- The dirty entries of a coherent layer make the parent what is seen through the layer. -/
theorem apply_coinWrites (hcoherent : Overlay.Coherent layer.overlay parent)
    (hperm : items.Perm layer.cacheCoins.entries) :
    apply (coinWrites items) parent = Overlay.view layer.overlay parent := by
  funext outpoint
  by_cases hkey : outpoint ∈ keys (coinWrites items)
  · obtain ⟨⟨_, value⟩, hwrite, rfl⟩ := List.mem_map.1 hkey
    obtain ⟨entry, hent, -, rfl⟩ := mem_coinWrites.1 hwrite
    have hsome := layer.overlay_of_find (mem_entries_iff.1 (hperm.mem_iff.1 hent))
    rw [apply_of_mem (nodup_keys_of_perm hperm) hwrite, Overlay.view_of_some hsome]
    rfl
  · rw [apply_of_notMem hkey]
    cases hfind : layer.find outpoint with
    | none => exact (Overlay.view_of_none (layer.overlay_of_find hfind)).symm
    | some entry =>
      have hsome : layer.overlay outpoint = some entry.toEntry := layer.overlay_of_find hfind
      -- a dirty entry would be among the writes
      have hclean : entry.dirty = false := by
        by_contra hdirty
        have hwrite := mem_coinWrites.2 ⟨entry, hperm.mem_iff.2 (mem_entries_iff.2 hfind),
          Bool.eq_true_of_not_eq_false hdirty, rfl⟩
        exact hkey (mem_map_of_mem hwrite)
      rw [Overlay.view_of_some hsome]
      exact ((hcoherent outpoint _ hsome).clean_eq hclean).symm

/-- The loop of `BatchWrite` completes over entries coherent with the view. -/
theorem batchWriteLoop_spec (hcoherent : Overlay.Coherent layer.overlay parent)
    (hnd : (items.map Sigma.fst).Nodup)
    (hitems : ∀ item ∈ items, item.2.toEntry.Coherent (Overlay.view layer.overlay parent item.1)) :
    ∃ layer', layer.batchWriteLoop items = (.ok (), layer', []) ∧
      Overlay.Coherent layer'.overlay parent ∧
      Overlay.view layer'.overlay parent =
        apply (coinWrites items) (Overlay.view layer.overlay parent) := by
  induction items generalizing layer with
  | nil => exact ⟨layer, rfl, hcoherent, rfl⟩
  | cons item items ih =>
    rw [map_cons, nodup_cons] at hnd
    obtain ⟨next, hok, hnext, hview⟩ :=
      layer.batchWriteItem_spec hcoherent (hitems item mem_cons_self)
    have hrest : ∀ other ∈ items,
        other.2.toEntry.Coherent (Overlay.view next.overlay parent other.1) := by
      intro other ho
      -- the entry written so far is under another outpoint
      have hkey : other.1 ∉ keys (coinWrites [item]) := by
        intro hmem
        have heq := (keys_coinWrites_sublist [item]).subset hmem
        simp only [map_cons, map_nil, mem_singleton] at heq
        exact hnd.1 (heq ▸ mem_map_of_mem ho)
      rw [hview, apply_of_notMem hkey]
      exact hitems other (mem_cons_of_mem item ho)
    obtain ⟨last, hloop, hlast, hview'⟩ := ih hnext hnd.2 hrest
    refine ⟨last, ?_, hlast, ?_⟩
    · simp only [batchWriteLoop, hok, hloop]
    · rw [hview', hview, CCoinsViewDB.coinWrites_eq_append item items, apply_append]

end CCoinsCacheLayer

/-- The database is not between two tips. -/
def CCoinsViewDB.Settled (db : CCoinsViewDB) : Prop := db.headBlocks = none

variable {db : CCoinsViewDB}

theorem CCoinsViewDB.oldTip_of_settled (hsettled : db.Settled) (hashBlock : Uint256) :
    db.oldTip hashBlock = .ok db.getBestBlock := by
  have hheads : db.getHeadBlocks = [] := by
    rw [getHeadBlocks, hsettled]
    rfl
  cases hnull : db.getBestBlock.isNull <;> simp [oldTip, hnull, hheads]

/-- `BatchWrite` succeeds if it agrees with the tip of the database. -/
theorem CCoinsViewDB.batchWrite_ok {hashBlock oldTip : Uint256}
    (htip : db.oldTip hashBlock = .ok oldTip) (hhash : hashBlock.isNull = false)
    (items : List CoinsMapItem) : ∃ written, db.batchWrite items hashBlock = .ok written := by
  simp [batchWrite, batchWriteBatches, hhash, htip]

namespace CCoinsViewCache

variable {view : CCoinsViewCache}

theorem coherent_entries (hwf : view.Wf) :
    ∀ item ∈ view.layer.cacheCoins.entries, item.2.toEntry.Coherent (view.base.utxo item.1) := by
  intro item hitem
  exact coherent_of_find hwf (mem_entries_iff.1 hitem)

/-- A cache after its entries have gone to `base`. -/
def flushed (view : CCoinsViewCache) (base : CCoinsView) : CCoinsViewCache :=
  ⟨{ view.layer with cacheCoins := ∅, cachedCoinsUsage := 0 }, base⟩

variable {base : CCoinsView} {store : CCoinsViewDB}

theorem flushed_wf (hbase : base.Wf) : (view.flushed base).Wf :=
  ⟨Overlay.coherent_empty base.utxo, hbase⟩

/-- Flushing into a cache pushes the map down by one. -/
theorem flush_cache (hwf : view.Wf) {below : CCoinsCacheLayer}
    (hbase : view.base = .cache below base) :
    ∃ below', view.flush = (.ok (), view.flushed (.cache below' base)) ∧
      (cache below' base).utxo = view.utxo ∧
      (cache below' base).Wf ∧
      below'.hashBlock = view.layer.hashBlock := by
  have hlower : Overlay.Coherent below.overlay base.utxo ∧ base.Wf := by
    have hview := hwf.2
    rwa [hbase] at hview
  have hitems := coherent_entries hwf
  rw [hbase] at hitems
  obtain ⟨next, hloop, hcoherent, hview⟩ :=
    below.batchWriteLoop_spec hlower.1 view.layer.cacheCoins.nodupKeys hitems
  refine ⟨{ next with hashBlock := view.layer.hashBlock }, ?_, ?_, ⟨hcoherent, hlower.2⟩, rfl⟩
  · simp only [flush, hbase, batchWrite, hloop, flushed]
  · have hall := apply_coinWrites hwf.1 (List.Perm.refl _)
    rw [hbase] at hall
    have hsame : (cache { next with hashBlock := view.layer.hashBlock }
        base).utxo = Overlay.view next.overlay base.utxo := rfl
    rw [hsame, hview]
    simp only [utxo, toView, utxo, hbase]
    exact hall

/-- A flush into the database that succeeds makes it the map. -/
theorem of_flush_db {view' : CCoinsViewCache} (hwf : view.Wf) (hbase : view.base = .db store)
    (hflush : view.flush = (.ok (), view')) :
    ∃ store', view' = view.flushed (.db store') ∧ store'.utxo = view.utxo ∧
      store'.bestBlock = some view.layer.hashBlock ∧ store'.Settled := by
  simp only [flush, hbase, batchWrite] at hflush
  rcases hwrite : store.batchWrite view.layer.cacheCoins.entries view.layer.hashBlock with
    fault | store'
  · rw [hwrite] at hflush
    cases hflush
  · rw [hwrite] at hflush
    cases hflush
    obtain ⟨hcoins, hbest, hheads⟩ := CCoinsViewDB.batchWrite_spec hwrite
    refine ⟨store', rfl, ?_, hbest, hheads⟩
    have hall := apply_coinWrites hwf.1 (List.Perm.refl _)
    rw [hbase] at hall
    rw [hcoins]
    simp only [utxo, toView, utxo, hbase]
    exact hall

/-- Flushing into the database makes it the map. -/
theorem flush_db (hwf : view.Wf) (hbase : view.base = .db store) {oldTip : Uint256}
    (htip : store.oldTip view.layer.hashBlock = .ok oldTip)
    (hhash : view.layer.hashBlock.isNull = false) :
    ∃ store', view.flush = (.ok (), view.flushed (.db store')) ∧
      store'.utxo = view.utxo ∧
      store'.bestBlock = some view.layer.hashBlock ∧ store'.Settled := by
  obtain ⟨written, hwrite⟩ := store.batchWrite_ok htip hhash view.layer.cacheCoins.entries
  have hflush : view.flush = (.ok (), view.flushed (.db written)) := by
    simp only [flush, hbase, batchWrite, hwrite, flushed]
  obtain ⟨store', heq, hrest⟩ := of_flush_db hwf hbase hflush
  exact ⟨store', heq ▸ hflush, hrest⟩

end CCoinsViewCache

end Catoshi
