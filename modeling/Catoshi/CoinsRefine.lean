/-
What a stack of coin caches stands for: the map from outpoints to unspent coins seen from its top,
and how reads and writes change it.
-/
import Catoshi.Coins

namespace Catoshi

open CCoinsCacheEntry CCoinsCacheLayer CCoinsView Overlay Coin Function CCoinsViewDB

/-- The unspent coins by outpoint. -/
abbrev UtxoMap := COutPoint → Option Coin

/-- A cached coin as an overlay entry: a spent coin is no value. -/
def CCoinsCacheEntry.toEntry (entry : CCoinsCacheEntry) : Overlay.Entry Coin :=
  ⟨entry.coin.unspent?, entry.dirty, entry.fresh⟩

namespace CCoinsCacheLayer

section

variable (layer : CCoinsCacheLayer)

def overlay : COutPoint → Option (Overlay.Entry Coin) :=
  fun outpoint => (layer.find outpoint).map toEntry

@[simp]
theorem overlay_uncount (coin : Coin) : (layer.uncount coin).overlay = layer.overlay := rfl

theorem overlay_of_find {layer : CCoinsCacheLayer} {outpoint : COutPoint}
    {entry : Option CCoinsCacheEntry} (hfind : layer.find outpoint = entry) :
    layer.overlay outpoint = entry.map toEntry := by
  rw [overlay, hfind]

@[simp]
theorem overlay_put (outpoint : COutPoint) (entry : CCoinsCacheEntry) :
    (layer.put outpoint entry).overlay = update layer.overlay outpoint (some entry.toEntry) := by
  funext other
  by_cases heq : other = outpoint
  · subst heq
    simp [overlay, find, put]
  · simp [overlay, find, put, AList.lookup_insert_ne heq, update_of_ne heq]

@[simp]
theorem overlay_erase (outpoint : COutPoint) :
    (layer.erase outpoint).overlay = update layer.overlay outpoint none := by
  funext other
  by_cases heq : other = outpoint
  · subst heq
    simp [overlay, find, erase]
  · simp [overlay, find, erase, AList.lookup_erase_ne heq, update_of_ne heq]

end

end CCoinsCacheLayer

namespace CCoinsView

/-- The map a view stands for. -/
def utxo : CCoinsView → UtxoMap
  | .db store => store.utxo
  | .cache layer base => Overlay.view layer.overlay base.utxo

/-- Every cache is coherent with the view below. -/
def Wf : CCoinsView → Prop
  | .db _ => True
  | .cache layer base => Overlay.Coherent layer.overlay base.utxo ∧ base.Wf

/-- A read may fill caches, but the meaning of the stack and its stored best blocks stay. -/
structure Reads (view view' : CCoinsView) : Prop where
  utxo : view'.utxo = view.utxo
  wf : view'.Wf
  bottom : view'.bottom = view.bottom
  hashes : view'.hashes = view.hashes

theorem Reads.refl {view : CCoinsView} (hwf : view.Wf) : view.Reads view :=
  ⟨rfl, hwf, rfl, rfl⟩

theorem Reads.trans {first second third : CCoinsView}
    (hfst : first.Reads second) (hsnd : second.Reads third) :
    first.Reads third :=
  ⟨hsnd.utxo.trans hfst.utxo, hsnd.wf, hsnd.bottom.trans hfst.bottom, hsnd.hashes.trans hfst.hashes⟩

end CCoinsView

namespace CCoinsView

/-- What stays if caches may also remember their best block. -/
structure Stays (view view' : CCoinsView) : Prop where
  utxo : view'.utxo = view.utxo
  wf : view'.Wf
  bottom : view'.bottom = view.bottom
  depth : view'.hashes.length = view.hashes.length

theorem Reads.stays {view view' : CCoinsView} (hreads : view.Reads view') :
    view.Stays view' :=
  ⟨hreads.utxo, hreads.wf, hreads.bottom, by rw [hreads.hashes]⟩

theorem Stays.trans {first second third : CCoinsView}
    (hfst : first.Stays second) (hsnd : second.Stays third) : first.Stays third :=
  ⟨hsnd.utxo.trans hfst.utxo, hsnd.wf, hsnd.bottom.trans hfst.bottom, hsnd.depth.trans hfst.depth⟩

theorem getBestBlock_stays {view : CCoinsView} (hwf : view.Wf) :
    view.Stays view.getBestBlock.2 := by
  induction view with
  | db store => exact (Reads.refl hwf).stays
  | cache layer base ih =>
    simp only [getBestBlock]
    split
    · have hbase := ih hwf.2
      refine ⟨?_, ⟨?_, hbase.wf⟩, hbase.bottom, congrArg (· + 1) hbase.depth⟩
      · simp only [utxo, hbase.utxo]
        rfl
      · rw [hbase.utxo]
        exact hwf.1
    · exact (Reads.refl hwf).stays

end CCoinsView

variable {outpoint : COutPoint} {layer : CCoinsCacheLayer} {parent : UtxoMap}

/-- Keeping the base's answer for a key without entry changes nothing seen. -/
theorem CCoinsCacheLayer.fetched_spec (hcoherent : Overlay.Coherent layer.overlay parent)
    (hfind : layer.find outpoint = none) {answer : Option Coin}
    (hanswer : answer.bind unspent? = parent outpoint) :
    view (layer.fetched outpoint answer).2.overlay parent =
        view layer.overlay parent ∧
      Overlay.Coherent (layer.fetched outpoint answer).2.overlay parent ∧
      (layer.fetched outpoint answer).2.find outpoint = (layer.fetched outpoint answer).1 ∧
      ((layer.fetched outpoint answer).1.bind fun entry => entry.coin.unspent?) = parent outpoint ∧
      (layer.fetched outpoint answer).2.hashBlock = layer.hashBlock ∧
      ∀ other, Overlay.Covered layer.overlay parent other →
        Overlay.Covered (layer.fetched outpoint answer).2.overlay parent other := by
  cases answer with
  | none => exact ⟨rfl, hcoherent, hfind, hanswer, rfl, fun _ ho => ho⟩
  | some coin =>
    have hval : coin.unspent? = parent outpoint := hanswer
    have hseen : view layer.overlay parent outpoint = parent outpoint :=
      view_of_none (by rw [overlay_of_find hfind]; rfl)
    refine ⟨?_, ?_, ?_, hval, rfl, ?_⟩
    · rw [fetched, overlay_put, view_update_some]
      simp only [toEntry, hval, ← hseen, update_eq_self]
    · rw [fetched, overlay_put]
      refine hcoherent.update_some ⟨?_, fun _ => hval⟩
      intro hspent
      rw [← hval]
      exact unspent?_of_spent hspent
    · simp [fetched, find, put]
    · intro other ho
      rw [fetched, overlay_put]
      exact ho.update_some _ _

/-- `GetCoin` answers with the map and keeps it. -/
theorem CCoinsView.getCoin_spec {view : CCoinsView} (hwf : view.Wf) (outpoint : COutPoint) :
    (view.getCoin outpoint).1.bind unspent? = view.utxo outpoint ∧
      view.Reads (view.getCoin outpoint).2 := by
  induction view with
  | db store => exact ⟨rfl, CCoinsView.Reads.refl hwf⟩
  | cache layer base ih =>
    obtain ⟨hcoherent, hbase⟩ := hwf
    cases hfind : layer.find outpoint with
    | some entry =>
      have hent : layer.overlay outpoint = some entry.toEntry := layer.overlay_of_find hfind
      have hseen : (cache layer base).utxo outpoint = entry.coin.unspent? := view_of_some hent
      simp only [getCoin, hfind]
      refine ⟨?_, CCoinsView.Reads.refl ⟨hcoherent, hbase⟩⟩
      rw [hseen]
      cases hspent : entry.coin.isSpent <;> simp [unspent?, hspent]
    | none =>
      obtain ⟨hanswer, hread⟩ := ih hbase
      obtain ⟨hview, hkeep, -, hval, hhash, -⟩ := layer.fetched_spec hcoherent hfind hanswer
      have hseen : (cache layer base).utxo outpoint =
          base.utxo outpoint :=
        view_of_none (by rw [layer.overlay_of_find hfind]; rfl)
      simp only [getCoin, hfind]
      refine ⟨?_, ?_, ⟨?_, hread.wf⟩, hread.bottom, ?_⟩
      · rw [hseen, ← hval]
        cases (layer.fetched outpoint (base.getCoin outpoint).1).1 with
        | none => rfl
        | some entry =>
          cases hspent : entry.coin.isSpent <;> simp [unspent?, hspent]
      · simp only [utxo, hread.utxo]
        exact hview
      · rw [hread.utxo]
        exact hkeep
      · simp only [hashes, hread.hashes, hhash]

open CCoinsCacheLayer

namespace CCoinsViewCache

def utxo (view : CCoinsViewCache) : UtxoMap := view.toView.utxo

def Wf (view : CCoinsViewCache) : Prop := view.toView.Wf

/-- The top cache has an entry, or the base has no coin. -/
def Known (view : CCoinsViewCache) (outpoint : COutPoint) : Prop :=
  Overlay.Covered view.layer.overlay view.base.utxo outpoint

/-- The calls on the top cache between two states wrote `log`. -/
structure Writes (log : List (COutPoint × Option Coin)) (view view' : CCoinsViewCache) :
    Prop where
  utxo : view'.utxo = WriteLog.apply log view.utxo
  wf : view'.Wf
  known : ∀ outpoint, view.Known outpoint → view'.Known outpoint
  base : view.base.Reads view'.base
  hashBlock : view'.layer.hashBlock = view.layer.hashBlock

variable {coin : Coin} {possibleOverwrite : Bool} {view view' : CCoinsViewCache}

theorem Writes.refl (hwf : view.Wf) : view.Writes [] view :=
  ⟨rfl, hwf, fun _ hin => hin, CCoinsView.Reads.refl hwf.2, rfl⟩

theorem Writes.trans {first second third : CCoinsViewCache}
    {log more : List (COutPoint × Option Coin)}
    (hfst : Writes log first second) (hsnd : Writes more second third) :
    Writes (log ++ more) first third where
  utxo := by rw [WriteLog.apply_append, ← hfst.utxo, hsnd.utxo]
  wf := hsnd.wf
  known := fun outpoint hin => hsnd.known outpoint (hfst.known outpoint hin)
  base := hfst.base.trans hsnd.base
  hashBlock := hsnd.hashBlock.trans hfst.hashBlock

theorem known_of_utxo_none (hno : view.utxo outpoint = none) : view.Known outpoint :=
  Overlay.Covered.of_view_none hno

variable {entry : CCoinsCacheEntry}

theorem utxo_of_find_some (hfind : view.layer.find outpoint = some entry) :
    view.utxo outpoint = entry.coin.unspent? := by
  have hent : view.layer.overlay outpoint = some entry.toEntry := view.layer.overlay_of_find hfind
  exact view_of_some hent

theorem utxo_of_find_none (hfind : view.layer.find outpoint = none) :
    view.utxo outpoint = view.base.utxo outpoint :=
  view_of_none (by rw [view.layer.overlay_of_find hfind]; rfl)

/-- What adding a coin writes: nothing for an unspendable script. -/
def addWrites (outpoint : COutPoint) (coin : Coin) : List (COutPoint × Option Coin) :=
  if coin.out.scriptPubKey.isUnspendable then [] else [(outpoint, some coin)]

/-- The entry a returning `AddCoin` leaves in the top cache. -/
theorem addCoin_cases (hadd : view.addCoin outpoint coin possibleOverwrite = .ok view') :
    coin.out.scriptPubKey.isUnspendable = true ∧ view' = view ∨
      coin.out.scriptPubKey.isUnspendable = false ∧
        ∃ layer fresh, view' = { view with layer := layer } ∧
          layer.overlay = update view.layer.overlay outpoint (some ⟨some coin, true, fresh⟩) ∧
          layer.hashBlock = view.layer.hashBlock ∧
          (view.layer.find outpoint = none ∧ fresh = !possibleOverwrite ∨
            ∃ entry, view.layer.find outpoint = some entry ∧
              (possibleOverwrite = true ∨ entry.coin.isSpent = true) ∧
              fresh = (entry.fresh || !possibleOverwrite && !entry.dirty)) := by
  cases hspent : coin.isSpent with
  | true => simp [addCoin, CCoinsCacheLayer.addCoin, hspent] at hadd
  | false =>
    cases hscr : coin.out.scriptPubKey.isUnspendable with
    | true =>
      simp only [addCoin, CCoinsCacheLayer.addCoin, hspent, hscr] at hadd
      exact .inl ⟨rfl, by simpa using hadd.symm⟩
    | false =>
      refine .inr ⟨rfl, ?_⟩
      have hval := Coin.unspent?_of_unspent hspent
      cases hfind : view.layer.find outpoint with
      | none =>
        simp only [addCoin, CCoinsCacheLayer.addCoin, hspent, hscr, hfind] at hadd
        refine ⟨view.layer.put outpoint ⟨coin, true, !possibleOverwrite⟩,
          !possibleOverwrite, by simpa using hadd.symm, ?_, rfl, .inl ⟨rfl, rfl⟩⟩
        simp [toEntry, hval]
      | some entry =>
        cases hguard : !possibleOverwrite && !entry.coin.isSpent with
        | true =>
          simp [addCoin, CCoinsCacheLayer.addCoin, hspent, hscr, hfind, hguard] at hadd
        | false =>
          simp only [addCoin, CCoinsCacheLayer.addCoin, hspent, hscr, hfind, hguard] at hadd
          let fresh := entry.fresh || !possibleOverwrite && !entry.dirty
          refine ⟨(view.layer.uncount entry.coin).put outpoint ⟨coin, true, fresh⟩,
            fresh, by simpa using hadd.symm, ?_, rfl, .inr ⟨entry, rfl, ?_, rfl⟩⟩
          · simp [toEntry, hval]
          · cases hover : possibleOverwrite with
            | true => exact .inl rfl
            | false => exact .inr (by simpa [hover] using hguard)

theorem utxo_none_of_addCoin (hin : view.Known outpoint)
    (hscr : coin.out.scriptPubKey.isUnspendable = false)
    (hadd : view.addCoin outpoint coin false = .ok view') :
    view.utxo outpoint = none := by
  obtain ⟨ho, -⟩ | ⟨-, layer, fresh, -, -, -, hcase⟩ := addCoin_cases hadd
  · simp [hscr] at ho
  · rcases hcase with ⟨hfind, -⟩ | ⟨entry, hfind, hreplaced, -⟩
    · rw [utxo_of_find_none hfind]
      exact hin (view.layer.overlay_of_find hfind)
    · rw [utxo_of_find_some hfind]
      exact unspent?_of_spent (by simpa using hreplaced)

/-- `AddCoin` returns when the coin is unspent and replaces none. -/
theorem addCoin_ok (hunspent : coin.isSpent = false)
    (hsafe : possibleOverwrite = true ∨ view.utxo outpoint = none) :
    ∃ view', view.addCoin outpoint coin possibleOverwrite = .ok view' := by
  cases hscr : coin.out.scriptPubKey.isUnspendable with
  | true => exact ⟨view, by simp [addCoin, CCoinsCacheLayer.addCoin, hunspent, hscr]⟩
  | false =>
    cases hfind : view.layer.find outpoint with
    | none => simp [addCoin, CCoinsCacheLayer.addCoin, hunspent, hscr, hfind]
    | some entry =>
      have hguard : (!possibleOverwrite && !entry.coin.isSpent) = false := by
        rcases hsafe with hover | hno
        · simp [hover]
        · rw [utxo_of_find_some hfind, Coin.unspent?_eq_none_iff] at hno
          simp [hno]
      simp [addCoin, CCoinsCacheLayer.addCoin, hunspent, hscr, hfind, hguard]

theorem getBestBlock_of_hashBlock (hhash : view.layer.hashBlock.isNull = false) :
    view.getBestBlock = (view.layer.hashBlock, view) := by
  simp [getBestBlock, hhash]

section

variable (hwf : view.Wf)

include hwf

/-- `FetchCoin` returns the entry it leaves, whose coin is that of the map. -/
theorem fetchCoin_spec (outpoint : COutPoint) :
    Writes [] view (view.fetchCoin outpoint).2 ∧
      (view.fetchCoin outpoint).2.layer.find outpoint = (view.fetchCoin outpoint).1 ∧
      ((view.fetchCoin outpoint).1.bind fun entry => entry.coin.unspent?) = view.utxo outpoint := by
  cases hfind : view.layer.find outpoint with
  | some entry =>
    simp only [fetchCoin, hfind]
    exact ⟨Writes.refl hwf, trivial, (utxo_of_find_some hfind).symm⟩
  | none =>
    obtain ⟨hcoherent, hbase⟩ := hwf
    obtain ⟨hanswer, hread⟩ := CCoinsView.getCoin_spec hbase outpoint
    obtain ⟨hview, hkeep, hent, hval, hhash, hcovered⟩ :=
      view.layer.fetched_spec hcoherent hfind hanswer
    simp only [fetchCoin, hfind]
    refine ⟨⟨?_, ⟨?_, hread.wf⟩, ?_, hread, hhash⟩, hent, ?_⟩
    · simp only [utxo, toView, CCoinsView.utxo, hread.utxo]
      exact hview
    · rw [hread.utxo]
      exact hkeep
    · intro other ho
      simp only [Known, hread.utxo]
      exact hcovered other ho
    · rw [hval, utxo_of_find_none hfind]

theorem getCoin_spec (outpoint : COutPoint) :
    (view.getCoin outpoint).1 = view.utxo outpoint ∧ Writes [] view (view.getCoin outpoint).2 :=
  ⟨(fetchCoin_spec hwf outpoint).2.2, (fetchCoin_spec hwf outpoint).1⟩

theorem haveCoin_spec (outpoint : COutPoint) :
    (view.haveCoin outpoint).1 = (view.utxo outpoint).isSome ∧
      Writes [] view (view.haveCoin outpoint).2 := by
  obtain ⟨hlog, -, hval⟩ := fetchCoin_spec hwf outpoint
  refine ⟨?_, hlog⟩
  rw [← hval, haveCoin]
  cases (view.fetchCoin outpoint).1 with
  | none => rfl
  | some entry => cases hspent : entry.coin.isSpent <;> simp [unspent?, hspent]

theorem accessCoin_spec (outpoint : COutPoint) :
    (view.accessCoin outpoint).1.unspent? = view.utxo outpoint ∧
      Writes [] view (view.accessCoin outpoint).2 := by
  obtain ⟨hlog, -, hval⟩ := fetchCoin_spec hwf outpoint
  refine ⟨?_, hlog⟩
  rw [← hval, accessCoin]
  cases (view.fetchCoin outpoint).1 <;> rfl

/-- Replacing an entry of the top cache by a coherent one. -/
theorem writes_of_overlay_some {entry : Overlay.Entry Coin}
    (hoverlay : layer.overlay = update view.layer.overlay outpoint (some entry))
    (hhash : layer.hashBlock = view.layer.hashBlock)
    (hent : entry.Coherent (view.base.utxo outpoint)) :
    Writes [(outpoint, entry.value)] view { view with layer := layer } where
  utxo := by
    simp only [utxo, toView, CCoinsView.utxo, hoverlay, Overlay.view_update_some]
    rfl
  wf := by
    refine ⟨?_, hwf.2⟩
    rw [hoverlay]
    exact Overlay.Coherent.update_some hwf.1 hent
  known := by
    intro other ho
    simp only [Known, hoverlay]
    exact ho.update_some _ _
  base := CCoinsView.Reads.refl hwf.2
  hashBlock := hhash

/-- Dropping an entry uncovers the coin of the base. -/
theorem writes_of_overlay_none (hoverlay : layer.overlay = update view.layer.overlay outpoint none)
    (hhash : layer.hashBlock = view.layer.hashBlock) (hbase : view.base.utxo outpoint = none) :
    Writes [(outpoint, none)] view { view with layer := layer } where
  utxo := by
    simp only [utxo, toView, CCoinsView.utxo, hoverlay, Overlay.view_update_none, hbase]
    rfl
  wf := by
    refine ⟨?_, hwf.2⟩
    rw [hoverlay]
    exact Overlay.Coherent.update_none hwf.1 _
  known := by
    intro other ho
    simp only [Known, hoverlay]
    exact ho.update_none hbase
  base := CCoinsView.Reads.refl hwf.2
  hashBlock := hhash

theorem coherent_of_find (hfind : view.layer.find outpoint = some entry) :
    entry.toEntry.Coherent (view.base.utxo outpoint) :=
  hwf.1 outpoint entry.toEntry (view.layer.overlay_of_find hfind)

/-- `SpendCoin` removes the coin and moves it out. -/
theorem spendCoin_spec (outpoint : COutPoint) :
    (view.spendCoin outpoint).1.bind unspent? = view.utxo outpoint ∧
      Writes [(outpoint, none)] view (view.spendCoin outpoint).2 := by
  obtain ⟨hfetch, hent, hval⟩ := fetchCoin_spec hwf outpoint
  rcases hfetched : view.fetchCoin outpoint with ⟨found, view'⟩
  simp only [hfetched] at hfetch hent hval
  cases found with
  | none =>
    have hno : view.utxo outpoint = none := hval.symm
    simp only [spendCoin, hfetched]
    refine ⟨hval, { hfetch with utxo := ?_ }⟩
    rw [hfetch.utxo]
    simp [← hno]
  | some entry =>
    have hcoherent := coherent_of_find hfetch.wf hent
    simp only [spendCoin, hfetched]
    refine ⟨hval, Writes.trans hfetch ?_⟩
    cases hfresh : entry.fresh with
    | true =>
      refine writes_of_overlay_none hfetch.wf ?_ ?_ (hcoherent.fresh_absent hfresh)
      · simp [spend, hfresh]
      · simp [spend, hfresh, erase, uncount]
    | false =>
      let cleared : CCoinsCacheEntry := ⟨empty, true, false⟩
      have hoverlay : (view'.layer.spend outpoint entry).overlay =
          update view'.layer.overlay outpoint (some cleared.toEntry) := by
        simp [spend, hfresh, cleared]
      refine writes_of_overlay_some hfetch.wf hoverlay ?_ ⟨by simp [cleared,
        toEntry], by simp [cleared, toEntry]⟩
      simp [spend, hfresh, put, uncount]

/-- `AddCoin` writes its coin if it may overwrite or the outpoint is known. -/
theorem addCoin_writes (hsafe : coin.out.scriptPubKey.isUnspendable = false →
      possibleOverwrite = true ∨ view.Known outpoint)
    (hadd : view.addCoin outpoint coin possibleOverwrite = .ok view') :
    Writes (addWrites outpoint coin) view view' := by
  obtain ⟨hscr, rfl⟩ | ⟨hscr, layer, fresh, rfl, hoverlay, hhash, hcase⟩ := addCoin_cases hadd
  · simpa [addWrites, hscr] using Writes.refl hwf
  · simp only [addWrites, hscr, Bool.false_eq_true, if_false]
    refine writes_of_overlay_some hwf hoverlay hhash ⟨?_, by simp⟩
    intro hfresh
    rcases hcase with ⟨hfind, rfl⟩ | ⟨entry, hfind, hreplaced, rfl⟩
    · rcases hsafe hscr with hover | hin
      · simp [hover] at hfresh
      · exact hin (view.layer.overlay_of_find hfind)
    · have hcoherent := coherent_of_find hwf hfind
      rcases Bool.or_eq_true_iff.1 hfresh with hold | hnew
      · exact hcoherent.fresh_absent hold
      · -- a clean entry that is being replaced without overwriting is spent
        simp only [Bool.and_eq_true, Bool.not_eq_true'] at hnew
        have hspent : entry.coin.isSpent = true := by
          rcases hreplaced with hover | hspent
          · simp [hover] at hnew
          · exact hspent
        rw [← hcoherent.clean_eq hnew.2]
        exact unspent?_of_spent hspent

/-- `Uncache` only drops entries that say what the base says. -/
theorem uncache_spec (outpoint : COutPoint) :
    (view.uncache outpoint).utxo = view.utxo ∧ (view.uncache outpoint).Wf ∧
      (view.uncache outpoint).layer.hashBlock = view.layer.hashBlock := by
  rw [uncache, CCoinsCacheLayer.uncache]
  split
  · next entry hfind =>
    split_ifs with hflags
    · exact ⟨rfl, hwf, rfl⟩
    · rw [Bool.not_eq_true, Bool.or_eq_false_iff] at hflags
      have hclean : view.base.utxo outpoint = view.utxo outpoint := by
        rw [utxo_of_find_some hfind]
        exact ((coherent_of_find hwf hfind).clean_eq hflags.1).symm
      refine ⟨?_, ⟨?_, hwf.2⟩, rfl⟩
      · simp only [utxo, toView, CCoinsView.utxo, overlay_erase,
          overlay_uncount, Overlay.view_update_none, hclean]
        exact update_eq_self _ _
      · simp only [overlay_erase, overlay_uncount]
        exact Overlay.Coherent.update_none hwf.1 _
  · exact ⟨rfl, hwf, rfl⟩

theorem getBestBlock_spec :
    view.getBestBlock.2.utxo = view.utxo ∧ view.getBestBlock.2.Wf ∧
      view.base.Stays view.getBestBlock.2.base := by
  simp only [getBestBlock]
  split
  · have hbase := CCoinsView.getBestBlock_stays hwf.2
    refine ⟨?_, ⟨?_, hbase.wf⟩, hbase⟩
    · simp only [utxo, toView, CCoinsView.utxo, hbase.utxo]
      rfl
    · rw [hbase.utxo]
      exact hwf.1
  · exact ⟨rfl, hwf, (CCoinsView.Reads.refl hwf.2).stays⟩

theorem setBestBlock_wf (hashBlock : Uint256) : (view.setBestBlock hashBlock).Wf := hwf

end

@[simp]
theorem setBestBlock_utxo (view : CCoinsViewCache) (hashBlock : Uint256) :
    (view.setBestBlock hashBlock).utxo = view.utxo := rfl

theorem ofBase_wf {base : CCoinsView} (hwf : base.Wf) : (ofBase base).Wf :=
  ⟨coherent_empty base.utxo, hwf⟩

end CCoinsViewCache

theorem CCoinsCacheLayer.batchWriteItem_spec (hcoherent : Overlay.Coherent layer.overlay parent)
    {item : CoinsMapItem} (hitem : item.2.toEntry.Coherent (view layer.overlay parent item.1)) :
    ∃ layer', layer.batchWriteItem item = .ok layer' ∧
      Overlay.Coherent layer'.overlay parent ∧
      view layer'.overlay parent =
        WriteLog.apply (coinWrites [item]) (view layer.overlay parent) := by
  cases hdirty : item.2.dirty with
  | false =>
    refine ⟨layer, by simp [batchWriteItem, hdirty], hcoherent, ?_⟩
    simp [coinWrites, hdirty]
  | true =>
    have hflag (fresh : Bool) : (fresh = true ∧ item.2.coin.unspent? = none) ↔
        (fresh && item.2.coin.isSpent) = true := by
      rw [unspent?_eq_none_iff, Bool.and_eq_true]
    -- the new entry is the merge of the two, whichever branch is taken
    have hmerge : ∃ layer', layer.batchWriteItem item = .ok layer' ∧
        layer'.overlay = update layer.overlay item.1
          (mergeEntry (layer.overlay item.1) item.2.toEntry) := by
      cases hfind : layer.find item.1 with
      | none =>
        have hown : layer.overlay item.1 = none := layer.overlay_of_find hfind
        cases hdrop : item.2.fresh && item.2.coin.isSpent with
        | true =>
          refine ⟨layer, by simp [batchWriteItem, hdirty, hfind, hdrop], ?_⟩
          simp [hown, mergeEntry, toEntry, hflag, hdrop]
        | false =>
          refine ⟨layer.put item.1 ⟨item.2.coin, true, item.2.fresh⟩,
            by simp [batchWriteItem, hdirty, hfind, hdrop], ?_⟩
          simp [hown, mergeEntry, toEntry, hflag, hdrop]
      | some own =>
        have hown : layer.overlay item.1 = some own.toEntry := layer.overlay_of_find hfind
        have hallowed : (item.2.fresh && !own.coin.isSpent) = false := by
          cases hf : item.2.fresh with
          | false => rfl
          | true =>
            have habsent : own.toEntry.value = none := fresh_child_meets_no_value hitem hown hf
            have hspent : own.coin.isSpent = true := unspent?_eq_none_iff.1 habsent
            simp [hspent]
        cases hdrop : own.fresh && item.2.coin.isSpent with
        | true =>
          refine ⟨(layer.uncount own.coin).erase item.1,
            by simp [batchWriteItem, hdirty, hfind, hallowed, hdrop], ?_⟩
          simp [hown, mergeEntry, toEntry, hflag, hdrop]
        | false =>
          refine ⟨(layer.uncount own.coin).put item.1 ⟨item.2.coin, true, own.fresh⟩,
            by simp [batchWriteItem, hdirty, hfind, hallowed, hdrop], ?_⟩
          simp [hown, mergeEntry, toEntry, hflag, hdrop]
    obtain ⟨layer', hok, hoverlay⟩ := hmerge
    obtain ⟨hseen, hkept⟩ := mergeEntry_spec hcoherent hitem
    refine ⟨layer', hok, ?_, ?_⟩
    · rw [hoverlay]
      cases hmerged : mergeEntry (layer.overlay item.1) item.2.toEntry with
      | none => exact hcoherent.update_none _
      | some entry => exact hcoherent.update_some (hkept entry hmerged)
    · have hwrite : WriteLog.apply (coinWrites [item])
          (view layer.overlay parent) =
            update (view layer.overlay parent) item.1 item.2.toEntry.value := by
        simp [coinWrites, hdirty, toEntry]
      rw [hwrite, hoverlay, ← hseen]
      cases hmerged : mergeEntry (layer.overlay item.1) item.2.toEntry with
      | none => exact view_update_none _ _ _
      | some entry => exact view_update_some _ _ _ _

theorem CCoinsView.utxo_unspent {view : CCoinsView} {coin : Coin}
    (hcoin : view.utxo outpoint = some coin) : coin.isSpent = false := by
  have hreported : ∀ other : Coin, other.unspent? = some coin → coin.isSpent = false := by
    intro other ho
    obtain ⟨hunspent, rfl⟩ := unspent?_eq_some_iff.1 ho
    exact hunspent
  induction view with
  | db store =>
    obtain ⟨stored, -, hstored⟩ := Option.bind_eq_some_iff.1 hcoin
    exact hreported stored hstored
  | cache layer base ih =>
    cases hfind : layer.find outpoint with
    | none =>
      have hno : layer.overlay outpoint = none := layer.overlay_of_find hfind
      exact ih ((view_of_none hno).symm.trans hcoin)
    | some entry =>
      have hent : layer.overlay outpoint = some entry.toEntry := layer.overlay_of_find hfind
      exact hreported entry.coin ((view_of_some hent).symm.trans hcoin)

/-- Coins as `AddCoin` keeps them. -/
def SpendableCoins (utxo : UtxoMap) : Prop :=
  ∀ outpoint coin, utxo outpoint = some coin → coin.out.scriptPubKey.isUnspendable = false

/-- The unspent coins of a node: coherent caches, and only coins `AddCoin` does not leave out. -/
structure UtxoView where
  cache : CCoinsViewCache
  wf : cache.Wf
  spendable : SpendableCoins cache.utxo

end Catoshi
