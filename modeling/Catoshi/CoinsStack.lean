/-
A stack of coin caches of any depth behaves as one plain map.
-/
import Catoshi.CoinsFlush

namespace Catoshi

open CCoinsViewCache CCoinsView

universe u

/-- Copy the element at `depth` over the next. -/
def pushDown {α : Type u} : ℕ → List α → List α
  | 0, top :: _ :: rest => top :: top :: rest
  | depth + 1, top :: rest => top :: pushDown depth rest
  | _, levels => levels

theorem pushDown_getElem? {α : Type u} (levels : List α) (depth index : ℕ) :
    (pushDown depth levels)[index]? =
      if index = depth + 1 ∧ index < levels.length then levels[depth]?
      else levels[index]? := by
  induction levels generalizing depth index with
  | nil => cases depth <;> simp [pushDown]
  | cons top rest ih =>
    cases depth with
    | zero =>
      cases rest with
      | nil => cases index <;> simp [pushDown]
      | cons next rest =>
        rcases index with _ | _ | index <;> simp [pushDown]
    | succ depth =>
      cases index with
      | zero => simp [pushDown]
      | succ index => simp [pushDown, ih]

@[simp]
theorem length_pushDown {α : Type u} (levels : List α) (depth : ℕ) :
    (pushDown depth levels).length = levels.length := by
  induction levels generalizing depth with
  | nil => cases depth <;> rfl
  | cons top rest ih =>
    cases depth with
    | zero => cases rest <;> rfl
    | succ depth => simp [pushDown, ih]

namespace CCoinsView

/-- The map at every level, from the top view to the database. -/
def levels : CCoinsView → List UtxoMap
  | .db store => [store.utxo]
  | .cache layer base => (CCoinsView.cache layer base).utxo :: base.levels

def bests : CCoinsView → List Uint256
  | .db store => [store.getBestBlock]
  | .cache layer base => layer.hashBlock :: base.bests

theorem bests_eq (view : CCoinsView) : view.bests = view.hashes ++ [view.bottom.getBestBlock] := by
  induction view with
  | db store => rfl
  | cache layer base ih => simp only [bests, hashes, bottom, ih, List.cons_append]

theorem Reads.bests {view view' : CCoinsView} (hread : view.Reads view') :
    view'.bests = view.bests := by
  rw [bests_eq, bests_eq, hread.hashes, hread.bottom]

theorem length_levels (view : CCoinsView) : view.levels.length = view.hashes.length + 1 := by
  induction view with
  | db store => rfl
  | cache layer base ih => simp only [levels, hashes, List.length_cons, ih]

theorem levels_bottom (view : CCoinsView) :
    view.levels[view.hashes.length]? = some view.bottom.utxo := by
  induction view with
  | db store => rfl
  | cache layer base ih =>
    simpa only [levels, hashes, bottom, List.length_cons, List.getElem?_cons_succ] using ih

end CCoinsView

namespace CCoinsViewCache

/-- Flush the cache that has `depth` caches above it. -/
def flushLayer (view : CCoinsViewCache) : ℕ → Except Fault Unit × CCoinsViewCache
  | 0 => view.flush
  | depth + 1 =>
    match view.base with
    | .db _ => (.ok (), view)
    | .cache layer base =>
      let below := flushLayer ⟨layer, base⟩ depth
      (below.1, { view with base := below.2.toView })

/-- Flush the first `count` caches from the top down. -/
def flushUpTo (view : CCoinsViewCache) : ℕ → Except Fault CCoinsViewCache
  | 0 => .ok view
  | count + 1 =>
    match view.flushUpTo count with
    | .error fault => .error fault
    | .ok view =>
      match view.flushLayer count with
      | (.error fault, _) => .error fault
      | (.ok _, view) => .ok view

/-- Flush every cache of the stack from the top down. -/
def flushAll (view : CCoinsViewCache) : Except Fault CCoinsViewCache :=
  view.flushUpTo view.toView.hashes.length

/-- The lowest cache can be flushed once it has a best block. -/
def BestBlockReady (depth : ℕ) (bests : List Uint256) : Prop :=
  depth + 2 = bests.length → ∀ hash, bests[depth]? = some hash → hash.isNull = false

/-- A stack from outside: the map and the best block of every level. -/
structure Looks (view : CCoinsViewCache) (levels : List UtxoMap) (bests : List Uint256) :
    Prop where
  wf : view.Wf
  settled : view.toView.bottom.Settled
  levels : view.toView.levels = levels
  bests : view.toView.bests = bests

variable {view : CCoinsViewCache} {levels : List UtxoMap} {bests : List Uint256}

theorem Looks.utxo_head (hlooks : view.Looks levels bests) : levels[0]? = some view.utxo := by
  rw [← hlooks.levels]
  rfl

/-- Flushing a cache copies its map and best block one level down. -/
theorem flushLayer_spec (depth : ℕ) (hlooks : view.Looks levels bests)
    (hdepth : depth + 1 < bests.length) (hready : BestBlockReady depth bests) :
    ∃ view', view.flushLayer depth = (.ok (), view') ∧
      view'.Looks (pushDown depth levels) (pushDown depth bests) := by
  obtain ⟨hwf, hsettled, rfl, rfl⟩ := hlooks
  induction depth generalizing view with
  | zero =>
    obtain ⟨top, base⟩ := view
    cases base with
    | db store =>
      have hhash : top.hashBlock.isNull = false := hready rfl _ rfl
      obtain ⟨store', hflush, hcoins, hbest, hsettled'⟩ :=
        flush_db hwf rfl (store.oldTip_of_settled hsettled _) hhash
      refine ⟨_, hflush, flushed_wf trivial, hsettled', ?_, ?_⟩
      · change [store'.utxo, store'.utxo] = pushDown 0 [_, _]
        rw [hcoins]
        rfl
      · change [top.hashBlock, store'.getBestBlock] = [top.hashBlock, top.hashBlock]
        rw [CCoinsViewDB.getBestBlock, hbest]
        rfl
    | cache below base =>
      obtain ⟨below', hflush, hcoins, hwf', hhash⟩ := flush_cache hwf rfl
      refine ⟨_, hflush, flushed_wf hwf', hsettled, ?_, ?_⟩
      · change (cache below' base).utxo ::
          (cache below' base).utxo :: base.levels = pushDown 0 (_ :: _ :: _)
        rw [hcoins]
        rfl
      · change top.hashBlock :: below'.hashBlock :: base.bests =
          top.hashBlock :: top.hashBlock :: base.bests
        rw [hhash]
  | succ depth ih =>
    obtain ⟨top, base⟩ := view
    cases base with
    | db store => simp [toView, bests] at hdepth
    | cache below base =>
      have hdepth' : depth + 1 < (cache below base).bests.length := by
        simpa [toView, bests] using hdepth
      have hready' : BestBlockReady depth (cache below base).bests := by
        intro hlast hash hget
        exact hready (by simpa [toView, bests] using hlast) hash
          (by simpa [toView, bests] using hget)
      have hwf' : CCoinsViewCache.Wf ⟨below, base⟩ := hwf.2
      obtain ⟨view', hflush, hlooks⟩ := ih hwf' hsettled hdepth' hready'
      have hutxo : view'.utxo = (cache below base).utxo := by
        have hhead := hlooks.utxo_head
        rw [pushDown_getElem?] at hhead
        exact (Option.some.inj hhead).symm
      refine ⟨⟨top, view'.toView⟩, ?_, ⟨?_, hlooks.wf⟩, hlooks.settled, ?_, ?_⟩
      · simp only [flushLayer, hflush]
      · change Overlay.Coherent top.overlay view'.utxo
        rw [hutxo]
        exact hwf.1
      · change Overlay.view top.overlay view'.utxo :: view'.toView.levels = _
        rw [hutxo, hlooks.levels]
        rfl
      · change top.hashBlock :: view'.toView.bests = _
        rw [hlooks.bests]
        rfl

theorem flushUpTo_spec (count : ℕ) (hlooks : view.Looks levels bests)
    (hlen : levels.length = bests.length) (hcount : count < bests.length) {best : Uint256}
    (hbest : bests[0]? = some best) (hnull : best.isNull = false) :
    ∃ view' levels' bests', view.flushUpTo count = .ok view' ∧
      view'.Looks levels' bests' ∧ levels'.length = levels.length ∧
      bests'.length = bests.length ∧
      ∀ index ≤ count, levels'[index]? = some view.utxo ∧ bests'[index]? = some best := by
  induction count with
  | zero =>
    refine ⟨view, levels, bests, rfl, hlooks, rfl, rfl, ?_⟩
    intro index hindex
    obtain rfl : index = 0 := by omega
    exact ⟨hlooks.utxo_head, hbest⟩
  | succ count ih =>
    obtain ⟨mid, levels', bests', hmid, hlooks', hlevels, hbests, hdone⟩ := ih (by omega)
    have hready : BestBlockReady count bests' := by
      intro _ hash hget
      rw [(hdone count le_rfl).2] at hget
      cases hget
      exact hnull
    obtain ⟨last, hflush, hlast⟩ := flushLayer_spec count hlooks' (by omega) hready
    refine ⟨last, _, _, ?_, hlast, by simp [hlevels], by simp [hbests], ?_⟩
    · simp only [flushUpTo, hmid, hflush]
    · intro index hindex
      rw [pushDown_getElem?, pushDown_getElem?]
      by_cases hnew : index = count + 1
      · rw [if_pos ⟨hnew, by omega⟩, if_pos ⟨hnew, by omega⟩]
        exact hdone count le_rfl
      · rw [if_neg (fun h => hnew h.1), if_neg (fun h => hnew h.1)]
        exact hdone index (by omega)

/-- With all caches flushed the database is the map, with the top's best block. -/
theorem flushAll_spec (hwf : view.Wf) (hsettled : view.toView.bottom.Settled)
    (hnull : view.layer.hashBlock.isNull = false) :
    ∃ view', view.flushAll = .ok view' ∧ view'.toView.bottom.utxo = view.utxo ∧
      view'.toView.bottom.getBestBlock = view.layer.hashBlock := by
  have hlooks : view.Looks view.toView.levels view.toView.bests := ⟨hwf, hsettled, rfl, rfl⟩
  have hbests : view.toView.bests.length = view.toView.hashes.length + 1 := by
    simp [bests_eq]
  have hlevels := view.toView.length_levels
  obtain ⟨view', levels', bests', hflush, hlooks', hlevels', hbests', hdone⟩ :=
    flushUpTo_spec view.toView.hashes.length hlooks (by omega) (by omega) rfl hnull
  obtain ⟨htop, hbest⟩ := hdone view.toView.hashes.length le_rfl
  have hdepth : view'.toView.hashes.length = view.toView.hashes.length := by
    have hlen := view'.toView.length_levels
    rw [hlooks'.levels] at hlen
    omega
  refine ⟨view', hflush, ?_, ?_⟩
  · have hbottom := view'.toView.levels_bottom
    rw [hdepth, hlooks'.levels, htop] at hbottom
    exact (Option.some.inj hbottom).symm
  · rw [← hlooks'.bests, bests_eq, ← hdepth, List.getElem?_concat_length] at hbest
    exact Option.some.inj hbest

end CCoinsViewCache

/-- A call on the stack. `flush depth` is for the cache below `depth` others, all other calls for
the top one. -/
inductive CacheCall where
  | getCoin (outpoint : COutPoint)
  | haveCoin (outpoint : COutPoint)
  | accessCoin (outpoint : COutPoint)
  | addCoin (outpoint : COutPoint) (coin : Coin) (possibleOverwrite : Bool)
  | spendCoin (outpoint : COutPoint)
  | uncache (outpoint : COutPoint)
  | setBestBlock (hash : Uint256)
  | flush (depth : ℕ)
deriving DecidableEq

inductive CacheAnswer where
  | coin (found : Option Coin)
  | found (present : Bool)
  | accessed (coin : Coin)
  | moved (coin : Option Coin)
  | done
deriving DecidableEq

namespace CCoinsViewCache

def call (view : CCoinsViewCache) : CacheCall → Except Fault (CacheAnswer × CCoinsViewCache)
  | .getCoin outpoint =>
    .ok (.coin (view.getCoin outpoint).1, (view.getCoin outpoint).2)
  | .haveCoin outpoint =>
    .ok (.found (view.haveCoin outpoint).1, (view.haveCoin outpoint).2)
  | .accessCoin outpoint =>
    .ok (.accessed (view.accessCoin outpoint).1, (view.accessCoin outpoint).2)
  | .addCoin outpoint coin possibleOverwrite =>
    match view.addCoin outpoint coin possibleOverwrite with
    | .error fault => .error fault
    | .ok view => .ok (.done, view)
  | .spendCoin outpoint =>
    .ok (.moved (view.spendCoin outpoint).1, (view.spendCoin outpoint).2)
  | .uncache outpoint => .ok (.done, view.uncache outpoint)
  | .setBestBlock hash => .ok (.done, view.setBestBlock hash)
  | .flush depth =>
    match view.flushLayer depth with
    | (.error fault, _) => .error fault
    | (.ok _, view) => .ok (.done, view)

def calls (view : CCoinsViewCache) :
    List CacheCall → Except Fault (List CacheAnswer × CCoinsViewCache)
  | [] => .ok ([], view)
  | call :: rest =>
    match view.call call with
    | .error fault => .error fault
    | .ok (answer, view) =>
      match view.calls rest with
      | .error fault => .error fault
      | .ok (answers, view) => .ok (answer :: answers, view)

end CCoinsViewCache

/-- The plain map the stack is compared with, and the best block stored at each level. -/
structure PlainMap where
  coins : UtxoMap
  bests : List Uint256

namespace PlainMap

def ofView (view : CCoinsViewCache) : PlainMap := ⟨view.utxo, view.toView.bests⟩

/-- Insert and delete; unspendable coins are not inserted. -/
def step (plain : PlainMap) : CacheCall → PlainMap
  | .addCoin outpoint coin _ =>
    if coin.out.scriptPubKey.isUnspendable then plain
    else { plain with coins := Function.update plain.coins outpoint (some coin) }
  | .spendCoin outpoint =>
    { plain with coins := Function.update plain.coins outpoint none }
  | .setBestBlock hash => { plain with bests := hash :: plain.bests.tail }
  | .flush depth => { plain with bests := pushDown depth plain.bests }
  | _ => plain

def run (plain : PlainMap) (calls : List CacheCall) : PlainMap :=
  calls.foldl step plain

/-- Only unspent coins are added, without permission to overwrite only where the map has none, and
the lowest cache is flushed only with a best block. -/
def Allowed (plain : PlainMap) : CacheCall → Prop
  | .addCoin outpoint coin possibleOverwrite =>
    coin.isSpent = false ∧ (possibleOverwrite = false → plain.coins outpoint = none)
  | .flush depth =>
    depth + 1 < plain.bests.length ∧ CCoinsViewCache.BestBlockReady depth plain.bests
  | _ => True

def AllowedRun : PlainMap → List CacheCall → Prop
  | _, [] => True
  | plain, call :: rest => plain.Allowed call ∧ (plain.step call).AllowedRun rest

/-- What the map answers. `AccessCoin` answers a missing coin with a spent one, and `SpendCoin`
moves out the coin that was there. -/
def Answers (plain : PlainMap) : CacheCall → CacheAnswer → Prop
  | .getCoin outpoint, .coin found => found = plain.coins outpoint
  | .haveCoin outpoint, .found present => present = (plain.coins outpoint).isSome
  | .accessCoin outpoint, .accessed coin => coin.unspent? = plain.coins outpoint
  | .spendCoin outpoint, .moved coin => coin.bind Coin.unspent? = plain.coins outpoint
  | .addCoin .., .done => True
  | .uncache _, .done => True
  | .setBestBlock _, .done => True
  | .flush _, .done => True
  | _, _ => False

def AnswersRun : PlainMap → List CacheCall → List CacheAnswer → Prop
  | _, [], [] => True
  | plain, call :: calls, answer :: answers =>
    plain.Answers call answer ∧ (plain.step call).AnswersRun calls answers
  | _, _, _ => False

end PlainMap

def lastBestBlock (start : Uint256) (calls : List CacheCall) : Uint256 :=
  calls.foldl (fun best call =>
    match call with
    | .setBestBlock hash => hash
    | _ => best) start

/-- The stack stands for the plain map. -/
structure Simulates (plain : PlainMap) (view : CCoinsViewCache) : Prop where
  wf : view.Wf
  settled : view.toView.bottom.Settled
  coins : view.utxo = plain.coins
  bests : view.toView.bests = plain.bests

variable {plain : PlainMap} {view : CCoinsViewCache}

/-- Writes on the top cache keep the best blocks, so only the map moves. -/
theorem Simulates.of_writes {view' : CCoinsViewCache} (hsim : Simulates plain view)
    {log : List (COutPoint × Option Coin)} (hlog : view.Writes log view') :
    Simulates { plain with coins := WriteLog.apply log plain.coins } view' where
  wf := hlog.wf
  settled := by
    have hbottom : view'.toView.bottom = view.toView.bottom := hlog.base.bottom
    rw [hbottom]
    exact hsim.settled
  coins := by rw [hlog.utxo, hsim.coins]
  bests := by
    rw [← hsim.bests]
    change view'.layer.hashBlock :: view'.base.bests = view.layer.hashBlock :: view.base.bests
    rw [hlog.hashBlock, hlog.base.bests]

/-- An allowed call returns, answers as the map does and keeps both in step. -/
theorem Simulates.call (hsim : Simulates plain view) {call : CacheCall}
    (hallowed : plain.Allowed call) :
    ∃ answer view', view.call call = .ok (answer, view') ∧
      plain.Answers call answer ∧ Simulates (plain.step call) view' := by
  cases call with
  | getCoin outpoint =>
    obtain ⟨hval, hlog⟩ := CCoinsViewCache.getCoin_spec hsim.wf outpoint
    exact ⟨_, _, rfl, hval.trans (congrFun hsim.coins outpoint), hsim.of_writes hlog⟩
  | haveCoin outpoint =>
    obtain ⟨hval, hlog⟩ := CCoinsViewCache.haveCoin_spec hsim.wf outpoint
    rw [hsim.coins] at hval
    exact ⟨_, _, rfl, hval, hsim.of_writes hlog⟩
  | accessCoin outpoint =>
    obtain ⟨hval, hlog⟩ := CCoinsViewCache.accessCoin_spec hsim.wf outpoint
    exact ⟨_, _, rfl, hval.trans (congrFun hsim.coins outpoint), hsim.of_writes hlog⟩
  | addCoin outpoint coin possibleOverwrite =>
    obtain ⟨hunspent, hno⟩ := hallowed
    have habsent : possibleOverwrite = true ∨ view.utxo outpoint = none := by
      cases possibleOverwrite with
      | true => exact Or.inl rfl
      | false => exact Or.inr (by rw [hsim.coins]; exact hno rfl)
    obtain ⟨view', hadd⟩ := CCoinsViewCache.addCoin_ok hunspent habsent
    have hlog := CCoinsViewCache.addCoin_writes hsim.wf
      (fun _ => habsent.imp_right CCoinsViewCache.known_of_utxo_none) hadd
    refine ⟨.done, view', by simp only [CCoinsViewCache.call, hadd], trivial, ?_⟩
    have hstep := hsim.of_writes hlog
    cases hscr : coin.out.scriptPubKey.isUnspendable <;>
      simpa [PlainMap.step, CCoinsViewCache.addWrites, hscr] using hstep
  | spendCoin outpoint =>
    obtain ⟨hval, hlog⟩ := CCoinsViewCache.spendCoin_spec hsim.wf outpoint
    exact ⟨_, _, rfl, hval.trans (congrFun hsim.coins outpoint), hsim.of_writes hlog⟩
  | uncache outpoint =>
    obtain ⟨hutxo, hwf, hhash⟩ := CCoinsViewCache.uncache_spec hsim.wf outpoint
    refine ⟨.done, view.uncache outpoint, rfl, trivial, hwf, ?_, ?_, ?_⟩
    · change (view.uncache outpoint).base.bottom.Settled
      exact hsim.settled
    · exact hutxo.trans hsim.coins
    · change (view.uncache outpoint).layer.hashBlock ::
        (view.uncache outpoint).base.bests = plain.bests
      rw [hhash]
      exact hsim.bests
  | setBestBlock hash =>
    refine ⟨.done, view.setBestBlock hash, rfl, trivial, hsim.wf, hsim.settled, hsim.coins, ?_⟩
    change hash :: view.base.bests = hash :: plain.bests.tail
    rw [← hsim.bests]
    rfl
  | flush depth =>
    have hlooks : view.Looks view.toView.levels plain.bests :=
      ⟨hsim.wf, hsim.settled, rfl, hsim.bests⟩
    obtain ⟨view', hflush, hlooks'⟩ :=
      CCoinsViewCache.flushLayer_spec depth hlooks hallowed.1 hallowed.2
    refine ⟨.done, view', by simp only [CCoinsViewCache.call, hflush], trivial,
      hlooks'.wf, hlooks'.settled, ?_, hlooks'.bests⟩
    have hhead := hlooks'.utxo_head
    rw [pushDown_getElem?] at hhead
    exact (Option.some.inj hhead).symm.trans hsim.coins

/-- Any allowed calls return and stay in step with the map. -/
theorem Simulates.calls (hsim : Simulates plain view) {calls : List CacheCall}
    (hallowed : plain.AllowedRun calls) :
    ∃ answers view', view.calls calls = .ok (answers, view') ∧
      plain.AnswersRun calls answers ∧ Simulates (plain.run calls) view' := by
  induction calls generalizing plain view with
  | nil => exact ⟨[], view, rfl, trivial, hsim⟩
  | cons call rest ih =>
    obtain ⟨answer, next, hcall, hanswer, hnext⟩ := hsim.call hallowed.1
    obtain ⟨answers, last, hcalls, hanswers, hlast⟩ := ih hnext hallowed.2
    refine ⟨answer :: answers, last, ?_, ⟨hanswer, hanswers⟩, hlast⟩
    simp only [CCoinsViewCache.calls, hcall, hcalls]

/-- The first stored best block is the one last set. -/
theorem PlainMap.bests_head (plain : PlainMap) (calls : List CacheCall) {start : Uint256}
    (hstart : plain.bests[0]? = some start) :
    (plain.run calls).bests[0]? = some (lastBestBlock start calls) := by
  induction calls generalizing plain start with
  | nil => exact hstart
  | cons call rest ih =>
    cases call with
    | setBestBlock hash => exact ih (plain.step (.setBestBlock hash)) rfl
    | flush depth =>
      refine ih (plain.step (.flush depth)) ?_
      simp only [step, pushDown_getElem?]
      rwa [if_neg (by omega)]
    | addCoin outpoint coin possibleOverwrite =>
      refine ih (plain.step (.addCoin outpoint coin possibleOverwrite)) ?_
      simp only [step]
      split <;> exact hstart
    | getCoin | haveCoin | accessCoin => exact ih _ hstart
    | spendCoin outpoint => exact ih (plain.step (.spendCoin outpoint)) hstart
    | uncache outpoint => exact ih _ hstart

/-- A coherent stack of any depth over a settled database answers every allowed
sequence of calls as the plain map does, without an exception, and flushing it
from the top down leaves the map and the last best block in the database. -/
theorem calls_refine_plainMap (view : CCoinsViewCache) (hwf : view.Wf)
    (hsettled : view.toView.bottom.Settled) (calls : List CacheCall)
    (hallowed : (PlainMap.ofView view).AllowedRun calls) :
    ∃ answers view', view.calls calls = .ok (answers, view') ∧
      (PlainMap.ofView view).AnswersRun calls answers ∧
      view'.utxo = ((PlainMap.ofView view).run calls).coins ∧
      ((lastBestBlock view.layer.hashBlock calls).isNull = false →
        ∃ flushed, view'.flushAll = .ok flushed ∧
          flushed.toView.bottom.utxo = ((PlainMap.ofView view).run calls).coins ∧
          flushed.toView.bottom.getBestBlock = lastBestBlock view.layer.hashBlock calls) := by
  have hsim : Simulates (PlainMap.ofView view) view := ⟨hwf, hsettled, rfl, rfl⟩
  obtain ⟨answers, view', hcalls, hanswers, hlast⟩ := hsim.calls hallowed
  refine ⟨answers, view', hcalls, hanswers, hlast.coins, ?_⟩
  intro hnull
  have hbest : view'.layer.hashBlock = lastBestBlock view.layer.hashBlock calls := by
    have hstart : (PlainMap.ofView view).bests[0]? = some view.layer.hashBlock := rfl
    have hhead := PlainMap.bests_head (PlainMap.ofView view) calls hstart
    rw [← hlast.bests] at hhead
    exact Option.some.inj hhead
  rw [← hbest] at hnull ⊢
  obtain ⟨flushed, hflush, hutxo, hdb⟩ := flushAll_spec hlast.wf hlast.settled hnull
  exact ⟨flushed, hflush, hutxo.trans hlast.coins, hdb⟩

namespace CoinsStackWitness

def emptyDb : CCoinsViewDB := ⟨∅, none, none, 16777216, fun _ => 64⟩

def stack : CCoinsViewCache := ⟨.fresh, .cache .fresh (.db emptyDb)⟩

def blockHash : Uint256 := hashOf 9

def outpoint : COutPoint := ⟨hashOf 7, 0⟩

def coin : Coin := ⟨⟨50, [0x51]⟩, true, 1⟩

/-- A coin under an `OP_RETURN` script. -/
def dataCoin : Coin := ⟨⟨0, [opReturn, 0x01, 0x2a]⟩, false, 1⟩

/-- Create a coin, push it down, spend it above and push the spend and the best block to the
database. -/
def traffic : List CacheCall :=
  [.getCoin outpoint, .addCoin outpoint coin false, .setBestBlock blockHash,
    .flush 0, .accessCoin outpoint, .spendCoin outpoint, .flush 0, .flush 1,
    .haveCoin outpoint, .addCoin outpoint coin true, .uncache outpoint]

theorem stack_wf : stack.Wf :=
  ofBase_wf (ofBase_wf trivial)

theorem traffic_allowed : (PlainMap.ofView stack).AllowedRun traffic := by
  refine ⟨trivial, ⟨rfl, fun _ => rfl⟩, trivial, ⟨by decide, ?_⟩, trivial, trivial,
    ⟨by decide, ?_⟩, ⟨by decide, ?_⟩, trivial, ⟨rfl, ?_⟩, trivial, trivial⟩
  · intro hlast
    exact absurd hlast (by decide)
  · intro hlast
    exact absurd hlast (by decide)
  · intro _ hash hget
    have heq : some blockHash = some hash := hget
    cases heq
    decide
  · intro hover
    cases hover

theorem calls_refine_plainMap_two_caches :
    ∃ answers view', stack.calls traffic = .ok (answers, view') ∧
      (PlainMap.ofView stack).AnswersRun traffic answers ∧
      view'.utxo = ((PlainMap.ofView stack).run traffic).coins ∧
      ((lastBestBlock stack.layer.hashBlock traffic).isNull = false →
        ∃ flushed, view'.flushAll = .ok flushed ∧
          flushed.toView.bottom.utxo = ((PlainMap.ofView stack).run traffic).coins ∧
          flushed.toView.bottom.getBestBlock = lastBestBlock stack.layer.hashBlock traffic) :=
  calls_refine_plainMap stack stack_wf rfl traffic traffic_allowed

/-- A coin whose script cannot be spent is not inserted, and a flush to the
database before a best block is set does not return. -/
theorem unspendable_coin_is_not_inserted :
    dataCoin.isSpent = false ∧ stack.utxo outpoint = none ∧
      (∃ view, stack.addCoin outpoint dataCoin false = .ok view ∧
        (view.getCoin outpoint).1 ≠ Function.update stack.utxo outpoint (some dataCoin) outpoint) ∧
      (stack.flushLayer 1).1 = .error (.assertFailed "!hashBlock.IsNull()") := by
  refine ⟨rfl, rfl, ⟨stack, ?_, ?_⟩, ?_⟩
  · rfl
  · decide
  · decide

end CoinsStackWitness

end Catoshi
