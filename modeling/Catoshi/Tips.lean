/-
The tip of the active chain (`validation.cpp`): `ConnectTip` and `DisconnectTip` work on a scratch
cache over `pcoinsTip`.
-/
import Catoshi.Chain
import Catoshi.Disconnect

namespace Catoshi

/-- What changes when the tip moves. The active chain is the way from `tip` to the genesis block. -/
structure CChainState where
  pcoinsTip : CCoinsViewCache
  tip : Option CBlockIndex
  store : BlockStore

/-- What `FlushStateToDisk` finds before it writes. -/
structure FlushEnv where
  fDoFullFlush : Bool
  checkDiskSpace : Bool
deriving DecidableEq, Repr

/-- Why moving the tip returns false. -/
inductive TipError where
  | failedToReadBlock
  | connectBlockFailed (reject : Reject)
  | disconnectBlockFailed (result : DisconnectResult)
  | outOfDiskSpace
deriving DecidableEq

/-- The result of a call that can end in an assertion or exception, and the state it leaves. -/
abbrev TipOutcome := Except Fault (Except TipError Unit × CChainState)

/-- The coins part of `FlushStateToDisk`. -/
def CCoinsViewCache.flushStateToDisk (pcoinsTip : CCoinsViewCache) (env : FlushEnv) :
    Except Fault (Except TipError Unit × CCoinsViewCache) :=
  if env.fDoFullFlush then
    if env.checkDiskSpace then
      match pcoinsTip.flush with
      | (.error fault, _) => .error fault
      | (.ok _, pcoinsTip) => .ok (.ok (), pcoinsTip)
    else
      .ok (.error .outOfDiskSpace, pcoinsTip)
  else
    .ok (.ok (), pcoinsTip)

namespace CChainState

/-- `CCoinsViewCache view(pcoinsTip.get())`. -/
def scratch (s : CChainState) : CCoinsViewCache := .ofBase s.pcoinsTip.toView

/-- A scratch cache over `pcoinsTip` goes away: reading and flushing it may have changed the cache
below. -/
def leave (s : CChainState) (view : CCoinsViewCache) (store : BlockStore) : CChainState :=
  match view.base with
  | .cache layer base => { s with pcoinsTip := ⟨layer, base⟩, store := store }
  | .db _ => { s with store := store }

/-- `ConnectTip` and `DisconnectTip` once the block is applied to the scratch cache. -/
def moveTip (s : CChainState) (env : FlushEnv) (view : CCoinsViewCache) (store : BlockStore)
    (tip : Option CBlockIndex) : TipOutcome :=
  match view.flush with
  | (.error fault, _) => .error fault
  | (.ok _, view) =>
    let s := s.leave view store
    match s.pcoinsTip.flushStateToDisk env with
    | .error fault => .error fault
    | .ok (.error error, pcoinsTip) => .ok (.error error, { s with pcoinsTip := pcoinsTip })
    | .ok (.ok _, pcoinsTip) => .ok (.ok (), { s with pcoinsTip := pcoinsTip, tip := tip })

/-- `ConnectTip`. A block handed over is not read again. A failed `ConnectBlock` has written
nothing. -/
def connectTip (ctx : ValidationContext) (s : CChainState) (env : FlushEnv)
    (pindexNew : CBlockIndex) (pblock : Option CBlock) : TipOutcome :=
  if pindexNew.pprev ≠ s.tip then
    .error (.assertFailed "pindexNew->pprev == chainActive.Tip()")
  else
    match pblock.or (s.store.readBlockFromDisk pindexNew) with
    | none => .ok (.error .failedToReadBlock, s)
    | some block =>
      match connectBlock ctx s.store block pindexNew s.scratch false with
      | .error (.fault fault) => .error fault
      | .error (.invalid reject) => .ok (.error (.connectBlockFailed reject), s)
      | .ok (view, store) => s.moveTip env view store (some pindexNew)

def disconnectTip (options : IndexOptions) (s : CChainState) (env : FlushEnv) : TipOutcome :=
  match s.tip with
  | none => .error (.assertFailed "pindexDelete")
  | some pindexDelete =>
    match s.store.readBlockFromDisk pindexDelete with
    | none => .ok (.error .failedToReadBlock, s)
    | some block =>
      let asked := s.scratch.getBestBlock
      if asked.1 ≠ pindexDelete.getBlockHash then
        .error (.assertFailed "view.GetBestBlock() == pindexDelete->GetBlockHash()")
      else
        match disconnectBlock options s.store block pindexDelete asked.2 with
        | .error fault => .error fault
        | .ok done =>
          if done.result ≠ .ok then
            .ok (.error (.disconnectBlockFailed done.result), s.leave done.view done.store)
          else
            s.moveTip env done.view done.store pindexDelete.pprev

end CChainState

inductive TipCall where
  | connect (env : FlushEnv) (pindexNew : CBlockIndex) (pblock : Option CBlock)
  | disconnect (env : FlushEnv)

def CChainState.call (ctx : ValidationContext) (s : CChainState) : TipCall → TipOutcome
  | .connect env pindexNew pblock => s.connectTip ctx env pindexNew pblock
  | .disconnect env => s.disconnectTip ctx.options env

/-- Callers of `ConnectTip` hand over the block on disk, and only the entry without predecessor has
the hash of the genesis block. -/
def TipCall.Promised (ctx : ValidationContext) (s : CChainState) : TipCall → Prop
  | .connect _ pindexNew pblock =>
    (∀ block, pblock = some block → s.store.readBlockFromDisk pindexNew = some block) ∧
      (pindexNew.getBlockHash = ctx.params.hashGenesisBlock → pindexNew.pprev = none)
  | .disconnect _ => True

theorem TipCall.Promised.read {ctx : ValidationContext} {s : CChainState} {env : FlushEnv}
    {pindexNew : CBlockIndex} {pblock : Option CBlock} {block : CBlock}
    (hprom : TipCall.Promised ctx s (.connect env pindexNew pblock))
    (hf : pblock.or (s.store.readBlockFromDisk pindexNew) = some block) :
    s.store.readBlockFromDisk pindexNew = some block := by
  cases pblock with
  | none => exact hf
  | some given => exact hprom.1 block hf

/-- No block is connected: empty coins, no undo data and empty indexes. The block files hold the
blocks to be connected. -/
structure CChainState.Initial (s : CChainState) : Prop where
  tip : s.tip = none
  coins : ∃ db : CCoinsViewDB, s.pcoinsTip = .ofBase (.db db) ∧ db.coins = ∅ ∧
    db.bestBlock = none ∧ db.headBlocks = none
  undo : s.store.undo = fun _ => none
  blocktree : s.store.blocktree = .empty

/-- The states after successful calls from `start`, each allowed in its state. -/
inductive CChainState.Run (ctx : ValidationContext) (allowed : CChainState → TipCall → Prop)
    (start : CChainState) : CChainState → Prop
  | start : Run ctx allowed start start
  | step {s s' : CChainState} {call : TipCall} (hrun : Run ctx allowed start s)
      (hallowed : allowed s call) (hcall : s.call ctx call = .ok (.ok (), s')) :
      Run ctx allowed start s'

/-- The successful calls from `start`, the last first, each with its state. -/
inductive CChainState.Trace (ctx : ValidationContext) (start : CChainState) :
    List (CChainState × TipCall) → CChainState → Prop
  | start : Trace ctx start [] start
  | step {steps : List (CChainState × TipCall)} {s s' : CChainState} {call : TipCall}
      (htrace : Trace ctx start steps s) (hcall : s.call ctx call = .ok (.ok (), s')) :
      Trace ctx start ((s, call) :: steps) s'

end Catoshi
