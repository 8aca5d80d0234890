/-
Which blocks are downloaded from which peer (`net_processing.cpp`).
-/
import Catoshi.Lib.LinkedList
import Catoshi.Lib.Outcome
import Catoshi.Lib.Runs
import Catoshi.Lib.Tally

namespace Catoshi

open LinkedList Table Option

universe u v w

variable {H : Type u} {N : Type v} {I : Type w}

/-- `QueuedBlock`. Of `partialBlock` only its presence is kept. -/
structure QueuedBlock (H : Type u) (I : Type w) where
  hash : H
  pindex : Option I
  fValidatedHeaders : Bool
  partialBlock : Bool

/-- The part of `CNodeState` that block download uses. -/
structure CNodeState (H : Type u) (I : Type w) where
  nStallingSince : ℤ
  vBlocksInFlight : LinkedList (QueuedBlock H I)
  nDownloadingSince : ℤ
  nBlocksInFlight : ℤ
  nBlocksInFlightValidHeaders : ℤ
  fPreferredDownload : Bool
  mProtect : Bool

namespace CNodeState

def create : CNodeState H I where
  nStallingSince := 0
  vBlocksInFlight := .empty
  nDownloadingSince := 0
  nBlocksInFlight := 0
  nBlocksInFlightValidHeaders := 0
  fPreferredDownload := false
  mProtect := false

/-- What `MarkBlockAsReceived` does to the peer. -/
def receive (now : ℤ) (it : ℕ) (entry : QueuedBlock H I) (state : CNodeState H I) :
    CNodeState H I :=
  { state with
    nBlocksInFlightValidHeaders := state.nBlocksInFlightValidHeaders - entry.fValidatedHeaders.toNat
    -- the first block of the queue was received: the next one starts downloading
    nDownloadingSince :=
      if state.vBlocksInFlight.begin? = some it then max state.nDownloadingSince now
      else state.nDownloadingSince
    vBlocksInFlight := state.vBlocksInFlight.erase it
    nBlocksInFlight := state.nBlocksInFlight - 1
    nStallingSince := 0 }

/-- What `MarkBlockAsInFlight` does to the peer. -/
def request (now : ℤ) (entry : QueuedBlock H I) (state : CNodeState H I) : CNodeState H I :=
  { state with
    vBlocksInFlight := state.vBlocksInFlight.pushBack entry
    nBlocksInFlight := state.nBlocksInFlight + 1
    nBlocksInFlightValidHeaders := state.nBlocksInFlightValidHeaders + entry.fValidatedHeaders.toNat
    nDownloadingSince :=
      if state.nBlocksInFlight + 1 = 1 then now else state.nDownloadingSince }

end CNodeState

structure DownloadState (H : Type u) (N : Type v) (I : Type w) where
  mapNodeState : Table.Rows N (CNodeState H I)
  mapBlocksInFlight : Table.Rows H (N × ℕ)
  nPreferredDownload : ℤ
  nPeersWithValidatedDownloads : ℤ
  outboundPeersWithProtect : ℤ

inductive DownloadFailure where
  | noState
  | assertionFailed
  | danglingIterator
deriving DecidableEq, Repr

inductive DownloadCall (H : Type u) (N : Type v) (I : Type w) where
  | initializeNode (nodeid : N)
  | markBlockAsInFlight (now : ℤ) (nodeid : N) (hash : H) (pindex : Option I) (pit : Bool)
  | markBlockAsReceived (now : ℤ) (hash : H)
  | updatePreferredDownload (nodeid : N) (preferred : Bool)
  | protect (nodeid : N)
  | finalizeNode (nodeid : N)

namespace DownloadState

variable [DecidableEq H] [DecidableEq N]

def create : DownloadState H N I where
  mapNodeState := ∅
  mapBlocksInFlight := ∅
  nPreferredDownload := 0
  nPeersWithValidatedDownloads := 0
  outboundPeersWithProtect := 0

variable (nodeid : N) (state : CNodeState H I) (peers : DownloadState H N I)

/-- What an iterator of a peer's queue refers to. -/
def element (place : N × ℕ) : Option (QueuedBlock H I) :=
  (peers.mapNodeState.lookup place.1).bind fun state => state.vBlocksInFlight.get? place.2

def initializeNode : DownloadState H N I :=
  { peers with mapNodeState := insertNew nodeid .create peers.mapNodeState }

/-- `MarkBlockAsReceived` for a block in flight. -/
def receive (now : ℤ) (hash : H) (nodeid : N) (it : ℕ) (state : CNodeState H I)
    (entry : QueuedBlock H I) (peers : DownloadState H N I) : DownloadState H N I :=
  { peers with
    nPeersWithValidatedDownloads :=
      if (state.receive now it entry).nBlocksInFlightValidHeaders = 0 ∧ entry.fValidatedHeaders then
        peers.nPeersWithValidatedDownloads - 1
      else peers.nPeersWithValidatedDownloads
    mapNodeState := peers.mapNodeState.insert nodeid (state.receive now it entry)
    mapBlocksInFlight := peers.mapBlocksInFlight.erase hash }

def markBlockAsReceived (now : ℤ) (hash : H) (peers : DownloadState H N I) :
    Except DownloadFailure (Bool × DownloadState H N I) :=
  match peers.mapBlocksInFlight.lookup hash with
  | none => .ok (false, peers)
  | some (nodeid, it) =>
    match peers.mapNodeState.lookup nodeid with
    | none => .error .assertionFailed
    | some state =>
      match state.vBlocksInFlight.get? it with
      | none => .error .danglingIterator
      | some entry => .ok (true, peers.receive now hash nodeid it state entry)

/-- `MarkBlockAsInFlight` for a block not in flight. -/
def request (now : ℤ) (nodeid : N) (hash : H) (pindex : Option I) (pit : Bool)
    (state : CNodeState H I) (peers : DownloadState H N I) : DownloadState H N I :=
  let entry := { hash, pindex, fValidatedHeaders := pindex.isSome, partialBlock := pit }
  { peers with
    mapNodeState := peers.mapNodeState.insert nodeid (state.request now entry)
    nPeersWithValidatedDownloads :=
      if (state.request now entry).nBlocksInFlightValidHeaders = 1 ∧ pindex.isSome then
        peers.nPeersWithValidatedDownloads + 1
      else peers.nPeersWithValidatedDownloads
    mapBlocksInFlight :=
      insertNew hash (nodeid, state.vBlocksInFlight.next) peers.mapBlocksInFlight }

def markBlockAsInFlight (now : ℤ) (nodeid : N) (hash : H) (pindex : Option I) (pit : Bool)
    (peers : DownloadState H N I) : Except DownloadFailure (Bool × DownloadState H N I) :=
  if nodeid ∉ peers.mapNodeState then .error .noState
  else if (peers.mapBlocksInFlight.lookup hash).map Prod.fst = some nodeid then
    .ok (false, peers)
  else do
    let (_, peers) ← peers.markBlockAsReceived now hash
    match peers.mapNodeState.lookup nodeid with
    | none => .error .danglingIterator
    | some state => .ok (true, peers.request now nodeid hash pindex pit state)

/-- `UpdatePreferredDownload`, given whether the peer is preferred. -/
def updatePreferredDownload (preferred : Bool) (peers : DownloadState H N I) :
    Except DownloadFailure (DownloadState H N I) :=
  match peers.mapNodeState.lookup nodeid with
  | none => .error .noState
  | some state => .ok { peers with
      nPreferredDownload :=
        peers.nPreferredDownload - state.fPreferredDownload.toNat + preferred.toNat
      mapNodeState :=
        peers.mapNodeState.insert nodeid { state with fPreferredDownload := preferred } }

/-- Protect a peer from disconnection, if it is not yet. -/
def protect : Except DownloadFailure (DownloadState H N I) :=
  match peers.mapNodeState.lookup nodeid with
  | none => .error .noState
  | some state =>
    if state.mProtect then .ok peers
    else .ok { peers with
      mapNodeState := peers.mapNodeState.insert nodeid { state with mProtect := true }
      outboundPeersWithProtect := peers.outboundPeersWithProtect + 1 }

/-- What `FinalizeNode` leaves, before its checks. -/
def leave : DownloadState H N I where
  mapBlocksInFlight :=
    eraseAll (state.vBlocksInFlight.elements.map fun entry => entry.2.hash) peers.mapBlocksInFlight
  nPreferredDownload := peers.nPreferredDownload - state.fPreferredDownload.toNat
  nPeersWithValidatedDownloads :=
    peers.nPeersWithValidatedDownloads - (state.nBlocksInFlightValidHeaders != 0).toNat
  outboundPeersWithProtect := peers.outboundPeersWithProtect - state.mProtect.toNat
  mapNodeState := peers.mapNodeState.erase nodeid

/-- The check after the last peer is removed. -/
def consistent : Bool :=
  peers.mapBlocksInFlight.entries.isEmpty && peers.nPreferredDownload == 0 &&
    peers.nPeersWithValidatedDownloads == 0 && peers.outboundPeersWithProtect == 0

def finalizeNode : Except DownloadFailure (DownloadState H N I) :=
  match peers.mapNodeState.lookup nodeid with
  | none => .error .noState
  | some state =>
    let after := peers.leave nodeid state
    if after.nPeersWithValidatedDownloads < 0 ∨ after.outboundPeersWithProtect < 0 then
      .error .assertionFailed
    else if after.mapNodeState.entries.isEmpty ∧ ¬after.consistent then .error .assertionFailed
    else .ok after

def step : DownloadCall H N I → Except DownloadFailure (DownloadState H N I)
  | .initializeNode nodeid => .ok (peers.initializeNode nodeid)
  | .markBlockAsInFlight now nodeid hash pindex pit =>
    (peers.markBlockAsInFlight now nodeid hash pindex pit).map Prod.snd
  | .markBlockAsReceived now hash => (peers.markBlockAsReceived now hash).map Prod.snd
  | .updatePreferredDownload nodeid preferred => peers.updatePreferredDownload nodeid preferred
  | .protect nodeid => peers.protect nodeid
  | .finalizeNode nodeid => peers.finalizeNode nodeid

end DownloadState

structure CNodeState.Counted (state : CNodeState H I) : Prop where
  all : state.nBlocksInFlight = state.vBlocksInFlight.size
  validated : state.nBlocksInFlightValidHeaders =
    state.vBlocksInFlight.count QueuedBlock.fValidatedHeaders

/-- Blocks with validated headers come from the peer. -/
def CNodeState.downloads (state : CNodeState H I) : Bool :=
  decide (0 < state.nBlocksInFlightValidHeaders)

namespace CNodeState

variable {state : CNodeState H I} {it : ℕ} {entry : QueuedBlock H I}

theorem counted_create : Counted (create : CNodeState H I) :=
  ⟨rfl, rfl⟩

section

variable (hcount : state.Counted)

include hcount

theorem Counted.receive (now : ℤ) (hent : state.vBlocksInFlight.get? it = some entry) :
    (state.receive now it entry).Counted where
  all := by
    have herase := count_erase (fun _ => true) hent
    rw [← size_eq_count, ← size_eq_count, Bool.toNat_true] at herase
    have hall := hcount.all
    simp only [CNodeState.receive]
    omega
  validated := by
    have herase := count_erase QueuedBlock.fValidatedHeaders hent
    have hvalidated := hcount.validated
    simp only [CNodeState.receive]
    omega

theorem Counted.request (now : ℤ) (entry : QueuedBlock H I) :
    (state.request now entry).Counted where
  all := by
    have hall := hcount.all
    simp only [CNodeState.request, size_eq_count, count_pushBack, Bool.toNat_true] at hall ⊢
    omega
  validated := by
    have hvalidated := hcount.validated
    simp only [CNodeState.request, count_pushBack]
    omega

theorem Counted.preferred (preferred : Bool) :
    Counted { state with fPreferredDownload := preferred } :=
  ⟨hcount.all, hcount.validated⟩

theorem Counted.protect : Counted { state with mProtect := true } :=
  ⟨hcount.all, hcount.validated⟩

theorem Counted.downloads_receive (now : ℤ)
    (hent : state.vBlocksInFlight.get? it = some entry) (peers : ℤ) :
    (if (state.receive now it entry).nBlocksInFlightValidHeaders = 0 ∧ entry.fValidatedHeaders then
      peers - 1 else peers) =
        peers - state.downloads.toNat + (state.receive now it entry).downloads.toNat := by
  have hafter := (hcount.receive now hent).validated
  have hsub : (state.receive now it entry).nBlocksInFlightValidHeaders =
    state.nBlocksInFlightValidHeaders - entry.fValidatedHeaders.toNat := rfl
  rw [CNodeState.downloads, CNodeState.downloads]
  cases hvalidated : entry.fValidatedHeaders with
  | false =>
    rw [hvalidated, Bool.toNat_false, Nat.cast_zero] at hsub
    simp [hsub]
  | true =>
    rw [hvalidated, Bool.toNat_true] at hsub
    have hpre : 0 < state.nBlocksInFlightValidHeaders := by omega
    simp only [hpre, decide_true, Bool.toNat_true, and_true]
    split_ifs with hzero
    · simp [hzero]
    · have hpos : 0 < (state.receive now it entry).nBlocksInFlightValidHeaders := by omega
      simp [hpos]

theorem Counted.downloads_request (now : ℤ) (entry : QueuedBlock H I) (peers : ℤ) :
    (if (state.request now entry).nBlocksInFlightValidHeaders = 1 ∧ entry.fValidatedHeaders then
      peers + 1 else peers) =
        peers - state.downloads.toNat + (state.request now entry).downloads.toNat := by
  have hpre := hcount.validated
  have hadd : (state.request now entry).nBlocksInFlightValidHeaders =
    state.nBlocksInFlightValidHeaders + entry.fValidatedHeaders.toNat := rfl
  rw [CNodeState.downloads, CNodeState.downloads]
  cases hvalidated : entry.fValidatedHeaders with
  | false =>
    rw [hvalidated, Bool.toNat_false, Nat.cast_zero] at hadd
    simp [hadd]
  | true =>
    rw [hvalidated, Bool.toNat_true] at hadd
    have hafter : 0 < (state.request now entry).nBlocksInFlightValidHeaders := by omega
    simp only [hafter, decide_true, Bool.toNat_true, and_true]
    split_ifs with hone
    · have hzero : state.nBlocksInFlightValidHeaders = 0 := by omega
      simp [hzero]
    · have hpos : 0 < state.nBlocksInFlightValidHeaders := by omega
      simp [hpos]

end

end CNodeState

namespace DownloadState

variable [DecidableEq H] [DecidableEq N] {peers : DownloadState H N I} {nodeid : N}
  {state : CNodeState H I}

def hashAt (peers : DownloadState H N I) (place : N × ℕ) : Option H :=
  (peers.element place).map QueuedBlock.hash

/-- The blocks in flight are those of the queues, each at the one place the map names, and the
counters count. -/
structure Tracked (peers : DownloadState H N I) : Prop where
  counted : ∀ nodeid state, peers.mapNodeState.lookup nodeid = some state → state.Counted
  inverse : Table.Inverse peers.mapBlocksInFlight peers.hashAt
  downloads : peers.nPeersWithValidatedDownloads = tally CNodeState.downloads peers.mapNodeState
  preferred : peers.nPreferredDownload = tally CNodeState.fPreferredDownload peers.mapNodeState
  guarded : peers.outboundPeersWithProtect = tally CNodeState.mProtect peers.mapNodeState

theorem tracked_create : Tracked (create : DownloadState H N I) where
  counted nodeid state hst := by simp [create] at hst
  inverse := inverse_empty fun place => by simp [hashAt, element, create]
  downloads := rfl
  preferred := rfl
  guarded := rfl

variable {other : DownloadState H N I} {changed : CNodeState H I} {hash : H} {it : ℕ}
  {call : DownloadCall H N I}

omit [DecidableEq H] in
/-- Which place holds which block after one peer was replaced. -/
theorem hashAt_insert (table : Table.Rows N (CNodeState H I)) (changed : CNodeState H I)
    (ho : other.mapNodeState = table.insert nodeid changed)
    (htable : peers.mapNodeState = table) (place : N × ℕ) :
    other.hashAt place =
      if place.1 = nodeid then (changed.vBlocksInFlight.get? place.2).map QueuedBlock.hash
      else peers.hashAt place := by
  rw [hashAt, hashAt, element, element, ho, htable, lookup_insert]
  split <;> rfl

omit [DecidableEq H] in
theorem hashAt_of_lookup (hst : peers.mapNodeState.lookup nodeid = some state) (it : ℕ) :
    peers.hashAt (nodeid, it) = (state.vBlocksInFlight.get? it).map QueuedBlock.hash := by
  rw [hashAt, element, hst, bind_some]

omit [DecidableEq H] in
/-- A peer with the same queue holds the same blocks. -/
theorem hashAt_insert_of_queue (hst : peers.mapNodeState.lookup nodeid = some state)
    (ho : other.mapNodeState = peers.mapNodeState.insert nodeid changed)
    (hqueue : changed.vBlocksInFlight = state.vBlocksInFlight) (place : N × ℕ) :
    other.hashAt place = peers.hashAt place := by
  rw [hashAt_insert peers.mapNodeState changed ho rfl]
  split_ifs with heq
  · rw [hqueue, ← hashAt_of_lookup hst, ← heq]
  · rfl

section

variable (htracked : peers.Tracked)

include htracked

/-- A place that the map names holds the block. -/
theorem Tracked.exists_entry (hplace : peers.mapBlocksInFlight.lookup hash = some (nodeid, it)) :
    ∃ state entry, peers.mapNodeState.lookup nodeid = some state ∧
      state.vBlocksInFlight.get? it = some entry ∧ entry.hash = hash := by
  have hheld := (htracked.inverse hash (nodeid, it)).1 hplace
  rw [hashAt, map_eq_some_iff] at hheld
  obtain ⟨entry, helement, hhash⟩ := hheld
  obtain ⟨state, hst, hent⟩ := Option.bind_eq_some_iff.1 helement
  exact ⟨state, entry, hst, hent, hhash⟩

/-- One peer is replaced by one that counts, and the counters adjusted. -/
theorem Tracked.insert
    (hst : peers.mapNodeState.lookup nodeid = some state)
    (ho : other.mapNodeState = peers.mapNodeState.insert nodeid changed)
    (hcount : changed.Counted) (hinverse : Table.Inverse other.mapBlocksInFlight other.hashAt)
    (hdownloads : other.nPeersWithValidatedDownloads =
      peers.nPeersWithValidatedDownloads - state.downloads.toNat + changed.downloads.toNat)
    (hpreferred : other.nPreferredDownload =
      peers.nPreferredDownload - state.fPreferredDownload.toNat + changed.fPreferredDownload.toNat)
    (hguard : other.outboundPeersWithProtect =
      peers.outboundPeersWithProtect - state.mProtect.toNat + changed.mProtect.toNat) :
    other.Tracked where
  counted peer found hf := by
    rw [ho, lookup_insert] at hf
    split at hf
    · exact Option.some.inj hf ▸ hcount
    · exact htracked.counted peer found hf
  inverse := hinverse
  downloads := by
    rw [hdownloads, ho, tally_insert_of_lookup _ hst, htracked.downloads]
  preferred := by
    rw [hpreferred, ho, tally_insert_of_lookup _ hst, htracked.preferred]
  guarded := by
    rw [hguard, ho, tally_insert_of_lookup _ hst, htracked.guarded]

theorem Tracked.initializeNode (nodeid : N) :
    (peers.initializeNode nodeid).Tracked where
  counted peer found hf := by
    rw [DownloadState.initializeNode, lookup_insertNew] at hf
    split at hf
    · cases hst : peers.mapNodeState.lookup nodeid with
      | none =>
        rw [hst] at hf
        exact Option.some.inj hf ▸ CNodeState.counted_create
      | some state =>
        rw [hst] at hf
        exact Option.some.inj hf ▸ htracked.counted nodeid state hst
    · exact htracked.counted peer found hf
  inverse := by
    apply htracked.inverse.congr
    intro place
    rw [hashAt, hashAt, element, element, DownloadState.initializeNode, lookup_insertNew]
    split_ifs with heq
    · rw [heq]
      cases peers.mapNodeState.lookup nodeid <;> rfl
    · rfl
  downloads := by
    rw [DownloadState.initializeNode, tally_insertNew rfl]
    exact htracked.downloads
  preferred := by
    rw [DownloadState.initializeNode, tally_insertNew rfl]
    exact htracked.preferred
  guarded := by
    rw [DownloadState.initializeNode, tally_insertNew rfl]
    exact htracked.guarded

theorem Tracked.receive (now : ℤ) {entry : QueuedBlock H I}
    (hst : peers.mapNodeState.lookup nodeid = some state)
    (hent : state.vBlocksInFlight.get? it = some entry) (hhash : entry.hash = hash) :
    (peers.receive now hash nodeid it state entry).Tracked := by
  have hcount := htracked.counted nodeid state hst
  apply htracked.insert hst rfl (hcount.receive now hent)
  · have hheld : peers.hashAt (nodeid, it) = some hash := by
      rw [hashAt_of_lookup hst, hent, map_some, hhash]
    apply htracked.inverse.erase hheld
    rintro ⟨peer, other⟩
    rw [hashAt_insert peers.mapNodeState (state.receive now it entry) rfl rfl]
    by_cases hpeer : peer = nodeid
    · subst hpeer
      rw [hashAt_of_lookup hst, CNodeState.receive, get?_erase]
      by_cases ho : other = it <;> simp [ho]
    · rw [if_neg hpeer, if_neg fun heq => hpeer (congrArg Prod.fst heq)]
  · exact hcount.downloads_receive now hent _
  · simp [DownloadState.receive, CNodeState.receive]
  · simp [DownloadState.receive, CNodeState.receive]

theorem Tracked.markBlockAsReceived (now : ℤ) (hash : H) :
    ∃ known after, peers.markBlockAsReceived now hash = .ok (known, after) ∧ after.Tracked ∧
      hash ∉ after.mapBlocksInFlight ∧
        ∀ nodeid, nodeid ∈ after.mapNodeState ↔ nodeid ∈ peers.mapNodeState := by
  rw [DownloadState.markBlockAsReceived]
  cases hplace : peers.mapBlocksInFlight.lookup hash with
  | none =>
    exact ⟨false, peers, rfl, htracked, AList.lookup_eq_none.1 hplace, fun _ => Iff.rfl⟩
  | some place =>
    obtain ⟨nodeid, it⟩ := place
    obtain ⟨state, entry, hst, hent, hhash⟩ := htracked.exists_entry hplace
    refine ⟨true, peers.receive now hash nodeid it state entry, ?_,
      htracked.receive now hst hent hhash, ?_, fun peer => ?_⟩
    · simp only [hst, hent]
    · rw [DownloadState.receive, AList.mem_erase]
      exact fun hmem => hmem.1 rfl
    · rw [DownloadState.receive, AList.mem_insert]
      constructor
      · rintro (rfl | hmem)
        · exact mem_of_lookup hst
        · exact hmem
      · exact .inr

theorem Tracked.request (now : ℤ) (pindex : Option I) (pit : Bool)
    (hst : peers.mapNodeState.lookup nodeid = some state) (hhash : hash ∉ peers.mapBlocksInFlight) :
    (peers.request now nodeid hash pindex pit state).Tracked := by
  have hcount := htracked.counted nodeid state hst
  apply htracked.insert hst rfl (hcount.request now _)
  · have hempty : peers.hashAt (nodeid, state.vBlocksInFlight.next) = none := by
      rw [hashAt_of_lookup hst, get?_next, map_none]
    apply htracked.inverse.insertNew hempty hhash
    rintro ⟨peer, other⟩
    rw [hashAt_insert peers.mapNodeState _ rfl rfl]
    by_cases hpeer : peer = nodeid
    · subst hpeer
      rw [hashAt_of_lookup hst, CNodeState.request, get?_pushBack]
      by_cases ho : other = state.vBlocksInFlight.next <;> simp [ho]
    · rw [if_neg hpeer, if_neg fun heq => hpeer (congrArg Prod.fst heq)]
  · exact hcount.downloads_request now _ _
  · simp [DownloadState.request, CNodeState.request]
  · simp [DownloadState.request, CNodeState.request]

theorem Tracked.markBlockAsInFlight (now : ℤ) (hash : H)
    (pindex : Option I) (pit : Bool) (hnode : nodeid ∈ peers.mapNodeState) :
    ∃ fresh after, peers.markBlockAsInFlight now nodeid hash pindex pit = .ok (fresh, after) ∧
      after.Tracked := by
  rw [DownloadState.markBlockAsInFlight, if_neg (not_not.2 hnode)]
  split
  · exact ⟨false, peers, rfl, htracked⟩
  · obtain ⟨known, after, hreceived, hafter, hhash, hnodes⟩ := htracked.markBlockAsReceived now hash
    obtain ⟨state, hst⟩ := mem_iff.1 ((hnodes nodeid).2 hnode)
    refine ⟨true, after.request now nodeid hash pindex pit state, ?_,
      hafter.request now pindex pit hst hhash⟩
    rw [hreceived]
    simp only [bind, Except.bind, hst]

theorem Tracked.updatePreferredDownload (preferred : Bool)
    (hst : peers.mapNodeState.lookup nodeid = some state) :
    ∃ after, peers.updatePreferredDownload nodeid preferred = .ok after ∧ after.Tracked := by
  rw [DownloadState.updatePreferredDownload, hst]
  refine ⟨_, rfl, ?_⟩
  have hcount := (htracked.counted nodeid state hst).preferred preferred
  apply htracked.insert hst rfl hcount
  · apply htracked.inverse.congr
    exact hashAt_insert_of_queue hst rfl rfl
  · simp [CNodeState.downloads]
  · rfl
  · simp

/-- With no peer left nothing is in flight and every counter is zero. -/
theorem Tracked.consistent (hno : peers.mapNodeState.entries = []) : peers.consistent = true := by
  have hnodes : peers.mapNodeState = ∅ := AList.ext hno
  have hempty : peers.mapBlocksInFlight.entries = [] := by
    apply List.eq_nil_iff_forall_not_mem.2
    rintro ⟨hash, nodeid, it⟩ hrow
    obtain ⟨state, -, hst, -⟩ := htracked.exists_entry (AList.mem_lookup_iff.2 hrow)
    rw [hnodes] at hst
    simp at hst
  have hdownloads := htracked.downloads
  have hpreferred := htracked.preferred
  have hguard := htracked.guarded
  rw [hnodes, tally_empty] at hdownloads hpreferred hguard
  simp [DownloadState.consistent, hempty, hdownloads, hpreferred, hguard]

section

variable (hst : peers.mapNodeState.lookup nodeid = some state)

include hst

theorem Tracked.protect : ∃ after, peers.protect nodeid = .ok after ∧ after.Tracked := by
  rw [DownloadState.protect, hst]
  dsimp only
  split_ifs with hnot
  · exact ⟨peers, rfl, htracked⟩
  · refine ⟨_, rfl, ?_⟩
    have hcount := (htracked.counted nodeid state hst).protect
    apply htracked.insert hst rfl hcount
    · apply htracked.inverse.congr
      exact hashAt_insert_of_queue hst rfl rfl
    · simp [CNodeState.downloads]
    · simp
    · simp [hnot]

theorem Tracked.leave :
    (peers.leave nodeid state).Tracked where
  counted peer found hf := by
    rw [DownloadState.leave, lookup_erase] at hf
    split_ifs at hf
    exact htracked.counted peer found hf
  inverse := by
    -- every place of the peer's queue is gone, and with it the hash that it held
    have hgone : ∀ hash, hash ∈ state.vBlocksInFlight.elements.map (fun entry => entry.2.hash) ↔
        ∃ place : N × ℕ, place.1 = nodeid ∧ peers.hashAt place = some hash := by
      intro hash
      rw [List.mem_map]
      constructor
      · rintro ⟨⟨it, entry⟩, hent, hhash⟩
        refine ⟨(nodeid, it), rfl, ?_⟩
        rw [hashAt_of_lookup hst, get?_eq_some_iff.2 hent, map_some, ← hhash]
      · rintro ⟨⟨_, it⟩, rfl, hheld⟩
        rw [hashAt_of_lookup hst, map_eq_some_iff] at hheld
        obtain ⟨entry, hent, hhash⟩ := hheld
        exact ⟨(it, entry), get?_eq_some_iff.1 hent, hhash⟩
    apply htracked.inverse.eraseAll hgone
    intro place
    rw [hashAt, hashAt, element, DownloadState.leave, lookup_erase]
    split <;> rfl
  downloads := by
    have hvalidated := (htracked.counted nodeid state hst).validated
    have hsame : (state.nBlocksInFlightValidHeaders != 0) = state.downloads := by
      rw [CNodeState.downloads, Bool.eq_iff_iff, bne_iff_ne, decide_eq_true_iff]
      omega
    rw [DownloadState.leave, hsame, tally_erase_of_lookup _ hst, htracked.downloads]
  preferred := by
    rw [DownloadState.leave, tally_erase_of_lookup _ hst, htracked.preferred]
  guarded := by
    rw [DownloadState.leave, tally_erase_of_lookup _ hst, htracked.guarded]

theorem Tracked.finalizeNode : ∃ after, peers.finalizeNode nodeid = .ok after ∧ after.Tracked := by
  have hleave := htracked.leave hst
  refine ⟨peers.leave nodeid state, ?_, hleave⟩
  have hdownloads := hleave.downloads
  have hguard := hleave.guarded
  rw [DownloadState.finalizeNode, hst]
  dsimp only
  rw [if_neg (by omega), if_neg]
  rintro ⟨hno, hinconsistent⟩
  exact hinconsistent (hleave.consistent (List.isEmpty_iff.1 hno))

end

omit htracked in
def needs : DownloadCall H N I → Option N
  | .initializeNode _ => none
  | .markBlockAsInFlight _ nodeid _ _ _ => some nodeid
  | .markBlockAsReceived _ _ => none
  | .updatePreferredDownload nodeid _ => some nodeid
  | .protect nodeid => some nodeid
  | .finalizeNode nodeid => some nodeid

theorem Tracked.step (hneeds : ∀ nodeid ∈ needs call, nodeid ∈ peers.mapNodeState) :
    ∃ next, peers.step call = .ok next ∧ next.Tracked := by
  cases call with
  | initializeNode nodeid => exact ⟨_, rfl, htracked.initializeNode nodeid⟩
  | markBlockAsInFlight now nodeid hash pindex pit =>
    obtain ⟨fresh, after, hcall, hafter⟩ :=
      htracked.markBlockAsInFlight now hash pindex pit (hneeds nodeid rfl)
    exact ⟨after, by rw [DownloadState.step, hcall]; rfl, hafter⟩
  | markBlockAsReceived now hash =>
    obtain ⟨known, after, hcall, hafter, -⟩ := htracked.markBlockAsReceived now hash
    exact ⟨after, by rw [DownloadState.step, hcall]; rfl, hafter⟩
  | updatePreferredDownload nodeid preferred =>
    obtain ⟨state, hst⟩ := mem_iff.1 (hneeds nodeid rfl)
    exact htracked.updatePreferredDownload preferred hst
  | protect nodeid =>
    obtain ⟨state, hst⟩ := mem_iff.1 (hneeds nodeid rfl)
    exact htracked.protect hst
  | finalizeNode nodeid =>
    obtain ⟨state, hst⟩ := mem_iff.1 (hneeds nodeid rfl)
    exact htracked.finalizeNode hst

omit htracked in
theorem step_of_needs (hneeds : needs call = some nodeid) (hnode : nodeid ∉ peers.mapNodeState) :
    peers.step call = .error .noState := by
  have hlook : peers.mapNodeState.lookup nodeid = none := AList.lookup_eq_none.2 hnode
  cases call with
  | initializeNode | markBlockAsReceived => cases hneeds
  | markBlockAsInFlight =>
    cases hneeds
    rw [DownloadState.step, DownloadState.markBlockAsInFlight, if_pos hnode]
    rfl
  | updatePreferredDownload =>
    cases hneeds
    rw [DownloadState.step, DownloadState.updatePreferredDownload, hlook]
  | protect =>
    cases hneeds
    rw [DownloadState.step, DownloadState.protect, hlook]
  | finalizeNode =>
    cases hneeds
    rw [DownloadState.step, DownloadState.finalizeNode, hlook]

/-- The bookkeeping is exact, and calls fail only for a missing peer. -/
structure Sound (peers : DownloadState H N I) : Prop extends peers.Tracked where
  returns : ∀ call failure, peers.step call = .error failure →
    failure = .noState ∧ ∃ nodeid, needs call = some nodeid ∧ nodeid ∉ peers.mapNodeState

theorem Tracked.sound : peers.Sound where
  toTracked := htracked
  returns call failure hfailure := by
    by_cases hneeds : ∀ nodeid ∈ needs call, nodeid ∈ peers.mapNodeState
    · obtain ⟨next, hnext, -⟩ := htracked.step hneeds
      rw [hnext] at hfailure
      cases hfailure
    · simp only [not_forall] at hneeds
      obtain ⟨nodeid, hcall, hnode⟩ := hneeds
      rw [step_of_needs hcall hnode] at hfailure
      exact ⟨(Except.error.inj hfailure).symm, nodeid, hcall, hnode⟩

end

/-- All along every run of calls, the bookkeeping of block download is exact and no assertion
of it fails. -/
theorem always_sound (calls : List (DownloadCall H N I)) :
    Runs.Always step Sound calls (create : DownloadState H N I) := by
  have hkeeps : ∀ (peers : DownloadState H N I) call next, peers.Tracked → True →
      peers.step call = .ok next → next.Tracked := by
    intro peers call next htracked _ hstep
    by_cases hneeds : ∀ nodeid ∈ needs call, nodeid ∈ peers.mapNodeState
    · obtain ⟨after, hafter, hnext⟩ := htracked.step hneeds
      rw [hstep] at hafter
      exact Except.ok.inj hafter ▸ hnext
    · simp only [not_forall] at hneeds
      obtain ⟨nodeid, hcall, hnode⟩ := hneeds
      rw [step_of_needs hcall hnode] at hstep
      cases hstep
  exact ((Runs.throughout_true calls create).always hkeeps tracked_create).imp
    fun _ htracked => htracked.sound

end DownloadState

end Catoshi
