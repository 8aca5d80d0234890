/-
Asking a peer for headers (`chain.cpp`, `validation.cpp`, `net_processing.cpp`): the locator of a
block, the block a peer finds by it on its own chain, and the headers the peer answers with.
-/
import Catoshi.ForkPoints

namespace Catoshi

open CBlockIndex List

def maxHeadersResults : ℕ := 2000

/-- What the handler of `getheaders` reads besides the chain: the index, whether the node is in
initial block download, whether it has whitelisted the one who asks, and which blocks it tells. -/
structure HeadersServer where
  mapBlockIndex : Uint256 → Option CBlockIndex
  isInitialBlockDownload : Bool
  fWhitelisted : Bool
  blockRequestAllowed : CBlockIndex → Bool

namespace CChain

section

variable (chain : CChain)

def genesis : Option CBlockIndex := chain.get 0

def tip : Option CBlockIndex := chain.get chain.height

def next (pindex : CBlockIndex) : Option CBlockIndex :=
  if chain.contains pindex then chain.get (pindex.nHeight + 1) else none

/-- The loop of `GetLocator`, with the number of hashes before the block. -/
def locatorFrom : ℕ → ℕ → ℕ → Option CBlockIndex → List Uint256
  | fuel + 1, nStep, nHave, some pindex =>
    pindex.getBlockHash ::
      if pindex.nHeight = 0 then []
      else
        let nHeight := pindex.nHeight - nStep
        locatorFrom fuel (if 10 < nHave + 1 then nStep * 2 else nStep) (nHave + 1)
          (if chain.contains pindex then chain.get nHeight else pindex.getAncestor nHeight)
  | _, _, _, _ => []

def getLocator (pindex : Option CBlockIndex) : List Uint256 :=
  let pindex := pindex.or chain.tip
  chain.locatorFrom (pindex.elim 0 fun pindex => pindex.nHeight + 1) 1 0 pindex

/-- What `FindForkInGlobalIndex` returns for a block of the locator. -/
def forkFor (pindex : CBlockIndex) : Option CBlockIndex :=
  if chain.contains pindex then some pindex
  else if pindex.getAncestorInt chain.height = chain.tip then chain.tip
  else none

def findForkInGlobalIndex (mapBlockIndex : Uint256 → Option CBlockIndex) (vHave : List Uint256) :
    Option CBlockIndex :=
  (vHave.findSome? fun hash => (mapBlockIndex hash).bind chain.forkFor).or chain.genesis

/-- The loop of the handler of `getheaders`. -/
def headersFrom (hashStop : Uint256) : ℕ → Option CBlockIndex → List CBlockIndex
  | nLimit + 1, some pindex =>
    pindex :: if pindex.getBlockHash = hashStop then []
      else headersFrom hashStop nLimit (chain.next pindex)
  | _, _ => []

/-- The blocks whose headers are the answer to `getheaders`, if there is one. -/
def getHeaders (server : HeadersServer) (vHave : List Uint256) (hashStop : Uint256) :
    Option (List CBlockIndex) :=
  if server.isInitialBlockDownload ∧ ¬server.fWhitelisted then none
  else if vHave.isEmpty then
    ((server.mapBlockIndex hashStop).filter server.blockRequestAllowed).map fun pindex =>
      chain.headersFrom hashStop maxHeadersResults (some pindex)
  else some (chain.headersFrom hashStop maxHeadersResults
    ((chain.findForkInGlobalIndex server.mapBlockIndex vHave).bind chain.next))

/-- The headers a node with its own chain gets from a peer: it asks from `pindexLast`, and from
the last header of an answer on if the answer is full. -/
def syncHeaders (peer : CChain) (server : HeadersServer) : ℕ → CBlockIndex → List CBlockIndex
  | 0, _ => []
  | rounds + 1, pindexLast =>
    (peer.getHeaders server (chain.getLocator (some pindexLast)) (BaseBlob.null 32)).elim []
      fun headers => headers ++ if headers.length = maxHeadersResults then
        headers.getLast?.elim [] (syncHeaders peer server rounds) else []

end

variable {chain peer : CChain} {mapBlockIndex : Uint256 → Option CBlockIndex}
  {server : HeadersServer} {top : Option CBlockIndex} {tip start pindex fork found : CBlockIndex}

/-- A peer knows the blocks of its chain, and finds no other block by the hash of one of ours. -/
structure KnowsBlocks (mapBlockIndex : Uint256 → Option CBlockIndex)
    (tip start : CBlockIndex) : Prop where
  known : ∀ pindex ∈ tip.ancestors,
    mapBlockIndex pindex.getBlockHash = some pindex ∧ pindex.getBlockHash ≠ BaseBlob.null 32
  same : ∀ pindex ∈ start.ancestors, ∀ other ∈ mapBlockIndex pindex.getBlockHash, other = pindex

theorem Holds.tip_eq (hholds : chain.Holds (some tip)) : chain.tip = some tip := by
  have hheight : chain.height = tip.nHeight := by
    rw [height, hholds.length, Option.elim_some]
    push_cast
    ring
  rw [CChain.tip, hheight, hholds.get, Option.bind_some, getAncestorInt_natCast,
    getAncestor_self]

/-- Going down the chain or the skip pointers is the same. -/
theorem Holds.step_eq (hholds : chain.Holds top) {nHeight : ℕ}
    (hheight : nHeight ≤ pindex.nHeight) :
    (if chain.contains pindex then chain.get nHeight else pindex.getAncestor nHeight) =
      pindex.getAncestor nHeight := by
  split
  · next hcontains =>
    have hmem := hholds.contains_iff.1 hcontains
    cases top with
    | none => cases hmem
    | some top =>
      rw [hholds.get, Option.bind_some, getAncestorInt_natCast, getAncestor_of_mem hmem hheight]
  · rfl

section

variable (hholds : chain.Holds top) (hpeer : peer.Holds (some tip))
  (hcommon : HighestCommon start tip fork) (hknows : KnowsBlocks mapBlockIndex tip start)

include hpeer hcommon hknows in
/-- What the peer finds by the hash of one of our blocks. -/
theorem forkFor_spec (hmem : pindex ∈ start.ancestors) :
    (pindex.nHeight ≤ fork.nHeight →
      (mapBlockIndex pindex.getBlockHash).bind peer.forkFor = some pindex) ∧
    (fork.nHeight < pindex.nHeight →
      (mapBlockIndex pindex.getBlockHash).bind peer.forkFor = none ∨
      (mapBlockIndex pindex.getBlockHash).bind peer.forkFor = some fork) := by
  constructor
  · intro hlow
    have htip := ancestors_trans (mem_ancestors_of_le hmem hcommon.left hlow) hcommon.right
    rw [(hknows.known pindex htip).1, Option.bind_some, forkFor, if_pos (hpeer.contains_iff.2 htip)]
  · intro hhigh
    cases hfind : mapBlockIndex pindex.getBlockHash with
    | none => exact .inl rfl
    | some other =>
      obtain rfl := hknows.same pindex hmem other hfind
      rw [Option.bind_some, forkFor, hpeer.tip_eq]
      split_ifs with hcontains htop
      · have hbelow := hcommon.highest _ hmem (hpeer.contains_iff.1 hcontains)
        have hle := nHeight_le_of_mem hbelow
        omega
      · -- the block is above the tip of the peer
        have htip := ancestors_trans (mem_of_getAncestorInt htop) hmem
        have hbelow := hcommon.highest tip htip (ancestors_self tip)
        rw [ancestors_antisymm hbelow hcommon.right]
        exact .inr rfl
      · exact .inl rfl

include hholds hpeer hcommon hknows in
/-- The first block of the locator on the chain of the peer is at most twice as far back as the
fork. -/
theorem exists_locatorFrom {fuel nStep nHave : ℕ} (hmem : pindex ∈ start.ancestors)
    (hfuel : pindex.nHeight < fuel) (hpos : 0 < nStep)
    (hhave : nHave ≤ start.nHeight - pindex.nHeight)
    (hstep : 0 < pindex.nHeight → nStep ≤ max 1 (start.nHeight - pindex.nHeight))
    (hclose : pindex.nHeight ≤ fork.nHeight → 2 * fork.nHeight ≤ start.nHeight + pindex.nHeight) :
    ∃ found ∈ fork.ancestors,
      (chain.locatorFrom fuel nStep nHave (some pindex)).findSome?
        (fun hash => (mapBlockIndex hash).bind peer.forkFor) = some found ∧
      2 * fork.nHeight ≤ start.nHeight + found.nHeight := by
  induction fuel generalizing pindex nStep nHave with
  | zero => omega
  | succ fuel ih =>
    rw [locatorFrom, findSome?_cons]
    have hspec := forkFor_spec hpeer hcommon hknows hmem
    have hle := nHeight_le_of_mem hmem
    have hfork := nHeight_le_of_mem hcommon.left
    rcases le_or_gt pindex.nHeight fork.nHeight with hlow | hhigh
    · rw [hspec.1 hlow]
      exact ⟨pindex, mem_ancestors_of_le hmem hcommon.left hlow, rfl, hclose hlow⟩
    · rcases hspec.2 hhigh with hnone | hsome
      · simp only [hnone, if_neg (show ¬pindex.nHeight = 0 by omega),
          hholds.step_eq (Nat.sub_le _ _)]
        obtain ⟨below, hf, hbelow, hheight, -⟩ :=
          exists_getAncestor (Nat.sub_le pindex.nHeight nStep)
        rw [hf]
        -- a step is at most as long as the way so far, so it at most doubles the way
        apply ih (ancestors_trans hbelow hmem)
        all_goals grind
      · rw [hsome]
        exact ⟨fork, ancestors_self fork, rfl, by omega⟩

end

/-- The chain above a block begins with the next block. -/
theorem Holds.above_next (hpeer : peer.Holds (some tip)) (hmem : found ∈ tip.ancestors) :
    (peer.next found = none ∧ tip.above found = []) ∨
      ∃ pindex ∈ tip.ancestors, peer.next found = some pindex ∧
        (tip.above found).reverse = pindex :: (tip.above pindex).reverse := by
  have hheight : ((found.nHeight : ℤ) + 1) = (found.nHeight + 1 : ℕ) := rfl
  rw [next, if_pos (hpeer.contains_iff.2 hmem), hpeer.get, Option.bind_some, hheight,
    getAncestorInt_natCast]
  have hmap := map_getAncestor_above hmem
  rcases Nat.lt_or_ge found.nHeight tip.nHeight with hlow | hhigh
  · obtain ⟨pindex, hf, hnext, hsame, -⟩ := exists_getAncestor hlow
    have hrest := map_getAncestor_above hnext
    refine .inr ⟨pindex, hnext, hf, map_injective_iff.2 (Option.some_injective _) ?_⟩
    rw [← hmap, map_cons, ← hrest, ← hf, ← map_cons, hsame, ← range'_succ]
    congr 2
    omega
  · rw [Nat.sub_eq_zero_of_le hhigh] at hmap
    exact .inl ⟨getAncestor_of_lt (by omega), by simpa using hmap.symm⟩

section

variable (hpeer : peer.Holds (some tip)) (hmem : found ∈ tip.ancestors)

include hpeer hmem

/-- A block of the chain of the peer is found itself. -/
theorem Holds.findFork_of_mem (hknown : mapBlockIndex found.getBlockHash = some found) :
    peer.findForkInGlobalIndex mapBlockIndex (chain.getLocator (some found)) = some found := by
  rw [findForkInGlobalIndex, getLocator, Option.some_or, Option.elim_some, locatorFrom,
    findSome?_cons, hknown, Option.bind_some, forkFor, if_pos (hpeer.contains_iff.2 hmem)]
  rfl

theorem Holds.headersFrom_eq {hashStop : Uint256}
    (hstop : ∀ pindex ∈ tip.ancestors, pindex.getBlockHash ≠ hashStop) (nLimit : ℕ) :
    peer.headersFrom hashStop nLimit (peer.next found) = (tip.above found).reverse.take nLimit := by
  induction nLimit generalizing found with
  | zero => cases peer.next found <;> rfl
  | succ nLimit ih =>
    rcases hpeer.above_next hmem with ⟨hnext, hnone⟩ | ⟨pindex, hpindex, hnext, hcons⟩
    · rw [hnext, hnone]
      rfl
    · rw [hnext, hcons, headersFrom, if_neg (hstop pindex hpindex), ih hpindex, take_succ_cons]

/-- The chain goes on from the last block of a part of it. -/
theorem Holds.exists_last (count : ℕ) (hpos : 0 < count)
    (hcount : count ≤ (tip.above found).reverse.length) :
    ∃ last ∈ tip.ancestors, ((tip.above found).reverse.take count).getLast? = some last ∧
      (tip.above found).reverse.drop count = (tip.above last).reverse := by
  induction count generalizing found with
  | zero => cases hpos
  | succ count ih =>
    rcases hpeer.above_next hmem with ⟨-, hnone⟩ | ⟨pindex, hpindex, -, hcons⟩
    · rw [hnone] at hcount
      cases hcount
    · rw [hcons, length_cons] at hcount
      rw [hcons, take_succ_cons, drop_succ_cons]
      rcases Nat.eq_zero_or_pos count with rfl | hmore
      · exact ⟨pindex, hpindex, rfl, rfl⟩
      · obtain ⟨last, hlast, hget, hdrop⟩ := ih hpindex hmore (Nat.le_of_succ_le_succ hcount)
        exact ⟨last, hlast, by rw [getLast?_cons, hget, Option.getD_some], hdrop⟩

/-- From a block the peer finds for its locator, the headers of the chain above it arrive. -/
theorem Holds.syncHeaders_eq (hknows : KnowsBlocks server.mapBlockIndex tip start)
    (hanswers : server.isInitialBlockDownload → server.fWhitelisted)
    (hfound : peer.findForkInGlobalIndex server.mapBlockIndex (chain.getLocator (some pindex)) =
      some found) (rounds : ℕ) : chain.syncHeaders peer server rounds pindex =
      (tip.above found).reverse.take (maxHeadersResults * rounds) := by
  induction rounds generalizing pindex found with
  | zero => rfl
  | succ rounds ih =>
    have hlocator : ¬(chain.getLocator (some pindex)).isEmpty := by
      simp [getLocator, locatorFrom]
    have hheaders : peer.getHeaders server (chain.getLocator (some pindex))
        (BaseBlob.null 32) = some ((tip.above found).reverse.take maxHeadersResults) := by
      rw [getHeaders, if_neg (by simpa using hanswers), if_neg hlocator, hfound, Option.bind_some,
        hpeer.headersFrom_eq hmem fun other ho => (hknows.known other ho).2]
    rw [syncHeaders, hheaders, Option.elim_some, Nat.mul_succ, Nat.add_comm, take_add]
    congr 1
    split_ifs with hfull
    · obtain ⟨last, hlast, hget, hdrop⟩ := hpeer.exists_last hmem maxHeadersResults
        (by decide) (by simpa using hfull)
      rw [hget, hdrop, Option.elim_some]
      exact ih hlast (hpeer.findFork_of_mem hlast (hknows.known last hlast).1)
    · rw [drop_eq_nil_of_le, take_nil]
      rw [length_take] at hfull
      omega

end

/-- Asking a peer with the same genesis block that answers, whatever tips both have had, brings all
headers of its chain above a block that both have, in their order. The block is at most twice as
far back as the fork. -/
theorem headers_sync (tips peerTips : List (Option CBlockIndex)) (hroot : start.root = tip.root)
    (hknows : KnowsBlocks server.mapBlockIndex tip start)
    (hanswers : server.isInitialBlockDownload → server.fWhitelisted) :
    ∃ fork found, start.lastCommonAncestor tip = some fork ∧ found ∈ fork.ancestors ∧
      start.nHeight - found.nHeight ≤ 2 * (start.nHeight - fork.nHeight) ∧
      ∀ rounds, (tips.foldl setTip ⟨[]⟩).syncHeaders
        ((peerTips ++ [some tip]).foldl setTip ⟨[]⟩) server rounds start =
          (tip.above found).reverse.take (maxHeadersResults * rounds) := by
  have hpeer := holds_foldl_setTip (peerTips ++ [some tip])
  rw [getLast?_concat, Option.join_some] at hpeer
  obtain ⟨fork, hfork, hcommon⟩ := exists_lastCommonAncestor hroot
  have hle := nHeight_le_of_mem hcommon.left
  obtain ⟨found, hmem, hfound, hclose⟩ := exists_locatorFrom (holds_foldl_setTip tips) hpeer hcommon
    hknows (ancestors_self start) (Nat.lt_succ_self _) Nat.one_pos (Nat.zero_le _)
    (fun _ => le_max_left _ _) (by omega)
  refine ⟨fork, found, hfork, hmem, by omega, fun rounds => ?_⟩
  apply hpeer.syncHeaders_eq (ancestors_trans hmem hcommon.right) hknows hanswers
  rw [findForkInGlobalIndex, getLocator, Option.some_or, Option.elim_some, hfound, Option.some_or]

end CChain

namespace HeadersSyncWitness

/-- Two blocks on one genesis block; the peer knows its own. -/
def ours : CBlockIndex := .child (.genesis (hashOf 1) 5) (hashOf 2) 10

def theirs : CBlockIndex := .child (.genesis (hashOf 1) 5) (hashOf 3) 10

/-- The peer is up to date. -/
def server : HeadersServer where
  mapBlockIndex hash := theirs.ancestors.find? (·.getBlockHash = hash)
  isInitialBlockDownload := false
  fWhitelisted := false
  blockRequestAllowed _ := true

theorem headers_sync_fork : ∃ fork found, ours.lastCommonAncestor theirs = some fork ∧
    CChain.syncHeaders ([some ours].foldl CChain.setTip ⟨[]⟩)
      ([some theirs].foldl CChain.setTip ⟨[]⟩) server 1 ours =
        (theirs.above found).reverse.take 2000 := by
  have hknows : CChain.KnowsBlocks server.mapBlockIndex theirs ours := ⟨by decide, by decide⟩
  have hroot : ours.root = theirs.root := rfl
  obtain ⟨fork, found, hfork, -, -, hsync⟩ := CChain.headers_sync [some ours] [] hroot hknows
    (by decide)
  exact ⟨fork, found, hfork, hsync 1⟩

end HeadersSyncWitness

end Catoshi
