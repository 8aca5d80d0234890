/-
Pruning (`validation.cpp`): block files are removed as a whole, by the highest block a file was
ever given.
-/
import Catoshi.BlockFileRanges
import Catoshi.BlockTreeSpec

namespace Catoshi

open BlockTree Function List

/-- Where the data and the undo data of a block are. -/
structure BlockPosition where
  nFile : ℕ
  nDataPos : ℕ
  nUndoPos : ℕ
deriving DecidableEq, Repr

structure StoredTree where
  tree : BlockTree
  files : BlockFiles
  pos : CBlockIndex → BlockPosition

namespace StoredTree

/-- `SaveBlockToDisk` and `ReceivedBlockTransactions`, as `AcceptBlock` calls them for missing
data. `written` is whether `WriteBlockToDisk` succeeds. -/
def saveBlock (params : TreeParams) (env : DiskEnv) (state : StoredTree) (pindex : CBlockIndex)
    (known : Option CDiskBlockPos) (nBlockSize nTime nTx : ℕ) (written : Bool) :
    Except Fault StoredTree :=
  if (state.tree.entry pindex).haveData then .ok state
  else do
    let result ← state.files.findBlockPos env known (nBlockSize + 8) pindex.nHeight nTime
    if result.success && (known.isSome || written) then
      -- a new block is written behind a header of eight bytes
      let nDataPos := if known.isSome then result.pos.nPos else result.pos.nPos + 8
      .ok { tree := state.tree.receivedBlockTransactions params pindex nTx
            files := result.files
            pos := update state.pos pindex ⟨result.pos.nFile, nDataPos, 0⟩ }
    else
      .ok { state with files := result.files }

/-- `WriteUndoDataForBlock`. -/
def writeUndo (env : DiskEnv) (state : StoredTree) (pindex : CBlockIndex) (nUndoSize : ℕ)
    (written : Bool) : Except Fault StoredTree :=
  if (state.tree.entry pindex).haveUndo then .ok state
  else do
    let result ← state.files.findUndoPos env (state.pos pindex).nFile (nUndoSize + 40)
    if result.success && written then
      .ok { tree := state.tree.modify pindex fun entry => { entry with haveUndo := true }
            files := result.files
            pos := update state.pos pindex
              { state.pos pindex with nUndoPos := result.pos.nPos + 8 } }
    else
      .ok { state with files := result.files }

/-- What `PruneOneBlockFile` does with a block. -/
def pruneBlock (state : StoredTree) (pindex : CBlockIndex) : StoredTree :=
  { state with
    tree := { state.tree.modify pindex
        (fun entry => { entry with haveData := false, haveUndo := false }) with
      mapBlocksUnlinked := state.tree.mapBlocksUnlinked.filter fun waiting =>
        !(decide (some waiting.1 = pindex.pprev) && decide (waiting.2 = pindex)) }
    pos := update state.pos pindex ⟨0, 0, 0⟩ }

def pruneOneBlockFile (state : StoredTree) (fileNumber : ℕ) : StoredTree :=
  let pruned := state.tree.mapBlockIndex.foldl (fun state pindex =>
    if (state.pos pindex).nFile = fileNumber then state.pruneBlock pindex else state) state
  { pruned with
    files := { pruned.files with
      vinfoBlockFile := pruned.files.vinfoBlockFile.modify fileNumber fun _ => .null } }

/-- `chainActive.Tip()->nHeight - MIN_BLOCKS_TO_KEEP`, unsigned. -/
def lastPrunable (tip : CBlockIndex) : ℕ := (tip.nHeight + (2 ^ 32 - minBlocksToKeep)) % 2 ^ 32

/-- The loop of `FindFilesToPruneManual`. -/
def pruneManualLoop (nLastBlockWeCanPrune : ℕ) : List ℕ → List ℕ → StoredTree →
    List ℕ × StoredTree
  | [], setFilesToPrune, state => (setFilesToPrune, state)
  | fileNumber :: rest, setFilesToPrune, state =>
    let info := infoAt state.files.vinfoBlockFile fileNumber
    if info.nSize = 0 ∨ nLastBlockWeCanPrune < info.nHeightLast then
      pruneManualLoop nLastBlockWeCanPrune rest setFilesToPrune state
    else
      pruneManualLoop nLastBlockWeCanPrune rest (fileNumber :: setFilesToPrune)
        (state.pruneOneBlockFile fileNumber)

def findFilesToPruneManual (state : StoredTree) (tip : Option CBlockIndex)
    (nManualPruneHeight : ℕ) : Except Fault (List ℕ × StoredTree) :=
  if nManualPruneHeight = 0 then .error (.assertFailed "fPruneMode && nManualPruneHeight > 0")
  else
    match tip with
    | none => .ok ([], state)
    | some tip =>
      .ok (pruneManualLoop (min nManualPruneHeight (lastPrunable tip))
        (List.range state.files.nLastBlockFile) [] state)

/-- The bytes of a block and its undo file, in 32 bits. -/
def usage (info : CBlockFileInfo) : ℕ := (info.nSize + info.nUndoSize) % 2 ^ 32

def calculateCurrentUsage (files : BlockFiles) : ℕ :=
  files.vinfoBlockFile.foldl (fun retval info => (retval + usage info) % 2 ^ 64) 0

/-- The loop of `FindFilesToPrune`. -/
def pruneLoop (nPruneTarget nLastBlockWeCanPrune : ℕ) : List ℕ → ℕ → List ℕ → StoredTree →
    List ℕ × StoredTree
  | [], _, setFilesToPrune, state => (setFilesToPrune, state)
  | fileNumber :: rest, nCurrentUsage, setFilesToPrune, state =>
    let info := infoAt state.files.vinfoBlockFile fileNumber
    if info.nSize = 0 then
      pruneLoop nPruneTarget nLastBlockWeCanPrune rest nCurrentUsage setFilesToPrune state
    else if (nCurrentUsage + (blockFileChunkSize + undoFileChunkSize)) % 2 ^ 64 < nPruneTarget then
      (setFilesToPrune, state)
    else if nLastBlockWeCanPrune < info.nHeightLast then
      pruneLoop nPruneTarget nLastBlockWeCanPrune rest nCurrentUsage setFilesToPrune state
    else
      pruneLoop nPruneTarget nLastBlockWeCanPrune rest
        ((nCurrentUsage + (2 ^ 64 - usage info)) % 2 ^ 64) (fileNumber :: setFilesToPrune)
        (state.pruneOneBlockFile fileNumber)

def findFilesToPrune (state : StoredTree) (tip : Option CBlockIndex)
    (nPruneTarget nPruneAfterHeight : ℕ) : List ℕ × StoredTree :=
  match tip with
  | none => ([], state)
  | some tip =>
    if nPruneTarget = 0 ∨ tip.nHeight ≤ nPruneAfterHeight then ([], state)
    else if nPruneTarget ≤ (calculateCurrentUsage state.files +
        (blockFileChunkSize + undoFileChunkSize)) % 2 ^ 64 then
      pruneLoop nPruneTarget (lastPrunable tip) (List.range state.files.nLastBlockFile)
        (calculateCurrentUsage state.files) [] state
    else
      ([], state)

end StoredTree

/-- The calls that give blocks a place in the files, or take it. -/
inductive StoreCall where
  | addToBlockIndex (block : CBlockHeader)
  | saveBlock (env : DiskEnv) (hash : Uint256) (known : Option CDiskBlockPos)
      (nBlockSize nTime nTx : ℕ) (written : Bool)
  | writeUndo (env : DiskEnv) (hash : Uint256) (nUndoSize : ℕ) (written : Bool)
  | findFilesToPrune (tip : Option CBlockIndex) (nPruneTarget nPruneAfterHeight : ℕ)
  | findFilesToPruneManual (tip : Option CBlockIndex) (nManualPruneHeight : ℕ)

namespace StoredTree

/-- The state after a call.  Blocks are given by their hashes. -/
def call (params : TreeParams) (state : StoredTree) : StoreCall → Except Fault StoredTree
  | .addToBlockIndex block =>
    .ok { state with tree := (state.tree.addToBlockIndex params block).2 }
  | .saveBlock env hash known nBlockSize nTime nTx written =>
    match state.tree.find hash with
    | none => .ok state
    | some pindex => state.saveBlock params env pindex known nBlockSize nTime nTx written
  | .writeUndo env hash nUndoSize written =>
    match state.tree.find hash with
    | none => .ok state
    | some pindex => state.writeUndo env pindex nUndoSize written
  | .findFilesToPrune tip nPruneTarget nPruneAfterHeight =>
    .ok (state.findFilesToPrune tip nPruneTarget nPruneAfterHeight).2
  | .findFilesToPruneManual tip nManualPruneHeight =>
    (state.findFilesToPruneManual tip nManualPruneHeight).map Prod.snd

/-- A node that has stored only the genesis block, of the given size. -/
def initial (params : TreeParams) (nTime : UInt32) (nTx nBlockSize : ℕ) : StoredTree where
  tree := BlockTree.initial params nTime nTx
  files := ⟨[{ CBlockFileInfo.null.addBlock 0 nTime.toNat with nSize := nBlockSize + 8 }], 0⟩
  pos := update (fun _ => ⟨0, 0, 0⟩) (.genesis params.hashGenesisBlock nTime) ⟨0, 8, 0⟩

/-! ### One file -/

def InFile (state : StoredTree) (pindex : CBlockIndex) (fileNumber : ℕ) : Prop :=
  (state.tree.entry pindex).haveData = true ∧ (state.pos pindex).nFile = fileNumber

/-- One round of `PruneOneBlockFile`. -/
def pruneRound (fileNumber : ℕ) (state : StoredTree) (pindex : CBlockIndex) : StoredTree :=
  if (state.pos pindex).nFile = fileNumber then state.pruneBlock pindex else state

/-- A block loses its data and place if `gone`, else keeps them. -/
def Lost (gone : Prop) [Decidable gone] (state next : StoredTree) (other : CBlockIndex) : Prop :=
  next.tree.entry other =
      (if gone then { state.tree.entry other with haveData := false, haveUndo := false }
      else state.tree.entry other) ∧
    next.pos other = if gone then ⟨0, 0, 0⟩ else state.pos other

theorem pruneRound_spec (fileNumber : ℕ) (state : StoredTree) (pindex other : CBlockIndex) :
    Lost (other = pindex ∧ (state.pos other).nFile = fileNumber) state
      (pruneRound fileNumber state pindex) other := by
  rw [pruneRound, Lost]
  by_cases hsame : other = pindex
  · subst hsame
    split
    · next hfile =>
      rw [if_pos ⟨rfl, hfile⟩, if_pos ⟨rfl, hfile⟩]
      exact ⟨update_self _ _ _, update_self _ _ _⟩
    · next hfile => simp [hfile]
  · split
    · simp [pruneBlock, hsame]
    · simp [hsame]

/-- Which blocks the loop takes the data of, and where they stand then. -/
theorem entry_foldl_pruneRound (fileNumber : ℕ) (blocks : List CBlockIndex) (state : StoredTree)
    (other : CBlockIndex) :
    Lost (other ∈ blocks ∧ (state.pos other).nFile = fileNumber) state
      (blocks.foldl (pruneRound fileNumber) state) other := by
  induction blocks generalizing state with
  | nil => simp [Lost]
  | cons pindex blocks ih =>
    obtain ⟨hent, hpos⟩ := ih (pruneRound fileNumber state pindex)
    obtain ⟨hround, hmoved⟩ := pruneRound_spec fileNumber state pindex other
    rw [Lost, foldl_cons, hent, hpos, hround, hmoved]
    by_cases hsame : other = pindex
    · by_cases hfile : (state.pos other).nFile = fileNumber
      · simp [hsame ▸ hfile, hsame]
      · simp [hfile]
    · simp [hsame]

variable {fileNumber : ℕ}

theorem mem_unlinked_foldl_pruneRound {blocks : List CBlockIndex} {state : StoredTree}
    {waiting : CBlockIndex × CBlockIndex}
    (hwaiting : waiting ∈ (blocks.foldl (pruneRound fileNumber) state).tree.mapBlocksUnlinked) :
    waiting ∈ state.tree.mapBlocksUnlinked ∧
      ¬ (waiting.2 ∈ blocks ∧ (state.pos waiting.2).nFile = fileNumber ∧
        some waiting.1 = waiting.2.pprev) := by
  induction blocks generalizing state with
  | nil => exact ⟨hwaiting, fun hboth => absurd hboth.1 not_mem_nil⟩
  | cons pindex blocks ih =>
    obtain ⟨hround, hrest⟩ := ih hwaiting
    rw [(pruneRound_spec fileNumber state pindex waiting.2).2] at hrest
    have hstep : waiting ∈ state.tree.mapBlocksUnlinked ∧
        ¬ (waiting.2 = pindex ∧ (state.pos waiting.2).nFile = fileNumber ∧
          some waiting.1 = waiting.2.pprev) := by
      rw [pruneRound] at hround
      split_ifs at hround with hfile
      · obtain ⟨hmem, htest⟩ := mem_filter.1 hround
        refine ⟨hmem, ?_⟩
        rintro ⟨rfl, -, hprev⟩
        simp [hprev] at htest
      · refine ⟨hround, ?_⟩
        rintro ⟨rfl, hbad, -⟩
        exact hfile hbad
    refine ⟨hstep.1, ?_⟩
    rintro ⟨hmem, hfile, hprev⟩
    by_cases hsame : waiting.2 = pindex
    · exact hstep.2 ⟨hsame, hfile, hprev⟩
    · rw [if_neg fun hboth => hsame hboth.1] at hrest
      exact hrest ⟨(mem_cons.1 hmem).resolve_left hsame, hfile, hprev⟩

theorem foldl_pruneRound_keeps {β : Type*} (part : StoredTree → β)
    (hpart : ∀ (state : StoredTree) pindex, part (state.pruneBlock pindex) = part state)
    (fileNumber : ℕ) (blocks : List CBlockIndex) (state : StoredTree) :
    part (blocks.foldl (pruneRound fileNumber) state) = part state := by
  induction blocks generalizing state with
  | nil => rfl
  | cons pindex blocks ih =>
    rw [foldl_cons, ih, pruneRound]
    split
    · exact hpart state pindex
    · rfl

theorem entry_pruneOneBlockFile (state : StoredTree) (fileNumber : ℕ) (other : CBlockIndex) :
    Lost (other ∈ state.tree.mapBlockIndex ∧ (state.pos other).nFile = fileNumber) state
      (state.pruneOneBlockFile fileNumber) other :=
  entry_foldl_pruneRound fileNumber state.tree.mapBlockIndex state other

theorem mapBlockIndex_pruneOneBlockFile (state : StoredTree) (fileNumber : ℕ) :
    (state.pruneOneBlockFile fileNumber).tree.mapBlockIndex = state.tree.mapBlockIndex :=
  foldl_pruneRound_keeps (fun state => state.tree.mapBlockIndex) (fun _ _ => rfl) _ _ _

/-- Only the info of the file itself is reset. -/
theorem files_pruneOneBlockFile (state : StoredTree) (fileNumber : ℕ) :
    (state.pruneOneBlockFile fileNumber).files = { state.files with
      vinfoBlockFile := state.files.vinfoBlockFile.modify fileNumber fun _ => .null } := by
  have hfiles : (state.tree.mapBlockIndex.foldl (pruneRound fileNumber) state).files =
      state.files := foldl_pruneRound_keeps StoredTree.files (fun _ _ => rfl) _ _ _
  rw [← hfiles]
  rfl

theorem infoAt_pruneOneBlockFile_of_ne (state : StoredTree) {other : ℕ} (hne : other ≠ fileNumber) :
    infoAt (state.pruneOneBlockFile fileNumber).files.vinfoBlockFile other =
      infoAt state.files.vinfoBlockFile other := by
  rw [files_pruneOneBlockFile]
  simp [infoAt, hne.symm]

/-- A loop over files prunes some of them, none that records a block above the limit. -/
inductive Prunes (limit : ℕ) : List ℕ → List ℕ × StoredTree → List ℕ × StoredTree → Prop
  | stop (files s) : Prunes limit files s s
  | skip (head : ℕ) {files s s'} (hprunes : Prunes limit files s s') :
      Prunes limit (head :: files) s s'
  | prune {head : ℕ} {files chosen : List ℕ} {state : StoredTree} {s'}
      (hlimit : (infoAt state.files.vinfoBlockFile head).nHeightLast ≤ limit)
      (hprunes : Prunes limit files (head :: chosen, state.pruneOneBlockFile head) s') :
      Prunes limit (head :: files) (chosen, state) s'

/-! ### Heights -/

/-- No file has a block higher than it records, and blocks wait under their predecessors. -/
structure Filed (state : StoredTree) : Prop where
  height : ∀ pindex ∈ state.tree.mapBlockIndex, (state.tree.entry pindex).haveData = true →
    pindex.nHeight ≤ (infoAt state.files.vinfoBlockFile (state.pos pindex).nFile).nHeightLast
  waiting : ∀ waiting ∈ state.tree.mapBlocksUnlinked, waiting.2.pprev = some waiting.1

section Steps

variable {params : TreeParams} {state next : StoredTree}
  {env : DiskEnv} {files : BlockFiles} {known : Option CDiskBlockPos}
  {nAddSize nTime nLastBlockWeCanPrune fileNumber : ℕ} {result : PosResult} {pindex : CBlockIndex}
  {written : Bool} {chosen : List ℕ}

/-- A call only raises what a file records, and records the block's height. -/
theorem findBlockPos_heights {nHeight : ℕ}
    (hres : files.findBlockPos env known nAddSize nHeight nTime = .ok result) :
    (∀ other, (infoAt files.vinfoBlockFile other).nHeightLast ≤
        (infoAt result.files.vinfoBlockFile other).nHeightLast) ∧
      nHeight ≤ (infoAt result.files.vinfoBlockFile result.pos.nFile).nHeightLast := by
  -- both ways change the info of one file by `AddBlock` and set its size
  have hmodify : ∀ (vinfoBlockFile : List CBlockFileInfo) (nFile : ℕ)
      (change : CBlockFileInfo → CBlockFileInfo),
      nFile < vinfoBlockFile.length →
      (∀ other, infoAt vinfoBlockFile other = infoAt files.vinfoBlockFile other) →
      (∀ info, (change info).nHeightLast = (info.addBlock nHeight nTime).nHeightLast) →
      (∀ other, (infoAt files.vinfoBlockFile other).nHeightLast ≤
          (infoAt (vinfoBlockFile.modify nFile change) other).nHeightLast) ∧
        nHeight ≤ (infoAt (vinfoBlockFile.modify nFile change) nFile).nHeightLast := by
    intro vinfoBlockFile nFile change hlen hinfo hchange
    have hraise : ∀ info : CBlockFileInfo, info.nHeightLast ≤ (change info).nHeightLast ∧
        nHeight ≤ (change info).nHeightLast := by
      intro info
      rw [hchange, CBlockFileInfo.addBlock]
      dsimp only
      split_ifs with hlower
      · exact ⟨hlower.le, le_rfl⟩
      · exact ⟨le_rfl, not_lt.1 hlower⟩
    constructor
    · intro other
      rw [infoAt_modify hlen, hinfo, hinfo]
      split_ifs with hsame
      · rw [hsame]; exact (hraise _).1
      · exact le_rfl
    · rw [infoAt_modify hlen, if_pos rfl]
      exact (hraise _).2
  cases known with
  | some pos =>
    obtain rfl := Except.ok.inj hres
    exact hmodify _ _ _ (lt_length_growInfos _ _) (infoAt_growInfos _ _) fun _ => rfl
  | none =>
    rw [BlockFiles.findBlockPos, Outcome.bind_ok_iff] at hres
    obtain ⟨found, hfind, hres⟩ := hres
    obtain ⟨hlen, hinfo, -⟩ := findFile_spec hfind
    obtain rfl := Except.ok.inj hres
    exact hmodify _ _ _ hlen hinfo fun _ => rfl

theorem findUndoPos_heights {nFile : ℕ}
    (hres : files.findUndoPos env nFile nAddSize = .ok result) (other : ℕ) :
    (infoAt result.files.vinfoBlockFile other).nHeightLast =
      (infoAt files.vinfoBlockFile other).nHeightLast := by
  rw [BlockFiles.findUndoPos] at hres
  split at hres
  · cases hres
  · next info hf =>
    obtain rfl := Except.ok.inj hres
    have hlen : nFile < files.vinfoBlockFile.length := (List.getElem?_eq_some_iff.1 hf).1
    refine (congrArg CBlockFileInfo.nHeightLast (infoAt_modify hlen _ other)).trans ?_
    split_ifs with hsame
    · rw [hsame]
    · rfl

/-- Storing a block gives data to it alone. -/
theorem haveData_receivedBlockTransactions (tree : BlockTree) (pindex other : CBlockIndex)
    (nTx : ℕ) :
    ((tree.receivedBlockTransactions params pindex nTx).entry other).haveData =
      if other = pindex then true else (tree.entry other).haveData := by
  rw [(queued_received params tree pindex nTx).linked.entry, entry_stored]
  split <;> rfl

theorem waiting_receivedBlockTransactions {tree : BlockTree} (pindex : CBlockIndex) (nTx : ℕ)
    (hwaiting : ∀ waiting ∈ tree.mapBlocksUnlinked, waiting.2.pprev = some waiting.1) :
    ∀ waiting ∈ (tree.receivedBlockTransactions params pindex nTx).mapBlocksUnlinked,
      waiting.2.pprev = some waiting.1 := by
  rcases received_cases params tree pindex nTx with
    ⟨-, heq⟩ | ⟨pprev, hprev, -, ⟨-, heq⟩ | ⟨-, heq⟩⟩
  · rw [heq]
    refine linkBlocks_induction (fun _ next => ∀ waiting ∈ next.mapBlocksUnlinked,
      waiting.2.pprev = some waiting.1) (fun _ _ _ hnext waiting hmem => ?_)
      (Nat.add_comm _ _).le hwaiting
    exact hnext waiting (mem_filter.1 hmem).1
  · rw [heq]
    exact forall_mem_cons.2 ⟨hprev, hwaiting⟩
  · rw [heq]
    exact hwaiting

theorem prunes_pruneManualLoop (nLastBlockWeCanPrune : ℕ) (files chosen : List ℕ) :
    Prunes nLastBlockWeCanPrune files (chosen, state)
      (pruneManualLoop nLastBlockWeCanPrune files chosen state) := by
  induction files generalizing chosen state with
  | nil => exact .stop _ _
  | cons head files ih =>
    rw [pruneManualLoop]
    split_ifs with hlimit
    · exact .skip _ (ih _)
    · exact .prune (not_lt.1 (not_or.1 hlimit).2) (ih _)

theorem prunes_pruneLoop (nPruneTarget nLastBlockWeCanPrune : ℕ) (files : List ℕ)
    (nCurrentUsage : ℕ) (chosen : List ℕ) : Prunes nLastBlockWeCanPrune files (chosen, state)
      (pruneLoop nPruneTarget nLastBlockWeCanPrune files nCurrentUsage chosen state) := by
  induction files generalizing nCurrentUsage chosen state with
  | nil => exact .stop _ _
  | cons head files ih =>
    rw [pruneLoop]
    split
    · exact .skip _ (ih _ _)
    · split
      · exact .stop _ _
      · split_ifs with hlimit
        · exact .skip _ (ih _ _)
        · exact .prune (not_lt.1 hlimit) (ih _ _)

/-- The chosen files record no block above the limit. -/
theorem Prunes.mem {files : List ℕ} {s s' : List ℕ × StoredTree} (hnd : files.Nodup)
    (hprunes : Prunes nLastBlockWeCanPrune files s s') (hmem : fileNumber ∈ s'.1) :
    fileNumber ∈ s.1 ∨ fileNumber ∈ files ∧
      (infoAt s.2.files.vinfoBlockFile fileNumber).nHeightLast ≤ nLastBlockWeCanPrune := by
  induction hprunes with
  | stop files s => exact .inl hmem
  | skip head hprunes ih =>
    exact (ih hnd.of_cons hmem).imp_right fun hlater => ⟨mem_cons_of_mem _ hlater.1, hlater.2⟩
  | @prune head _ _ state _ hlimit hprunes ih =>
    obtain ⟨hhead, hfiles⟩ := nodup_cons.1 hnd
    rcases ih hfiles hmem with hchosen | ⟨hlater, hheight⟩
    · rcases mem_cons.1 hchosen with rfl | hchosen
      · exact .inr ⟨mem_cons_self, hlimit⟩
      · exact .inl hchosen
    · have hne : fileNumber ≠ head := fun hsame => hhead (hsame ▸ hlater)
      rw [infoAt_pruneOneBlockFile_of_ne state hne] at hheight
      exact .inr ⟨mem_cons_of_mem _ hlater, hheight⟩

section

variable (hfiled : state.Filed)

include hfiled

theorem Filed.saveBlock {nBlockSize nTx : ℕ}
    (hcall : state.saveBlock params env pindex known nBlockSize nTime nTx written = .ok next) :
    next.Filed := by
  rw [StoredTree.saveBlock] at hcall
  split at hcall
  · cases hcall
    exact hfiled
  · rw [Outcome.bind_ok_iff] at hcall
    obtain ⟨result, hres, hcall⟩ := hcall
    obtain ⟨hraise, hheight⟩ := findBlockPos_heights hres
    split at hcall
    · cases hcall
      refine ⟨fun other hknown hdata => ?_,
        waiting_receivedBlockTransactions pindex nTx hfiled.waiting⟩
      have hmap := (queued_received params state.tree pindex nTx).linked.mapBlockIndex
      rw [haveData_receivedBlockTransactions] at hdata
      by_cases hsame : other = pindex
      · subst hsame
        dsimp only
        rw [update_self]
        exact hheight
      · rw [if_neg hsame] at hdata
        dsimp only
        rw [update_of_ne hsame]
        exact (hfiled.height other (hmap ▸ hknown) hdata).trans (hraise _)
    · cases hcall
      exact ⟨fun other hknown hdata => (hfiled.height other hknown hdata).trans (hraise _),
        hfiled.waiting⟩

theorem Filed.writeUndo {nUndoSize : ℕ}
    (hcall : state.writeUndo env pindex nUndoSize written = .ok next) : next.Filed := by
  rw [StoredTree.writeUndo] at hcall
  split at hcall
  · cases hcall
    exact hfiled
  · rw [Outcome.bind_ok_iff] at hcall
    obtain ⟨result, hres, hcall⟩ := hcall
    have hsame := findUndoPos_heights hres
    split at hcall
    · cases hcall
      refine ⟨fun other hknown hdata => ?_, hfiled.waiting⟩
      have hent : ((state.tree.modify pindex fun entry =>
          { entry with haveUndo := true }).entry other).haveData =
          (state.tree.entry other).haveData := by
        rw [entry_modify]
        split <;> rfl
      have hfile : (update state.pos pindex { state.pos pindex with
          nUndoPos := result.pos.nPos + 8 } other).nFile = (state.pos other).nFile := by
        rw [update_apply]
        split_ifs with heq
        · rw [heq]
        · rfl
      rw [hent] at hdata
      rw [hfile, hsame]
      exact hfiled.height other hknown hdata
    · cases hcall
      refine ⟨fun other hknown hdata => ?_, hfiled.waiting⟩
      rw [hsame]
      exact hfiled.height other hknown hdata

theorem Filed.pruneOneBlockFile (fileNumber : ℕ) : (state.pruneOneBlockFile fileNumber).Filed := by
  constructor
  · intro other hknown hdata
    rw [mapBlockIndex_pruneOneBlockFile] at hknown
    obtain ⟨hent, hpos⟩ := entry_pruneOneBlockFile state fileNumber other
    rw [hent] at hdata
    split_ifs at hdata with hkept
    have ho : (state.pos other).nFile ≠ fileNumber := fun hfile => hkept ⟨hknown, hfile⟩
    rw [hpos, if_neg hkept, infoAt_pruneOneBlockFile_of_ne state ho]
    exact hfiled.height other hknown hdata
  · exact fun waiting hwaiting =>
      hfiled.waiting waiting (mem_unlinked_foldl_pruneRound hwaiting).1

theorem Filed.addToBlockIndex (block : CBlockHeader) :
    ({ state with tree := (state.tree.addToBlockIndex params block).2 } : StoredTree).Filed := by
  cases hfind : state.tree.find block.hash with
  | some pindex =>
    rw [BlockTree.addToBlockIndex, hfind]
    exact hfiled
  | none =>
    -- a new header comes without data
    have hnew : ∃ (pindexNew : CBlockIndex) (entry : BlockEntry), entry.haveData = false ∧
        (state.tree.addToBlockIndex params block).2 = { state.tree with
          mapBlockIndex := pindexNew :: state.tree.mapBlockIndex
          entry := update state.tree.entry pindexNew entry } := by
      rw [BlockTree.addToBlockIndex, hfind]
      exact ⟨_, _, by rw [BlockEntry.raiseValidity_eq]; rfl, rfl⟩
    obtain ⟨pindexNew, entry, hent, htree⟩ := hnew
    rw [htree]
    refine ⟨fun other hknown hdata => ?_, hfiled.waiting⟩
    dsimp only at hknown hdata ⊢
    by_cases hsame : other = pindexNew
    · rw [hsame, update_self, hent] at hdata
      cases hdata
    · rw [update_of_ne hsame] at hdata
      exact hfiled.height other ((mem_cons.1 hknown).resolve_left hsame) hdata

omit hfiled in
theorem Prunes.filed {files : List ℕ} {s s' : List ℕ × StoredTree}
    (hprunes : Prunes nLastBlockWeCanPrune files s s') (hfiled : s.2.Filed) : s'.2.Filed := by
  induction hprunes with
  | stop => exact hfiled
  | skip head hprunes ih => exact ih hfiled
  | prune hlimit hprunes ih => exact ih (hfiled.pruneOneBlockFile _)

/-- Every call keeps the heights right. -/
theorem Filed.call {call : StoreCall} (hcall : state.call params call = .ok next) : next.Filed := by
  cases call with
  | addToBlockIndex block =>
    cases hcall
    exact hfiled.addToBlockIndex block
  | saveBlock env hash known nBlockSize nTime nTx written =>
    rw [StoredTree.call] at hcall
    split at hcall
    · cases hcall
      exact hfiled
    · exact hfiled.saveBlock hcall
  | writeUndo env hash nUndoSize written =>
    rw [StoredTree.call] at hcall
    split at hcall
    · cases hcall
      exact hfiled
    · exact hfiled.writeUndo hcall
  | findFilesToPrune tip nPruneTarget nPruneAfterHeight =>
    cases hcall
    cases tip with
    | none => exact hfiled
    | some tip =>
      rw [findFilesToPrune]
      split
      · exact hfiled
      · split
        · exact (prunes_pruneLoop _ _ _ _ _).filed hfiled
        · exact hfiled
  | findFilesToPruneManual tip nManualPruneHeight =>
    rw [StoredTree.call, findFilesToPruneManual.eq_def] at hcall
    split at hcall
    · cases hcall
    · split at hcall
      · cases hcall
        exact hfiled
      · cases hcall
        exact (prunes_pruneManualLoop _ _ _).filed hfiled

end

theorem filed_initial (params : TreeParams) (nTime : UInt32) (nTx nBlockSize : ℕ) :
    (initial params nTime nTx nBlockSize).Filed := by
  refine ⟨fun pindex hknown _ => ?_, nofun⟩
  obtain rfl := mem_singleton.1 hknown
  exact Nat.zero_le _

end Steps

theorem lastPrunable_le {tip : CBlockIndex} (htip : minBlocksToKeep ≤ tip.nHeight) :
    lastPrunable tip ≤ tip.nHeight - minBlocksToKeep := by
  rw [lastPrunable, show tip.nHeight + (2 ^ 32 - minBlocksToKeep) =
    tip.nHeight - minBlocksToKeep + 2 ^ 32 by rw [minBlocksToKeep] at htip ⊢; omega,
    Nat.add_mod_right]
  exact Nat.mod_le _ _

/-- In every state that calls lead to, no block within `MIN_BLOCKS_TO_KEEP` of the tip is in
a file that is chosen for pruning; and pruning a file takes the data from the blocks that are
stored in it, from no other block, and leaves none of them in `mapBlocksUnlinked`. -/
theorem pruning_keeps_recent_blocks (params : TreeParams) (nTime : UInt32) (nTx nBlockSize : ℕ)
    (calls : List StoreCall) :
    Runs.Always (call params) (fun state =>
      (∀ tip : CBlockIndex, minBlocksToKeep ≤ tip.nHeight →
        (∀ nManualPruneHeight chosen next,
          state.findFilesToPruneManual (some tip) nManualPruneHeight = .ok (chosen, next) →
          ∀ fileNumber ∈ chosen, ∀ pindex ∈ state.tree.mapBlockIndex,
            state.InFile pindex fileNumber → pindex.nHeight ≤ tip.nHeight - minBlocksToKeep) ∧
        ∀ nPruneTarget nPruneAfterHeight,
          ∀ fileNumber ∈ (state.findFilesToPrune (some tip) nPruneTarget nPruneAfterHeight).1,
          ∀ pindex ∈ state.tree.mapBlockIndex,
            state.InFile pindex fileNumber → pindex.nHeight ≤ tip.nHeight - minBlocksToKeep) ∧
      ∀ fileNumber, ∀ pindex ∈ state.tree.mapBlockIndex,
        (((state.pruneOneBlockFile fileNumber).tree.entry pindex).haveData = true ↔
          (state.tree.entry pindex).haveData = true ∧ (state.pos pindex).nFile ≠ fileNumber) ∧
        (((state.pruneOneBlockFile fileNumber).tree.entry pindex).haveUndo = true ↔
          (state.tree.entry pindex).haveUndo = true ∧ (state.pos pindex).nFile ≠ fileNumber) ∧
        ((state.pos pindex).nFile = fileNumber →
          ∀ waiting ∈ (state.pruneOneBlockFile fileNumber).tree.mapBlocksUnlinked,
            waiting.2 ≠ pindex))
      calls (initial params nTime nTx nBlockSize) := by
  have hfit : Runs.Throughout (call params) (fun _ _ => True) calls
      (initial params nTime nTx nBlockSize) := Runs.throughout_true calls _
  have halways := hfit.always (fun _ _ _ (hfiled : Filed _) _ hcall => hfiled.call hcall)
    (filed_initial params nTime nTx nBlockSize)
  refine halways.imp fun state hfiled => ⟨fun tip htip => ?_, fun fileNumber pindex hknown => ?_⟩
  · have hlimit := lastPrunable_le htip
    constructor
    · intro nManualPruneHeight chosen next hchosen fileNumber hmem pindex hknown hstored
      rw [findFilesToPruneManual] at hchosen
      split_ifs at hchosen
      have hloop := Except.ok.inj hchosen
      have hheight := hfiled.height pindex hknown hstored.1
      rw [hstored.2] at hheight
      have hprunes := hloop ▸ prunes_pruneManualLoop _ _ _
      rcases hprunes.mem nodup_range hmem with hnone | ⟨-, hlast⟩
      · cases hnone
      · exact hheight.trans (hlast.trans ((min_le_right _ _).trans hlimit))
    · intro nPruneTarget nPruneAfterHeight fileNumber hmem pindex hknown hstored
      have hheight := hfiled.height pindex hknown hstored.1
      rw [hstored.2] at hheight
      rw [findFilesToPrune] at hmem
      split at hmem
      · cases hmem
      · split at hmem
        · rcases (prunes_pruneLoop _ _ _ _ _).mem nodup_range hmem with hnone | ⟨-, hlast⟩
          · cases hnone
          · exact hheight.trans (hlast.trans hlimit)
        · cases hmem
  · have hent := (entry_pruneOneBlockFile state fileNumber pindex).1
    rw [hent]
    refine ⟨?_, ?_, ?_⟩
    iterate 2
      by_cases hfile : (state.pos pindex).nFile = fileNumber
      · simp [hknown, hfile]
      · simp [hfile]
    · rintro hfile waiting hwaiting rfl
      obtain ⟨hmem, hkept⟩ := mem_unlinked_foldl_pruneRound hwaiting
      exact hkept ⟨hknown, hfile, (hfiled.waiting waiting hmem).symm⟩

end StoredTree

end Catoshi
