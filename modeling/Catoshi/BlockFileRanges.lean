/-
Where blocks and undo data go on disk (`validation.cpp`, `chain.h`). The ranges stay apart while no
cursor wraps around.
-/
import Catoshi.CoinsDB
import Catoshi.Lib.Cursor
import Catoshi.Lib.Outcome
import Catoshi.Lib.Runs
import Mathlib.Data.List.GetD

namespace Catoshi

def maxBlockFileSize : ℕ := 0x8000000

def blockFileChunkSize : ℕ := 0x1000000

def undoFileChunkSize : ℕ := 0x100000

def maxBlockSerializedSize : ℕ := 4000000

/-- What is recorded of a block file and its undo file, in 32 bits. -/
structure CBlockFileInfo where
  nBlocks : ℕ
  nSize : ℕ
  nUndoSize : ℕ
  nHeightFirst : ℕ
  nHeightLast : ℕ
  nTimeFirst : ℕ
  nTimeLast : ℕ
deriving DecidableEq, Repr

namespace CBlockFileInfo

/-- `SetNull`. -/
def null : CBlockFileInfo := ⟨0, 0, 0, 0, 0, 0, 0⟩

def addBlock (info : CBlockFileInfo) (nHeightIn nTimeIn : ℕ) : CBlockFileInfo :=
  { info with
    nHeightFirst :=
      if info.nBlocks = 0 ∨ nHeightIn < info.nHeightFirst then nHeightIn else info.nHeightFirst
    nTimeFirst := if info.nBlocks = 0 ∨ nTimeIn < info.nTimeFirst then nTimeIn else info.nTimeFirst
    nBlocks := (info.nBlocks + 1) % 2 ^ 32
    nHeightLast := if info.nHeightLast < nHeightIn then nHeightIn else info.nHeightLast
    nTimeLast := if info.nTimeLast < nTimeIn then nTimeIn else info.nTimeLast }

end CBlockFileInfo

structure CDiskBlockPos where
  nFile : ℕ
  nPos : ℕ
deriving DecidableEq, Repr

structure BlockFiles where
  vinfoBlockFile : List CBlockFileInfo
  nLastBlockFile : ℕ
deriving DecidableEq, Repr

/-- Whether `CheckDiskSpace` finds that many bytes, and whether the file opens. -/
structure DiskEnv where
  checkDiskSpace : ℕ → Bool
  opens : Bool

/-- Whether the call succeeded, the position, the part of the file allocated in advance, and the
file infos. -/
structure PosResult where
  success : Bool
  pos : CDiskBlockPos
  allocated : Option (Cursor.Range ℕ)
  files : BlockFiles

/-- `vinfoBlockFile.resize`, if it is shorter. -/
def growInfos (vinfoBlockFile : List CBlockFileInfo) (size : ℕ) : List CBlockFileInfo :=
  vinfoBlockFile ++ List.replicate (size - vinfoBlockFile.length) .null

/-- The info of a file made sure to exist. -/
def infoAt (vinfoBlockFile : List CBlockFileInfo) (nFile : ℕ) : CBlockFileInfo :=
  vinfoBlockFile.getD nFile .null

/-- The loop of `FindBlockPos` to the next file the block fits into. It never ends for a block as
large as a file. -/
def findFile (nAddSize : ℕ) : ℕ → ℕ → List CBlockFileInfo →
    Except Fault (ℕ × List CBlockFileInfo)
  | 0, _, _ => .error (.runtimeError "FindBlockPos does not return")
  | fuel + 1, nFile, vinfoBlockFile =>
    let vinfoBlockFile := growInfos vinfoBlockFile (nFile + 1)
    if maxBlockFileSize ≤ ((infoAt vinfoBlockFile nFile).nSize + nAddSize) % 2 ^ 32 then
      findFile nAddSize fuel (nFile + 1) vinfoBlockFile
    else
      .ok (nFile, vinfoBlockFile)

def chunksOf (nChunkSize nSize : ℕ) : ℕ := (nSize + nChunkSize - 1) % 2 ^ 32 / nChunkSize

/-- Allocate whole chunks when a file grows, if there is space. -/
def preallocate (env : DiskEnv) (nChunkSize : ℕ) (pos : CDiskBlockPos) (nNewSize : ℕ) :
    Bool × Option (Cursor.Range ℕ) :=
  if chunksOf nChunkSize pos.nPos < chunksOf nChunkSize nNewSize then
    let length := (chunksOf nChunkSize nNewSize * nChunkSize + (2 ^ 32 - pos.nPos)) % 2 ^ 32
    if env.checkDiskSpace length then
      (true, if env.opens then some ⟨pos.nFile, pos.nPos, length⟩ else none)
    else
      (false, none)
  else
    (true, none)

namespace BlockFiles

/-- `FindBlockPos`. The position is given if the block is on disk (`fKnown`). -/
def findBlockPos (env : DiskEnv) (files : BlockFiles) (known : Option CDiskBlockPos)
    (nAddSize nHeight nTime : ℕ) : Except Fault PosResult :=
  match known with
  | some pos =>
    let vinfoBlockFile := growInfos files.vinfoBlockFile (pos.nFile + 1)
    .ok ⟨true, pos, none,
      { vinfoBlockFile := vinfoBlockFile.modify pos.nFile fun info =>
          let info := info.addBlock nHeight nTime
          { info with nSize := max ((pos.nPos + nAddSize) % 2 ^ 32) info.nSize }
        nLastBlockFile := pos.nFile }⟩
  | none => do
      let found ← findFile nAddSize (files.vinfoBlockFile.length + 2) files.nLastBlockFile
        files.vinfoBlockFile
      let nFile := found.1
      let vinfoBlockFile := found.2
      let pos : CDiskBlockPos := ⟨nFile, (infoAt vinfoBlockFile nFile).nSize⟩
      let nNewSize := (pos.nPos + nAddSize) % 2 ^ 32
      let allocation := preallocate env blockFileChunkSize pos nNewSize
      .ok ⟨allocation.1, pos, allocation.2,
        { vinfoBlockFile := vinfoBlockFile.modify nFile fun info =>
            { info.addBlock nHeight nTime with nSize := nNewSize }
          nLastBlockFile := nFile }⟩

/-- `FindUndoPos`. There is no info behind the end of the vector. -/
def findUndoPos (env : DiskEnv) (files : BlockFiles) (nFile nAddSize : ℕ) :
    Except Fault PosResult :=
  match files.vinfoBlockFile[nFile]? with
  | none => .error (.logicError "vinfoBlockFile has no such file")
  | some info =>
    let pos : CDiskBlockPos := ⟨nFile, info.nUndoSize⟩
    let nNewSize := (info.nUndoSize + nAddSize) % 2 ^ 32
    let allocation := preallocate env undoFileChunkSize pos nNewSize
    .ok ⟨allocation.1, pos, allocation.2,
      { files with
        vinfoBlockFile := files.vinfoBlockFile.modify nFile fun info =>
          { info with nUndoSize := nNewSize } }⟩

end BlockFiles

open List

theorem infoAt_growInfos (vinfoBlockFile : List CBlockFileInfo) (size nFile : ℕ) :
    infoAt (growInfos vinfoBlockFile size) nFile = infoAt vinfoBlockFile nFile := by
  rw [growInfos, infoAt, infoAt]
  by_cases hfile : nFile < vinfoBlockFile.length
  · rw [getD_append _ _ _ _ hfile]
  · rw [getD_append_right _ _ _ _ (not_lt.1 hfile), getD_eq_default _ _ (not_lt.1 hfile)]
    by_cases hnew : nFile - vinfoBlockFile.length < size - vinfoBlockFile.length
    · rw [getD_replicate _ hnew]
    · exact getD_eq_default _ _ (by rw [length_replicate]; omega)

theorem lt_length_growInfos (vinfoBlockFile : List CBlockFileInfo) (nFile : ℕ) :
    nFile < (growInfos vinfoBlockFile (nFile + 1)).length := by
  rw [growInfos, length_append, length_replicate]
  omega

variable {vinfoBlockFile : List CBlockFileInfo} {nFile fuel : ℕ}

theorem infoAt_modify (hfile : nFile < vinfoBlockFile.length)
    (change : CBlockFileInfo → CBlockFileInfo) (other : ℕ) :
    infoAt (vinfoBlockFile.modify nFile change) other =
      if other = nFile then change (infoAt vinfoBlockFile nFile)
      else infoAt vinfoBlockFile other := by
  rw [infoAt, infoAt, infoAt, getD_eq_getElem?_getD]
  by_cases hsame : other = nFile
  · subst hsame
    simp [hfile]
  · have ho : nFile ≠ other := fun heq => hsame heq.symm
    simp [hsame, ho]

/-- The search ends with a file the block fits into, and no info changed. -/
theorem findFile_spec {nAddSize : ℕ} {found : ℕ × List CBlockFileInfo}
    (hfind : findFile nAddSize fuel nFile vinfoBlockFile = .ok found) :
    found.1 < found.2.length ∧
      (∀ other, infoAt found.2 other = infoAt vinfoBlockFile other) ∧
      ((infoAt vinfoBlockFile found.1).nSize + nAddSize) % 2 ^ 32 < maxBlockFileSize := by
  induction fuel generalizing nFile vinfoBlockFile with
  | zero => cases hfind
  | succ fuel ih =>
    rw [findFile] at hfind
    simp only [infoAt_growInfos] at hfind
    split_ifs at hfind with hfits
    · obtain ⟨hlen, hinfo, hfits⟩ := ih hfind
      simp only [infoAt_growInfos] at hinfo hfits
      exact ⟨hlen, hinfo, hfits⟩
    · cases hfind
      exact ⟨lt_length_growInfos _ _, infoAt_growInfos _ _, not_le.1 hfits⟩

/-- The search ends: behind the last file is an empty one. -/
theorem findFile_returns {nAddSize : ℕ} (hsize : nAddSize < maxBlockFileSize)
    (hfuel : vinfoBlockFile.length < fuel + nFile) (hpos : 0 < fuel) :
    ∃ found, findFile nAddSize fuel nFile vinfoBlockFile = .ok found := by
  induction fuel generalizing nFile vinfoBlockFile with
  | zero => exact absurd hpos (lt_irrefl 0)
  | succ fuel ih =>
    rw [findFile]
    simp only [infoAt_growInfos]
    split_ifs with hfull
    · -- a file that is full exists already
      have hexists : nFile < vinfoBlockFile.length := by
        by_contra hnew
        rw [infoAt, getD_eq_default _ _ (not_lt.1 hnew)] at hfull
        have hempty : CBlockFileInfo.null.nSize = 0 := rfl
        omega
      have hsame : growInfos vinfoBlockFile (nFile + 1) = vinfoBlockFile := by
        rw [growInfos, Nat.sub_eq_zero_of_le hexists, replicate_zero, append_nil]
      rw [hsame]
      exact ih (by omega) (by omega)
    · exact ⟨_, rfl⟩

/-- The file infos and the ranges handed out, the last first. -/
structure AllocState where
  files : BlockFiles
  blocks : List (Cursor.Range ℕ)
  undos : List (Cursor.Range ℕ)

/-- A call for a place for a block or undo data. -/
inductive AllocCall where
  | findBlockPos (env : DiskEnv) (nAddSize nHeight nTime : ℕ)
  | findUndoPos (env : DiskEnv) (nFile nAddSize : ℕ)

def AllocCall.nAddSize : AllocCall → ℕ
  | findBlockPos _ nAddSize _ _ => nAddSize
  | findUndoPos _ _ nAddSize => nAddSize

/-- What a call hands out if it succeeds. -/
def PosResult.range (result : PosResult) (nAddSize : ℕ) : List (Cursor.Range ℕ) :=
  if result.success then [⟨result.pos.nFile, result.pos.nPos, nAddSize⟩] else []

namespace AllocState

def initial : AllocState := ⟨⟨[], 0⟩, [], []⟩

def call (state : AllocState) : AllocCall → Except Fault AllocState
  | .findBlockPos env nAddSize nHeight nTime => do
      let result ← state.files.findBlockPos env none nAddSize nHeight nTime
      .ok { state with
        files := result.files, blocks := result.range nAddSize ++ state.blocks }
  | .findUndoPos env nFile nAddSize => do
      let result ← state.files.findUndoPos env nFile nAddSize
      .ok { state with
        files := result.files, undos := result.range nAddSize ++ state.undos }

def nSize (state : AllocState) (nFile : ℕ) : ℕ := (infoAt state.files.vinfoBlockFile nFile).nSize

def nUndoSize (state : AllocState) (nFile : ℕ) : ℕ :=
  (infoAt state.files.vinfoBlockFile nFile).nUndoSize

/-- All ranges handed out are apart and below the recorded sizes. -/
structure Sound (state : AllocState) : Prop where
  blocks : Cursor.Below state.nSize state.blocks
  undos : Cursor.Below state.nUndoSize state.undos

def Roomy (state : AllocState) : Prop := ∀ nFile, state.nSize nFile < maxBlockFileSize

/-- A call for undo data does not overflow the size. -/
def NoWrap (state : AllocState) : AllocCall → Prop
  | .findBlockPos _ _ _ _ => True
  | .findUndoPos _ nFile nAddSize => state.nUndoSize nFile + nAddSize < 2 ^ 32

instance (state : AllocState) : ∀ call, Decidable (state.NoWrap call)
  | .findBlockPos _ _ _ _ => inferInstanceAs (Decidable True)
  | .findUndoPos _ _ _ => inferInstanceAs (Decidable (_ < _))

section Step

variable {state : AllocState}

theorem Sound.initial : initial.Sound := ⟨Cursor.below_nil _, Cursor.below_nil _⟩

theorem Roomy.initial : initial.Roomy := by
  intro nFile
  exact Nat.zero_lt_succ _

/-- What is handed out at the cursor, successfully or not. -/
theorem below_range {cursor next : ℕ → ℕ} {given : List (Cursor.Range ℕ)}
    (hbelow : Cursor.Below cursor given) (hle : ∀ nFile, cursor nFile ≤ next nFile)
    {result : PosResult} {nAddSize : ℕ} (hpos : cursor result.pos.nFile = result.pos.nPos)
    (hnext : result.pos.nPos + nAddSize ≤ next result.pos.nFile) :
    Cursor.Below next (result.range nAddSize ++ given) := by
  rw [PosResult.range]
  split
  · exact hbelow.give hle hpos.le hnext
  · exact hbelow.mono hle

variable {env : DiskEnv} {next : AllocState}

/-- A new block goes behind those of its file, and no undo cursor moves. -/
theorem findBlockPos_step (hsound : state.Sound) (hroomy : state.Roomy) {nAddSize nHeight nTime : ℕ}
    (hsize : nAddSize < maxBlockFileSize)
    (hcall : state.call (.findBlockPos env nAddSize nHeight nTime) = .ok next) :
    next.Sound ∧ next.Roomy := by
  rw [call, Outcome.bind_ok_iff] at hcall
  obtain ⟨result, hres, hnext⟩ := hcall
  rw [BlockFiles.findBlockPos, Outcome.bind_ok_iff] at hres
  obtain ⟨found, hfind, hres⟩ := hres
  obtain ⟨hlen, hinfo, hfits⟩ := findFile_spec hfind
  obtain rfl := Except.ok.inj hres
  obtain rfl := Except.ok.inj hnext
  -- below the size of a file the sum does not wrap
  have hroom := hroomy found.1
  rw [nSize] at hroom
  have hsum : ((infoAt state.files.vinfoBlockFile found.1).nSize + nAddSize) % 2 ^ 32 =
      (infoAt state.files.vinfoBlockFile found.1).nSize + nAddSize := by
    rw [maxBlockFileSize] at hroom hsize
    omega
  rw [hsum] at hfits
  have hcursor : ∀ other, (infoAt (found.2.modify found.1 fun info =>
      { info.addBlock nHeight nTime with
        nSize := ((infoAt found.2 found.1).nSize + nAddSize) % 2 ^ 32 }) other).nSize =
      if other = found.1 then (infoAt state.files.vinfoBlockFile found.1).nSize + nAddSize
      else state.nSize other := by
    intro other
    rw [infoAt_modify hlen, hinfo, hinfo, hsum]
    split <;> rfl
  refine ⟨⟨below_range hsound.blocks (fun other => ?_) ?_ ?_, hsound.undos.mono fun other => ?_⟩,
    fun other => ?_⟩
  · refine le_of_le_of_eq ?_ (hcursor other).symm
    split_ifs with hsame
    · rw [hsame]; exact Nat.le_add_right _ _
    · exact le_rfl
  · exact congrArg CBlockFileInfo.nSize (hinfo found.1).symm
  · refine le_of_eq_of_le ?_ (hcursor found.1).ge
    rw [if_pos rfl, hinfo]
  · refine le_of_le_of_eq ?_ (congrArg CBlockFileInfo.nUndoSize (infoAt_modify hlen _ other)).symm
    rw [hinfo, hinfo]
    split_ifs with hsame
    · rw [hsame]; exact le_rfl
    · exact le_rfl
  · refine lt_of_eq_of_lt (hcursor other) ?_
    split
    · exact hfits
    · exact hroomy other

/-- Undo data goes behind what its file has, and no block cursor moves. -/
theorem findUndoPos_step (hsound : state.Sound) (hroomy : state.Roomy) {nFile nAddSize : ℕ}
    (hwrap : state.nUndoSize nFile + nAddSize < 2 ^ 32)
    (hcall : state.call (.findUndoPos env nFile nAddSize) = .ok next) :
    next.Sound ∧ next.Roomy := by
  rw [call, Outcome.bind_ok_iff] at hcall
  obtain ⟨result, hres, hnext⟩ := hcall
  rw [BlockFiles.findUndoPos] at hres
  cases hf : state.files.vinfoBlockFile[nFile]? with
  | none =>
    rw [hf] at hres
    cases hres
  | some info =>
    rw [hf] at hres
    obtain rfl := Except.ok.inj hres
    obtain rfl := Except.ok.inj hnext
    have hlen : nFile < state.files.vinfoBlockFile.length := (List.getElem?_eq_some_iff.1 hf).1
    have hinfo : infoAt state.files.vinfoBlockFile nFile = info := by
      rw [infoAt, getD_eq_getElem?_getD, hf, Option.getD_some]
    rw [nUndoSize, hinfo] at hwrap
    have hsum := Nat.mod_eq_of_lt hwrap
    have hcursor : ∀ other, (infoAt (state.files.vinfoBlockFile.modify nFile fun info' =>
        { info' with nUndoSize := (info.nUndoSize + nAddSize) % 2 ^ 32 }) other).nUndoSize =
        if other = nFile then info.nUndoSize + nAddSize else state.nUndoSize other := by
      intro other
      rw [infoAt_modify hlen, hsum]
      split <;> rfl
    have hblocks : ∀ other, (infoAt (state.files.vinfoBlockFile.modify nFile fun info' =>
        { info' with nUndoSize := (info.nUndoSize + nAddSize) % 2 ^ 32 }) other).nSize =
        state.nSize other := by
      intro other
      rw [infoAt_modify hlen]
      split_ifs with hsame
      · rw [hsame]; rfl
      · rfl
    refine ⟨⟨hsound.blocks.mono fun other => ?_, below_range hsound.undos (fun other => ?_) ?_ ?_⟩,
      fun other => ?_⟩
    · exact (hblocks other).ge
    · refine le_of_le_of_eq ?_ (hcursor other).symm
      split_ifs with hsame
      · rw [hsame, nUndoSize, hinfo]; exact Nat.le_add_right _ _
      · exact le_rfl
    · exact congrArg CBlockFileInfo.nUndoSize hinfo
    · refine le_of_eq_of_le ?_ (hcursor nFile).ge
      rw [if_pos rfl]
    · exact (hblocks other).trans_lt (hroomy other)

theorem findBlockPos_returns (state : AllocState) (env : DiskEnv) {nAddSize : ℕ}
    (hsize : nAddSize < maxBlockFileSize) (nHeight nTime : ℕ) :
    ∃ next, state.call (.findBlockPos env nAddSize nHeight nTime) = .ok next := by
  obtain ⟨found, hfind⟩ : ∃ found, findFile nAddSize (state.files.vinfoBlockFile.length + 2)
      state.files.nLastBlockFile state.files.vinfoBlockFile = .ok found :=
    findFile_returns hsize (by omega) (by omega)
  rw [call, BlockFiles.findBlockPos, hfind]
  exact ⟨_, rfl⟩

end Step

/-- Along every run of calls for blocks smaller than a file and for undo data that does not
overflow its recorded size, all ranges handed out are apart from each other and below the
recorded sizes, and every call for a block returns. -/
theorem ranges_apart_along_runs (calls : List AllocCall)
    (hsizes : ∀ call ∈ calls, call.nAddSize < maxBlockFileSize)
    (hwrap : Runs.Throughout call NoWrap calls initial) :
    Runs.Always call (fun state => state.Sound ∧ ∀ (env : DiskEnv) (nAddSize nHeight nTime : ℕ),
      nAddSize < maxBlockFileSize →
        ∃ next, state.call (.findBlockPos env nAddSize nHeight nTime) = .ok next)
      calls initial := by
  have hfit : Runs.Throughout call
      (fun state call => state.NoWrap call ∧ call.nAddSize < maxBlockFileSize) calls initial :=
    hwrap.and_forall hsizes
  have halways : Runs.Always call (fun state => state.Sound ∧ state.Roomy) calls initial := by
    refine hfit.always (fun state call next hgood hcall hnext => ?_) ⟨Sound.initial, Roomy.initial⟩
    cases call with
    | findBlockPos env nAddSize nHeight nTime =>
      exact findBlockPos_step hgood.1 hgood.2 hcall.2 hnext
    | findUndoPos env nFile nAddSize => exact findUndoPos_step hgood.1 hgood.2 hcall.1 hnext
  refine halways.imp fun state hgood => ⟨hgood.1, ?_⟩
  exact fun env nAddSize nHeight nTime hsize =>
    findBlockPos_returns state env hsize nHeight nTime

end AllocState

namespace BlockFileRangesWitness

open AllocState

def env : DiskEnv := ⟨fun _ => true, true⟩

/-- Two blocks that need two files, and then undo data for the first. -/
def rollover : List AllocCall :=
  [.findBlockPos env 100000000 1 0, .findBlockPos env 100000000 2 0, .findUndoPos env 0 5000,
    .findBlockPos env 1000 3 0, .findUndoPos env 0 7000]

theorem ranges_apart_after_rollover :
    ∃ last, Runs.run call rollover initial = .ok last ∧ last.Sound ∧
      last.undos = [⟨0, 5000, 7000⟩, ⟨0, 0, 5000⟩] := by
  have hends : Runs.endsIn call (fun state => decide (state.undos =
      [⟨0, 5000, 7000⟩, ⟨0, 0, 5000⟩])) rollover initial = true := by decide +kernel
  obtain ⟨last, hrun, htest⟩ := Runs.exists_of_endsIn hends
  have halways := ranges_apart_along_runs rollover (by decide +kernel) (by decide +kernel)
  exact ⟨last, hrun, (halways.last hrun).1, of_decide_eq_true htest⟩

/-- Undo data as large as a block for one file, again and again. -/
def manyUndos : List AllocCall :=
  .findBlockPos env 1000 1 0 :: List.replicate 1075 (.findUndoPos env 0 maxBlockSerializedSize)

/-- The recorded size wraps around, and the last range covers bytes of the first one. -/
theorem undo_ranges_overlap_after_wrap :
    (∀ call ∈ manyUndos, call.nAddSize ≤ maxBlockSerializedSize) ∧
      ∃ last, Runs.run call manyUndos initial = .ok last ∧ ¬ last.Sound := by
  refine ⟨by decide +kernel, ?_⟩
  have hends : Runs.endsIn call (fun state =>
      decide (state.undos.head? = some ⟨0, 1032704, maxBlockSerializedSize⟩) &&
        decide (⟨0, 0, maxBlockSerializedSize⟩ ∈ state.undos.tail)) manyUndos initial = true := by
    decide +kernel
  obtain ⟨last, hrun, htest⟩ := Runs.exists_of_endsIn hends
  obtain ⟨hhead, htail⟩ := Bool.and_eq_true_iff.1 htest
  refine ⟨last, hrun, fun hsound => ?_⟩
  obtain ⟨tail, hundos⟩ := List.head?_eq_some_iff.1 (of_decide_eq_true hhead)
  have hapart := hsound.undos.apart
  rw [hundos] at hapart htail
  have hdisjoint := (pairwise_cons.1 hapart).1 _ (of_decide_eq_true htail) rfl
  have hlater : 2000000 ∈
      (⟨0, 1032704, maxBlockSerializedSize⟩ : Cursor.Range ℕ).bytes := ⟨by decide, by decide⟩
  have hfst : 2000000 ∈
      (⟨0, 0, maxBlockSerializedSize⟩ : Cursor.Range ℕ).bytes := ⟨by decide, by decide⟩
  exact Set.disjoint_left.1 hdisjoint hlater hfst

end BlockFileRangesWitness

end Catoshi
