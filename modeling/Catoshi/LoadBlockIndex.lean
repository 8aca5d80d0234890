/-
The block index in memory and on disk (`validation.cpp`, `txdb.cpp`, `chain.cpp`,
`arith_uint256.cpp`): what is written into an entry, and how `LoadBlockIndex` makes the entries
again. A pointer to a loaded entry is given by its hash.
-/
import Catoshi.BlockFileRanges
import Catoshi.BlockIndexCheck
import Catoshi.KeyFormat
import Catoshi.Lib.Table

namespace Catoshi

open ByteStream VarInt

/-- All of `CBlockHeader`. `nVersion` is given by its 32 bits. -/
structure HeaderFields where
  nVersion : UInt32
  hashPrevBlock : Uint256
  hashMerkleRoot : Uint256
  nTime : UInt32
  nBits : UInt32
  nNonce : UInt32
deriving DecidableEq, Repr

namespace HeaderFields

def serialize (block : HeaderFields) : Bytes :=
  serWriteData32 block.nVersion.toNat ++ (block.hashPrevBlock.serialize ++
    (block.hashMerkleRoot.serialize ++ (serWriteData32 block.nTime.toNat ++
      (serWriteData32 block.nBits.toNat ++ serWriteData32 block.nNonce.toNat))))

def unserialize : Reader HeaderFields := do
  let nVersion ← serReadData32
  let hashPrevBlock ← BaseBlob.unserialize 32
  let hashMerkleRoot ← BaseBlob.unserialize 32
  let nTime ← serReadData32
  let nBits ← serReadData32
  let nNonce ← serReadData32
  return ⟨.ofNat nVersion, hashPrevBlock, hashMerkleRoot, .ofNat nTime, .ofNat nBits, .ofNat nNonce⟩

theorem reads_unserialize (block : HeaderFields) : Reads unserialize block.serialize block := by
  refine (reads_serReadData32 block.nVersion.toNat_lt).bind <|
    (BaseBlob.reads_unserialize block.hashPrevBlock).bind <|
    (BaseBlob.reads_unserialize block.hashMerkleRoot).bind <|
    (reads_serReadData32 block.nTime.toNat_lt).bind <|
    (reads_serReadData32 block.nBits.toNat_lt).bind <|
    (reads_serReadData32 block.nNonce.toNat_lt).last ?_
  simp only [UInt32.ofNat_toNat]
  exact Reads.pure block

end HeaderFields

/-! ### The bits of `nStatus` -/

def blockValidMask : ℕ := 7

def blockHaveData : ℕ := 8

def blockHaveUndo : ℕ := 16

def blockFailedValid : ℕ := 32

def blockFailedChild : ℕ := 64

def blockFailedMask : ℕ := blockFailedValid ||| blockFailedChild

def blockOptWitness : ℕ := 128

/-- `nStatus & mask`, as a condition. -/
def hasStatus (nStatus mask : ℕ) : Bool := decide (nStatus &&& mask ≠ 0)

def intMax : ℕ := 2 ^ 31 - 1

def uintMax : ℕ := 2 ^ 32 - 1

structure CDiskBlockIndex where
  nHeight : ℕ
  nStatus : ℕ
  nTx : ℕ
  nFile : ℕ
  nDataPos : ℕ
  nUndoPos : ℕ
  header : HeaderFields
deriving DecidableEq, Repr

/-- Write a number if the status asks for it. -/
def writeWhen (wanted : Bool) (n : ℕ) : Bytes := if wanted then write n else []

/-- Read a number if the status asks for it, else zero. -/
def readWhen (wanted : Bool) (limit : ℕ) : Reader ℕ :=
  if wanted then read limit else pure 0

theorem reads_readWhen {wanted : Bool} {limit n : ℕ} (hlimit : n ≤ limit)
    (hzero : wanted = false → n = 0) : Reads (readWhen wanted limit) (writeWhen wanted n) n := by
  cases wanted with
  | true => exact reads_write hlimit
  | false =>
    rw [hzero rfl]
    exact Reads.pure 0

namespace CDiskBlockIndex

def serialize (clientVersion : ℕ) (disk : CDiskBlockIndex) : Bytes :=
  write clientVersion ++ (write disk.nHeight ++ (write disk.nStatus ++
    (write disk.nTx ++
      (writeWhen (hasStatus disk.nStatus (blockHaveData ||| blockHaveUndo)) disk.nFile ++
        (writeWhen (hasStatus disk.nStatus blockHaveData) disk.nDataPos ++
          (writeWhen (hasStatus disk.nStatus blockHaveUndo) disk.nUndoPos ++
            disk.header.serialize))))))

def unserialize : Reader CDiskBlockIndex := do
  let _ ← read intMax
  let nHeight ← read intMax
  let nStatus ← read uintMax
  let nTx ← read uintMax
  let nFile ← readWhen (hasStatus nStatus (blockHaveData ||| blockHaveUndo)) intMax
  let nDataPos ← readWhen (hasStatus nStatus blockHaveData) uintMax
  let nUndoPos ← readWhen (hasStatus nStatus blockHaveUndo) uintMax
  let header ← HeaderFields.unserialize
  return ⟨nHeight, nStatus, nTx, nFile, nDataPos, nUndoPos, header⟩

/-- The numbers fit, and a position not announced is zero. -/
structure Fits (disk : CDiskBlockIndex) : Prop where
  nHeight : disk.nHeight ≤ intMax
  nStatus : disk.nStatus ≤ uintMax
  nTx : disk.nTx ≤ uintMax
  nFile : disk.nFile ≤ intMax
  nDataPos : disk.nDataPos ≤ uintMax
  nUndoPos : disk.nUndoPos ≤ uintMax
  noFile : hasStatus disk.nStatus (blockHaveData ||| blockHaveUndo) = false → disk.nFile = 0
  noData : hasStatus disk.nStatus blockHaveData = false → disk.nDataPos = 0
  noUndo : hasStatus disk.nStatus blockHaveUndo = false → disk.nUndoPos = 0

/-- What is written is read back. -/
theorem reads_unserialize {clientVersion : ℕ} (hclient : clientVersion ≤ intMax)
    {disk : CDiskBlockIndex} (hfits : disk.Fits) :
    Reads unserialize (disk.serialize clientVersion) disk :=
  (reads_write hclient).bind <|
    (reads_write hfits.nHeight).bind <|
    (reads_write hfits.nStatus).bind <|
    (reads_write hfits.nTx).bind <|
    (reads_readWhen hfits.nFile hfits.noFile).bind <|
    (reads_readWhen hfits.nDataPos hfits.noData).bind <|
    (reads_readWhen hfits.nUndoPos hfits.noUndo).bind <|
    (HeaderFields.reads_unserialize disk.header).last (Reads.pure disk)

end CDiskBlockIndex

/-! ### Work and ancestors -/

/-- `SetCompact`: the target, and whether it is negative or overflows. -/
def setCompact (nCompact : UInt32) : ℕ × Bool × Bool :=
  let nSize := nCompact.toNat / 2 ^ 24
  let nWord := nCompact.toNat % 2 ^ 23
  let shifted := nWord / 2 ^ (8 * (3 - nSize))
  let target := if nSize ≤ 3 then shifted else nWord * 2 ^ (8 * (nSize - 3)) % 2 ^ 256
  -- a small word has been shifted by the time the flags are set
  let nWord := if nSize ≤ 3 then shifted else nWord
  (target, decide (nWord ≠ 0) && decide (nCompact.toNat / 2 ^ 23 % 2 = 1),
    decide (nWord ≠ 0) && (decide (34 < nSize) || decide (0xff < nWord ∧ 33 < nSize) ||
      decide (0xffff < nWord ∧ 32 < nSize)))

/-- `GetBlockProof`, of the `nBits` of a block. -/
def getBlockProof (nBits : UInt32) : ℕ :=
  let bnTarget := setCompact nBits
  if bnTarget.2.1 || bnTarget.2.2 || decide (bnTarget.1 = 0) then 0
  else (2 ^ 256 - 1 - bnTarget.1) / (bnTarget.1 + 1) + 1

/-- `CheckProofOfWork`. A hash is a number with its lowest byte first. -/
def checkProofOfWork (powLimit : ℕ) (hash : Uint256) (nBits : UInt32) : Bool :=
  let bnTarget := setCompact nBits
  !(bnTarget.2.1 || decide (bnTarget.1 = 0) || bnTarget.2.2 || decide (powLimit < bnTarget.1)) &&
    !decide (bnTarget.1 < ByteOrder.ofLittleEndian hash.data)

theorem getBlockProof_pos {powLimit : ℕ} {hash : Uint256} {nBits : UInt32}
    (hproof : checkProofOfWork powLimit hash nBits = true) : 0 < getBlockProof nBits := by
  simp only [checkProofOfWork, Bool.and_eq_true, Bool.not_eq_true', Bool.or_eq_false_iff] at hproof
  obtain ⟨⟨⟨⟨hneg, hzero⟩, hover⟩, -⟩, -⟩ := hproof
  rw [getBlockProof]
  simp only [hneg, hzero, hover, Bool.or_self, Bool.false_eq_true, if_false]
  exact Nat.succ_pos _

section walk

variable {P : Type}

/-- The loop of `GetAncestor`. Every round goes down at least one block. -/
def walkDown (pprev pskip : P → Option P) (height : ℕ) : ℕ → ℕ → P → Option P
  | 0, _, pindexWalk => some pindexWalk
  | fuel + 1, heightWalk, pindexWalk =>
    if heightWalk ≤ height then some pindexWalk
    else
      let heightSkip := getSkipHeight heightWalk
      let heightSkipPrev := getSkipHeight (heightWalk - 1)
      let follow := decide (heightSkip = height) || (decide (height < heightSkip) &&
        !(decide (heightSkipPrev + 2 < heightSkip) && decide (height ≤ heightSkipPrev)))
      match if follow then pskip pindexWalk else none with
      | some skip => walkDown pprev pskip height fuel heightSkip skip
      | none =>
        match pprev pindexWalk with
        | none => none
        | some prev => walkDown pprev pskip height fuel (heightWalk - 1) prev

/-- `GetAncestor` of a block of the given height, by its pointers. -/
def getAncestorBySkip (pprev pskip : P → Option P) (nHeight : ℕ) (pindex : P) (height : ℕ) :
    Option P :=
  if nHeight < height then none else walkDown pprev pskip height nHeight nHeight pindex

end walk

/-! ### The index in memory -/

def statusBit (on : Bool) (mask : ℕ) : ℕ := if on then mask else 0

/-- `nStatus`, put together from its parts. -/
def BlockEntry.nStatus (entry : BlockEntry) (optWitness : Bool) : ℕ :=
  entry.nValidity ||| statusBit entry.haveData blockHaveData |||
    statusBit entry.haveUndo blockHaveUndo ||| statusBit entry.failedValid blockFailedValid |||
    statusBit entry.failedChild blockFailedChild ||| statusBit optWitness blockOptWitness

/-- The fields of a `CBlockIndex` the tree ignores. -/
structure IndexFields where
  nVersion : UInt32
  hashMerkleRoot : Uint256
  nBits : UInt32
  nNonce : UInt32
  nFile : ℕ
  nDataPos : ℕ
  nUndoPos : ℕ
  optWitness : Bool
  nTimeMax : UInt32
  pskip : Option CBlockIndex

/-- The parameters of a node and its hash function. No header hashes to zero, and the hash tells
the work a header proves. -/
structure IndexParams extends TreeParams where
  getHash : HeaderFields → Uint256
  genesis : HeaderFields
  isWitnessEnabled : Option CBlockIndex → Bool
  clientVersion : ℕ
  powLimit : ℕ
  getHash_isNull : ∀ block, (getHash block).isNull = false
  getBlockProof_getHash : ∀ block, 0 < Catoshi.getBlockProof block.nBits →
    toTreeParams.getBlockProof (getHash block) = Catoshi.getBlockProof block.nBits
  getHash_genesis : getHash genesis = hashGenesisBlock
  genesis_hashPrevBlock : genesis.hashPrevBlock = BaseBlob.null 32
  genesis_proof : checkProofOfWork powLimit (getHash genesis) genesis.nBits = true
  clientVersion_le : clientVersion ≤ intMax

def IndexParams.treeHeader (params : IndexParams) (block : HeaderFields) : CBlockHeader :=
  ⟨params.getHash block, block.hashPrevBlock, block.nTime⟩

structure IndexState where
  tree : BlockTree
  fields : CBlockIndex → IndexFields
  pindexBestHeader : Option CBlockIndex

namespace IndexState

variable (params : IndexParams) (index : IndexState) (pindex : CBlockIndex)

def getAncestor (height : ℕ) : Option CBlockIndex :=
  getAncestorBySkip CBlockIndex.pprev (fun walk => (index.fields walk).pskip) pindex.nHeight
    pindex height

def newFields (block : HeaderFields) (pindexNew : CBlockIndex) : IndexFields where
  nVersion := block.nVersion
  hashMerkleRoot := block.hashMerkleRoot
  nBits := block.nBits
  nNonce := block.nNonce
  nFile := 0
  nDataPos := 0
  nUndoPos := 0
  optWitness := false
  nTimeMax := pindexNew.pprev.elim block.nTime fun pprev =>
    max (index.fields pprev).nTimeMax block.nTime
  pskip := pindexNew.pprev.bind fun pprev =>
    index.getAncestor pprev (getSkipHeight pindexNew.nHeight)

def addToBlockIndex (params : IndexParams) (index : IndexState) (block : HeaderFields) :
    IndexState :=
  match index.tree.find (params.getHash block) with
  | some _ => index
  | none =>
    let added := index.tree.addToBlockIndex params.toTreeParams (params.treeHeader block)
    let pindexNew := added.1
    { tree := added.2
      fields := Function.update index.fields pindexNew (index.newFields block pindexNew)
      pindexBestHeader :=
        if index.pindexBestHeader.all fun best =>
            decide ((added.2.entry best).nChainWork < (added.2.entry pindexNew).nChainWork) then
          some pindexNew
        else
          index.pindexBestHeader }

def receivedBlockTransactions (params : IndexParams) (index : IndexState)
    (pindexNew : CBlockIndex) (nTx : ℕ) (pos : CDiskBlockPos) : IndexState :=
  { index with
    tree := index.tree.receivedBlockTransactions params.toTreeParams pindexNew nTx
    fields := Function.update index.fields pindexNew { index.fields pindexNew with
      nFile := pos.nFile
      nDataPos := pos.nPos
      nUndoPos := 0
      optWitness := (index.fields pindexNew).optWitness ||
        params.isWitnessEnabled pindexNew.pprev } }

/-- A node that has connected the genesis block and knows no other. -/
def initial (params : IndexParams) (nTx : ℕ) (pos : CDiskBlockPos) : IndexState :=
  let genesis := CBlockIndex.genesis params.hashGenesisBlock params.genesis.nTime
  { tree := BlockTree.initial params.toTreeParams params.genesis.nTime nTx
    fields := fun _ =>
      { nVersion := params.genesis.nVersion
        hashMerkleRoot := params.genesis.hashMerkleRoot
        nBits := params.genesis.nBits
        nNonce := params.genesis.nNonce
        nFile := pos.nFile
        nDataPos := pos.nPos
        nUndoPos := 0
        optWitness := params.isWitnessEnabled none
        nTimeMax := params.genesis.nTime
        pskip := none }
    pindexBestHeader := some genesis }

def getBlockHeader : HeaderFields :=
  let fields := index.fields pindex
  ⟨fields.nVersion, pindex.hashPrevBlock, fields.hashMerkleRoot, pindex.nTime, fields.nBits,
    fields.nNonce⟩

/-- The constructor of `CDiskBlockIndex` from an entry. -/
def diskBlockIndex : CDiskBlockIndex :=
  let entry := index.tree.entry pindex
  let fields := index.fields pindex
  ⟨pindex.nHeight, entry.nStatus fields.optWitness, entry.nTx, fields.nFile, fields.nDataPos,
    fields.nUndoPos, index.getBlockHeader pindex⟩

def diskRecord : Bytes :=
  (index.diskBlockIndex pindex).serialize params.clientVersion

end IndexState

/-- The calls that build the index, and those that change failure marks. -/
inductive BuildCall where
  | addToBlockIndex (block : HeaderFields)
  | receivedBlockTransactions (hash : Uint256) (nTx : ℕ) (pos : CDiskBlockPos)
  | invalidateBlock (env : ActivateEnv) (hash : Uint256)
  | resetBlockFailureFlags (hash : Uint256)

def IndexState.call (params : IndexParams) (index : IndexState) :
    BuildCall → Except Fault IndexState
  | .addToBlockIndex block => .ok (index.addToBlockIndex params block)
  | .receivedBlockTransactions hash nTx pos =>
    match index.tree.find hash with
    | none => .ok index
    | some pindex => .ok (index.receivedBlockTransactions params pindex nTx pos)
  | .invalidateBlock env hash =>
    (index.tree.call params.toTreeParams (.invalidateBlock env hash)).map fun tree =>
      { index with tree := tree }
  | .resetBlockFailureFlags hash =>
    (index.tree.call params.toTreeParams (.resetBlockFailureFlags hash)).map fun tree =>
      { index with tree := tree }

/-! ### The index that is loaded -/

/-- A `CBlockIndex` made by `LoadBlockIndex`. -/
structure LoadedBlock where
  pprev : Option Uint256
  pskip : Option Uint256
  nHeight : ℕ
  nFile : ℕ
  nDataPos : ℕ
  nUndoPos : ℕ
  nChainWork : ℕ
  nTx : ℕ
  nChainTx : ℕ
  nStatus : ℕ
  nVersion : UInt32
  hashMerkleRoot : Uint256
  nTime : UInt32
  nBits : UInt32
  nNonce : UInt32
  nSequenceId : ℤ
  nTimeMax : UInt32
deriving DecidableEq, Repr

namespace LoadedBlock

/-- `SetNull`. -/
def null : LoadedBlock :=
  ⟨none, none, 0, 0, 0, 0, 0, 0, 0, 0, 0, BaseBlob.null 32, 0, 0, 0, 0, 0⟩

def failed (block : LoadedBlock) : Bool := hasStatus block.nStatus blockFailedMask

def isValid (block : LoadedBlock) (nUpTo : ℕ) : Bool :=
  !block.failed && decide (nUpTo ≤ block.nStatus &&& blockValidMask)

/-- `CBlockIndexWorkComparator`, for two entries and their addresses. -/
def less (pa pb : LoadedBlock) (addressA addressB : ℕ) : Bool :=
  if pb.nChainWork < pa.nChainWork then false
  else if pa.nChainWork < pb.nChainWork then true
  else if pa.nSequenceId < pb.nSequenceId then false
  else if pb.nSequenceId < pa.nSequenceId then true
  else if addressA < addressB then false
  else decide (addressB < addressA)

end LoadedBlock

abbrev LoadedMap := Table.Rows Uint256 LoadedBlock

structure LoadedIndex where
  mapBlockIndex : LoadedMap
  setBlockIndexCandidates : List Uint256
  mapBlocksUnlinked : List (Uint256 × Uint256)
  pindexBestInvalid : Option Uint256
  pindexBestHeader : Option Uint256

def insertBlockIndex (hash : Uint256) (map : LoadedMap) : LoadedMap :=
  if hash.isNull then map else Table.insertNew hash .null map

/-- A round of `LoadBlockIndexGuts`, without result if the record cannot be read or its proof of
work fails. -/
def loadRecord (params : IndexParams) (map : LoadedMap) (value : Bytes) : Option LoadedMap := do
  let disk ← StateT.run' CDiskBlockIndex.unserialize value
  let hash := params.getHash disk.header
  let hashPrev := disk.header.hashPrevBlock
  let map := insertBlockIndex hashPrev (insertBlockIndex hash map)
  let pindexNew ← map.lookup hash
  guard (checkProofOfWork params.powLimit hash disk.header.nBits)
  return map.insert hash { pindexNew with
    pprev := if hashPrev.isNull then none else some hashPrev
    nHeight := disk.nHeight
    nFile := disk.nFile
    nDataPos := disk.nDataPos
    nUndoPos := disk.nUndoPos
    nVersion := disk.header.nVersion
    hashMerkleRoot := disk.header.hashMerkleRoot
    nTime := disk.header.nTime
    nBits := disk.header.nBits
    nNonce := disk.header.nNonce
    nStatus := disk.nStatus
    nTx := disk.nTx }

def loadBlockIndexGuts (params : IndexParams) (records : List Bytes) : Option LoadedMap :=
  records.foldlM (loadRecord params) ∅

namespace LoadedIndex

def block (index : LoadedIndex) (hash : Uint256) : LoadedBlock :=
  (index.mapBlockIndex.lookup hash).getD .null

def getAncestor (index : LoadedIndex) (hash : Uint256) (height : ℕ) : Option Uint256 :=
  getAncestorBySkip (fun walk => (index.block walk).pprev) (fun walk => (index.block walk).pskip)
    (index.block hash).nHeight hash height

/-- The entry with the fields calculated from the one before. -/
def calculated (index : LoadedIndex) (pindex : LoadedBlock) : LoadedBlock :=
  let pprev := pindex.pprev.map index.block
  { pindex with
    nChainWork := (pprev.elim 0 LoadedBlock.nChainWork) + getBlockProof pindex.nBits
    nTimeMax := pprev.elim pindex.nTime fun pprev => max pprev.nTimeMax pindex.nTime
    nChainTx :=
      if 0 < pindex.nTx then
        pprev.elim pindex.nTx fun pprev =>
          if pprev.nChainTx ≠ 0 then (pprev.nChainTx + pindex.nTx) % 2 ^ 32 else 0
      else
        pindex.nChainTx
    nStatus :=
      if !pindex.failed && pprev.any LoadedBlock.failed then pindex.nStatus ||| blockFailedChild
      else pindex.nStatus
    pskip := pindex.pprev.elim pindex.pskip fun pprev =>
      index.getAncestor pprev (getSkipHeight pindex.nHeight) }

/-- One round of the loop of `LoadBlockIndex`. -/
def loadBlock (address : Uint256 → ℕ) (index : LoadedIndex) (hash : Uint256) : LoadedIndex :=
  let pindex := index.calculated (index.block hash)
  { mapBlockIndex := index.mapBlockIndex.insert hash pindex
    mapBlocksUnlinked :=
      match pindex.pprev with
      | none => index.mapBlocksUnlinked
      | some pprev =>
        if 0 < pindex.nTx ∧ (index.block pprev).nChainTx = 0 then
          (pprev, hash) :: index.mapBlocksUnlinked
        else
          index.mapBlocksUnlinked
    setBlockIndexCandidates :=
      if pindex.isValid blockValidTransactions &&
          (decide (pindex.nChainTx ≠ 0) || pindex.pprev.isNone) then
        index.setBlockIndexCandidates.insert hash
      else
        index.setBlockIndexCandidates
    pindexBestInvalid :=
      if pindex.failed && index.pindexBestInvalid.all fun best =>
          decide ((index.block best).nChainWork < pindex.nChainWork) then
        some hash
      else
        index.pindexBestInvalid
    pindexBestHeader :=
      if pindex.isValid blockValidTree && index.pindexBestHeader.all fun best =>
          (index.block best).less pindex (address best) (address hash) then
        some hash
      else
        index.pindexBestHeader }

end LoadedIndex

/-- `vSortedByHeight`. -/
def sortedByHeight (address : Uint256 → ℕ) (map : LoadedMap) : List Uint256 :=
  let key := fun hash => toLex (((map.lookup hash).getD .null).nHeight, address hash)
  map.keys.insertionSort fun first second => key first ≤ key second

/-- `LoadBlockIndex`, with the addresses of its entries. -/
def loadBlockIndex (params : IndexParams) (address : Uint256 → ℕ) (records : List Bytes) :
    Option LoadedIndex := do
  let map ← loadBlockIndexGuts params records
  return (sortedByHeight address map).foldl (LoadedIndex.loadBlock address)
    ⟨map, [], [], none, none⟩

end Catoshi
