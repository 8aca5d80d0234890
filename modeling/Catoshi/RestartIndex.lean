/-
Restarting a node: the block index read back is the one written. Fields not written are calculated
from the lowest height up.
-/
import Catoshi.IndexKept

namespace Catoshi

open ByteStream CBlockIndex Table LoadedBlock List

/-! ### The status of a block as a number -/

/-- The parts of a status are found in its bits. -/
theorem status_bits : ∀ nValidity < 8, ∀ data undo valid child witness : Bool,
    let nStatus := nValidity ||| statusBit data blockHaveData ||| statusBit undo blockHaveUndo |||
      statusBit valid blockFailedValid ||| statusBit child blockFailedChild |||
      statusBit witness blockOptWitness
    hasStatus nStatus blockHaveData = data ∧ nStatus &&& blockValidMask = nValidity ∧
      hasStatus nStatus (blockHaveData ||| blockHaveUndo) = (data || undo) ∧
      hasStatus nStatus blockFailedMask = (valid || child) ∧ nStatus ≤ uintMax ∧
      hasStatus (nStatus ||| blockFailedChild) blockFailedMask = true ∧
      (nStatus ||| blockFailedChild) &&& blockValidMask = nValidity := by
  decide +kernel

section status

variable {entry : BlockEntry} (hmask : entry.nValidity ≤ blockValidMask) (optWitness : Bool)

include hmask

theorem BlockEntry.nStatus_spec :
    hasStatus (entry.nStatus optWitness) blockHaveData = entry.haveData ∧
      entry.nStatus optWitness &&& blockValidMask = entry.nValidity ∧
      hasStatus (entry.nStatus optWitness) (blockHaveData ||| blockHaveUndo) =
        (entry.haveData || entry.haveUndo) ∧
      hasStatus (entry.nStatus optWitness) blockFailedMask = entry.failed ∧
      entry.nStatus optWitness ≤ uintMax ∧
      hasStatus (entry.nStatus optWitness ||| blockFailedChild) blockFailedMask = true ∧
      (entry.nStatus optWitness ||| blockFailedChild) &&& blockValidMask = entry.nValidity :=
  status_bits entry.nValidity (Nat.lt_succ_iff.2 hmask) _ _ _ _ _

end status

namespace IndexState

/-! ### What is made of the records -/

def recorded (index : IndexState) (pindex : CBlockIndex) : LoadedBlock :=
  { LoadedBlock.null with
    pprev := pindex.pprev.map getBlockHash
    nHeight := pindex.nHeight
    nFile := (index.fields pindex).nFile
    nDataPos := (index.fields pindex).nDataPos
    nUndoPos := (index.fields pindex).nUndoPos
    nVersion := (index.fields pindex).nVersion
    hashMerkleRoot := (index.fields pindex).hashMerkleRoot
    nTime := pindex.nTime
    nBits := (index.fields pindex).nBits
    nNonce := (index.fields pindex).nNonce
    nStatus := (index.tree.entry pindex).nStatus (index.fields pindex).optWitness
    nTx := (index.tree.entry pindex).nTx }

/-- The records of some blocks have been read: they have entries, and the blocks before them at
least empty ones. -/
structure Collected (index : IndexState) (done : List CBlockIndex) (map : LoadedMap) : Prop where
  done : ∀ pindex ∈ done, map.lookup pindex.getBlockHash = some (index.recorded pindex)
  only : ∀ hash block, map.lookup hash = some block →
    ∃ pindex ∈ index.tree.mapBlockIndex, pindex.getBlockHash = hash ∧
      (block = .null ∨ block = index.recorded pindex)

section records

variable {params : IndexParams} {index : IndexState} {pindex : CBlockIndex} {map : LoadedMap}
  {done : List CBlockIndex}

theorem lookup_insertBlockIndex (hash : Uint256) (map : LoadedMap) (other : Uint256) :
    (insertBlockIndex hash map).lookup other =
      if other = hash ∧ hash.isNull = false then some ((map.lookup hash).getD .null)
      else map.lookup other := by
  rw [insertBlockIndex]
  cases hash.isNull with
  | true => simp
  | false =>
    rw [if_neg Bool.false_ne_true, lookup_insertNew]
    simp

section

variable (hkept : index.Kept params)

include hkept

theorem Kept.fits (hin : pindex ∈ index.tree.mapBlockIndex) :
    (index.diskBlockIndex pindex).Fits := by
  have hplaced := hkept.placed pindex hin
  have hfiled := hkept.filed pindex hin
  obtain ⟨hdata, -, hboth, -, hstatus, -⟩ :=
    BlockEntry.nStatus_spec hfiled.mask (index.fields pindex).optWitness
  refine ⟨hplaced.nHeight, hstatus, hfiled.nTx, hfiled.nFile, hfiled.nDataPos, ?_, ?_, ?_, ?_⟩
  · exact hfiled.nUndoPos.trans_le (Nat.zero_le _)
  · intro hno
    have hno : ((index.tree.entry pindex).haveData || (index.tree.entry pindex).haveUndo) =
        false := hboth.symm.trans hno
    exact (hfiled.noData (Bool.or_eq_false_iff.1 hno).1).2.1
  · intro hno
    exact (hfiled.noData (hdata.symm.trans hno)).2.2
  · exact fun _ => hfiled.nUndoPos

theorem Kept.hash_isNull
    (hin : pindex ∈ index.tree.mapBlockIndex) : pindex.getBlockHash.isNull = false := by
  rw [← (hkept.placed pindex hin).hash]
  exact params.getHash_isNull _

theorem Kept.pointer (hin : pindex ∈ index.tree.mapBlockIndex) :
    (if pindex.hashPrevBlock.isNull then none else some pindex.hashPrevBlock) =
      pindex.pprev.map getBlockHash := by
  rw [hashPrevBlock]
  cases hprev : pindex.pprev with
  | none => simp [BaseBlob.isNull]
  | some pprev =>
    have hnamed := hkept.hash_isNull (hkept.grown.pprev pindex hin pprev hprev)
    rw [Option.map_some, Option.getD_some, hnamed]
    rfl

section

variable (hcoll : index.Collected done map) (hgrown : index.tree.Grown params.toTreeParams)

include hcoll hgrown

omit hkept in
/-- What there is under a known hash. -/
theorem Collected.held (hin : pindex ∈ index.tree.mapBlockIndex) :
    (map.lookup pindex.getBlockHash).getD .null = .null ∨
      (map.lookup pindex.getBlockHash).getD .null = index.recorded pindex := by
  cases hheld : map.lookup pindex.getBlockHash with
  | none => exact .inl rfl
  | some block =>
    obtain ⟨other, ho, hhash, hblk⟩ := hcoll.only _ block hheld
    obtain rfl := hgrown.unique other ho pindex hin hhash
    exact hblk

omit hkept in
/-- Empty entries do no harm. -/
theorem Collected.insertBlockIndex {hash : Uint256}
    (hin : hash.isNull = false → ∃ pindex ∈ index.tree.mapBlockIndex, pindex.getBlockHash = hash) :
    index.Collected done (insertBlockIndex hash map) := by
  constructor
  · intro other ho
    rw [lookup_insertBlockIndex]
    split_ifs with hsame
    · rw [← hsame.1, hcoll.done other ho, Option.getD_some]
    · exact hcoll.done other ho
  · intro other block hblk
    rw [lookup_insertBlockIndex] at hblk
    split_ifs at hblk with hsame
    · obtain ⟨pindex, hmem, hhash⟩ := hin hsame.2
      cases hblk
      refine ⟨pindex, hmem, hhash.trans hsame.1.symm, ?_⟩
      rw [← hhash]
      exact hcoll.held hgrown hmem
    · exact hcoll.only other block hblk

omit hgrown in
theorem Collected.loadRecord
    (hdone : done ⊆ index.tree.mapBlockIndex) (hin : pindex ∈ index.tree.mapBlockIndex) :
    ∃ next, loadRecord params map (index.diskRecord params pindex) = some next ∧
      index.Collected (pindex :: done) next := by
  have hread : StateT.run' CDiskBlockIndex.unserialize (index.diskRecord params pindex) =
      some (index.diskBlockIndex pindex) := by
    have hreads := CDiskBlockIndex.reads_unserialize params.clientVersion_le (hkept.fits hin) []
    rw [append_nil] at hreads
    rw [StateT.run', diskRecord, hreads]
    rfl
  have hhash : params.getHash (index.diskBlockIndex pindex).header = pindex.getBlockHash :=
    (hkept.placed pindex hin).hash
  have hprevHash : (index.diskBlockIndex pindex).header.hashPrevBlock = pindex.hashPrevBlock := rfl
  have hnamed := hkept.hash_isNull hin
  -- the two empty entries
  have hinserted : index.Collected done (Catoshi.insertBlockIndex pindex.hashPrevBlock
        (Catoshi.insertBlockIndex pindex.getBlockHash map)) := by
    refine (hcoll.insertBlockIndex hkept.grown fun _ => ⟨pindex, hin, rfl⟩).insertBlockIndex
      hkept.grown fun hnotNull => ?_
    cases hprev : pindex.pprev with
    | none =>
      rw [hashPrevBlock, hprev] at hnotNull
      simp [BaseBlob.isNull] at hnotNull
    | some pprev =>
      refine ⟨pprev, hkept.grown.pprev pindex hin pprev hprev, ?_⟩
      rw [hashPrevBlock, hprev]
      rfl
  obtain ⟨held, hheld⟩ : ∃ held, AList.lookup pindex.getBlockHash
      (Catoshi.insertBlockIndex pindex.hashPrevBlock
        (Catoshi.insertBlockIndex pindex.getBlockHash map)) = some held := by
    have hfst := lookup_insertBlockIndex pindex.getBlockHash map pindex.getBlockHash
    rw [if_pos ⟨rfl, hnamed⟩] at hfst
    rw [lookup_insertBlockIndex]
    split
    · exact ⟨_, rfl⟩
    · exact ⟨_, hfst⟩
  have hempty : held = .null ∨ held = index.recorded pindex := by
    have hcases := hinserted.held hkept.grown hin
    rwa [hheld] at hcases
  have hloaded : Catoshi.loadRecord params map (index.diskRecord params pindex) =
      some ((Catoshi.insertBlockIndex pindex.hashPrevBlock
        (Catoshi.insertBlockIndex pindex.getBlockHash map)).insert pindex.getBlockHash
          (index.recorded pindex)) := by
    rw [Catoshi.loadRecord, hread]
    simp only [Option.bind_eq_bind, Option.bind_some, hprevHash]
    rw [hhash, hheld, hkept.pointer hin]
    have hproof : checkProofOfWork params.powLimit pindex.getBlockHash
        (index.diskBlockIndex pindex).header.nBits = true := (hkept.placed pindex hin).proof
    simp only [Option.bind_some, hproof, guard_true]
    rcases hempty with rfl | rfl <;> rfl
  refine ⟨_, hloaded, ?_, ?_⟩
  · intro other ho
    rw [lookup_insert]
    split_ifs with hsame
    · have hmem : other ∈ index.tree.mapBlockIndex := cons_subset.2 ⟨hin, hdone⟩ ho
      rw [hkept.grown.unique other hmem pindex hin hsame]
    · have hold := (mem_cons.1 ho).resolve_left fun heq => hsame (heq ▸ rfl)
      exact hinserted.done other hold
  · intro hash block hblk
    rw [lookup_insert] at hblk
    split_ifs at hblk with hsame
    · cases hblk
      exact ⟨pindex, hin, hsame.symm, .inr rfl⟩
    · exact hinserted.only hash block hblk

end

variable {order : List CBlockIndex}

theorem Collected.foldlM (horder : order ⊆ index.tree.mapBlockIndex)
    (hcoll : index.Collected done map) (hdone : done ⊆ index.tree.mapBlockIndex) :
    ∃ final, (order.map (index.diskRecord params)).foldlM (Catoshi.loadRecord params) map =
        some final ∧ index.Collected (order.reverse ++ done) final := by
  induction order generalizing done map with
  | nil => exact ⟨map, rfl, hcoll⟩
  | cons pindex rest ih =>
    obtain ⟨hin, hrest⟩ := cons_subset.1 horder
    obtain ⟨next, hnext, hcollected'⟩ := hcoll.loadRecord hkept hdone hin
    obtain ⟨final, hfinal, hcollected''⟩ := ih hrest hcollected' (cons_subset.2 ⟨hin, hdone⟩)
    refine ⟨final, ?_, ?_⟩
    · rw [map_cons, foldlM_cons, hnext]
      exact hfinal
    · rw [reverse_cons, append_assoc]
      exact hcollected''

/-- Every block has the entry of its record, whatever the order. -/
theorem Kept.loadBlockIndexGuts (horder : order.Perm index.tree.mapBlockIndex) :
    ∃ map, loadBlockIndexGuts params (order.map (index.diskRecord params)) = some map ∧
      (∀ pindex ∈ index.tree.mapBlockIndex,
        map.lookup pindex.getBlockHash = some (index.recorded pindex)) ∧
      ∀ hash ∈ map, ∃ pindex ∈ index.tree.mapBlockIndex, pindex.getBlockHash = hash := by
  have hempty : index.Collected [] ∅ := ⟨nofun, fun hash block hblk => by
    cases hblk⟩
  obtain ⟨map, hloaded, hcoll⟩ := hempty.foldlM hkept horder.subset (nil_subset _)
  refine ⟨map, hloaded, fun pindex hin => hcoll.done pindex ?_, fun hash hmem => ?_⟩
  · rw [append_nil, mem_reverse]
    exact horder.mem_iff.2 hin
  · obtain ⟨block, hblk⟩ := mem_iff.1 hmem
    obtain ⟨pindex, hin, hhash, -⟩ := hcoll.only hash block hblk
    exact ⟨pindex, hin, hhash⟩

end

end records

/-! ### What is calculated -/

def failedBelow (index : IndexState) (pindex : CBlockIndex) : Bool :=
  pindex.ancestors.any fun other => (index.tree.entry other).failed

/-- The entry after a restart. `BLOCK_FAILED_CHILD` is added above failed blocks, and the order of
arrival is lost. -/
def restored (index : IndexState) (pindex : CBlockIndex) : LoadedBlock :=
  let entry := index.tree.entry pindex
  let fields := index.fields pindex
  { pprev := pindex.pprev.map getBlockHash
    pskip := fields.pskip.map getBlockHash
    nHeight := pindex.nHeight
    nFile := fields.nFile
    nDataPos := fields.nDataPos
    nUndoPos := fields.nUndoPos
    nChainWork := entry.nChainWork
    nTx := entry.nTx
    nChainTx := entry.nChainTx
    nStatus :=
      if !entry.failed && index.failedBelow pindex then
        entry.nStatus fields.optWitness ||| blockFailedChild
      else
        entry.nStatus fields.optWitness
    nVersion := fields.nVersion
    hashMerkleRoot := fields.hashMerkleRoot
    nTime := pindex.nTime
    nBits := fields.nBits
    nNonce := fields.nNonce
    nSequenceId := 0
    nTimeMax := fields.nTimeMax }

section calculation

variable {params : IndexParams} {index : IndexState} {pindex : CBlockIndex} {loaded : LoadedIndex}

section

variable (hkept : index.Kept params)

include hkept

omit hkept in
theorem failedBelow_eq (index : IndexState) (pindex : CBlockIndex) :
    index.failedBelow pindex =
      ((index.tree.entry pindex).failed || pindex.pprev.any index.failedBelow) := by
  cases pindex with
  | genesis | child => simp [failedBelow, CBlockIndex.ancestors, CBlockIndex.pprev]

section

variable (hin : pindex ∈ index.tree.mapBlockIndex)

include hin

theorem Kept.failed_recorded :
    (index.recorded pindex).failed = (index.tree.entry pindex).failed :=
  (BlockEntry.nStatus_spec (hkept.filed pindex hin).mask _).2.2.2.1

theorem Kept.restored_valid :
    (index.restored pindex).failed = index.failedBelow pindex ∧
      (index.restored pindex).nStatus &&& blockValidMask = (index.tree.entry pindex).nValidity := by
  obtain ⟨-, hlevel, -, hfail, -, hmarked, hlevel'⟩ :=
    BlockEntry.nStatus_spec (hkept.filed pindex hin).mask (index.fields pindex).optWitness
  have hself : (index.tree.entry pindex).failed = true → index.failedBelow pindex = true :=
    fun hfail => any_eq_true.2 ⟨pindex, ancestors_self _, hfail⟩
  rw [restored]
  cases hmark : (index.tree.entry pindex).failed with
  | true =>
    rw [hmark] at hfail
    simp only [hself hmark, Bool.not_true, Bool.false_and, Bool.false_eq_true, if_false]
    exact ⟨hfail, hlevel⟩
  | false =>
    rw [hmark] at hfail
    cases hbelow : index.failedBelow pindex with
    | true => exact ⟨hmarked, hlevel'⟩
    | false => exact ⟨hfail, hlevel⟩

theorem Kept.isValid_restored :
    (index.restored pindex).isValid blockValidTree = !index.failedBelow pindex := by
  obtain ⟨hfail, hlevel⟩ := hkept.restored_valid hin
  rw [isValid, hfail, hlevel, decide_eq_true (hkept.filed pindex hin).tree, Bool.and_true]

/-- The transactions up to a block, as `LoadBlockIndex` counts. -/
theorem Kept.nChainTx_eq :
    (index.tree.entry pindex).nChainTx =
      if 0 < (index.tree.entry pindex).nTx then
        pindex.pprev.elim (index.tree.entry pindex).nTx fun pprev =>
          if (index.tree.entry pprev).nChainTx ≠ 0 then
            ((index.tree.entry pprev).nChainTx + (index.tree.entry pindex).nTx) % 2 ^ 32
          else 0
      else 0 := by
  have hiff := hkept.linking.chainTx pindex hin not_mem_nil
  by_cases hlink : (index.tree.entry pindex).nChainTx = 0
  · have hnot : ¬ index.tree.Arrived pindex := fun harrived => hiff.2 harrived hlink
    rw [hlink]
    split_ifs with hpos
    · cases hprev : pindex.pprev with
      | none => exact absurd ⟨hpos.ne', fun pprev h => by rw [hprev] at h; cases h⟩ hnot
      | some pprev =>
        rw [Option.elim_some, if_neg]
        intro hpar
        refine hnot ⟨hpos.ne', fun other ho => ?_⟩
        rw [hprev] at ho
        cases ho
        exact hpar
    · rfl
  · obtain ⟨hpos, hpar⟩ := hiff.1 hlink
    rw [if_pos (Nat.pos_of_ne_zero hpos)]
    have htotal := hkept.linking.total pindex hin hlink
    have hsmall := hkept.linking.small pindex hin
    rw [htotal]
    rw [BlockTree.totalTx_eq] at hsmall ⊢
    cases hprev : pindex.pprev with
    | none => exact Nat.zero_add _
    | some pprev =>
      have hbelow := hkept.linking.total pprev (hkept.grown.pprev pindex hin pprev hprev)
        (hpar pprev hprev)
      rw [hprev] at hsmall
      rw [Option.elim_some, Option.elim_some, if_pos (hpar pprev hprev), hbelow]
      exact (Nat.mod_eq_of_lt hsmall).symm

theorem Kept.any_failed :
    (pindex.pprev.map index.restored).any failed = pindex.pprev.any index.failedBelow := by
  cases hprev : pindex.pprev with
  | none => rfl
  | some pprev => exact (hkept.restored_valid (hkept.grown.pprev pindex hin pprev hprev)).1

section

variable
  (hbelow : ∀ pprev, pindex.pprev = some pprev → ∀ other ∈ pprev.ancestors,
    loaded.block other.getBlockHash = index.restored other)

include hbelow

/-- The entries before lead `BuildSkip` to the same block. -/
theorem Kept.calculated_pskip :
    ((index.recorded pindex).pprev.elim (index.recorded pindex).pskip fun pprev =>
        loaded.getAncestor pprev (getSkipHeight (index.recorded pindex).nHeight)) =
      (index.fields pindex).pskip.map getBlockHash := by
  rw [(hkept.placed pindex hin).pskip]
  cases pindex with
  | genesis hash time => rfl
  | child pprev hash time =>
    have hprevKnown := hkept.grown.pprev _ hin pprev rfl
    have hblocks := hbelow pprev rfl
    change loaded.getAncestor pprev.getBlockHash (getSkipHeight (pprev.nHeight + 1)) = _
    rw [LoadedIndex.getAncestor, hblocks pprev (ancestors_self pprev)]
    refine getAncestorBySkip_spec (fun other ho => ?_) fun other ho => ?_
    · rw [hblocks other ho]
      rfl
    · rw [hblocks other ho, restored, ← (hkept.placed other ?_).pskip]
      exact hkept.grown.ancestors hprevKnown ho

/-- With all entries before it complete, an entry is calculated as it was. -/
theorem Kept.calculated : loaded.calculated (index.recorded pindex) = index.restored pindex := by
  have hplaced := hkept.placed pindex hin
  have hpprev : (index.recorded pindex).pprev = pindex.pprev.map getBlockHash := rfl
  have hblocks : (index.recorded pindex).pprev.map loaded.block =
      pindex.pprev.map index.restored := by
    rw [hpprev, Option.map_map]
    refine Option.map_congr fun pprev hprev => ?_
    exact hbelow pprev hprev pprev (ancestors_self pprev)
  rw [LoadedIndex.calculated]
  simp only [hblocks, Option.elim_map]
  congr 1
  · exact hkept.calculated_pskip hin hbelow
  · exact hplaced.nChainWork.symm
  · exact (hkept.nChainTx_eq hin).symm
  · rw [hkept.failed_recorded hin, hkept.any_failed hin, failedBelow_eq]
    cases (index.tree.entry pindex).failed <;> rfl
  · exact hplaced.nTimeMax.symm

end

end

end

end calculation

/-! ### The loop over the heights -/

/-- The loop with hashes to do. The best header so far is a valid one with most work. -/
structure Loading (index : IndexState) (todo : List Uint256) (loaded : LoadedIndex) : Prop where
  waiting : ∀ pindex ∈ index.tree.mapBlockIndex, pindex.getBlockHash ∈ todo →
    loaded.mapBlockIndex.lookup pindex.getBlockHash = some (index.recorded pindex)
  done : ∀ pindex ∈ index.tree.mapBlockIndex, pindex.getBlockHash ∉ todo →
    loaded.mapBlockIndex.lookup pindex.getBlockHash = some (index.restored pindex)
  only : ∀ hash ∈ loaded.mapBlockIndex,
    ∃ pindex ∈ index.tree.mapBlockIndex, pindex.getBlockHash = hash
  best : ∀ hash ∈ loaded.pindexBestHeader, ∃ best ∈ index.tree.mapBlockIndex,
    best.getBlockHash = hash ∧ best.getBlockHash ∉ todo ∧ index.failedBelow best = false
  most : ∀ pindex ∈ index.tree.mapBlockIndex, pindex.getBlockHash ∉ todo →
    index.failedBelow pindex = false → ∃ best ∈ index.tree.mapBlockIndex,
      loaded.pindexBestHeader = some best.getBlockHash ∧
        (index.tree.entry pindex).nChainWork ≤ (index.tree.entry best).nChainWork

section loop

variable {params : IndexParams} {index : IndexState} {pindex : CBlockIndex}
  {loaded : LoadedIndex} {todo : List Uint256} {pa pb : LoadedBlock} {addressA addressB : ℕ}

theorem nChainWork_le_of_less (hless : pa.less pb addressA addressB = true) :
    pa.nChainWork ≤ pb.nChainWork := by
  rw [less] at hless
  split at hless
  · cases hless
  · next hwork => exact not_lt.1 hwork

theorem nChainWork_le_of_not_less (hless : pa.less pb addressA addressB = false) :
    pb.nChainWork ≤ pa.nChainWork := by
  rw [less] at hless
  split at hless
  · next hwork => exact hwork.le
  · split at hless
    · cases hless
    · next hwork => exact not_lt.1 hwork

theorem Loading.block_of_done (hloading : index.Loading todo loaded)
    (hin : pindex ∈ index.tree.mapBlockIndex) (hdone : pindex.getBlockHash ∉ todo) :
    loaded.block pindex.getBlockHash = index.restored pindex := by
  rw [LoadedIndex.block, hloading.done pindex hin hdone, Option.getD_some]

section

variable (address : Uint256 → ℕ)

/-- The best header after one more block. -/
theorem Loading.next_best (hkept : index.Kept params)
    (hloading : index.Loading (pindex.getBlockHash :: todo) loaded)
    (hin : pindex ∈ index.tree.mapBlockIndex)
    (hpidx : loaded.calculated (loaded.block pindex.getBlockHash) = index.restored pindex) :
    ((loaded.loadBlock address pindex.getBlockHash).pindexBestHeader =
        some pindex.getBlockHash ∧ index.failedBelow pindex = false ∧
        ∀ best ∈ index.tree.mapBlockIndex, loaded.pindexBestHeader = some best.getBlockHash →
          (index.tree.entry best).nChainWork ≤ (index.tree.entry pindex).nChainWork) ∨
      (loaded.loadBlock address pindex.getBlockHash).pindexBestHeader =
          loaded.pindexBestHeader ∧
        (index.failedBelow pindex = false → ∃ best ∈ index.tree.mapBlockIndex,
          loaded.pindexBestHeader = some best.getBlockHash ∧
            (index.tree.entry pindex).nChainWork ≤ (index.tree.entry best).nChainWork) := by
  have hvalid := hkept.isValid_restored hin
  have hnext : (loaded.loadBlock address pindex.getBlockHash).pindexBestHeader =
      if !index.failedBelow pindex && loaded.pindexBestHeader.all fun best =>
          (loaded.block best).less (index.restored pindex) (address best)
            (address pindex.getBlockHash) then
        some pindex.getBlockHash
      else
        loaded.pindexBestHeader := by
    rw [LoadedIndex.loadBlock, hpidx, hvalid]
  rw [hnext]
  cases hbelow : index.failedBelow pindex with
  | true => exact .inr ⟨rfl, nofun⟩
  | false =>
    cases hold : loaded.pindexBestHeader with
    | none => exact .inl ⟨rfl, rfl, nofun⟩
    | some hash =>
      obtain ⟨best, hbestKnown, rfl, hdone, -⟩ := hloading.best hash hold
      rw [Option.all_some, hloading.block_of_done hbestKnown hdone]
      cases hless : (index.restored best).less (index.restored pindex)
        (address best.getBlockHash) (address pindex.getBlockHash) with
      | true =>
        refine .inl ⟨rfl, rfl, fun other ho hsame => ?_⟩
        have hhash := Option.some.inj hsame
        rw [← hkept.grown.unique best hbestKnown other ho hhash]
        exact nChainWork_le_of_less hless
      | false =>
        exact .inr ⟨rfl, fun _ =>
          ⟨best, hbestKnown, rfl, nChainWork_le_of_not_less hless⟩⟩

theorem Loading.step (hkept : index.Kept params)
    (hloading : index.Loading (pindex.getBlockHash :: todo) loaded)
    (hin : pindex ∈ index.tree.mapBlockIndex) (hnd : pindex.getBlockHash ∉ todo)
    (hsort : ∀ other ∈ index.tree.mapBlockIndex, other.getBlockHash ∈ todo →
      pindex.nHeight ≤ other.nHeight) :
    index.Loading todo (loaded.loadBlock address pindex.getBlockHash) := by
  have hbelow : ∀ pprev, pindex.pprev = some pprev → ∀ other ∈ pprev.ancestors,
      loaded.block other.getBlockHash = index.restored other := by
    intro pprev hprev other ho
    have hmem := hkept.grown.ancestors (hkept.grown.pprev pindex hin pprev hprev) ho
    have hlower : other.nHeight < pindex.nHeight := by
      rw [nHeight_of_pprev hprev]
      exact Nat.lt_succ_iff.2 (nHeight_le_of_mem ho)
    refine hloading.block_of_done hmem fun htodo => ?_
    rcases mem_cons.1 htodo with hsame | hlater
    · rw [hkept.grown.unique other hmem pindex hin hsame] at hlower
      exact lt_irrefl _ hlower
    · exact absurd hlower (not_lt.2 (hsort other hmem hlater))
  have hpidx : loaded.calculated (loaded.block pindex.getBlockHash) = index.restored pindex := by
    rw [LoadedIndex.block, hloading.waiting pindex hin mem_cons_self]
    exact hkept.calculated hin hbelow
  have hmap : (loaded.loadBlock address pindex.getBlockHash).mapBlockIndex =
      loaded.mapBlockIndex.insert pindex.getBlockHash (index.restored pindex) := by
    rw [LoadedIndex.loadBlock, hpidx]
  have ho : ∀ other ∈ index.tree.mapBlockIndex, other ≠ pindex →
      other.getBlockHash ≠ pindex.getBlockHash := fun other hmem hne heq =>
    hne (hkept.grown.unique other hmem pindex hin heq)
  have hstill : ∀ other ∈ index.tree.mapBlockIndex, other ≠ pindex →
      other.getBlockHash ∉ todo → other.getBlockHash ∉ pindex.getBlockHash :: todo :=
    fun other hmem hne hdone => not_mem_cons_of_ne_of_not_mem (ho other hmem hne) hdone
  have hbest := hloading.next_best address hkept hin hpidx
  constructor
  · intro other hmem htodo
    have hne : other.getBlockHash ≠ pindex.getBlockHash := fun heq => hnd (heq ▸ htodo)
    rw [hmap, lookup_insert, if_neg hne]
    exact hloading.waiting other hmem (mem_cons_of_mem _ htodo)
  · intro other hmem hdone
    rw [hmap, lookup_insert]
    by_cases hsame : other = pindex
    · rw [hsame, if_pos rfl]
    · rw [if_neg (ho other hmem hsame)]
      exact hloading.done other hmem (hstill other hmem hsame hdone)
  · intro hash hmem
    rw [hmap, AList.mem_insert] at hmem
    rcases hmem with rfl | hold
    · exact ⟨pindex, hin, rfl⟩
    · exact hloading.only hash hold
  · intro hash hmem
    rcases hbest with ⟨hnew, hvalid, -⟩ | ⟨hsame, -⟩
    · rw [hnew] at hmem
      cases hmem
      exact ⟨pindex, hin, rfl, hnd, hvalid⟩
    · rw [hsame] at hmem
      obtain ⟨best, hknown', hhash, hdone, hvalid⟩ := hloading.best hash hmem
      exact ⟨best, hknown', hhash, fun htodo => hdone (mem_cons_of_mem _ htodo), hvalid⟩
  · intro other hmem hdone hvalid
    by_cases hself : other = pindex
    · subst hself
      rcases hbest with ⟨hnew, -, -⟩ | ⟨hsame, hmost⟩
      · exact ⟨other, hin, hnew, le_rfl⟩
      · rw [hsame]
        exact hmost hvalid
    · obtain ⟨best, hbestKnown, hold, hwork⟩ :=
        hloading.most other hmem (hstill other hmem hself hdone) hvalid
      rcases hbest with ⟨hnew, -, hmore⟩ | ⟨hsame, -⟩
      · exact ⟨pindex, hin, hnew, hwork.trans (hmore best hbestKnown hold)⟩
      · exact ⟨best, hbestKnown, hsame.trans hold, hwork⟩

/-- All blocks are done, from the lowest height up. -/
theorem Loading.foldl (hkept : index.Kept params) (hloading : index.Loading todo loaded)
    (hin : ∀ hash ∈ todo, ∃ pindex ∈ index.tree.mapBlockIndex, pindex.getBlockHash = hash)
    (hnd : todo.Nodup)
    (hsort : todo.Pairwise fun low high => ∀ pindex ∈ index.tree.mapBlockIndex,
      ∀ other ∈ index.tree.mapBlockIndex, pindex.getBlockHash = low →
        other.getBlockHash = high → pindex.nHeight ≤ other.nHeight) :
    index.Loading [] (todo.foldl (LoadedIndex.loadBlock address) loaded) := by
  induction todo generalizing loaded with
  | nil => exact hloading
  | cons hash rest ih =>
    obtain ⟨pindex, hmem, rfl⟩ := hin hash mem_cons_self
    obtain ⟨hout, hnd⟩ := nodup_cons.1 hnd
    obtain ⟨hhead, hrest⟩ := pairwise_cons.1 hsort
    refine ih (hloading.step address hkept hmem hout fun other ho htodo => ?_)
      (forall_mem_cons.1 hin).2 hnd hrest
    exact hhead other.getBlockHash htodo pindex hmem other ho rfl rfl

/-- The loop starts with every entry as its record made it. -/
theorem loading_start {map : LoadedMap}
    (hmap : ∀ pindex ∈ index.tree.mapBlockIndex,
      map.lookup pindex.getBlockHash = some (index.recorded pindex))
    (honly : ∀ hash ∈ map, ∃ pindex ∈ index.tree.mapBlockIndex, pindex.getBlockHash = hash)
    (htodo : ∀ hash, hash ∈ todo ↔ hash ∈ map) :
    index.Loading todo ⟨map, [], [], none, none⟩ := by
  have hall : ∀ pindex ∈ index.tree.mapBlockIndex, pindex.getBlockHash ∈ todo :=
    fun pindex hin => (htodo _).2 (mem_of_lookup (hmap pindex hin))
  exact ⟨fun pindex hin _ => hmap pindex hin,
    fun pindex hin hdone => absurd (hall pindex hin) hdone, honly, nofun,
    fun pindex hin hdone => absurd (hall pindex hin) hdone⟩

theorem sortedByHeight_spec (map : LoadedMap) : (sortedByHeight address map).Perm map.keys ∧
      (sortedByHeight address map).Pairwise fun first second =>
        ((map.lookup first).getD .null).nHeight ≤ ((map.lookup second).getD .null).nHeight := by
  let key : Uint256 → ℕ ×ₗ ℕ := fun hash =>
    toLex (((map.lookup hash).getD .null).nHeight, address hash)
  refine ⟨perm_insertionSort _ _, ?_⟩
  refine (pairwise_insertionSort (fun first second => key first ≤ key second) map.keys).imp ?_
  intro first second hle
  rcases Prod.Lex.toLex_le_toLex.1 hle with hless | ⟨hsame, -⟩
  · exact hless.le
  · exact hsame.le

/-- The index after a restart, whatever the order of the records. -/
theorem Kept.loadBlockIndex (hkept : index.Kept params) (address : Uint256 → ℕ)
    {order : List CBlockIndex} (horder : order.Perm index.tree.mapBlockIndex) :
    ∃ loaded, loadBlockIndex params address (order.map (index.diskRecord params)) = some loaded ∧
      index.Loading [] loaded := by
  obtain ⟨map, hguts, hmap, honly⟩ := hkept.loadBlockIndexGuts horder
  obtain ⟨hperm, hsort⟩ := sortedByHeight_spec address map
  have htodo : ∀ hash, hash ∈ sortedByHeight address map ↔ hash ∈ map := fun hash =>
    hperm.mem_iff
  refine ⟨_, ?_, (loading_start hmap honly htodo).foldl address hkept
    (fun hash hhash => honly hash ((htodo hash).1 hhash)) (hperm.nodup_iff.2 map.nodupKeys) ?_⟩
  · rw [Catoshi.loadBlockIndex, hguts]
    rfl
  · refine hsort.imp ?_
    rintro low high hle pindex hin other ho rfl rfl
    rwa [hmap pindex hin, hmap other ho] at hle

end

end loop

/-- Every block has the entry it had, no other is known, and no valid header has more work than the
best. -/
structure Restarted (index : IndexState) (loaded : LoadedIndex) : Prop where
  blocks : ∀ hash, loaded.mapBlockIndex.lookup hash = (index.tree.find hash).map index.restored
  bestHeader : ∃ hash best, loaded.pindexBestHeader = some hash ∧
    loaded.mapBlockIndex.lookup hash = some best ∧ best.isValid blockValidTree = true ∧
    ∀ other block, loaded.mapBlockIndex.lookup other = some block →
      block.isValid blockValidTree = true → block.nChainWork ≤ best.nChainWork

section restart

variable {params : IndexParams} {index : IndexState} {pindex : CBlockIndex} {loaded : LoadedIndex}

theorem Loading.restarted (hkept : index.Kept params) (hloading : index.Loading [] loaded) :
    index.Restarted loaded := by
  have hdone : ∀ pindex ∈ index.tree.mapBlockIndex,
      loaded.mapBlockIndex.lookup pindex.getBlockHash = some (index.restored pindex) :=
    fun pindex hin => hloading.done pindex hin not_mem_nil
  have hf : ∀ hash block, loaded.mapBlockIndex.lookup hash = some block →
      ∃ pindex ∈ index.tree.mapBlockIndex, pindex.getBlockHash = hash ∧
        block = index.restored pindex := by
    intro hash block hblk
    obtain ⟨pindex, hin, rfl⟩ := hloading.only hash (mem_of_lookup hblk)
    rw [hdone pindex hin] at hblk
    exact ⟨pindex, hin, rfl, (Option.some.inj hblk).symm⟩
  constructor
  · intro hash
    cases hfind : index.tree.find hash with
    | none =>
      cases hlook : loaded.mapBlockIndex.lookup hash with
      | none => rfl
      | some block =>
        obtain ⟨pindex, hin, hhash, -⟩ := hf hash block hlook
        exact absurd hhash (BlockTree.hash_ne_of_find_none hfind hin)
    | some pindex =>
      obtain ⟨hin, rfl⟩ := BlockTree.mem_of_find hfind
      exact hdone pindex hin
  · -- the tip is valid, so there is a best header
    have htip : index.failedBelow index.tree.tip = false := by
      rw [failedBelow, any_eq_false]
      intro other ho
      rw [(hkept.grown.usable other ho).1]
      exact Bool.false_ne_true
    obtain ⟨best, hbest, hheader, -⟩ :=
      hloading.most index.tree.tip hkept.grown.tip not_mem_nil htip
    obtain ⟨other, ho, hhash, -, hvalid⟩ := hloading.best _ hheader
    rw [hkept.grown.unique other ho best hbest hhash] at hvalid
    refine ⟨best.getBlockHash, index.restored best, hheader, hdone best hbest, ?_, ?_⟩
    · rw [hkept.isValid_restored hbest, hvalid]
      rfl
    · intro hash block hblk hgood
      obtain ⟨pindex, hin, rfl, rfl⟩ := hf hash block hblk
      rw [hkept.isValid_restored hin, Bool.not_eq_true'] at hgood
      obtain ⟨most, hmost, hsame, hwork⟩ := hloading.most pindex hin not_mem_nil hgood
      have hhash := Option.some.inj (hsame.symm.trans hheader)
      rw [hkept.grown.unique most hmost best hbest hhash] at hwork
      exact hwork

end restart

/-- However the index was built up, with the headers and the data of the blocks in any order
and with blocks marked failed in between, a restart gives it back, as long as no block was
stored on a failed block that was not linked. -/
theorem restart_restores_index (params : IndexParams) {nTx : ℕ} {pos : CDiskBlockPos}
    (hstored : Storable nTx pos) (calls : List BuildCall)
    (hfit : Runs.Throughout (IndexState.call params) (IndexState.Fit params) calls
      (initial params nTx pos)) :
    Runs.Always (IndexState.call params) (fun index =>
      ∀ (address : Uint256 → ℕ) (order : List CBlockIndex), order.Perm index.tree.mapBlockIndex →
        ∃ loaded, loadBlockIndex params address (order.map (index.diskRecord params)) =
          some loaded ∧ index.Restarted loaded) calls (initial params nTx pos) := by
  have halways : Runs.Always (IndexState.call params) (IndexState.Kept params) calls
      (initial params nTx pos) :=
    hfit.always (fun index call next hkept hfit hcall => hkept.call hfit hcall)
      (kept_initial params hstored)
  refine halways.imp fun index hkept address order horder => ?_
  obtain ⟨loaded, hloaded, hloading⟩ := hkept.loadBlockIndex address horder
  exact ⟨loaded, hloaded, hloading.restarted hkept⟩

end IndexState

namespace RestartIndexWitness

open ByteOrder

/-- A stand-in for the hash: target and nonce. -/
def getHash (block : HeaderFields) : Uint256 :=
  ⟨1 :: (littleEndian 4 block.nBits.toNat ++ (littleEndian 4 block.nNonce.toNat ++
    List.replicate 23 0)), by simp⟩

/-- The work of the target in such a hash. -/
def work (hash : Uint256) : ℕ :=
  max 1 (getBlockProof (.ofNat (ofLittleEndian ((hash.data.drop 1).take 4))))

theorem work_getHash (block : HeaderFields) (hwork : 0 < getBlockProof block.nBits) :
    work (getHash block) = getBlockProof block.nBits := by
  have hbits : ofLittleEndian (littleEndian 4 block.nBits.toNat) = block.nBits.toNat :=
    ofLittleEndian_littleEndian block.nBits.toNat_lt
  have htake : ((getHash block).data.drop 1).take 4 = littleEndian 4 block.nBits.toNat := by
    rw [getHash, drop_one, tail_cons, take_append_of_le_length (by simp),
      take_of_length_le (by simp)]
  rw [work, htake, hbits, UInt32.ofNat_toNat]
  exact max_eq_right hwork

/-- The header with a nonce on that with another. -/
def header (hashPrevBlock : Uint256) (nNonce : UInt32) : HeaderFields :=
  ⟨1, hashPrevBlock, BaseBlob.null 32, 10 + nNonce, 0x207fffff, nNonce⟩

def genesis : HeaderFields := header (BaseBlob.null 32) 0

def params : IndexParams where
  hashGenesisBlock := getHash genesis
  nMinimumChainWork := 0
  getBlockProof := work
  getBlockProof_pos := fun hash => (le_max_left 1 _ : 1 ≤ work hash)
  address := fun pindex => pindex.nHeight
  getHash := getHash
  genesis := genesis
  isWitnessEnabled := fun _ => false
  clientVersion := 160000
  powLimit := 2 ^ 255
  getHash_isNull := fun block => by
    rw [BaseBlob.isNull, decide_eq_false_iff_not]
    intro hnull
    exact absurd (congrArg (fun blob => blob.data.head?) hnull) (by simp [getHash, BaseBlob.null])
  getBlockProof_getHash := work_getHash
  getHash_genesis := rfl
  genesis_hashPrevBlock := rfl
  genesis_proof := by decide +kernel
  clientVersion_le := by decide

def first : HeaderFields := header (getHash genesis) 1

def second : HeaderFields := header (getHash first) 2

def third : HeaderFields := header (getHash second) 3

def start : IndexState := .initial params 1 ⟨0, 8⟩

/-- Data arrives from the highest block down, and one is marked failed. -/
def arrivals : List BuildCall :=
  [.addToBlockIndex first, .addToBlockIndex second, .addToBlockIndex third,
    .receivedBlockTransactions (getHash third) 3 ⟨0, 900⟩,
    .receivedBlockTransactions (getHash second) 2 ⟨0, 500⟩,
    .receivedBlockTransactions (getHash first) 1 ⟨0, 1200⟩,
    .invalidateBlock ⟨fun _ => .connected, fun _ => true⟩ (getHash second)]

theorem restart_after_arrivals :
    ∃ index loaded, Runs.run (IndexState.call params) arrivals start = .ok index ∧
      loadBlockIndex params (fun _ => 0) (index.tree.mapBlockIndex.map (index.diskRecord params)) =
        some loaded ∧ index.Restarted loaded := by
  have hfit : Runs.Throughout (IndexState.call params) (IndexState.Fit params) arrivals start := by
    decide +kernel
  obtain ⟨index, hrun, -⟩ : ∃ index, Runs.run (IndexState.call params) arrivals start =
      .ok index ∧ (index.tree.find (getHash third)).isSome = true :=
    Runs.exists_of_endsIn (by decide +kernel)
  obtain ⟨loaded, hloaded, hrestarted⟩ :=
    (IndexState.restart_restores_index params (by decide) arrivals hfit).last hrun (fun _ => 0)
      index.tree.mapBlockIndex (List.Perm.refl _)
  exact ⟨index, loaded, hrun, hloaded, hrestarted⟩

/-- The second block has data and is marked failed when the data of the third arrives; that of the
first comes last. -/
def skipped : List BuildCall :=
  [.addToBlockIndex first, .addToBlockIndex second, .addToBlockIndex third,
    .receivedBlockTransactions (getHash second) 2 ⟨0, 500⟩,
    .invalidateBlock ⟨fun _ => .connected, fun _ => true⟩ (getHash second),
    .receivedBlockTransactions (getHash third) 3 ⟨0, 900⟩,
    .receivedBlockTransactions (getHash first) 1 ⟨0, 1200⟩]

/-- The transactions up to the third block, in memory and after a restart. -/
def counts (index : IndexState) : Option (ℕ × ℕ) := do
  let pindex ← index.tree.find (getHash third)
  let loaded ← loadBlockIndex params (fun _ => 0)
    (index.tree.mapBlockIndex.map (index.diskRecord params))
  return ((index.tree.entry pindex).nChainTx, (loaded.block (getHash third)).nChainTx)

/-- The third block is never linked in memory, but a restart links it. -/
theorem restart_links_skipped_block :
    ∃ index, Runs.run (IndexState.call params) skipped start = .ok index ∧
      counts index = some (0, 7) := by
  obtain ⟨index, hrun, hcounts⟩ : ∃ index, Runs.run (IndexState.call params) skipped start =
      .ok index ∧ decide (counts index = some (0, 7)) = true :=
    Runs.exists_of_endsIn (by decide +kernel)
  exact ⟨index, hrun, of_decide_eq_true hcounts⟩

end RestartIndexWitness

end Catoshi
