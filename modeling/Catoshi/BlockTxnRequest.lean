/-
The positions a `getblocktxn` message asks for (`BlockTransactionsRequest`): differences, read with
an offset of sixteen bits.
-/
import Catoshi.KeyFormat

namespace Catoshi

open ByteOrder ByteStream CompactSize List

structure BlockTransactionsRequest where
  blockhash : Uint256
  indexes : List UInt16
deriving DecidableEq

namespace BlockTransactionsRequest

/-- The differences written, `next` being one above the last position. -/
def differences (next : ℤ) : List UInt16 → List ℕ
  | [] => []
  | index :: indexes =>
    ((index.toNat - next) % 2 ^ 64).toNat :: differences (index.toNat + 1) indexes

def serialize (request : BlockTransactionsRequest) : Bytes :=
  request.blockhash.serialize ++ (write request.indexes.length ++
    (differences 0 request.indexes).flatMap write)

def readIndex : Reader UInt16 := do
  let index ← read maxSize
  if 2 ^ 16 ≤ index then failure
  return UInt16.ofNat index

/-- The block and the differences in the stream. -/
def readDifferences : Reader (Uint256 × List UInt16) := do
  let blockhash ← BaseBlob.unserialize 32
  let size ← read maxSize
  let indexes ← readMany readIndex size
  return (blockhash, indexes)

/-- The reader's second loop: each position counts from the one before. -/
def addOffsets (offset : UInt16) : List UInt16 → Option (List UInt16)
  | [] => some []
  | index :: indexes =>
    if 2 ^ 16 ≤ index.toNat + offset.toNat then none
    else (addOffsets (index + offset + 1) indexes).map ((index + offset) :: ·)

def unserialize : Reader BlockTransactionsRequest := do
  let (blockhash, differences) ← readDifferences
  let indexes ← StateT.lift (addOffsets 0 differences)
  return ⟨blockhash, indexes⟩

/-- No proper beginning of the differences leads above 65535. -/
def StaysBelow (offset : ℕ) (differences : List UInt16) : Prop :=
  ∀ k < differences.length,
    offset + ((differences.take k).map fun difference => difference.toNat + 1).sum ≠ 2 ^ 16

theorem length_differences (next : ℤ) (indexes : List UInt16) :
    (differences next indexes).length = indexes.length := by
  induction indexes generalizing next with
  | nil => rfl
  | cons index indexes ih => simp [differences, ih]

variable {offset index : UInt16} {differences indexes : List UInt16}

theorem staysBelow_cons {offset : ℕ} (hoffset : offset ≠ 2 ^ 16) :
    StaysBelow offset (index :: indexes) ↔ StaysBelow (index.toNat + offset + 1) indexes := by
  constructor
  · intro hstays k hk
    have hnext := hstays (k + 1) (by simpa using hk)
    rw [take_succ_cons, map_cons, sum_cons] at hnext
    omega
  · intro hstays k hk
    cases k with
    | zero => simpa using hoffset
    | succ k =>
      have hnext := hstays k (by simpa using hk)
      rw [take_succ_cons, map_cons, sum_cons]
      omega

theorem addOffsets_cons_eq_some_iff :
    addOffsets offset (index :: differences) = some indexes ↔
      index.toNat + offset.toNat < 2 ^ 16 ∧
        ∃ tail, addOffsets (index + offset + 1) differences = some tail ∧
          (index + offset) :: tail = indexes := by
  rw [addOffsets]
  split_ifs with hover
  · simp only [not_lt.2 hover, false_and]
  · simp only [not_le.1 hover, true_and, Option.map_eq_some_iff]

/-- The positions increase just while the offset has not begun again. -/
theorem addOffsets_increasing_iff (hread : addOffsets offset differences = some indexes) :
    (indexes.Pairwise (· < ·) ∧ ∀ index ∈ indexes, offset ≤ index) ↔
      StaysBelow offset.toNat differences := by
  induction differences generalizing offset indexes with
  | nil =>
    obtain rfl : [] = indexes := by simpa [addOffsets] using hread
    simp [StaysBelow]
  | cons index differences ih =>
    obtain ⟨hfits, tail, htail, rfl⟩ := addOffsets_cons_eq_some_iff.1 hread
    have hsum : (index + offset).toNat = index.toNat + offset.toNat := by
      rw [UInt16.toNat_add, Nat.mod_eq_of_lt hfits]
    have hfst : offset ≤ index + offset := by
      rw [UInt16.le_iff_toNat_le]
      omega
    rw [staysBelow_cons offset.toNat_lt.ne, pairwise_cons, forall_mem_cons]
    by_cases hlast : index.toNat + offset.toNat + 1 = 2 ^ 16
    · -- the offset begins again, so only the end of the list keeps the order
      cases differences with
      | nil =>
        obtain rfl : [] = tail := by simpa [addOffsets] using htail
        simp [StaysBelow, hfst]
      | cons next differences =>
        obtain ⟨-, rest, -, rfl⟩ := addOffsets_cons_eq_some_iff.1 htail
        apply iff_of_false
        · intro hord
          have hbelow := UInt16.lt_iff_toNat_lt.1 (hord.1.1 _ mem_cons_self)
          have := (next + (index + offset + 1)).toNat_lt
          omega
        · intro hstays
          exact hstays 0 (by simp) (by simpa using hlast)
    · have hnext : (index + offset + 1).toNat = index.toNat + offset.toNat + 1 := by
        rw [UInt16.toNat_add, hsum]
        exact Nat.mod_eq_of_lt (by change _ + 1 < _; omega)
      rw [← hnext, ← ih htail]
      have habove : ∀ position : UInt16,
          index + offset < position ↔ index + offset + 1 ≤ position := by
        intro position
        rw [UInt16.lt_iff_toNat_lt, UInt16.le_iff_toNat_le, hnext, hsum, Nat.succ_le_iff]
      simp only [habove]
      constructor
      · exact fun hord => ⟨hord.1.2, hord.1.1⟩
      · intro hord
        refine ⟨⟨hord.2, hord.1⟩, hfst, fun position hpos => ?_⟩
        exact UInt16.le_trans hfst (UInt16.le_of_lt ((habove position).2 (hord.2 position hpos)))

/-- The differences of an increasing list add up to it. -/
theorem exists_addOffsets {next : ℕ} (hsorted : indexes.Pairwise (· < ·))
    (hnext : ∀ index ∈ indexes, next ≤ index.toNat) :
    ∃ read : List UInt16, BlockTransactionsRequest.differences next indexes =
      read.map UInt16.toNat ∧ addOffsets (UInt16.ofNat next) read = some indexes := by
  induction indexes generalizing next with
  | nil => exact ⟨[], rfl, rfl⟩
  | cons index indexes ih =>
    obtain ⟨hhead, htail⟩ := pairwise_cons.1 hsorted
    have hlater : ∀ later ∈ indexes, index.toNat + 1 ≤ later.toNat :=
      fun later hlater => UInt16.lt_iff_toNat_lt.1 (hhead later hlater)
    obtain ⟨read, hwrote, hread⟩ := ih htail hlater
    have hle := hnext index mem_cons_self
    have hlt := index.toNat_lt
    have hoffset : (UInt16.ofNat next).toNat = next :=
      UInt16.toNat_ofNat_of_lt' (by rw [UInt16.size]; omega)
    have hfst : (UInt16.ofNat (index.toNat - next)).toNat = index.toNat - next :=
      UInt16.toNat_ofNat_of_lt' (by rw [UInt16.size]; omega)
    have hback : UInt16.ofNat (index.toNat - next) + UInt16.ofNat next = index := by
      apply UInt16.toNat_inj.1
      rw [UInt16.toNat_add]
      omega
    refine ⟨UInt16.ofNat (index.toNat - next) :: read, ?_, ?_⟩
    · rw [differences, map_cons]
      congr 1
      omega
    · refine addOffsets_cons_eq_some_iff.2 ⟨by omega, indexes, ?_, by rw [hback]⟩
      rw [hback]
      simpa using hread

theorem reads_readIndex (index : UInt16) : Reads readIndex (write index.toNat) index := by
  have hlt := index.toNat_lt
  apply (reads_write (show index.toNat ≤ maxSize by rw [maxSize]; omega) (by omega)).last
  rw [if_neg (not_le.2 hlt), UInt16.ofNat_toNat]
  exact Reads.pure index

theorem length_le_of_increasing (hsorted : indexes.Pairwise (· < ·)) : indexes.length ≤ 2 ^ 16 := by
  have hnd : (indexes.map UInt16.toNat).Nodup :=
    (hsorted.imp UInt16.ne_of_lt).map _ fun _ _ hne heq => hne (UInt16.toNat_inj.1 heq)
  have hsub : indexes.map UInt16.toNat ⊆ List.range (2 ^ 16) := by
    intro n hn
    obtain ⟨index, -, rfl⟩ := mem_map.1 hn
    exact mem_range.2 index.toNat_lt
  simpa using (hnd.subperm hsub).length_le

theorem reads_readDifferences (blockhash : Uint256) (hlen : differences.length ≤ maxSize) :
    Reads readDifferences (blockhash.serialize ++ (write differences.length ++
      differences.flatMap fun index => write index.toNat)) (blockhash, differences) := by
  apply (BaseBlob.reads_unserialize blockhash).bind
  apply (reads_write hlen (hlen.trans_lt (by decide))).bind
  apply (reads_readMany fun index _ => reads_readIndex index).last
  exact Reads.pure (blockhash, differences)

variable {request : BlockTransactionsRequest}

/-- An increasing request is read back. -/
theorem reads_serialize (hsorted : request.indexes.Pairwise (· < ·)) :
    Reads unserialize request.serialize request := by
  obtain ⟨read, hwrote, hread⟩ := exists_addOffsets hsorted
    (show ∀ index ∈ request.indexes, 0 ≤ index.toNat from fun _ _ => Nat.zero_le _)
  have hlen : read.length = request.indexes.length := by
    rw [← length_differences 0 request.indexes]
    exact (congrArg List.length hwrote).symm ▸ (length_map _).symm
  have hmax : read.length ≤ maxSize := hlen ▸ (length_le_of_increasing hsorted).trans (by decide)
  have hbytes := reads_readDifferences request.blockhash hmax
  rw [hlen, ← flatMap_map, ← hwrote] at hbytes
  apply hbytes.last
  exact (Reads.lift hread).last (Reads.pure request)

theorem exists_readDifferences {stream rest : Bytes}
    (hread : unserialize stream = some (request, rest)) :
    ∃ differences, readDifferences stream = some ((request.blockhash, differences), rest) ∧
      addOffsets 0 differences = some request.indexes := by
  obtain ⟨⟨⟨blockhash, differences⟩, after⟩, hdifferences, hnext⟩ := Option.bind_eq_some_iff.1 hread
  obtain ⟨⟨indexes, after'⟩, hlift, hlast⟩ := Option.bind_eq_some_iff.1 hnext
  obtain ⟨indexes', hindexes, hsame⟩ := Option.bind_eq_some_iff.1 hlift
  cases hsame
  cases hlast
  exact ⟨differences, hdifferences, hindexes⟩

/-- An accepted request lists its positions in increasing order exactly if no difference
follows position 65535, and a request in increasing order is read back. -/
theorem unserialize_increasing_iff_and_serialize_read_back (stream : Bytes)
    (sent : BlockTransactionsRequest) :
    (∀ request rest, unserialize stream = some (request, rest) →
      ∃ differences, readDifferences stream = some ((request.blockhash, differences), rest) ∧
        (request.indexes.Pairwise (· < ·) ↔ StaysBelow 0 differences)) ∧
    (sent.indexes.Pairwise (· < ·) →
      ∀ after, unserialize (sent.serialize ++ after) = some (sent, after)) := by
  refine ⟨fun request rest hread => ?_, fun hsorted => reads_serialize hsorted⟩
  obtain ⟨differences, hdifferences, hindexes⟩ := exists_readDifferences hread
  have hiff := addOffsets_increasing_iff hindexes
  refine ⟨differences, hdifferences, ?_⟩
  simpa using hiff

namespace BlockTxnWitness

/-- Two differences, 65535 and 0. -/
def wrapping : Bytes := List.replicate 32 0 ++ [2, 253, 255, 255, 0]

theorem wrapping_positions_do_not_increase :
    unserialize wrapping = some (⟨BaseBlob.null 32, [65535, 0]⟩, []) ∧
      ¬[(65535 : UInt16), 0].Pairwise (· < ·) := by decide

def threeAndFive : BlockTransactionsRequest := ⟨BaseBlob.null 32, [3, 5]⟩

theorem three_and_five_read_back :
    unserialize (threeAndFive.serialize ++ [7]) = some (threeAndFive, [7]) ∧
      ∃ differences, readDifferences (threeAndFive.serialize ++ [7]) =
        some ((threeAndFive.blockhash, differences), [7]) ∧
          (threeAndFive.indexes.Pairwise (· < ·) ↔ StaysBelow 0 differences) := by
  have hsorted : threeAndFive.indexes.Pairwise (· < ·) := by decide
  obtain ⟨hincreasing, hback⟩ := unserialize_increasing_iff_and_serialize_read_back
    (threeAndFive.serialize ++ [7]) threeAndFive
  exact ⟨hback hsorted [7], hincreasing _ _ (hback hsorted [7])⟩

end BlockTxnWitness

end BlockTransactionsRequest

end Catoshi
