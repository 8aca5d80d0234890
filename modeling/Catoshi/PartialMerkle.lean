/-
Partial merkle trees (`merkleblock.cpp`), read back depth first. Hashes are of any type, with zero
for null.
-/
import Mathlib.Tactic

namespace Catoshi

/-- `MAX_BLOCK_WEIGHT / MIN_TRANSACTION_WEIGHT` -/
def maxTransactions : ℕ := 4000000 / 240

structure CPartialMerkleTree (H : Type) where
  nTransactions : ℕ
  vBits : List Bool
  vHash : List H
  fBad : Bool

namespace CPartialMerkleTree

/-- `CalcTreeWidth` for a number of transactions. -/
def calcTreeWidth (nTransactions height : ℕ) : ℕ := (nTransactions + 2 ^ height - 1) / 2 ^ height

def heightFrom (nTransactions : ℕ) : ℕ → ℕ → ℕ
  | 0, nHeight => nHeight
  | fuel + 1, nHeight =>
    if 1 < calcTreeWidth nTransactions nHeight then heightFrom nTransactions fuel (nHeight + 1)
    else nHeight

/-- The width falls with every turn while above one, so there are fewer turns than transactions. -/
def treeHeight (nTransactions : ℕ) : ℕ := heightFrom nTransactions nTransactions 0

/-- What a traversal has not yet consumed, and what it found. -/
structure Extraction (H : Type) where
  bits : List Bool
  hashes : List H
  fBad : Bool
  vMatch : List H
  vnIndex : List ℕ

section Hash

variable {H : Type} [Zero H] (hash : H → H → H)

def calcHash (vTxid : List H) : ℕ → ℕ → H
  | 0, pos => vTxid.getD pos (0)
  | height + 1, pos =>
    let left := calcHash vTxid height (2 * pos)
    let right := if 2 * pos + 1 < calcTreeWidth vTxid.length height
      then calcHash vTxid height (2 * pos + 1) else left
    hash left right

/-- The root, at the height builder and reader compute. -/
def merkleRoot (vTxid : List H) : H :=
  calcHash hash vTxid (treeHeight vTxid.length) 0

/-- A stored hash, a matched transaction at a leaf with a set bit. -/
def takeHash (leaf : Option ℕ) (s : Extraction H) : H × Extraction H :=
  match s.hashes with
  | [] => (0, { s with fBad := true })
  | found :: hashes =>
    (found, { s with
      hashes := hashes
      vMatch := s.vMatch ++ (leaf.map fun _ => found).toList
      vnIndex := s.vnIndex ++ leaf.toList })

/-- Every id found is the one at its position. -/
structure Extraction.Sound (vTxid : List H) (s : Extraction H) : Prop where
  length : s.vnIndex.length = s.vMatch.length
  ids : ∀ found ∈ s.vnIndex.zip s.vMatch, vTxid[found.1]? = some found.2

variable {vTxid : List H} {s : Extraction H}

theorem Extraction.Sound.takeHash (hsound : s.Sound vTxid) {leaf : Option ℕ}
    (hleaf : ∀ pos ∈ leaf, vTxid[pos]? = some (takeHash leaf s).1) :
    (CPartialMerkleTree.takeHash leaf s).2.Sound vTxid := by
  rw [CPartialMerkleTree.takeHash] at hleaf ⊢
  cases hhashes : s.hashes with
  | nil => exact ⟨hsound.length, hsound.ids⟩
  | cons found hashes =>
    rw [hhashes] at hleaf
    cases leaf with
    | none => exact ⟨by simpa using hsound.length, by simpa using hsound.ids⟩
    | some pos =>
      refine ⟨by simp [hsound.length], fun pair hpair => ?_⟩
      rw [List.zip_append hsound.length, List.mem_append] at hpair
      rcases hpair with hold | hnew
      · exact hsound.ids pair hold
      · obtain rfl : pair = (pos, found) := by simpa using hnew
        exact hleaf pos rfl

/-- A node is inside the tree if its first leaf is. -/
theorem lt_calcTreeWidth_iff {n height pos : ℕ} :
    pos < calcTreeWidth n height ↔ pos * 2 ^ height < n := by
  have hone : 0 < 2 ^ height := by positivity
  rw [calcTreeWidth, Nat.lt_div_iff_mul_lt hone]
  omega

variable [DecidableEq H]

/-- Equal neighbours are refused, but the walk goes on. -/
def traverseAndExtract (nTransactions : ℕ) : ℕ → ℕ → Extraction H → H × Extraction H
  | height, pos, s =>
    match s.bits, height with
    | [], _ => (0, { s with fBad := true })
    | fParentOfMatch :: bits, 0 =>
      takeHash (if fParentOfMatch then some pos else none) { s with bits := bits }
    | false :: bits, _ + 1 => takeHash none { s with bits := bits }
    | true :: bits, height + 1 =>
      let (left, s) := traverseAndExtract nTransactions height (2 * pos) { s with bits := bits }
      if 2 * pos + 1 < calcTreeWidth nTransactions height then
        let (right, s) := traverseAndExtract nTransactions height (2 * pos + 1) s
        (hash left right, { s with fBad := s.fBad || right == left })
      else (hash left left, s)

/-- The root, or the null hash if refused, with the ids and positions found. These are added to
those the caller passes. -/
def extractMatches (tree : CPartialMerkleTree H) (vnIndex : List ℕ) :
    H × List H × List ℕ :=
  let refused := fun (s : Extraction H) => ((0 : H), s.vMatch, s.vnIndex)
  let start : Extraction H := ⟨tree.vBits, tree.vHash, tree.fBad, [], vnIndex⟩
  if tree.nTransactions = 0 ∨ maxTransactions < tree.nTransactions ∨
      tree.nTransactions < tree.vHash.length ∨ tree.vBits.length < tree.vHash.length then
    refused start
  else
    let (hashMerkleRoot, s) :=
      traverseAndExtract hash tree.nTransactions (treeHeight tree.nTransactions) 0 start
    let nBitsUsed := tree.vBits.length - s.bits.length
    if s.fBad ∨ (nBitsUsed + 7) / 8 ≠ (tree.vBits.length + 7) / 8 ∨ s.hashes ≠ [] then refused s
    else (hashMerkleRoot, s.vMatch, s.vnIndex)

variable {hash}

theorem Extraction.Sound.traverseAndExtract
    (hinj : ∀ a b c d, hash a b = hash c d → a = c ∧ b = d) {height pos : ℕ}
    (hpos : pos < calcTreeWidth vTxid.length height) (hsound : s.Sound vTxid)
    (hnode : (traverseAndExtract hash vTxid.length height pos s).1 =
      calcHash hash vTxid height pos) :
    (CPartialMerkleTree.traverseAndExtract hash vTxid.length height pos s).2.Sound vTxid := by
  induction height generalizing pos s with
  | zero =>
    obtain ⟨_ | ⟨bit, bits⟩, hashes, fBad, found, positions⟩ := s
    · exact ⟨hsound.length, hsound.ids⟩
    · have heq : Sound vTxid ⟨bits, hashes, fBad, found, positions⟩ := ⟨hsound.length, hsound.ids⟩
      apply heq.takeHash
      intro leaf hleaf
      obtain rfl : pos = leaf := by
        cases bit <;> simp_all
      rw [lt_calcTreeWidth_iff, pow_zero, mul_one] at hpos
      have hid : vTxid.getD pos 0 = vTxid[pos] := by
        simp [List.getD_eq_getElem?_getD, hpos]
      rw [List.getElem?_eq_getElem hpos, ← hid]
      exact congrArg some hnode.symm
  | succ height ih =>
    obtain ⟨_ | ⟨bit, bits⟩, hashes, fBad, found, positions⟩ := s
    · exact ⟨hsound.length, hsound.ids⟩
    · have heq : Sound vTxid ⟨bits, hashes, fBad, found, positions⟩ := ⟨hsound.length, hsound.ids⟩
      cases bit with
      | false => exact heq.takeHash fun _ hleaf => absurd hleaf (Option.not_mem_none _)
      | true =>
        have hleft : 2 * pos < calcTreeWidth vTxid.length height := by
          rw [lt_calcTreeWidth_iff] at hpos ⊢
          calc 2 * pos * 2 ^ height = pos * 2 ^ (height + 1) := by ring
            _ < vTxid.length := hpos
        simp only [CPartialMerkleTree.traverseAndExtract, calcHash] at hnode ⊢
        by_cases hright : 2 * pos + 1 < calcTreeWidth vTxid.length height
        · rw [if_pos hright] at hnode ⊢
          rw [if_pos hright] at hnode
          obtain ⟨hfst, hsnd⟩ := hinj _ _ _ _ hnode
          have hnext := ih hright (ih hleft heq hfst) hsnd
          exact ⟨hnext.length, hnext.ids⟩
        · rw [if_neg hright] at hnode ⊢
          exact ih hleft heq (hinj _ _ _ _ hnode).1

/-- If the root that a tree from anyone leads to is the root of a list, then what it matches is
in the list. -/
theorem extractMatches_sound (hinj : ∀ a b c d, hash a b = hash c d → a = c ∧ b = d)
    {tree : CPartialMerkleTree H} (hcount : tree.nTransactions = vTxid.length) {vMatch : List H}
    {vnIndex : List ℕ}
    (hextract : tree.extractMatches hash [] = (merkleRoot hash vTxid, vMatch, vnIndex))
    (hroot : merkleRoot hash vTxid ≠ 0) :
    vnIndex.length = vMatch.length ∧ ∀ found ∈ vnIndex.zip vMatch,
      found.1 < vTxid.length ∧ vTxid[found.1]? = some found.2 := by
  rw [extractMatches] at hextract
  dsimp only at hextract
  split at hextract
  · exact absurd (congrArg Prod.fst hextract).symm hroot
  · next hshape =>
    split at hextract
    · exact absurd (congrArg Prod.fst hextract).symm hroot
    · rw [hcount] at hextract hshape
      have hstart : Extraction.Sound vTxid ⟨tree.vBits, tree.vHash, tree.fBad, [], []⟩ :=
        ⟨rfl, by simp⟩
      have htop : 0 < calcTreeWidth vTxid.length (treeHeight vTxid.length) := by
        rw [lt_calcTreeWidth_iff]
        omega
      obtain ⟨hnode, hfound⟩ := Prod.mk.inj hextract
      obtain ⟨rfl, rfl⟩ := Prod.mk.inj hfound
      have hsound := hstart.traverseAndExtract hinj htop hnode
      refine ⟨hsound.length, fun found hfound => ?_⟩
      have hid := hsound.ids found hfound
      exact ⟨(List.getElem?_eq_some_iff.1 hid).1, hid⟩

end Hash

namespace PartialMerkleWitness

def pairOf (left right : ℕ) : ℕ := Nat.pair left right

def secondOfThree : CPartialMerkleTree ℕ :=
  ⟨3, [true, true, false, true, false], [4, 5, pairOf 6 6], false⟩

theorem second_of_three_extracted :
    secondOfThree.extractMatches pairOf [] = (merkleRoot pairOf [4, 5, 6], [5], [1]) ∧
      ∀ found ∈ [1].zip [5], found.1 < 3 ∧ [4, 5, 6][found.1]? = some found.2 := by
  have hextract : secondOfThree.extractMatches pairOf [] =
      (merkleRoot pairOf [4, 5, 6], [5], [1]) := by decide +kernel
  exact ⟨hextract, (extractMatches_sound (fun _ _ _ _ => Nat.pair_eq_pair.1) rfl hextract
    (by decide +kernel)).2⟩

end PartialMerkleWitness

end CPartialMerkleTree

end Catoshi
