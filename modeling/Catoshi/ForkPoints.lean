/-
The skip pointers, the vector of the active chain and the forks of chains (`chain.cpp`).
-/
import Catoshi.ActivateProgress
import Catoshi.IndexKept
import Catoshi.VersionBitsSpec

namespace Catoshi

open CBlockIndex BlockTree List

/-! ### Skip pointers -/

/-- `BuildSkip`: without a predecessor the pointer stays null. -/
def buildSkip (pskip : CBlockIndex → Option CBlockIndex) (pindex : CBlockIndex) :
    CBlockIndex → Option CBlockIndex :=
  match pindex.pprev with
  | none => pskip
  | some pprev => Function.update pskip pindex (getAncestorBySkip CBlockIndex.pprev pskip
      pprev.nHeight pprev (getSkipHeight pindex.nHeight))

/-- `GetAncestor` of a signed height; it fails too where a null pointer would be followed. -/
def getAncestorSigned (pskip : CBlockIndex → Option CBlockIndex) (pindex : CBlockIndex)
    (height : ℤ) : Option CBlockIndex :=
  if height < 0 then none
  else getAncestorBySkip CBlockIndex.pprev pskip pindex.nHeight pindex height.toNat

/-- The pointers after `BuildSkip` of a chain from the lowest block on. -/
def builtSkips (pindex : CBlockIndex) : CBlockIndex → Option CBlockIndex :=
  pindex.ancestors.reverse.foldl buildSkip fun _ => none

variable {pindex : CBlockIndex}

theorem getAncestorBySkip_eq {pskip : CBlockIndex → Option CBlockIndex}
    (hskip : ∀ other ∈ pindex.ancestors, pskip other = other.pskip) (height : ℕ) :
    getAncestorBySkip CBlockIndex.pprev pskip pindex.nHeight pindex height =
      pindex.getAncestor height := by
  have hspec := @getAncestorBySkip_spec _ CBlockIndex.pprev pskip id pindex height
    (fun _ _ => Option.map_id'.symm) fun other ho => by
      rw [Option.map_id]
      exact hskip other ho
  rwa [Option.map_id] at hspec

theorem builtSkips_eq {other : CBlockIndex} (ho : other ∈ pindex.ancestors) :
    builtSkips pindex other = other.pskip := by
  induction pindex generalizing other with
  | genesis hash time =>
    obtain rfl := List.mem_singleton.1 ho
    rfl
  | child pprev hash time ih =>
    have hbuilt : builtSkips (child pprev hash time) =
        buildSkip (builtSkips pprev) (child pprev hash time) := by
      rw [builtSkips, ancestors, reverse_cons, foldl_append]
      rfl
    rw [hbuilt, buildSkip]
    rcases List.mem_cons.1 ho with rfl | hbelow
    · exact (Function.update_self ..).trans (getAncestorBySkip_eq (fun _ => ih) _)
    · have hne := (child_ne_of_mem hbelow hash time).symm
      exact (Function.update_of_ne hne ..).trans (ih hbelow)

theorem iterate_pprev {height : ℕ} (hheight : height ≤ pindex.nHeight) :
    (fun walk => walk.bind CBlockIndex.pprev)^[pindex.nHeight - height] (some pindex) =
      pindex.getAncestor height := by
  induction pindex with
  | genesis hash time =>
    obtain rfl := Nat.le_zero.1 hheight
    rfl
  | child pprev hash time ih =>
    rw [nHeight] at hheight ⊢
    rcases Nat.le_succ_iff.1 hheight with hbelow | rfl
    · rw [Nat.succ_sub hbelow, Function.iterate_succ_apply, getAncestor_child hbelow]
      exact ih hbelow
    · rw [Nat.sub_self]
      exact (getAncestor_self (child pprev hash time)).symm

/-- `GetAncestor` finds by the skip pointers what lies as many steps down as the heights
differ. -/
theorem getAncestorSigned_builtSkips (pindex : CBlockIndex) (height : ℤ) :
    (0 ≤ height ∧ height ≤ pindex.nHeight → ∃ found,
      getAncestorSigned (builtSkips pindex) pindex height = some found ∧
        (fun walk => walk.bind CBlockIndex.pprev)^[pindex.nHeight - height.toNat] (some pindex) =
          some found) ∧
    (height < 0 ∨ pindex.nHeight < height →
      getAncestorSigned (builtSkips pindex) pindex height = none) := by
  have hfind := getAncestorBySkip_eq (fun _ => @builtSkips_eq pindex _) height.toNat
  constructor
  · rintro ⟨hpos, hle⟩
    have hheight : height.toNat ≤ pindex.nHeight := by omega
    obtain ⟨found, hfound, -⟩ := exists_getAncestor hheight
    refine ⟨found, ?_, (iterate_pprev hheight).trans hfound⟩
    rw [getAncestorSigned, if_neg (by omega), hfind, hfound]
  · intro hout
    rw [getAncestorSigned]
    split
    · rfl
    · rw [hfind, getAncestor_of_lt (by omega)]

/-! ### The vector of the active chain -/

/-- `CChain`: the block of every height. -/
structure CChain where
  vChain : List (Option CBlockIndex)

namespace CChain

/-- An entry of the vector, null if there is none. -/
def entry (vChain : List (Option CBlockIndex)) (nHeight : ℕ) : Option CBlockIndex :=
  vChain[nHeight]?.join

section

variable (chain : CChain)

/-- `operator[]`. -/
def get (nHeight : ℤ) : Option CBlockIndex :=
  if nHeight < 0 then none else entry chain.vChain nHeight.toNat

def height : ℤ := chain.vChain.length - 1

def contains (pindex : CBlockIndex) : Bool :=
  decide (chain.get pindex.nHeight = some pindex)

/-- The loop of `SetTip`. -/
def fillDown : CBlockIndex → List (Option CBlockIndex) → List (Option CBlockIndex)
  | .genesis hash time, vChain =>
    if entry vChain 0 = some (.genesis hash time) then vChain
    else vChain.set 0 (some (.genesis hash time))
  | .child pprev hash time, vChain =>
    if entry vChain (pprev.nHeight + 1) = some (.child pprev hash time) then vChain
    else fillDown pprev (vChain.set (pprev.nHeight + 1) (some (.child pprev hash time)))

def setTip : Option CBlockIndex → CChain
  | none => ⟨[]⟩
  | some pindex =>
    ⟨fillDown pindex ((chain.vChain.take (pindex.nHeight + 1)).rightpad (pindex.nHeight + 1) none)⟩

def findFork : Option CBlockIndex → Option CBlockIndex
  | none => none
  | some pindex =>
    let start :=
      if chain.height < pindex.nHeight then pindex.getAncestorInt chain.height else some pindex
    start.bind fun pindex => pindex.ancestors.find? chain.contains

end

variable {chain : CChain} {tip : Option CBlockIndex} {vChain : List (Option CBlockIndex)}
  {pindex : CBlockIndex}

/-- The entries are just the ancestors of a tip. -/
structure Holds (chain : CChain) (tip : Option CBlockIndex) : Prop where
  length : chain.vChain.length = tip.elim 0 fun tip => tip.nHeight + 1
  entries : ∀ nHeight, entry chain.vChain nHeight = tip.bind fun tip => tip.getAncestor nHeight

theorem entry_set {nHeight : ℕ} (hlen : nHeight < vChain.length) (other : ℕ) :
    entry (vChain.set nHeight (some pindex)) other =
      if other = nHeight then some pindex else entry vChain other := by
  rw [entry, entry, List.getElem?_set]
  grind

theorem entry_resize (size nHeight : ℕ) :
    entry ((vChain.take size).rightpad size none) nHeight =
      if nHeight < size then entry vChain nHeight else none := by
  rw [entry, entry, List.rightpad, List.getElem?_append, List.getElem?_replicate]
  grind

theorem length_fillDown : (fillDown pindex vChain).length = vChain.length := by
  induction pindex generalizing vChain with
  | genesis hash time =>
    rw [fillDown]
    split
    · rfl
    · exact length_set
  | child pprev hash time ih =>
    rw [fillDown]
    split
    · rfl
    · rw [ih, length_set]

/-- The loop may stop early: below a block of the vector are its ancestors. -/
theorem entry_fillDown (hlen : pindex.nHeight < vChain.length)
    (hbelow : ∀ high ≤ pindex.nHeight, ∀ block, entry vChain high = some block →
      ∀ low ≤ high, entry vChain low = block.getAncestor low) (other : ℕ) :
    entry (fillDown pindex vChain) other =
      if other ≤ pindex.nHeight then pindex.getAncestor other else entry vChain other := by
  induction pindex generalizing vChain with
  | genesis hash time =>
    rw [fillDown]
    split
    · next hstop =>
      split
      · next hle => exact hbelow 0 le_rfl _ hstop other hle
      · rfl
    · rw [@entry_set _ _ 0 hlen]
      grind [getAncestor, CBlockIndex.nHeight]
  | child pprev hash time ih =>
    rw [fillDown]
    split
    · next hstop =>
      split_ifs with hle
      · exact hbelow _ le_rfl _ hstop other hle
      · rfl
    · rw [nHeight] at hlen hbelow ⊢
      rw [ih (by rw [length_set]; omega), entry_set hlen, getAncestor]
      · split
        · next hle => rw [if_pos (by omega), if_neg (by omega)]
        · next hhigh => grind
      · intro high hhigh block
        rw [entry_set hlen, if_neg (by omega)]
        intro hblk low hlow
        rw [entry_set hlen, if_neg (by omega)]
        exact hbelow high (by omega) block hblk low hlow

theorem Holds.setTip (hholds : chain.Holds tip) (pindex : Option CBlockIndex) :
    (chain.setTip pindex).Holds pindex := by
  cases pindex with
  | none => exact ⟨rfl, fun _ => rfl⟩
  | some pindex =>
    have hlen : ((chain.vChain.take (pindex.nHeight + 1)).rightpad
        (pindex.nHeight + 1) none).length = pindex.nHeight + 1 := by
      simp
    refine ⟨length_fillDown.trans hlen, fun other => ?_⟩
    rw [CChain.setTip, entry_fillDown (by omega), entry_resize, Option.bind_some]
    · split
      · rfl
      · rw [if_neg (by omega), getAncestor_of_lt (by omega)]
    · intro high hhigh block hblk low hlow
      rw [entry_resize, if_pos (by omega), hholds.entries] at hblk
      obtain ⟨top, rfl, hfound⟩ := Option.bind_eq_some_iff.1 hblk
      have hle : high ≤ top.nHeight := by
        by_contra hhigher
        rw [getAncestor_of_lt (not_le.1 hhigher)] at hfound
        cases hfound
      obtain ⟨other, ho, hmem, hheight, -⟩ := exists_getAncestor hle
      obtain rfl := Option.some.inj (ho.symm.trans hfound)
      rw [entry_resize, if_pos (by omega), hholds.entries, Option.bind_some,
        getAncestor_of_mem hmem (hlow.trans hheight.ge)]

theorem holds_foldl_setTip (tips : List (Option CBlockIndex)) :
    (tips.foldl CChain.setTip ⟨[]⟩).Holds tips.getLast?.join := by
  induction tips using List.reverseRecOn with
  | nil => exact ⟨rfl, fun _ => rfl⟩
  | append_singleton tips tip ih =>
    rw [foldl_append, List.getLast?_concat]
    exact ih.setTip tip

theorem Holds.get (hholds : chain.Holds tip) (nHeight : ℤ) :
    chain.get nHeight = tip.bind fun tip => tip.getAncestorInt nHeight := by
  rw [CChain.get]
  split_ifs with hneg
  · cases tip with
    | none => rfl
    | some tip => exact (if_pos hneg).symm
  · rw [hholds.entries]
    simp only [getAncestorInt, if_neg hneg]

/-! ### Fork points -/

theorem Holds.contains_iff (hholds : chain.Holds tip) :
    chain.contains pindex = true ↔ pindex ∈ activeChain tip := by
  rw [CChain.contains, hholds.get, ← chainContains_iff, chainContains]
  rfl

theorem Holds.exists_start {top : CBlockIndex} (hholds : chain.Holds (some top))
    (pindex : CBlockIndex) : ∃ start ∈ pindex.ancestors,
      chain.findFork (some pindex) = start.ancestors.find? chain.contains ∧
        ∀ other ∈ pindex.ancestors, other ∈ top.ancestors → other ∈ start.ancestors := by
  have hheight : chain.height = top.nHeight := by
    rw [height, hholds.length]
    simp
  rw [findFork, hheight]
  split_ifs with hhigher
  · obtain ⟨start, hfound, hmem, heq, -⟩ := exists_getAncestor (Nat.cast_lt.1 hhigher).le
    refine ⟨start, hmem, ?_, fun other ho htop => mem_ancestors_of_le ho hmem ?_⟩
    · rw [getAncestorInt_natCast, hfound]
      rfl
    · rw [heq]
      exact nHeight_le_of_mem htop
  · exact ⟨pindex, ancestors_self _, rfl, fun other ho _ => ho⟩

theorem Holds.findFork_eq_some_iff {fork : CBlockIndex} (hholds : chain.Holds tip) :
    chain.findFork (some pindex) = some fork ↔ ∃ top ∈ tip, HighestCommon top pindex fork := by
  cases tip with
  | none =>
    have hempty : chain.height < pindex.nHeight ∧ chain.height < 0 := by
      rw [height, hholds.length]
      exact ⟨by simp; omega, by simp⟩
    simp [findFork, hempty, getAncestorInt]
  | some top =>
    obtain ⟨start, hmem, hfork, hbelow⟩ := hholds.exists_start pindex
    have hhighest : ∀ fork, start.ancestors.find? chain.contains = some fork →
        HighestCommon top pindex fork := fun fork hfind =>
      ⟨hholds.contains_iff.1 (List.find?_some hfind),
        ancestors_trans (mem_of_find?_eq_some hfind) hmem, fun other htop ho =>
          find_ancestor_highest hfind (hbelow other ho htop) (hholds.contains_iff.2 htop)⟩
    rw [hfork]
    constructor
    · exact fun hfind => ⟨top, rfl, hhighest fork hfind⟩
    · rintro ⟨_, ⟨⟩, hcommon⟩
      cases hfind : start.ancestors.find? chain.contains with
      | none =>
        exact absurd (hholds.contains_iff.2 hcommon.left) (List.find?_eq_none.1 hfind fork
          (hbelow fork hcommon.right hcommon.left))
      | some found =>
        have hfound := hhighest found hfind
        rw [ancestors_antisymm (hcommon.highest found hfound.left hfound.right)
          (hfound.highest fork hcommon.left hcommon.right)]

/-- After any calls of `SetTip` the entries are the ancestors of the last tip, `FindFork` gives
the highest one among those of a block, and `LastCommonAncestor` agrees with it. -/
theorem setTip_findFork_lastCommonAncestor (tips : List (Option CBlockIndex)) :
    (∀ nHeight, (tips.foldl setTip ⟨[]⟩).get nHeight =
      tips.getLast?.join.bind fun tip => tip.getAncestorInt nHeight) ∧
    (∀ pindex fork, (tips.foldl setTip ⟨[]⟩).findFork (some pindex) = some fork ↔
      ∃ tip ∈ tips.getLast?.join, HighestCommon tip pindex fork) ∧
    ∀ pa pb, pa.root = pb.root → ∃ fork, pa.lastCommonAncestor pb = some fork ∧
      HighestCommon pa pb fork ∧ (tips.getLast?.join = some pa →
        (tips.foldl setTip ⟨[]⟩).findFork (some pb) = some fork) := by
  have hholds := holds_foldl_setTip tips
  refine ⟨hholds.get, fun _ _ => hholds.findFork_eq_some_iff, fun pa pb hroot => ?_⟩
  obtain ⟨fork, hfork, hcommon⟩ := exists_lastCommonAncestor hroot
  exact ⟨fork, hfork, hcommon, fun htip =>
    hholds.findFork_eq_some_iff.2 ⟨pa, htip, hcommon⟩⟩

end CChain

end Catoshi
