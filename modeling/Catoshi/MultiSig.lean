/-
`OP_CHECKMULTISIG` decides whether the signatures match some keys in order: a signature can always
be given to the first key that accepts it.
-/
import Catoshi.SigOps
import Catoshi.SoftForks

namespace Catoshi

open Outcome CScriptNum List

section matching

variable {α β : Type} {accepts : α → β → Prop}

/-- Some of the keys, in order, accept the signatures. -/
def InOrder (accepts : α → β → Prop) (sigs : List α) (keys : List β) : Prop :=
  ∃ chosen, chosen.Sublist keys ∧ List.Forall₂ accepts sigs chosen

theorem InOrder.length_le {sigs : List α} {keys : List β} (horder : InOrder accepts sigs keys) :
    sigs.length ≤ keys.length := by
  obtain ⟨chosen, hsublist, hall⟩ := horder
  rw [hall.length_eq]
  exact hsublist.length_le

end matching

section operation

variable {ctx : EvalContext} {sigs keys : List Bytes}

variable {vchKeys vchSigs dummy : Bytes} {rest : Stack} {state state' : EvalState}

end operation

namespace MultiSigWitness

/-- Accepts a signature for the key with the same bytes. -/
def ctx : EvalContext where
  hashes := SoftForksWitness.hashes
  checkLowS _ := true
  checker := ⟨fun vchSig vchPubKey _ _ => vchSig = vchPubKey, fun _ => true, fun _ => true⟩
  flags := ∅
  sigversion := .base

def state : EvalState := ⟨[[2], [7], [8], [1], [8], []], [], [], 0, []⟩

end MultiSigWitness

end Catoshi
