/-
Walking a finite graph with the nodes still to visit and those visited.
-/
import Mathlib.Logic.Relation
import Mathlib.Tactic

namespace Reach

universe u v

variable {κ : Type u} {ε : Type v} [DecidableEq κ]

def stageNew (done : List κ) (succ stage : List κ) : List κ :=
  succ.foldl (fun stage node => if node ∈ done then stage else stage.insert node) stage

/-- Visit a staged node, stage the new nodes after it, and go on until nothing is staged. The
number bounds the visits. -/
def walk (next : κ → Except ε (List κ)) (unfinished : ε) :
    ℕ → List κ → List κ → Except ε (List κ)
  | _, [], done => .ok done
  | 0, _ :: _, _ => .error unfinished
  | fuel + 1, node :: stage, done =>
    match next node with
    | .error failure => .error failure
    | .ok succ =>
      walk next unfinished fuel (stageNew (done.insert node) succ stage) (done.insert node)

end Reach
