import PrefixMesh.Cachenode.Server
import Mathlib.Data.Rat.Floor

/-! The warmer of a cache node, in exact arithmetic: times are seconds and the token
bucket holds rational numbers. -/

namespace PrefixMesh.Cachenode

open Blockstore

structure WarmCommand where
  blockId : List UInt8
  sourceNode : String
  deadlineUnixMs : Int
  targetNode : String
  deriving DecidableEq

structure Warmer where
  tokens : ℚ
  lastRef : ℚ
  rate : ℚ
  executed : UInt64
  skippedPresent : UInt64
  dropped : UInt64
  deriving DecidableEq

def newWarmer (ratePerSec now : ℚ) : Warmer :=
  let rate := if ratePerSec ≤ 0 then 200 else ratePerSec
  ⟨rate, now, rate, 0, 0, 0⟩

def Warmer.allow (w : Warmer) (now : ℚ) : Bool × Warmer :=
  let tokens := min w.rate (w.tokens + (now - w.lastRef) * w.rate)
  if tokens < 1 then (false, { w with tokens := tokens, lastRef := now })
  else (true, { w with tokens := tokens - 1, lastRef := now })

variable {F : Type} (fl : Float64 F)

/-- `Handle` up to the request to the source: whether it is sent, and the store and the warmer then. -/
def Warmer.handle (w : Warmer) (self : String) (cmd : WarmCommand) (now : ℚ) (s : Store F) :
    Bool × Store F × Warmer :=
  if cmd.targetNode ≠ self then (false, s, w)
  else
    match toID cmd.blockId with
    | .error _ => (false, s, w)
    | .ok id =>
        if cmd.deadlineUnixMs > 0 ∧ ⌊now * 1000⌋ > cmd.deadlineUnixMs then
          (false, s, { w with dropped := w.dropped + 1 })
        else
          let (present, s) := s.contains fl id
          if present then (false, s, { w with skippedPresent := w.skippedPresent + 1 })
          else if cmd.sourceNode = "" then (false, s, w)
          else
            let (allowed, w) := w.allow now
            if allowed then (true, s, w) else (false, s, { w with dropped := w.dropped + 1 })

theorem Warmer.handle_rep {s : Store F} {blocks : BlockID → Option Block} (w : Warmer) (self : String)
    (cmd : WarmCommand) (now : ℚ) (rep : s.Rep blocks) : (w.handle fl self cmd now s).2.1.Rep blocks := by
  simp only [Warmer.handle]
  split
  · exact rep
  · split
    · exact rep
    next id _ =>
      have probed := (rep.contains fl id).2
      split
      · exact rep
      · split
        · exact probed
        · split
          · exact probed
          · split
            · exact probed
            · exact probed

/-- A command for this node, in time and within the budget, asks the source exactly if the block is missing. -/
theorem Warmer.handle_fetches (w : Warmer) (cmd : WarmCommand) (now : ℚ) (s : Store F) (id : BlockID)
    (named : cmd.blockId = id.1) (source : cmd.sourceNode ≠ "")
    (timely : ¬(cmd.deadlineUnixMs > 0 ∧ ⌊now * 1000⌋ > cmd.deadlineUnixMs)) (budget : (w.allow now).1 = true) :
    (w.handle fl cmd.targetNode cmd now s).1 = !(s.contains fl id).1 := by
  simp only [Warmer.handle, named, toID_val, ne_eq, not_true_eq_false, if_false, if_neg timely, if_neg source,
    budget, if_true]
  cases (s.contains fl id).1 with
  | false => rfl
  | true => rfl

end PrefixMesh.Cachenode
