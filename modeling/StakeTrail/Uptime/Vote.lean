import StakeTrail.Uptime.Interval

/-!
# Votes in a sliding window

A signature that commits to a block or to nil is a vote. Votes are kept for a window of heights that ends at
the newest one; `floor` is the lowest height inside it.
-/

namespace StakeTrail.Uptime

/-- A validator's vote at a height. -/
structure Vote where
  owner : String
  block : Nat
  deriving DecidableEq, Repr, Inhabited

/-- The default length of the window. -/
def standardWindow : Nat := 43200

/-- The votes of a commit, one a signature that commits to the block or to nil. A signer outside the active
set is an inconsistency. -/
def votes (height : Nat) (active : ActiveSet) : List Signature → Except Fault (List Vote)
  | [] => .ok []
  | s :: rest =>
    if s.flag = .commit ∨ s.flag = .nil then
      match active.owner? s.validator with
      | none => .error (.unknownValidator s.validator height)
      | some owner => (votes height active rest).map (⟨owner, height⟩ :: ·)
    else votes height active rest

/-- The lowest height in a window of `window` heights that ends at `height`. -/
def floor (height window : Nat) : Except Fault Nat := do
  let next ← successor height
  .ok (next - window)

/-- The share of a window in which a validator voted, as a percentage. -/
def percent (votes window : Nat) : Float :=
  if window = 0 then 0.0 else 100.0 * (UInt64.ofNat votes).toFloat / (UInt64.ofNat window).toFloat

end StakeTrail.Uptime
