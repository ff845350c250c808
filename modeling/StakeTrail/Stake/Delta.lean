import StakeTrail.Action
import StakeTrail.Chain.Event
import StakeTrail.Keyed
import StakeTrail.Staking.Kind
import StakeTrail.Word

/-!
# Stake changes

What each height adds to the total stake, collected from raw events (`Deltas.addEvents`) or from stored ones
(`Deltas.ofChanges`). Amounts are signed words. A sum out of their range is refused as data; negating the
least word has no result at all and ends the task.
-/

namespace StakeTrail.Stake

open Text

/-- Reads the amount that an event carries; an empty text counts as zero. -/
def readAmount (raw : String) : Except Fault Int :=
  if raw.isEmpty then .ok 0
  else
    match Numeral.integer Word.least.natAbs Word.greatest.natAbs raw with
    | .ok n => .ok n
    | .error why => .error (.decode (.amount raw why))

/-- The word of opposite sign. -/
def negated (amount : Int) : Except Fault Int :=
  if Word.fits (-amount) then .ok (-amount) else .error .crash

/-- What a raw event adds to the total: something only for a successful delegation or undelegation that
carries an amount. -/
def eventDelta (event : EventRecord) : Except Fault (Option Int) :=
  let amount? := (event.get? "amount").filter fun raw => !raw.isEmpty
  if event.kind = "delegate_success" then
    match amount? with
    | none => .ok none
    | some raw => (readAmount raw).map some
  else if event.kind = "undelegate_success" then
    match amount? with
    | none => .ok none
    | some raw => do
      let amount ← readAmount raw
      (negated amount).map some
  else .ok none

/-- The net change of each height, in ascending order of height. -/
abbrev Deltas := List (Nat × Int)

/-- The block time of each height. -/
abbrev Times := List (Nat × Int)

namespace Deltas

/-- The changes with one more; an existing entry may leave the range of words. -/
def plus (height : Nat) (delta : Int) : Deltas → Except Fault Deltas
  | [] => .ok [(height, delta)]
  | (h, d) :: rest =>
    if height < h then .ok ((height, delta) :: (h, d) :: rest)
    else if height = h then
      match Word.add? d delta with
      | some sum => .ok ((h, sum) :: rest)
      | none => .error (.decode (.deltaOverflow height))
    else (plus height delta rest).map ((h, d) :: ·)

/-- Adds a change to a height. -/
def add (height : Nat) (delta : Int) : Action Deltas Unit := fun deltas =>
  match plus height delta deltas with
  | .ok next => (.ok (), next)
  | .error e => (.error e, deltas)

/-- Adds the changes of a block's events, in order; what precedes a fault stays added. -/
def addEvents (height : Nat) (events : List EventRecord) : Action Deltas Unit :=
  Action.each (fun event => do
    match ← Action.ofExcept (eventDelta event) with
    | some delta => add height delta
    | none => pure ()) events

/-- The heights that have an entry. -/
def heights (deltas : Deltas) : List Nat := deltas.map (·.1)

end Deltas

/-- A stored successful stake or unstake with the time of its block, if that is stored too. -/
structure Change where
  block : Nat
  time : Option Int
  kind : Staking.Kind
  amount : String
  deriving DecidableEq, Repr, Inhabited

/-- Adds a stored change and the time of its block. The amount is read first, for every kind. -/
def addChange (change : Change) : Action (Deltas × Times) Unit := do
  let amount ← Action.ofExcept (readAmount change.amount)
  let apply (delta : Int) : Action (Deltas × Times) Unit := do
    match change.time with
    | none => Action.fail (.missingBlockTime change.block)
    | some time => do
      Action.within (·.1) (fun d s => (d, s.2)) (Deltas.add change.block delta)
      Action.update fun s => (s.1, Keyed.put Prod.fst (change.block, time) s.2)
  match change.kind with
  | .stake => apply amount
  | .unstake => do
    let delta ← Action.ofExcept (negated amount)
    apply delta
  | _ => pure ()

/-- The changes and block times of stored stakes and unstakes. -/
def Deltas.ofChanges (changes : List Change) : Except Fault (Deltas × Times) :=
  match Action.each addChange changes ([], []) with
  | (.ok (), result) => .ok result
  | (.error e, _) => .error e

end StakeTrail.Stake
