import StakeTrail.Chain.Block
import StakeTrail.Chain.Event
import StakeTrail.Chain.Validator
import StakeTrail.Fault
import StakeTrail.Word

/-!
# Chain feeds

A feed is what the nodes of a chain say at one moment: a function of the height for each kind of data.
`gather` asks for every height of a range and gives the answers in order or the fault of the lowest
failing height; `allValidators` walks the pages of an active set.
-/

namespace StakeTrail

/-- What a consensus node says. -/
structure ConsensusFeed where
  /-- The latest committed height. -/
  head : Except Fault Nat
  block : Nat → Except Fault ConsensusBlock
  /-- The events of a block: those of its transactions, then its own. -/
  events : Nat → Except Fault (List EventRecord)
  /-- The signatures of the commit of a block. -/
  commit : Nat → Except Fault (List Signature)
  /-- A page of the active set, by height, page number from one on, and page size. -/
  validators : Nat → Nat → Nat → Except Fault ActivePage

/-- What an execution node says. -/
structure ExecutionFeed where
  head : Except Fault Nat
  block : Nat → Except Fault ExecutionBlock
  /-- The logs of the staking contract from one height to another. -/
  logs : Nat → Nat → Except Fault (List LogRecord)

namespace Feed

variable {α : Type}

/-- Asks for `n` heights from `height` on; the answers so far come last first. -/
def gatherFrom (fetch : Nat → Except Fault α) : Nat → Nat → List α → Except Fault (List α)
  | 0, _, acc => .ok acc.reverse
  | n + 1, height, acc =>
    match fetch height with
    | .error e => .error e
    | .ok a => gatherFrom fetch n (height + 1) (a :: acc)

/-- Asks for every height of a range. -/
def gather (first last : Nat) (fetch : Nat → Except Fault α) : Except Fault (List α) :=
  gatherFrom fetch (last + 1 - first) first []

/-- The size of a page of the active set. -/
def pageSize : Nat := 100

/-- Walks the pages from `page` on. A walk ends at an empty page, and at the page that reaches the reported
size; page numbers are half words, of which `left` are left. -/
def walk (pages : Nat → Except Fault ActivePage) : Nat → Nat → List Validator → Except Fault (List Validator)
  | 0, _, _ => .error .crash
  | left + 1, page, acc =>
    match pages page with
    | .error e => .error e
    | .ok answer =>
      let all := acc ++ answer.validators
      if answer.validators.isEmpty ∨ page * pageSize ≥ answer.total then .ok all
      else walk pages left (page + 1) all

/-- The whole active set of a height. -/
def allValidators (feed : ConsensusFeed) (height : Nat) : Except Fault (List Validator) :=
  walk (fun page => feed.validators height page pageSize) Word.topHalf 1 []

end Feed

end StakeTrail
