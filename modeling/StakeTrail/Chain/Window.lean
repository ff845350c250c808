import StakeTrail.Chain.Feed

/-!
# Requests in flight

The heights of a range are asked for several at a time, and their answers come in any order. A `Window` holds the
requests that are on their way, in order of height: an answer is handed on when all lower ones have been, each
answer handed on makes room for the next request, and a fault that is handed on ends it all. `Window.after` lets
the requests that `picks` names be answered one after the other.
-/

namespace StakeTrail.Feed

/-- How many requests may be on their way at a time. -/
def width : Nat := 8

/-- The requests for the heights of a range. -/
structure Window (α : Type) where
  /-- The heights that were asked for and not handed on, in order, with the answers that have come. -/
  flying : List (Nat × Option (Except Fault α)) := []
  /-- The next height to ask for. -/
  next : Nat
  /-- The answers handed on, the last first. -/
  values : List α := []
  /-- The fault that ended it all. -/
  fault : Option Fault := none
  deriving Inhabited

namespace Window

variable {α : Type}

/-- Asks for more heights while there is room; at most `n`. -/
def fill (last : Nat) : Nat → Window α → Window α
  | 0, w => w
  | n + 1, w =>
    if w.flying.length < width ∧ w.next ≤ last then
      fill last n { w with flying := w.flying ++ [(w.next, none)], next := w.next + 1 }
    else w

/-- Hands on the answers in front, at most `n` of them. -/
def handOn (last : Nat) : Nat → Window α → Window α
  | 0, w => w
  | n + 1, w =>
    match w.flying with
    | (_, some (.ok a)) :: rest => handOn last n (fill last width { w with flying := rest, values := a :: w.values })
    | (_, some (.error e)) :: _ => { w with flying := [], fault := some e }
    | _ => w

/-- The heights whose answers have not come. -/
def unanswered (w : Window α) : List Nat := (w.flying.filter fun slot => slot.2.isNone).map (·.1)

/-- Takes the answer for a height. -/
def answer (fetch : Nat → Except Fault α) (height : Nat) (w : Window α) : Window α :=
  { w with flying := w.flying.map fun slot => if slot.1 = height then (height, some (fetch height)) else slot }

/-- One of the unanswered requests is answered, and what is in front is handed on. -/
def step (fetch : Nat → Except Fault α) (last pick : Nat) (w : Window α) : Window α :=
  match w.unanswered with
  | [] => w
  | h :: rest =>
    let height := (h :: rest).getD (pick % (rest.length + 1)) h
    handOn last width (answer fetch height w)

/-- The requests before any answer. -/
def start (first last : Nat) : Window α := fill last width { next := first }

/-- The requests after `n` answers. -/
def after (fetch : Nat → Except Fault α) (first last : Nat) (picks : Nat → Nat) : Nat → Window α
  | 0 => start first last
  | n + 1 => (after fetch first last picks n).step fetch last (picks n)

/-- What comes of the requests so far. -/
def outcome (w : Window α) : Except Fault (List α) :=
  match w.fault with
  | some e => .error e
  | none => .ok w.values.reverse

/-- What comes of the requests when all are answered, in the order that `picks` gives. -/
def gather (first last : Nat) (picks : Nat → Nat) (fetch : Nat → Except Fault α) : Except Fault (List α) :=
  (after fetch first last picks (last + 1 - first)).outcome

end Window

end StakeTrail.Feed
