import StakeTrail.Rpc.Message

/-!
# Retries

A call that cannot reach its node is sent again after a pause that grows from retry to retry. `Policy.delay`
is the pause before a retry, and `send` the whole call: it hands back the first attempt that reached the node
or, when the retries are used up, the last that did not.
-/

namespace StakeTrail.Rpc

/-- How often and after which pauses a call is sent again. -/
structure Policy where
  retries : Nat := 3
  /-- The first pause in milliseconds. -/
  first : Nat := 200
  /-- The longest pause in milliseconds. -/
  longest : Nat := 5000
  /-- The growth from one pause to the next. -/
  growth : Float := 2.0
  deriving Inhabited

/-- Repeated squaring: `bits` bounds the binary length of the exponent. -/
def floatPower : Nat → Float → Nat → Float → Float
  | 0, _, _, acc => acc
  | bits + 1, base, exponent, acc =>
    let acc := if exponent % 2 = 1 then acc * base else acc
    if exponent / 2 = 0 then acc else floatPower bits (base * base) (exponent / 2) acc

/-- A float to an integer power. -/
def integerPower (base : Float) (exponent : Int) : Float :=
  let p := floatPower 64 base exponent.natAbs 1.0
  if exponent < 0 then 1.0 / p else p

/-- The smaller of two floats; a NaN is passed over. -/
def lesser (a b : Float) : Float := if a.isNaN then b else if b.isNaN then a else if a < b then a else b

/-- Milliseconds before a retry, counted from one; none when it is not allowed. The exponent is a signed half
word. -/
def Policy.delay (p : Policy) (retry : Nat) : Option Nat :=
  if retry = 0 ∨ retry > p.retries then none
  else
    let factor := integerPower p.growth (Word.low (retry - 1 : Nat))
    let pause := (UInt64.ofNat p.first).toFloat * factor
    some (lesser pause (UInt64.ofNat p.longest).toFloat).toUInt64.toNat

/-- What one attempt meets. -/
inductive Attempt
  /-- The node is out of reach, or what it says is no answer. -/
  | lost (text : String)
  /-- The node answers. -/
  | answered (response : Response)
  deriving Inhabited

/-- The outcome of one attempt. -/
def Attempt.outcome : Attempt → Except Failure Json
  | .lost text => .error (.http text)
  | .answered response => response.outcome

/-- Sends a request again and again; `left` bounds the retries that may follow attempt `n`. Gives the outcome
and the number of attempts. -/
def sendFrom (p : Policy) (server : Nat → Attempt) : Nat → Nat → Except Failure Json × Nat
  | 0, n => ((server n).outcome, n)
  | left + 1, n =>
    match (server n).outcome with
    | .ok j => (.ok j, n)
    | .error e =>
      if e.mayRecover then
        match p.delay n with
        | some _ => sendFrom p server left (n + 1)
        | none => (.error e, n)
      else (.error e, n)

/-- Sends a request; the server's behaviour at each attempt, counted from one, is given. -/
def send (p : Policy) (server : Nat → Attempt) : Except Failure Json × Nat := sendFrom p server p.retries 1

end StakeTrail.Rpc
