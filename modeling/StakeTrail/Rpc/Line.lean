import StakeTrail.Action
import StakeTrail.Json.Parser
import StakeTrail.Counter
import StakeTrail.Rpc.Retry

/-!
# Lines to a node

A line carries calls to one node. Calls are numbered from one, and a call that is sent again keeps its number.
`Line.request` gives the result of a call as it came and `Line.ask` reads it; a call that fails and a result
that cannot be read are counted.
-/

namespace StakeTrail.Rpc

/-- What an answer over HTTP amounts to: only a status of success with an answer to a call in the body is one. -/
def Attempt.ofReply (status : Nat) (body : String) : Attempt :=
  if 200 ≤ status ∧ status < 300 then
    match (Json.parse body).bind Response.ofJson? with
    | some response => .answered response
    | none => .lost foreign
  else .lost s!"HTTP {status}: {body}"

/-- A line to a node. -/
structure Line where
  policy : Policy := {}
  /-- What comes of sending a request, given how many were sent on the line before. -/
  node : Nat → Request → Attempt
  /-- The number of the next call. -/
  next : Nat := 1
  /-- Every request that was sent, the latest first. -/
  sent : List Request := []
  counts : List Counter := []

namespace Line

variable {α : Type}

/-- Makes a call. -/
def request (method : String) (params : Json) (line : Line) : Except Failure Json × Line :=
  let call : Request := ⟨line.next, method, params⟩
  let (outcome, attempts) := send line.policy fun n => line.node (line.sent.length + (n - 1)) call
  let counts :=
    match outcome with
    | .ok _ => line.counts
    | .error e => .rpcError method e.kind :: line.counts
  (outcome, { line with next := line.next + 1, sent := List.replicate attempts call ++ line.sent, counts })

/-- Makes a call and reads its result. -/
def read (method : String) (params : Json) (reader : Json → Option α) (line : Line) : Except Failure α × Line :=
  match request method params line with
  | (.error e, line) => (.error e, line)
  | (.ok j, line) =>
    match reader j with
    | some a => (.ok a, line)
    | none => (.error .unreadable, { line with counts := .rpcError method Failure.unreadable.kind :: line.counts })

/-- Makes a call as a part of the pipeline. -/
def ask (method : String) (params : Json) (reader : Json → Option α) : Action Line α := fun line =>
  match read method params reader line with
  | (.ok a, line) => (.ok a, line)
  | (.error e, line) => (.error e.fault, line)

/-- What an action on a line gives at this moment. -/
def now (line : Line) (x : Action Line α) : Except Fault α := (x.run line).1

end Line

end StakeTrail.Rpc
