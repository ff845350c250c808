import StakeTrail.Fault
import StakeTrail.Json.Reader

/-!
# Remote procedure calls

The messages of JSON-RPC 2.0 and what may come of a call. `Response.outcome` reads a response: an error that
the node reports counts before any result, and a missing result is null.
-/

namespace StakeTrail.Rpc

/-- A call. -/
structure Request where
  id : Nat
  method : String
  params : Json
  deriving Inhabited

/-- Writes a call. -/
def Request.toJson (r : Request) : Json :=
  .obj [("jsonrpc", .str "2.0"), ("method", .str r.method), ("params", r.params), ("id", .nat r.id)]

/-- An error that a node reports. -/
structure NodeError where
  code : Int
  message : String
  deriving DecidableEq, Repr, Inhabited

/-- Reads an error that a node reports; its further data may be anything and are not kept. -/
def NodeError.ofJson? (j : Json) : Option NodeError := do
  match ← j.fieldsOnce? ["code", "message", "data"] with
  | [code, message, data] =>
    let _ ← Json.allow Json.any? data
    some { code := ← Json.need Json.signed? code, message := ← Json.need Json.string? message }
  | _ => none

/-- The answer to a call. -/
structure Response where
  result : Option Json
  error : Option NodeError
  deriving Inhabited

/-- Reads an answer; its version is a text and its number anything, and both may be absent. -/
def Response.ofJson? (j : Json) : Option Response := do
  match ← j.fieldsOnce? ["jsonrpc", "id", "result", "error"] with
  | [version, id, result, error] =>
    let _ ← Json.fill "" Json.string? version
    let _ ← Json.fill .null Json.any? id
    some {
      result := ← Json.allow Json.any? result
      error := ← Json.allow NodeError.ofJson? error }
  | _ => none

/-- Why a call failed. -/
inductive Failure
  /-- The node cannot be reached, or its answer is no answer to a call. -/
  | http (text : String)
  /-- The node reports an error. -/
  | node (code : Int) (text : String)
  /-- The result is not of the expected form. -/
  | unreadable
  deriving DecidableEq, Repr, Inhabited

namespace Failure

/-- The label that counters carry. -/
def kind : Failure → String
  | .http _ => "http"
  | .node .. => "rpc"
  | .unreadable => "deserialization"

/-- The wording of a failure. -/
def message : Failure → String
  | .http text => "HTTP error: " ++ text
  | .node code text => s!"RPC error {code}: {text}"
  | .unreadable => s!"Deserialization error: {foreign}"

/-- Whether the same call may succeed later. -/
def mayRecover : Failure → Bool
  | .http _ => true
  | _ => false

/-- The failure of the pipeline that a failed call is. -/
def fault (f : Failure) : Fault := .rpc f.message

end Failure

/-- The result of an answer, or the error that the node reports. -/
def Response.outcome (r : Response) : Except Failure Json :=
  match r.error with
  | some e => .error (.node e.code e.message)
  | none => .ok (r.result.getD .null)

end StakeTrail.Rpc
