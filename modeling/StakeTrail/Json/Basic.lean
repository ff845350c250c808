/-!
# JSON values

A number is an integer when it is written without fraction and exponent and is a 64-bit word, signed or
unsigned; any other number keeps its text. The members of an object stay in order, and of two with one name
the last counts.
-/

namespace StakeTrail

/-- A JSON value. -/
inductive Json
  | null
  | bool (value : Bool)
  | int (value : Int)
  | real (text : String)
  | str (value : String)
  | arr (items : List Json)
  | obj (members : List (String × Json))
  deriving Inhabited

namespace Json

/-- A natural number. -/
def nat (n : Nat) : Json := .int n

/-- A value or null. -/
def opt {α : Type} (f : α → Json) : Option α → Json
  | some a => f a
  | none => .null

/-- The values of a list. -/
def list {α : Type} (f : α → Json) (items : List α) : Json := .arr (items.map f)

/-- The last member with a name. -/
def lookup (name : String) (members : List (String × Json)) : Option Json :=
  members.foldl (fun found m => if m.1 = name then some m.2 else found) none

/-- The member of an object; any other value has none. -/
def member? (name : String) : Json → Option Json
  | .obj members => lookup name members
  | _ => none

end Json

end StakeTrail
