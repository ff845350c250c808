import StakeTrail.Text.Hex

/-!
# Validators and their signatures

The members of the active set and the signatures of a commit, as a consensus node reports them.
-/

namespace StakeTrail

/-- What a commit signature says about the block. -/
inductive VoteFlag
  | unknown
  | absent
  | commit
  | nil
  deriving DecidableEq, Repr, Inhabited

/-- The flag behind a node's number. -/
def VoteFlag.ofNumber : Nat → VoteFlag
  | 1 => .absent
  | 2 => .commit
  | 3 => .nil
  | _ => .unknown

/-- The name of a flag. -/
def VoteFlag.name : VoteFlag → String
  | .unknown => "Unknown"
  | .absent => "Absent"
  | .commit => "Commit"
  | .nil => "Nil"

/-- A signature of a commit; an absent signature has an empty address. -/
structure Signature where
  flag : VoteFlag
  validator : String
  deriving DecidableEq, Repr, Inhabited

/-- A member of the active set. -/
structure Validator where
  /-- The consensus address. -/
  address : String
  /-- The compressed public key. -/
  key : Bytes
  deriving DecidableEq, Repr, Inhabited

/-- A page of the active set, with the size of the whole set. -/
structure ActivePage where
  validators : List Validator
  total : Nat
  deriving DecidableEq, Repr, Inhabited

end StakeTrail
