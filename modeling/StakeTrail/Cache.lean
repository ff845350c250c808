import StakeTrail.Action
import StakeTrail.Keyed

/-!
# The cache of read responses

Indexers delete what their rows make stale: `rewardKey` for an address whose rewards grew, and everything
under `validatorsRoot` when uptimes or votes change. A `Cache` is the state of a cache together with what it
answers; `Memory` keeps entries with a lifetime, and `refusing` fails every call. Failed deletions are
swallowed by `dropKeys` and `dropUnder`, so a cache never stops an indexer.
-/

namespace StakeTrail

namespace Cache

/-- The beginning of every key of a validator listing. -/
def validatorsRoot : String := "validators"

/-- The key of the rewards of an address. -/
def rewardKey (address : String) : String := "rewards_" ++ address

/-- The parameters of a validator listing. -/
structure ListingQuery where
  status : String := ""
  key : String := ""
  offset : String := ""
  limit : String := ""
  countTotal : String := ""
  reverse : String := ""
  deriving DecidableEq, Repr, Inhabited

/-- The key of a validator listing. -/
def listingKey (q : ListingQuery) : String :=
  "_".intercalate [validatorsRoot, q.status, q.key, q.offset, q.limit, q.countTotal, q.reverse]

/-- A cached value; one that has expired stays until it is asked for. -/
structure Entry where
  key : String
  value : String
  expired : Bool
  deriving DecidableEq, Repr, Inhabited

/-- The entries of a cache in memory. -/
abbrev Memory := List Entry

end Cache

/-- The calls that a cache with entries in `σ` answers. -/
structure Cache (σ : Type) where
  get : String → Action σ (Option String)
  /-- Stores a value; one with no lifetime is expired at once. -/
  set : String → String → Bool → Action σ Unit
  delete : List String → Action σ Unit
  /-- Deletes every key that begins with a text. -/
  deleteUnder : String → Action σ Unit

namespace Cache

variable {σ : Type}

/-- A cache in memory. -/
def memory : Cache Memory where
  get key := fun entries =>
    match Keyed.get? Entry.key key entries with
    | none => (.ok none, entries)
    | some e => if e.expired then (.ok none, Keyed.erase Entry.key key entries) else (.ok (some e.value), entries)
  set key value expired := Action.update (Keyed.put Entry.key ⟨key, value, expired⟩)
  delete keys := Action.update fun entries => entries.filter fun e => !keys.contains e.key
  deleteUnder root := Action.update fun entries => entries.filter fun e => !root.toList.isPrefixOf e.key.toList

/-- A cache that fails every call. -/
def refusing (text : String) : Cache σ where
  get _ := Action.fail (.cache text)
  set _ _ _ := Action.fail (.cache text)
  delete _ := Action.fail (.cache text)
  deleteUnder _ := Action.fail (.cache text)

/-- Deletes keys as far as the cache allows. -/
def dropKeys (cache : Cache σ) (keys : List String) : Action σ Unit :=
  if keys.isEmpty then pure ()
  else do
    let _ ← (cache.delete keys).attempt
    pure ()

/-- Deletes every key that begins with a text, as far as the cache allows. -/
def dropUnder (cache : Cache σ) (root : String) : Action σ Unit := do
  let _ ← (cache.deleteUnder root).attempt
  pure ()

end Cache

end StakeTrail
