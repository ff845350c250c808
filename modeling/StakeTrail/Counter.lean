import StakeTrail.Fault

/-!
# Counters

What the program counts: committed pieces, failed pieces, refused database statements and failed remote calls.
`Counter.label` names a counter with its attributes, and `tally` adds up a list of counts.
-/

namespace StakeTrail

/-- Something that is counted. -/
inductive Counter
  /-- A piece of a range was committed with its checkpoint. -/
  | batch (indexer : String)
  /-- A piece of a range failed. -/
  | indexError (indexer kind : String)
  /-- The database refused a statement. -/
  | storageError (kind : String)
  /-- A remote call failed after all retries. -/
  | rpcError (method kind : String)
  deriving DecidableEq, Repr, Inhabited

namespace Counter

/-- The name of a counter and its attributes in alphabetical order. -/
def label : Counter → String
  | .batch indexer => s!"stakeindex.batches_committed indexer={indexer}"
  | .indexError indexer kind => s!"stakeindex.index_errors error_type={kind} indexer={indexer}"
  | .storageError kind => s!"stakeindex.storage_errors error_type={kind}"
  | .rpcError method kind => s!"stakeindex.rpc_errors error_type={kind} method={method}"

/-- How often each counter was counted, in order of the labels. -/
def tally (counts : List Counter) : List (String × Nat) :=
  let labels := counts.map label
  (labels.eraseDups.mergeSort fun a b => decide (a ≤ b)).map fun l => (l, labels.count l)

end Counter

end StakeTrail
