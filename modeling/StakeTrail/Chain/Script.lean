import StakeTrail.Chain.Feed
import StakeTrail.Keyed

/-!
# Scripted chains

A script describes both chains for a dry run: two heads, a clock, and by height the data that differ from the
plain ones. `Script.consensus` and `Script.execution` are the feeds that it stands for. A call that the
script makes fail does so before anything else is looked at.
-/

namespace StakeTrail

/-- A description of both chains. -/
structure Script where
  consensusHead : Nat := 0
  executionHead : Nat := 0
  /-- The time at height 0, and the seconds from one consensus block to the next. -/
  clock : Int × Int := (1737298800, 1)
  consensusBlocks : List (Nat × ConsensusBlock) := []
  executionBlocks : List (Nat × ExecutionBlock) := []
  events : List (Nat × List EventRecord) := []
  commits : List (Nat × List Signature) := []
  /-- The active set where none is given for the height. -/
  validators : List Validator := []
  validatorsAt : List (Nat × List Validator) := []
  /-- Reported sizes of the active set. -/
  totals : List (Nat × Nat) := []
  withdrawals : List (Nat × Withdrawal) := []
  logs : List LogRecord := []
  /-- Calls that fail, at one height or at all. -/
  failures : List (String × Option Nat) := []
  deriving Inhabited

namespace Script

/-- A number in hexadecimal, filled up with zeros to a width. -/
def hexWide (width n : Nat) : List Char :=
  let digits := Nat.toDigits 16 n
  List.replicate (width - digits.length) '0' ++ digits

/-- The scripted failure of a call at a height. -/
def check (s : Script) (call : String) (height : Nat) : Except Fault Unit :=
  if s.failures.any fun f => f.1 == call && (f.2 == none || f.2 == some height) then
    .error (.rpc s!"{call} {height} failed")
  else .ok ()

/-- The entry of a height. -/
def given? {α : Type} (height : Nat) (entries : List (Nat × α)) : Option α :=
  (Keyed.get? Prod.fst height entries).map (·.2)

/-- The consensus block of a height: the one given, or a plain one up to the head. -/
def consensusBlock (s : Script) (height : Nat) : Except Fault ConsensusBlock := do
  s.check "cl_block" height
  match given? height s.consensusBlocks with
  | some block => .ok block
  | none =>
    if height > s.consensusHead then .error (.rpc s!"height {height} is in the future")
    else
      .ok {
        height
        hash := String.ofList ((hexWide 64 height).map Char.toUpper)
        proposer := String.ofList (List.replicate 10 "F00D".toList).flatten
        time := s.clock.1 + s.clock.2 * height }

/-- A page of the active set of a height. -/
def validatorPage (s : Script) (height page size : Nat) : Except Fault ActivePage := do
  s.check "validators" height
  let set := (given? height s.validatorsAt).getD s.validators
  .ok ⟨(set.drop ((page - 1) * size)).take size, (given? height s.totals).getD set.length⟩

/-- The execution block of a height: the one given or a plain one, with the scripted withdrawals. -/
def executionBlock (s : Script) (height : Nat) : Except Fault ExecutionBlock := do
  s.check "el_block" height
  let withdrawals := (s.withdrawals.filter fun w => w.1 = height).map (·.2)
  match given? height s.executionBlocks with
  | some block => .ok { block with withdrawals }
  | none =>
    .ok {
      height
      hash := String.ofList ('0' :: 'x' :: hexWide 64 height)
      gasUsed := 21000 * height
      gasLimit := 30000000
      time := s.clock.1 + 2 * height
      withdrawals }

/-- The consensus node of a script. -/
def consensus (s : Script) : ConsensusFeed where
  head := do s.check "cl_head" 0; .ok s.consensusHead
  block := s.consensusBlock
  events height := do s.check "events" height; .ok ((given? height s.events).getD [])
  commit height := do s.check "commit" height; .ok ((given? height s.commits).getD [])
  validators := s.validatorPage

/-- The execution node of a script. -/
def execution (s : Script) : ExecutionFeed where
  head := do s.check "el_head" 0; .ok s.executionHead
  block := s.executionBlock
  logs first last := do
    s.check "logs" first
    .ok (s.logs.filter fun l => first ≤ l.block && l.block ≤ last)

end Script

end StakeTrail
