import StakeTrail.Abi.Basic
import StakeTrail.Action
import StakeTrail.Address
import StakeTrail.Cache
import StakeTrail.Chain.Block
import StakeTrail.Chain.Event
import StakeTrail.Chain.Feed
import StakeTrail.Chain.Script
import StakeTrail.Chain.Validator
import StakeTrail.Chain.Window
import StakeTrail.Checkpoint
import StakeTrail.Cli.Command
import StakeTrail.Cli.Outcome
import StakeTrail.Cli.Program
import StakeTrail.Config.Basic
import StakeTrail.Config.Check
import StakeTrail.Contract.Log
import StakeTrail.Contract.Notice
import StakeTrail.Counter
import StakeTrail.Curve.Secp256k1
import StakeTrail.Digest.Keccak
import StakeTrail.Fault
import StakeTrail.Indexing.Catalog
import StakeTrail.Indexing.Consensus
import StakeTrail.Indexing.Cursor
import StakeTrail.Indexing.Execution
import StakeTrail.Indexing.Fleet
import StakeTrail.Indexing.Loop
import StakeTrail.Indexing.Range
import StakeTrail.Indexing.Recorder
import StakeTrail.Indexing.Schedule
import StakeTrail.Indexing.Session
import StakeTrail.Json.Basic
import StakeTrail.Json.Decimal
import StakeTrail.Json.Parser
import StakeTrail.Json.Printer
import StakeTrail.Json.Reader
import StakeTrail.Json.Rows
import StakeTrail.Keyed
import StakeTrail.Logging
import StakeTrail.Main
import StakeTrail.Proofs.Abi.RoundTrip
import StakeTrail.Proofs.Cache.Keys
import StakeTrail.Proofs.Chain.Flight
import StakeTrail.Proofs.Chain.Honest
import StakeTrail.Proofs.Chain.Pages
import StakeTrail.Proofs.Chain.Roster
import StakeTrail.Proofs.Checkpoints.Calls
import StakeTrail.Proofs.Contract.Canonical
import StakeTrail.Proofs.Contract.Layout
import StakeTrail.Proofs.Contract.Order
import StakeTrail.Proofs.Contract.Rows
import StakeTrail.Proofs.Contract.Topics
import StakeTrail.Proofs.Digest.Numbers
import StakeTrail.Proofs.Ends
import StakeTrail.Proofs.Faults
import StakeTrail.Proofs.Indexing.Apart
import StakeTrail.Proofs.Indexing.Batches
import StakeTrail.Proofs.Indexing.BlockTimes
import StakeTrail.Proofs.Indexing.Caches
import StakeTrail.Proofs.Indexing.Crews
import StakeTrail.Proofs.Indexing.CrossCheck
import StakeTrail.Proofs.Indexing.Cursors
import StakeTrail.Proofs.Indexing.Cut
import StakeTrail.Proofs.Indexing.Gapless
import StakeTrail.Proofs.Indexing.History
import StakeTrail.Proofs.Indexing.Invariants
import StakeTrail.Proofs.Indexing.NormalRows
import StakeTrail.Proofs.Indexing.Recorded
import StakeTrail.Proofs.Indexing.Replay
import StakeTrail.Proofs.Indexing.Restart
import StakeTrail.Proofs.Indexing.Rewards
import StakeTrail.Proofs.Indexing.Runs
import StakeTrail.Proofs.Indexing.Sessions
import StakeTrail.Proofs.Indexing.Spellings
import StakeTrail.Proofs.Indexing.Ticks
import StakeTrail.Proofs.Indexing.Tiling
import StakeTrail.Proofs.Indexing.TotalStake
import StakeTrail.Proofs.Indexing.Turns
import StakeTrail.Proofs.Indexing.Uptimes
import StakeTrail.Proofs.Indexing.Votes
import StakeTrail.Proofs.Indexing.Watch
import StakeTrail.Proofs.Reward.Books
import StakeTrail.Proofs.Reward.Drains
import StakeTrail.Proofs.Reward.Tally
import StakeTrail.Proofs.Rpc.Quantities
import StakeTrail.Proofs.Rpc.Retries
import StakeTrail.Proofs.Stake.Annals
import StakeTrail.Proofs.Stake.Changes
import StakeTrail.Proofs.Stake.Dated
import StakeTrail.Proofs.Stake.Exact
import StakeTrail.Proofs.Stake.Persisted
import StakeTrail.Proofs.Stake.RunningTotal
import StakeTrail.Proofs.Stake.Series
import StakeTrail.Proofs.Staking.Agreement
import StakeTrail.Proofs.Staking.Blocks
import StakeTrail.Proofs.Staking.Kinds
import StakeTrail.Proofs.Staking.Rows
import StakeTrail.Proofs.Store.Atomic
import StakeTrail.Proofs.Store.Commits
import StakeTrail.Proofs.Store.Distinct
import StakeTrail.Proofs.Store.Keeps
import StakeTrail.Proofs.Store.Lookups
import StakeTrail.Proofs.Store.Mirrors
import StakeTrail.Proofs.Store.NormalTexts
import StakeTrail.Proofs.Store.Operations
import StakeTrail.Proofs.Store.Overwrites
import StakeTrail.Proofs.Store.Points
import StakeTrail.Proofs.Store.Raw
import StakeTrail.Proofs.Store.Repeated
import StakeTrail.Proofs.Store.Windows
import StakeTrail.Proofs.Text.Decimal
import StakeTrail.Proofs.Text.NormalForm
import StakeTrail.Proofs.Text.Numerals
import StakeTrail.Proofs.Text.Order
import StakeTrail.Proofs.Text.Spelling
import StakeTrail.Proofs.Traversal
import StakeTrail.Proofs.Uptime.Attendance
import StakeTrail.Proofs.Uptime.Ballot
import StakeTrail.Proofs.Uptime.Batch
import StakeTrail.Proofs.Uptime.Membership
import StakeTrail.Proofs.Uptime.Table
import StakeTrail.Proofs.Uptime.Upsert
import StakeTrail.Reward
import StakeTrail.Rpc.ConsensusNode
import StakeTrail.Rpc.ExecutionNode
import StakeTrail.Rpc.Line
import StakeTrail.Rpc.Message
import StakeTrail.Rpc.Quantity
import StakeTrail.Rpc.Retry
import StakeTrail.Stake.Delta
import StakeTrail.Stake.Ledger
import StakeTrail.Staking.Classify
import StakeTrail.Staking.Kind
import StakeTrail.Store.Archive
import StakeTrail.Store.Commit
import StakeTrail.Store.Database
import StakeTrail.Store.Listing
import StakeTrail.Store.Location
import StakeTrail.Store.Query
import StakeTrail.Store.Tables
import StakeTrail.Text.Base64
import StakeTrail.Text.Blank
import StakeTrail.Text.Case
import StakeTrail.Text.Case.Table
import StakeTrail.Text.Hex
import StakeTrail.Text.Moment
import StakeTrail.Text.Numeral
import StakeTrail.Toml.Document
import StakeTrail.Toml.Number
import StakeTrail.Toml.Quoted
import StakeTrail.Toml.Tree
import StakeTrail.Uptime.ActiveSet
import StakeTrail.Uptime.Interval
import StakeTrail.Uptime.Vote
import StakeTrail.Word
