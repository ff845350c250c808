import StakeTrail.Chain.Feed

/-!
# Feeds that follow a chain

A chain is fixed: a `ConsensusChain` has events and a time for each height. A feed follows it when whatever it answers
is what the chain has at the height asked for; it may fail at any time, and two feeds of one chain may fail at
different heights. What was gathered from such a feed is then determined by the range (`gather_map`).
-/

namespace StakeTrail

/-- The events and the time of each height; times are half words, as a query hands them back. -/
structure ConsensusChain where
  events : Nat → List EventRecord
  /-- Unix seconds. -/
  time : Nat → Int
  time_nonneg : ∀ h, 0 ≤ time h
  time_lt : ∀ h, time h < 0x80000000

/-- **The places of events are half words**, so that no two events of a height share one. -/
def ConsensusChain.Numbered (chain : ConsensusChain) : Prop := ∀ h, (chain.events h).length ≤ Word.topHalf

/-- A second at which a chain may stand still. -/
theorem ConsensusChain.still_nonneg (_ : Nat) : (0 : Int) ≤ 100 := by decide

theorem ConsensusChain.still_lt (_ : Nat) : (100 : Int) < 0x80000000 := by decide

/-- Whatever the feed answers is what the chain has. -/
structure ConsensusFeed.Follows (feed : ConsensusFeed) (chain : ConsensusChain) : Prop where
  events : ∀ h l, feed.events h = .ok l → l = chain.events h
  block : ∀ h b, feed.block h = .ok b → b.height = h ∧ b.time = chain.time h

/-- Whatever the feed answers has the height asked for and its withdrawals; heights are half words, as a query hands
them back. -/
structure ExecutionFeed.Follows (feed : ExecutionFeed) (pays : Nat → List Withdrawal) : Prop where
  head : ∀ h, feed.head = .ok h → h < 0x80000000
  block : ∀ h b, feed.block h = .ok b → b.height = h ∧ b.withdrawals = pays h

namespace Feed

variable {α β : Type} {fetch : Nat → Except Fault α} {f : α → β} {g : Nat → β}

theorem gatherFrom_map (hf : ∀ h a, fetch h = .ok a → f a = g h) : ∀ {n h : Nat} {acc l : List α},
    gatherFrom fetch n h acc = .ok l → l.map f = acc.reverse.map f ++ (List.range' h n).map g
  | 0, h, acc, l, hl => by
    cases hl
    simp
  | n + 1, h, acc, l, hl => by
    unfold gatherFrom at hl
    rcases ha : fetch h with e | a <;> rw [ha] at hl
    · cases hl
    · rw [gatherFrom_map hf hl, List.range'_succ, List.reverse_cons]
      simp [hf h a ha]

/-- **What was gathered** is determined by the range. -/
theorem gather_map (hf : ∀ h a, fetch h = .ok a → f a = g h) {first last : Nat} {l : List α}
    (hl : gather first last fetch = .ok l) : l.map f = (List.range' first (last + 1 - first)).map g := by
  simpa using gatherFrom_map hf hl

end Feed

end StakeTrail
