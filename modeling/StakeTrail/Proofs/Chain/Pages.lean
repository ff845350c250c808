import Mathlib
import StakeTrail.Action
import StakeTrail.Proofs.Chain.Roster

/-!
# The requests of a walk through the pages

`walkWith` is the walk through the pages of an active set in any monad. If asking for a page is its answer, it is the
walk of a feed (`allValidators_eq_allWith`); if asking also writes the request down, it ends alike (`recorded_fst`) and
leaves the list of all requests. From page to page the walk meets what comes next in the set, and it ends at the page
whose number is `pageCount` (`recordedFrom_served`). So it asks for every page once and in order
(`allValidators_walked`).
-/

namespace StakeTrail.Feed

variable {roster : Roster} {height : Nat} {feed : ConsensusFeed}

/-! ## The walk in any monad -/

section Generic

variable {m : Type → Type} [Monad m] (crash : m (List Validator))

/-- Walks the pages as `walk` does; an action asks for each of them. -/
def walkWith (ask : Nat → m ActivePage) : Nat → Nat → List Validator → m (List Validator)
  | 0, _, _ => crash
  | left + 1, page, acc => do
    let answer ← ask page
    let all := acc ++ answer.validators
    if answer.validators.isEmpty ∨ page * pageSize ≥ answer.total then pure all
    else walkWith ask left (page + 1) all

/-- The whole active set of a height, as `allValidators` collects it. -/
def allWith (ask : Nat → Nat → Nat → m ActivePage) (height : Nat) : m (List Validator) :=
  walkWith crash (fun page => ask height page pageSize) Word.topHalf 1 []

end Generic

theorem walk_eq_walkWith (pages : Nat → Except Fault ActivePage) :
    ∀ (left page : Nat) (acc : List Validator), walk pages left page acc = walkWith (.error .crash) pages left page acc
  | 0, _, _ => rfl
  | left + 1, page, acc => by
    rw [walk, walkWith]
    rcases pages page with e | answer
    · rfl
    · simp only [walk_eq_walkWith pages left, bind, Except.bind, pure, Except.pure]

/-- **The walk of a feed** is the one in which asking is the answer. -/
theorem allValidators_eq_allWith (feed : ConsensusFeed) (height : Nat) :
    allValidators feed height = allWith (.error .crash) feed.validators height :=
  walk_eq_walkWith _ _ _ _

/-! ## Requests are written down -/

/-- A request for a page. -/
structure Request where
  height : Nat
  page : Nat
  size : Nat
  deriving DecidableEq, Repr

/-- Asks for a page, and writes the request down. -/
def recording (ask : Nat → Nat → Nat → Except Fault ActivePage) (height page size : Nat) :
    Action (List Request) ActivePage := fun requests => (ask height page size, requests ++ [⟨height, page, size⟩])

/-- The walk of a feed, with its requests written down. -/
def recorded (feed : ConsensusFeed) (height : Nat) : Action (List Request) (List Validator) :=
  allWith (Action.fail .crash) (recording feed.validators) height

/-- Requests for the pages from one number on. -/
def requests (height page count : Nat) : List Request :=
  (List.range' page count).map fun page => ⟨height, page, pageSize⟩

/-- What is left of such a walk from a page on. -/
abbrev recordedFrom (feed : ConsensusFeed) (height : Nat) : Nat → Nat → List Validator →
    Action (List Request) (List Validator) :=
  walkWith (Action.fail .crash) fun page => recording feed.validators height page pageSize

variable {left page : Nat} {acc : List Validator} {made : List Request} {e : Fault}

theorem recordedFrom_error (he : feed.validators height page pageSize = .error e) :
    (recordedFrom feed height (left + 1) page acc).run made = (.error e, made ++ [⟨height, page, pageSize⟩]) := by
  simp only [Action.run, recordedFrom, walkWith, Action.bind_apply, recording, he]

theorem recordedFrom_answer {answer : ActivePage} (ha : feed.validators height page pageSize = .ok answer) :
    (recordedFrom feed height (left + 1) page acc).run made =
      if answer.validators.isEmpty ∨ page * pageSize ≥ answer.total then
        (.ok (acc ++ answer.validators), made ++ [⟨height, page, pageSize⟩])
      else (recordedFrom feed height left (page + 1) (acc ++ answer.validators)).run
        (made ++ [⟨height, page, pageSize⟩]) := by
  simp only [Action.run, recordedFrom, walkWith, Action.bind_apply, recording, ha]
  split <;> rfl

theorem recordedFrom_fst (feed : ConsensusFeed) (height : Nat) : ∀ (left page : Nat) (acc : List Validator)
    (made : List Request), ((recordedFrom feed height left page acc).run made).1 =
      walkWith (.error .crash) (fun page => feed.validators height page pageSize) left page acc
  | 0, _, _, _ => rfl
  | left + 1, page, acc, made => by
    rw [walkWith]
    rcases ha : feed.validators height page pageSize with e | answer
    · rw [recordedFrom_error ha]
      rfl
    · rw [recordedFrom_answer ha]
      simp only [bind, Except.bind]
      split
      · rfl
      · exact recordedFrom_fst feed height left _ _ _

/-- **Writing requests down does not change the walk.** -/
theorem recorded_fst (feed : ConsensusFeed) (height : Nat) (made : List Request) :
    ((recorded feed height).run made).1 = allValidators feed height := by
  rw [allValidators_eq_allWith]
  exact recordedFrom_fst feed height Word.topHalf 1 [] made

/-! ## The walk over a roster -/

/-- The number of pages of a set; a set without members has one, which is empty. -/
def pageCount (size : Nat) : Nat := max 1 (size ⌈/⌉ pageSize)

theorem one_le_pageCount (size : Nat) : 1 ≤ pageCount size := le_max_left _ _

theorem pageCount_le_iff {size : Nat} (hpage : 1 ≤ page) : pageCount size ≤ page ↔ size ≤ page * pageSize := by
  rw [pageCount, max_le_iff, ceilDiv_le_iff_le_mul (by decide : 0 < pageSize), Nat.mul_comm]
  exact and_iff_right hpage

example : [0, 1, 99, 100, 101, 200].map pageCount = [1, 1, 1, 1, 2, 2] := by decide

/-- The feed answers for a page with what the roster has there. -/
def Serves (feed : ConsensusFeed) (roster : Roster) (height page : Nat) : Prop :=
  feed.validators height page pageSize = .ok (roster.page height page pageSize)

/-- **One page.** The walk has met what comes before the page; now it has met the page too, and goes on to the next
unless this is the last. -/
theorem recordedFrom_served (left : Nat) (made : List Request) (hserved : Serves feed roster height page)
    (hpage : 1 ≤ page) :
    (recordedFrom feed height (left + 1) page ((roster.validators height).take ((page - 1) * pageSize))).run made =
      if pageCount (roster.validators height).length ≤ page then
        (.ok ((roster.validators height).take (page * pageSize)), made ++ requests height page 1)
      else (recordedFrom feed height left (page + 1) ((roster.validators height).take (page * pageSize))).run
        (made ++ requests height page 1) := by
  have hlast := (roster.isLast_iff height page (by decide : 0 < pageSize)).trans (pageCount_le_iff hpage).symm
  rw [recordedFrom_answer hserved, roster.take_page height pageSize hpage]
  simp only [hlast]
  rfl

/-- One more request. -/
theorem requests_succ (height n : Nat) :
    requests height 1 n ++ requests height (n + 1) 1 = requests height 1 (n + 1) := by
  rw [requests, requests, requests, ← List.map_append, Nat.add_comm n 1, List.range'_append_1, Nat.add_comm]

/-- **From page to page**: as long as the feed serves and the last page is not reached, the walk comes through. -/
theorem recordedFrom_first : ∀ (left : Nat) {n : Nat}, (∀ page, 1 ≤ page → page ≤ n → Serves feed roster height page) →
    n < pageCount (roster.validators height).length →
    (recordedFrom feed height (left + n) 1 []).run [] =
      (recordedFrom feed height left (n + 1) ((roster.validators height).take (n * pageSize))).run (requests height 1 n)
  | left, 0, _, _ => by simp [requests]
  | left, n + 1, hserved, hn => by
    have hbefore := recordedFrom_first (left + 1) (fun page h₁ h₂ => hserved page h₁ (by omega))
      (by omega : n < pageCount (roster.validators height).length)
    have hpage := recordedFrom_served left (requests height 1 n)
      (hserved (n + 1) (by omega) le_rfl) (by omega)
    rw [if_neg (by omega), Nat.add_sub_cancel, requests_succ] at hpage
    rw [show left + (n + 1) = left + 1 + n by omega, hbefore, hpage]

/-- **The walk comes to every page** up to the last, if the feed serves those before it. -/
theorem recorded_comes {n : Nat} (hcount : pageCount (roster.validators height).length ≤ Word.topHalf)
    (hn : n < pageCount (roster.validators height).length)
    (hserved : ∀ page, 1 ≤ page → page ≤ n → Serves feed roster height page) :
    ∃ left, (recorded feed height).run [] = (recordedFrom feed height (left + 1) (n + 1)
      ((roster.validators height).take (n * pageSize))).run (requests height 1 n) := by
  refine ⟨Word.topHalf - (n + 1), ?_⟩
  have hleft : Word.topHalf = Word.topHalf - (n + 1) + 1 + n := by omega
  rw [← recordedFrom_first _ hserved hn, ← hleft]
  rfl

/-- **Every page is asked for once and in order.** Let the set fit into pages numbered by half words. If the feed serves
all its pages, the walk ends with the whole set, after one request for each page; if it serves those before some page
and fails there, the walk ends with that fault, after one request for each page up to it. -/
theorem allValidators_walked (feed : ConsensusFeed) (roster : Roster) (height : Nat)
    (hfit : (roster.validators height).length ≤ Word.topHalf * pageSize) :
    pageCount (roster.validators height).length ≤ Word.topHalf ∧
    ((∀ page, 1 ≤ page → page ≤ pageCount (roster.validators height).length → Serves feed roster height page) →
      allValidators feed height = .ok (roster.validators height) ∧
      (recorded feed height).run [] =
        (.ok (roster.validators height), requests height 1 (pageCount (roster.validators height).length))) ∧
    ∀ page e, 1 ≤ page → page ≤ pageCount (roster.validators height).length →
      (∀ earlier, 1 ≤ earlier → earlier < page → Serves feed roster height earlier) →
      feed.validators height page pageSize = .error e →
      allValidators feed height = .error e ∧ (recorded feed height).run [] = (.error e, requests height 1 page) := by
  have hcount : pageCount (roster.validators height).length ≤ Word.topHalf :=
    (pageCount_le_iff (by decide)).mpr hfit
  refine ⟨hcount, fun hserved => ?_, fun page e h₁ hle hserved he => ?_⟩
  · obtain ⟨n, hn⟩ := Nat.exists_eq_add_of_le' (one_le_pageCount (roster.validators height).length)
    obtain ⟨left, hrun⟩ := recorded_comes hcount (n := n) (by omega) fun page h₁ h₂ => hserved page h₁ (by omega)
    have hlast := recordedFrom_served left (requests height 1 n)
      (hserved (n + 1) (by omega) (by omega)) (by omega)
    rw [if_pos (by omega), Nat.add_sub_cancel, requests_succ,
      List.take_of_length_le (i := (n + 1) * pageSize) ((pageCount_le_iff (by omega)).mp (by omega))] at hlast
    rw [← recorded_fst feed height [], hrun, hlast, hn]
    exact ⟨rfl, rfl⟩
  · obtain ⟨n, rfl⟩ := Nat.exists_eq_add_of_le' h₁
    obtain ⟨left, hrun⟩ := recorded_comes hcount (n := n) (by omega) fun page h₁ h₂ => hserved page h₁ (by omega)
    rw [recordedFrom_error he] at hrun
    rw [← recorded_fst feed height [], hrun, ← requests_succ]
    exact ⟨rfl, rfl⟩

/-! ### A set of one page and one validator -/

/-- A hundred and one validators at every height. -/
def wideRoster : Roster where
  validators _ := (List.range 101).map fun n => ⟨"aa", [UInt8.ofNat n]⟩
  commit _ := []

/-- A feed of this roster that fails on the second page of height 9. -/
def wideFeed : ConsensusFeed where
  head := .ok 9
  block h := .ok ⟨h, "", "", 0⟩
  events _ := .ok []
  commit h := .ok (wideRoster.commit h)
  validators h page size := if h = 9 ∧ page = 2 then .error (.rpc "busy") else .ok (wideRoster.page h page size)

theorem wideFeed_serves {h page : Nat} (hserves : ¬(h = 9 ∧ page = 2)) : Serves wideFeed wideRoster h page :=
  if_neg hserves

/-- There are two requests, whether or not the second page comes. -/
theorem wideFeed_walked :
    allValidators wideFeed 5 = .ok (wideRoster.validators 5) ∧
    (recorded wideFeed 5).run [] = (.ok (wideRoster.validators 5), [⟨5, 1, 100⟩, ⟨5, 2, 100⟩]) ∧
    allValidators wideFeed 9 = .error (.rpc "busy") ∧
    (recorded wideFeed 9).run [] = (.error (.rpc "busy"), [⟨9, 1, 100⟩, ⟨9, 2, 100⟩]) := by
  have hlength : ∀ h, (wideRoster.validators h).length = 101 := fun h => by simp [wideRoster]
  have hfit : ∀ h, (wideRoster.validators h).length ≤ Word.topHalf * pageSize := fun h => by
    rw [hlength]
    decide
  have hcount : pageCount 101 = 2 := by decide
  obtain ⟨-, hserved, -⟩ := allValidators_walked wideFeed wideRoster 5 (hfit 5)
  obtain ⟨-, -, hfails⟩ := allValidators_walked wideFeed wideRoster 9 (hfit 9)
  obtain ⟨hall, hrequests⟩ := hserved fun _ _ _ => wideFeed_serves (by simp)
  obtain ⟨hfault, hrequests'⟩ := hfails 2 (.rpc "busy") (by decide) (by rw [hlength, hcount])
    (fun _ _ hearlier => wideFeed_serves (by omega)) rfl
  rw [hlength, hcount] at hrequests
  exact ⟨hall, hrequests, hfault, hrequests'⟩

end StakeTrail.Feed
