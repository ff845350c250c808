import Mathlib
import StakeTrail.Rpc.Line

/-!
# Calls that are sent again

A server meets each attempt with some `Behaviour`, and `Comes` says what comes of it: an answer has a result or an
error, anything else is a failure of the transport, such as a body that says something twice (`comes_of_twice`) or a
result that cannot be read (`comes_of_unread`). `Sends` is the loop that sends a call again, with no bound but its
counter, which is a half word.

* Only the number of an attempt decides whether there is one more (`delay_eq_none_iff`).
* The loop ends (`sends_send`), and in one way only (`Sends.unique`): as `send` does.
* It passes over attempts that are lost (`Sends.pass`).

**The main statement** (`request_settled`) is about a call on a line, whatever the server does.
-/

namespace StakeTrail.Rpc

/-! ## One attempt -/

/-- What a server does with a request. -/
inductive Behaviour
  /-- The answer does not come, or not to its end. -/
  | cutOff (why : String)
  | replied (status : Nat) (body : String)
  deriving DecidableEq, Repr

/-- The attempt that meets this behaviour. -/
def Behaviour.attempt : Behaviour → Attempt
  | .cutOff why => .lost why
  | .replied status body => .ofReply status body

/-- A status of success. -/
def IsSuccess (status : Nat) : Prop := 200 ≤ status ∧ status < 300

/-- A body that is an answer to a call. -/
def Says (body : String) (response : Response) : Prop := (Json.parse body).bind Response.ofJson? = some response

/-- **What comes of one attempt.** -/
inductive Comes : Behaviour → Except Failure Json → Prop
  | unreachable {why : String} : Comes (.cutOff why) (.error (.http why))
  | refused {status : Nat} {body : String} : ¬IsSuccess status →
      Comes (.replied status body) (.error (.http s!"HTTP {status}: {body}"))
  | garbled {status : Nat} {body : String} : IsSuccess status → (∀ response, ¬Says body response) →
      Comes (.replied status body) (.error (.http foreign))
  | reported {status : Nat} {body : String} {response : Response} {e : NodeError} : IsSuccess status →
      Says body response → response.error = some e → Comes (.replied status body) (.error (.node e.code e.message))
  | result {status : Nat} {body : String} {response : Response} : IsSuccess status → Says body response →
      response.error = none → Comes (.replied status body) (.ok (response.result.getD .null))

theorem ofReply_of_not_success {status : Nat} (h : ¬IsSuccess status) (body : String) :
    Attempt.ofReply status body = .lost s!"HTTP {status}: {body}" := if_neg h

theorem ofReply_of_success {status : Nat} (h : IsSuccess status) (body : String) :
    Attempt.ofReply status body = ((Json.parse body).bind Response.ofJson?).elim (.lost foreign) .answered := by
  refine (if_pos h).trans ?_
  rcases (Json.parse body).bind Response.ofJson? with _ | response <;> rfl

theorem Comes.outcome_eq {b : Behaviour} {r : Except Failure Json} (h : Comes b r) : b.attempt.outcome = r := by
  cases h with
  | unreachable => rfl
  | refused hstatus =>
    rw [Behaviour.attempt, ofReply_of_not_success hstatus]
    rfl
  | garbled hstatus hbody =>
    rw [Behaviour.attempt, ofReply_of_success hstatus, Option.eq_none_iff_forall_ne_some.mpr hbody]
    rfl
  | reported hstatus hbody he =>
    rw [Behaviour.attempt, ofReply_of_success hstatus, hbody]
    simp only [Option.elim_some, Attempt.outcome, Response.outcome, he]
  | result hstatus hbody hnone =>
    rw [Behaviour.attempt, ofReply_of_success hstatus, hbody]
    simp only [Option.elim_some, Attempt.outcome, Response.outcome, hnone]

/-- Something comes of every attempt. -/
theorem comes_outcome (b : Behaviour) : Comes b b.attempt.outcome := by
  have hcomes : ∃ r, Comes b r := by
    rcases b with why | ⟨status, body⟩
    · exact ⟨_, .unreachable⟩
    · by_cases hstatus : IsSuccess status
      · by_cases hbody : ∃ response, Says body response
        · obtain ⟨response, hbody⟩ := hbody
          rcases he : response.error with _ | e
          · exact ⟨_, .result hstatus hbody he⟩
          · exact ⟨_, .reported hstatus hbody he⟩
        · exact ⟨_, .garbled hstatus (not_exists.mp hbody)⟩
      · exact ⟨_, .refused hstatus⟩
  obtain ⟨r, h⟩ := hcomes
  rwa [h.outcome_eq]

/-- A body that holds a field of an answer twice is no answer. -/
theorem comes_of_twice {status : Nat} {body name : String} {members : List (String × Json)} (hstatus : IsSuccess status)
    (hbody : Json.parse body = some (.obj members)) (hname : name ∈ ["jsonrpc", "id", "result", "error"])
    (htwice : 1 < members.countP (·.1 = name)) : Comes (.replied status body) (.error (.http foreign)) := by
  have hfields : (Json.obj members).fieldsOnce? ["jsonrpc", "id", "result", "error"] = none := by
    refine if_neg fun hall => ?_
    have honce := List.all_eq_true.mp hall name hname
    rw [decide_eq_true_eq] at honce
    omega
  refine .garbled hstatus fun response hsays => ?_
  rw [Says, hbody, Option.bind_some, Response.ofJson?, hfields] at hsays
  cases hsays

/-- Neither is a body whose result cannot be read. -/
theorem comes_of_unread {status : Nat} {body : String} {members : List (String × Json)} {j : Json}
    (hstatus : IsSuccess status) (hbody : Json.parse body = some (.obj members))
    (hresult : Json.lookup "result" members = some j) (hj : j.any? = none) :
    Comes (.replied status body) (.error (.http foreign)) := by
  have hread : Json.allow Json.any? (Json.lookup "result" members) = none := by
    rw [hresult, Json.allow, Json.opt?, hj]
    · rfl
    · rintro rfl
      simp [Json.any?] at hj
  refine .garbled hstatus fun response hsays => ?_
  rw [Says, hbody, Option.bind_some, Response.ofJson?, Json.fieldsOnce?] at hsays
  split at hsays <;> simp [Json.fields?, hread] at hsays

/-- A number that no double is near cannot be read. -/
example : Comes (.replied 200 "\x7b\"result\": 1e999\x7d") (.error (.http foreign)) :=
  comes_of_unread ⟨by decide, by decide⟩ (show Json.parse _ = some (.obj [("result", .real "1e999")]) by cbv) rfl rfl

/-! ## The loop -/

variable {p : Policy} {server : Nat → Attempt} {n k : Nat} {r r' : Except Failure Json}

/-- **There is one more attempt** as long as the retries last. -/
theorem delay_eq_none_iff : p.delay n = none ↔ n = 0 ∨ p.retries < n := by
  unfold Policy.delay
  split <;> simp_all

/-- **The loop of attempts** from the `n`-th on, with what it ends with and the number of its last attempt. It goes on
only while the counter is a half word. -/
inductive Sends (p : Policy) (server : Nat → Attempt) : Nat → Except Failure Json → Nat → Prop
  | done {n : Nat} {j : Json} : (server n).outcome = .ok j → Sends p server n (.ok j) n
  | failed {n : Nat} {e : Failure} : (server n).outcome = .error e → e.mayRecover = false →
      Sends p server n (.error e) n
  | givenUp {n : Nat} {e : Failure} : (server n).outcome = .error e → e.mayRecover = true → p.delay n = none →
      Sends p server n (.error e) n
  | again {n k pause : Nat} {e : Failure} {r : Except Failure Json} : (server n).outcome = .error e →
      e.mayRecover = true → p.delay n = some pause → n + 1 ≤ Word.topHalf → Sends p server (n + 1) r k →
      Sends p server n r k

/-- The loop ends in one way only. -/
theorem Sends.unique {k' : Nat} (h : Sends p server n r k) (h' : Sends p server n r' k') : r = r' ∧ k = k' := by
  induction h with
  | done hok =>
    cases h' with
    | done hok' => exact ⟨hok.symm.trans hok', rfl⟩
    | failed he => cases hok.symm.trans he
    | givenUp he => cases hok.symm.trans he
    | again he => cases hok.symm.trans he
  | failed he hfinal =>
    cases h' with
    | done hok => cases he.symm.trans hok
    | failed he' => exact ⟨he.symm.trans he', rfl⟩
    | givenUp he' hmay => cases he.symm.trans he'; cases hfinal.symm.trans hmay
    | again he' hmay => cases he.symm.trans he'; cases hfinal.symm.trans hmay
  | givenUp he hmay hnone =>
    cases h' with
    | done hok => cases he.symm.trans hok
    | failed he' hfinal => cases he.symm.trans he'; cases hfinal.symm.trans hmay
    | givenUp he' => exact ⟨he.symm.trans he', rfl⟩
    | again _ _ hsome => cases hnone.symm.trans hsome
  | again he hmay hsome _ _ ih =>
    cases h' with
    | done hok => cases he.symm.trans hok
    | failed he' hfinal => cases he.symm.trans he'; cases hfinal.symm.trans hmay
    | givenUp _ _ hnone => cases hnone.symm.trans hsome
    | again _ _ _ _ hrest => exact ih hrest

/-- A lost attempt is followed by another while the retries last. -/
theorem Sends.pass_one {text : String} (hlost : (server n).outcome = .error (.http text)) (hn : 1 ≤ n)
    (hleft : n ≤ p.retries) (hm : p.retries < Word.topHalf) (h : Sends p server (n + 1) r k) :
    Sends p server n r k := by
  have hmore : p.delay n ≠ none := mt delay_eq_none_iff.mp (by omega)
  obtain ⟨pause, hpause⟩ := Option.ne_none_iff_exists'.mp hmore
  exact .again hlost rfl hpause (by omega) h

/-- **Lost attempts are passed over.** -/
theorem Sends.pass (hm : p.retries < Word.topHalf) : ∀ (d : Nat) {n : Nat}, 1 ≤ n → n + d ≤ p.retries + 1 →
    (∀ i < d, ∃ text, (server (n + i)).outcome = .error (.http text)) → Sends p server (n + d) r k →
    Sends p server n r k
  | 0, _, _, _, _, h => h
  | d + 1, n, hn, hle, hlost, h => by
    obtain ⟨text, htext⟩ := hlost 0 (Nat.succ_pos d)
    refine Sends.pass_one htext hn (by omega) hm (Sends.pass hm d (by omega) (by omega) (fun i hi => ?_) ?_)
    · rw [Nat.add_right_comm]
      exact hlost (i + 1) (by omega)
    · rwa [Nat.add_right_comm]

theorem sends_sendFrom (hm : p.retries < Word.topHalf) (server : Nat → Attempt) : ∀ (left : Nat) {n : Nat}, 1 ≤ n →
    n + left = p.retries + 1 → Sends p server n (sendFrom p server left n).1 (sendFrom p server left n).2
  | 0, n, hn, hleft => by
    have hnone : p.delay n = none := delay_eq_none_iff.mpr (by omega)
    rw [sendFrom]
    rcases hr : (server n).outcome with e | j
    · rcases hmay : e.mayRecover with _ | _
      · exact .failed hr hmay
      · exact .givenUp hr hmay hnone
    · exact .done hr
  | left + 1, n, hn, hleft => by
    unfold sendFrom
    rcases hr : (server n).outcome with e | j
    · dsimp only
      split
      · rename_i hmay
        split
        · rename_i pause hpause
          exact .again hr hmay hpause (by omega) (sends_sendFrom hm server left (by omega) (by omega))
        · rename_i hnone
          exact .givenUp hr hmay hnone
      · rename_i hfinal
        exact .failed hr (Bool.eq_false_iff.mpr hfinal)
    · exact .done hr

/-- **The loop ends**, as `send` does. -/
theorem sends_send (hm : p.retries < Word.topHalf) (server : Nat → Attempt) :
    Sends p server 1 (send p server).1 (send p server).2 :=
  sends_sendFrom hm server p.retries le_rfl (Nat.add_comm 1 _)

/-- No attempt comes after the retries are used up. -/
theorem Sends.le (h : Sends p server n r k) (hn : n ≤ p.retries + 1) : n ≤ k ∧ k ≤ p.retries + 1 := by
  induction h with
  | done | failed | givenUp => exact ⟨le_rfl, hn⟩
  | @again n _ pause _ _ _ _ hpause _ _ ih =>
    have hleft : ¬(n = 0 ∨ p.retries < n) := fun hnone => by
      cases hpause.symm.trans (delay_eq_none_iff.mpr hnone)
    have := ih (by omega)
    omega

/-- **The first attempt that is not lost** is the last one, and its outcome counts. -/
theorem send_eq (hm : p.retries < Word.topHalf) {d : Nat} (hd : d ≤ p.retries)
    (hlost : ∀ i < d, ∃ text, (server (1 + i)).outcome = .error (.http text)) (hlast : (server (1 + d)).outcome = r)
    (hr : ∀ e, r = .error e → e.mayRecover = true → d = p.retries) : send p server = (r, d + 1) := by
  have hsends : Sends p server (1 + d) r (1 + d) := by
    rcases hcase : r with e | j
    · rcases hmay : e.mayRecover with _ | _
      · exact .failed (hcase ▸ hlast) hmay
      · have hall := hr e hcase hmay
        exact .givenUp (hcase ▸ hlast) hmay (delay_eq_none_iff.mpr (by omega))
    · exact .done (hcase ▸ hlast)
  obtain ⟨hfst, hsnd⟩ := (sends_send hm server).unique (hsends.pass hm d le_rfl (by omega) hlost)
  exact Prod.ext hfst (hsnd.trans (Nat.add_comm 1 d))

/-! ## A call on a line -/

/-- A failure of the transport. -/
def IsLost (r : Except Failure Json) : Prop := ∃ text, r = .error (.http text)

/-- The attempts of a call, counted from one, at a server that meets the first of them with the first behaviour. -/
def met (behaviours : Nat → Behaviour) (n : Nat) : Attempt := (behaviours (n - 1)).attempt

variable {behaviours : Nat → Behaviour}

theorem met_add (behaviours : Nat → Behaviour) (i : Nat) : met behaviours (1 + i) = (behaviours i).attempt := by
  rw [met, Nat.add_sub_cancel_left]

theorem met_outcome_of_lost {i : Nat} (h : ∃ r, Comes (behaviours i) r ∧ IsLost r) :
    ∃ text, (met behaviours (1 + i)).outcome = .error (.http text) := by
  obtain ⟨_, hcomes, text, rfl⟩ := h
  exact ⟨text, met_add behaviours i ▸ hcomes.outcome_eq⟩

theorem mayRecover_of_not_lost {e : Failure} (h : ¬IsLost (.error e)) : e.mayRecover = false := by
  cases e with
  | http text => exact absurd ⟨text, rfl⟩ h
  | node => rfl
  | unreadable => rfl

/-- **A call ends with its first attempt that is not lost**, or with its last one. Let the retries be fewer than the
greatest half word, and let the server meet the attempts of a call with any behaviours. The loop of attempts ends, after
one attempt more than there are retries at most, and in one way. If something other than a failure of the transport
comes of an attempt and of none before it, this is what comes of the call, and the call was sent just as often as it took
to get there; if all attempts are lost, the failure of the last one is. The requests of a call are all the same, its
number included, and the next call has another number. -/
theorem request_settled (line : Line) (method : String) (params : Json) (behaviours : Nat → Behaviour)
    (hm : line.policy.retries < Word.topHalf)
    (hserver : ∀ i, line.node (line.sent.length + i) ⟨line.next, method, params⟩ = (behaviours i).attempt) :
    ∃ attempts, 1 ≤ attempts ∧ attempts ≤ line.policy.retries + 1 ∧
      (∀ r k, Sends line.policy (met behaviours) 1 r k ↔ r = (line.request method params).1 ∧ k = attempts) ∧
      (line.request method params).2.sent = List.replicate attempts ⟨line.next, method, params⟩ ++ line.sent ∧
      (line.request method params).2.next = line.next + 1 ∧
      (∀ k r, k ≤ line.policy.retries → (∀ i < k, ∃ r, Comes (behaviours i) r ∧ IsLost r) → Comes (behaviours k) r →
        ¬IsLost r → (line.request method params).1 = r ∧ attempts = k + 1) ∧
      ((∀ i ≤ line.policy.retries, ∃ r, Comes (behaviours i) r ∧ IsLost r) →
        Comes (behaviours line.policy.retries) (line.request method params).1 ∧
          attempts = line.policy.retries + 1) := by
  have hmet : (fun n => line.node (line.sent.length + (n - 1)) ⟨line.next, method, params⟩) = met behaviours :=
    funext fun n => hserver (n - 1)
  have hrequest : (line.request method params).1 = (send line.policy (met behaviours)).1 := by
    rw [← hmet]
    rfl
  have hsent : (line.request method params).2.sent =
      List.replicate (send line.policy (met behaviours)).2 ⟨line.next, method, params⟩ ++ line.sent := by
    rw [← hmet]
    rfl
  have hsends := sends_send hm (met behaviours)
  obtain ⟨hfirst, hlast⟩ := hsends.le (Nat.le_add_left _ _)
  rw [hrequest]
  refine ⟨_, hfirst, hlast, fun r k => ⟨fun h => h.unique hsends, ?_⟩, hsent, rfl, ?_, fun hlost => ?_⟩
  · rintro ⟨rfl, rfl⟩
    exact hsends
  · intro k r hk hlost hcomes hr
    have hsend := send_eq hm hk (fun i hi => met_outcome_of_lost (hlost i hi))
      ((congrArg Attempt.outcome (met_add behaviours k)).trans hcomes.outcome_eq) fun e he hmay => by
        cases hmay.symm.trans (mayRecover_of_not_lost (he ▸ hr))
    rw [hsend]
    exact ⟨rfl, rfl⟩
  · have hsend := send_eq hm le_rfl (fun i hi => met_outcome_of_lost (hlost i (Nat.le_of_lt hi)))
      (congrArg Attempt.outcome (met_add behaviours line.policy.retries)) fun _ _ _ => rfl
    rw [hsend]
    exact ⟨comes_outcome _, rfl⟩

/-! ### A server that is late, busy and then fails -/

/-- An answer that holds a result and an error. -/
def tornBody : String := "\x7b\"result\": 7, \"error\": \x7b\"code\": -32603, \"message\": \"late\"\x7d\x7d"

/-- A server that cannot be reached, then refuses, then answers. -/
def sampleBehaviours : Nat → Behaviour
  | 0 => .cutOff "timed out"
  | 1 => .replied 503 "busy"
  | _ => .replied 200 tornBody

/-- A line on which two calls were made before. -/
def sampleLine : Line where
  node sent _ := (sampleBehaviours (sent - 1)).attempt
  next := 3
  sent := [⟨2, "status", .null⟩]

theorem says_tornBody : Says tornBody ⟨some (.int 7), some ⟨-32603, "late"⟩⟩ := by
  unfold Says
  cbv

/-- **The error of the third attempt** is what comes of the call, and three requests with one number were sent. -/
theorem sampleLine_settled : sampleLine.policy.retries < Word.topHalf ∧
    (sampleLine.request "block" .null).1 = .error (.node (-32603) "late") ∧
    (sampleLine.request "block" .null).2.sent =
      [⟨3, "block", .null⟩, ⟨3, "block", .null⟩, ⟨3, "block", .null⟩, ⟨2, "status", .null⟩] ∧
    (sampleLine.request "block" .null).2.next = 4 := by
  have hm : sampleLine.policy.retries < Word.topHalf := by decide
  have hserver : ∀ i, sampleLine.node (sampleLine.sent.length + i) ⟨sampleLine.next, "block", .null⟩ =
      (sampleBehaviours i).attempt := fun i => by
    show (sampleBehaviours (1 + i - 1)).attempt = _
    rw [Nat.add_sub_cancel_left]
  have hbefore : ∀ i < 2, ∃ r, Comes (sampleBehaviours i) r ∧ IsLost r := by
    intro i hi
    obtain _ | _ | i := i
    · exact ⟨_, .unreachable, _, rfl⟩
    · exact ⟨_, .refused (by unfold IsSuccess; decide), _, rfl⟩
    · omega
  have herror : Comes (sampleBehaviours 2) (.error (.node (-32603) "late")) :=
    .reported ⟨le_rfl, by decide⟩ says_tornBody rfl
  have hfound : ¬IsLost (.error (.node (-32603) "late")) := by
    rintro ⟨_, hlost⟩
    cases hlost
  obtain ⟨attempts, -, -, -, hsent, hnext, hfirst, -⟩ :=
    request_settled sampleLine "block" .null sampleBehaviours hm hserver
  obtain ⟨hr, rfl⟩ := hfirst 2 _ (by decide) hbefore herror hfound
  exact ⟨hm, hr, hsent, hnext⟩

end StakeTrail.Rpc
