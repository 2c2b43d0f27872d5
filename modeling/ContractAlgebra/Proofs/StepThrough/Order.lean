import ContractAlgebra.Proofs.StepThrough.GoesOn
import ContractAlgebra.Proofs.StepThrough.Offer

/-!
# Sessions go on in order

The choices of a session that requests lead to are for times from 0 on, and its contract was read
from text (`Session.Reachable.orderly`). So what a replay records is in the order of the contract's
nodes, no node decides twice, and what it waits for is the decision that is expected then
(`Session.Orderly.replay`).
-/

namespace ContractAlgebra.Session

variable {session : Session} {compiled : Compiled} {clock : Clock}

/-- What a new contract, an answer and a cut of the choices keep, each request keeps. -/
theorem Replays.after_of_steps {P : Session → Prop} (hreplays : session.Replays) (h : P session)
    (hcontract : ∀ session text, P session → P (session.setContract text).2)
    (hset : ∀ session answer clock, session.Replays → P session → P (session.set answer clock).2)
    (hkeep : ∀ session recorded kept, P session →
      recorded.filter (!·.automatic) = session.choices → kept <+: recorded → P (session.keep kept))
    (clock : Clock) (request : Request) : P (session.after clock request) := by
  -- a decision that is made again is a cut and an answer; one that is taken back is a cut
  cases request with
  | setContract text => exact hcontract session text h
  | set answer => exact hset session answer clock hreplays h
  | reset answer position =>
      show P (session.reset answer position clock).2
      unfold Session.reset
      split
      · exact h
      · next kept hbefore =>
          obtain ⟨replay, hreplay, hkept⟩ := bind_eq_ok.mp hbefore
          have hall := hreplays.recorded hreplay
          have hinitial := beforePosition_initial hkept
          exact hset _ _ _ (hreplays.keep hall hinitial) (hkeep session _ kept h hall hinitial)
  | delete node =>
      show P (session.delete node clock).2
      unfold Session.delete
      split
      · exact h
      · next kept hbefore =>
          obtain ⟨replay, hreplay, hkept⟩ := bind_eq_ok.mp hbefore
          exact hkeep session _ kept h (hreplays.recorded hreplay) (beforeNode_initial hkept)

/-- What holds of a fresh session and is kept by each step holds of every session that requests lead
to. -/
theorem Reachable.induction {P : Session → Prop} (h : session.Reachable)
    (hstart : ∀ settings, P (start settings))
    (hcontract : ∀ session text, P session → P (session.setContract text).2)
    (hset : ∀ session answer clock, session.Replays → P session → P (session.set answer clock).2)
    (hkeep : ∀ session recorded kept, P session →
      recorded.filter (!·.automatic) = session.choices → kept <+: recorded →
        P (session.keep kept)) : P session := by
  -- along the requests, with what is known of every session for the steps
  have hrun : ∀ (requests : List (Clock × Request)) (session : Session),
      session.Replays → P session → P (session.afterAll requests) := by
    intro requests
    induction requests with
    | nil => exact fun _ _ hp => hp
    | cons request requests ih =>
        intro session hreplays hp
        exact ih _ (hreplays.after request.1 request.2)
          (hreplays.after_of_steps hp hcontract hset hkeep request.1 request.2)
  obtain ⟨settings, requests, rfl⟩ := h
  exact hrun requests _ (replays_start settings) (hstart settings)

/-- The contract of a session is labelled in reading order, and no choice is for a time before 0. -/
structure Orderly (session : Session) : Prop where
  ascending : ∀ compiled, session.compiled = some compiled → compiled.tree.Ascending
  fromZero : ∀ choice ∈ session.choices, choice.value.FromZero

namespace Orderly

/-- The choices of an orderly session can be given to a walk. -/
theorem given (h : session.Orderly) (hreplays : session.Replays) :
    ∀ choice ∈ session.choices, choice.Given := by
  intro choice hmem
  exact ⟨(hreplays.fits choice hmem).automatic, h.fromZero choice hmem⟩

/-- What a replay records follows the contract's nodes, and what it waits for comes after that and is
as expected. -/
theorem follows (h : session.Orderly) (hreplays : session.Replays)
    (hcompiled : session.compiled = some compiled) {now : Int} {includePast : Option Bool}
    {values : Nat → Option Int} {replay : Replay}
    (hreplay : session.replay now includePast values = .ok replay) :
    compiled.Follows (topNode :: compiled.tree.nodes) [] replay.recorded ∧
      ∀ decision, replay.pending = some decision →
        (replay.recorded.map Recorded.node ++ [decision.node]).Sublist
            (topNode :: compiled.tree.nodes) ∧
          compiled.Expects replay.recorded decision := by
  have hmeets := (Compiled.walk_goesOn (hreplays.uses compiled hcompiled).1
    (h.ascending compiled hcompiled) now (includePast.getD session.settings.includePast)
    values).run (h.given hreplays)
  rw [replay_of_compiled hcompiled] at hreplay
  obtain ⟨hasked, hended⟩ := hmeets.replay hreplay
  refine ⟨?_, fun decision hpending => (hasked decision hpending).2⟩
  -- the walk has ended or waits, and either way says what was recorded
  cases hpending : replay.pending with
  | none =>
      obtain ⟨_, hfollows⟩ := hended hpending
      exact hfollows
  | some decision => exact (hasked decision hpending).1

/-- A replay records decisions in the order of the contract's nodes, and waits for one that comes
after them and is as expected. -/
theorem replay (h : session.Orderly) (hreplays : session.Replays)
    (hcompiled : session.compiled = some compiled) {now : Int} {includePast : Option Bool}
    {values : Nat → Option Int} {replay : Replay}
    (hreplay : session.replay now includePast values = .ok replay) :
    (replay.recorded.map Recorded.node).Sublist (topNode :: compiled.tree.nodes) ∧
      ∀ decision, replay.pending = some decision →
        (replay.recorded.map Recorded.node ++ [decision.node]).Sublist
            (topNode :: compiled.tree.nodes) ∧
          compiled.Expects replay.recorded decision := by
  obtain ⟨hfollows, hasked⟩ := h.follows hreplays hcompiled hreplay
  exact ⟨hfollows.order, hasked⟩

/-! ## One step after the other -/

/-- The value that an answer gives to the pending decision is for no time before 0. -/
theorem resolve_fromZero (h : session.Orderly) (hreplays : session.Replays)
    (hcompiled : session.compiled = some compiled) {decision : Decision}
    (hpending : session.pending clock none = .ok (some decision)) {answer : Answer} {now : Int}
    {value : Choice} (hvalue : session.resolve decision answer now = .ok value) :
    value.FromZero := by
  rintro s rfl
  have hsound := (hreplays.uses compiled hcompiled).1
  obtain ⟨times, all, htimes, hall, hmem⟩ := exists_timeOptions hcompiled hsound decision now
  obtain ⟨replay, hreplay, hdecision⟩ := pending_eq_ok.mp hpending
  have hexpects := ((h.replay hreplays hcompiled hreplay).2 decision hdecision).2
  -- the slice was on offer, or is one of those with the past
  rcases (hmem s).mp (mem_of_resolve htimes hvalue).1 with hoption | ⟨_, hpast⟩
  · exact hexpects.fromZero _ hoption s rfl
  · exact Compiled.zero_le_of_mem_topOptions hsound hall hpast

/-- Nothing is chosen at the start. -/
theorem start (settings : Settings) : (start settings).Orderly where
  ascending := nofun
  fromZero := nofun

/-- A contract that is set was read from text. -/
theorem setContract (h : session.Orderly) (text : String) :
    (session.setContract text).2.Orderly := by
  unfold Session.setContract
  cases hcompile : compile text with
  | error failure => exact h
  | ok compiled =>
      refine ⟨?_, nofun⟩
      intro compiled' hcompiled'
      obtain rfl := Option.some.inj hcompiled'
      exact Compiled.ascending_of_compile hcompile

/-- The choice that is added is for no time before 0. -/
theorem set (h : session.Orderly) (hreplays : session.Replays) (answer : Answer) (clock : Clock) :
    (session.set answer clock).2.Orderly := by
  unfold Session.set
  cases hchoose : session.choose answer clock with
  | error failure => exact h
  | ok choice =>
      refine ⟨h.ascending, ?_⟩
      intro choice' hmem
      -- the earlier choices are as before, and the new one is what the answer gave
      rcases List.mem_append.mp hmem with hmem | hmem
      · exact h.fromZero choice' hmem
      · obtain ⟨replay, decision, _, hreplay, hdecision, _⟩ := choose_eq_ok hchoose
        obtain ⟨compiled, hcompiled, _⟩ := replay_eq_ok.mp hreplay
        have hpending : session.pending clock none = .ok (some decision) :=
          pending_eq_ok.mpr ⟨replay, hreplay, hdecision⟩
        obtain ⟨value, hvalue, rfl⟩ := (choose_eq_ok_iff hpending).mp hchoose
        rw [List.mem_singleton.mp hmem]
        exact h.resolve_fromZero hreplays hcompiled hpending hvalue

/-- A cut drops choices and adds none. -/
theorem keep (h : session.Orderly) {recorded recorded' : List Recorded}
    (hall : recorded.filter (!·.automatic) = session.choices) (hinitial : recorded' <+: recorded) :
    (session.keep recorded').Orderly := by
  refine ⟨h.ascending, ?_⟩
  intro choice hmem
  have hkept := (hinitial.filter (!·.automatic)).subset hmem
  rw [hall] at hkept
  exact h.fromZero choice hkept

end Orderly

/-- Whatever requests lead to is orderly. -/
theorem Reachable.orderly (h : session.Reachable) : session.Orderly :=
  h.induction Orderly.start (fun _ text horderly => horderly.setContract text)
    (fun _ answer clock hreplays horderly => horderly.set hreplays answer clock)
    fun _ _ _ horderly => horderly.keep

end ContractAlgebra.Session
