import ContractAlgebra.Proofs.Explanation
import ContractAlgebra.Proofs.StepThrough.Choices
import ContractAlgebra.StepThrough.Session

/-!
# Sessions replay their choices

Whatever is asked of a session, in whatever order and at whatever times, the choices that it keeps
can be replayed: they answer one decision after the other, and none is left over. The invariant is
`Session.Replays`. Each request keeps it, also when it fails, so it holds after any run of requests
(`Session.Replays.afterAll`).
-/

namespace ContractAlgebra

/-- What can be asked of a session that changes it. -/
inductive Request where
  | setContract (text : String)
  | set (answer : Answer)
  | reset (answer : Answer) (position : Int)
  | delete (node : Int)

namespace Session

/-- The session after a request, whether that succeeds or fails. -/
def after (session : Session) (clock : Clock) : Request → Session
  | .setContract text => (session.setContract text).2
  | .set answer => (session.set answer clock).2
  | .reset answer position => (session.reset answer position clock).2
  | .delete node => (session.delete node clock).2

/-- The session after some requests, each with its own readings of the clock. -/
def afterAll (session : Session) (requests : List (Clock × Request)) : Session :=
  requests.foldl (fun session (clock, request) => session.after clock request) session

/-- A session that some requests lead to from a fresh one. -/
def Reachable (session : Session) : Prop :=
  ∃ settings requests, session = (start settings).afterAll requests

/-- The choices of a session fit and are used up by every replay. -/
structure Replays (session : Session) : Prop where
  fits : ∀ choice ∈ session.choices, choice.Fits
  uses : ∀ compiled, session.compiled = some compiled → compiled.Sound ∧
    ∀ now includePast values,
      ((compiled.walk now includePast values).run session.choices).Uses session.choices

variable {session : Session} {clock : Clock}

/-! ## What a replay tells -/

/-- A session with a contract replays its choices over it. -/
theorem replay_of_compiled {compiled : Compiled} (hcompiled : session.compiled = some compiled)
    (now : Int) (includePast : Option Bool) (values : Nat → Option Int) :
    session.replay now includePast values = compiled.replay session.choices now
      (includePast.getD session.settings.includePast) values := by
  unfold Session.replay contract
  rw [hcompiled]
  rfl

/-- A replay of a session is one of its contract. -/
theorem replay_eq_ok {now : Int} {includePast : Option Bool} {values : Nat → Option Int}
    {replay : Replay} : session.replay now includePast values = .ok replay ↔
      ∃ compiled, session.compiled = some compiled ∧ compiled.replay session.choices now
        (includePast.getD session.settings.includePast) values = .ok replay := by
  -- without a contract there is no replay
  cases hcompiled : session.compiled with
  | none =>
      simp [Session.replay, contract, hcompiled, Failure.reject, bind, Except.bind]
  | some compiled =>
      rw [replay_of_compiled hcompiled]
      simp

/-- What a course that used up its choices has come to. -/
theorem replay_of_uses {course : Course Payoff} {choices : List Recorded} {replay : Replay}
    (h : course.Uses choices) (hreplay : course.replay = .ok replay) :
    replay.recorded.filter (!·.automatic) = choices ∧ replay.pending = course.pending? := by
  cases course with
  | done recorded unused payoff =>
      cases hreplay
      exact ⟨h.2, rfl⟩
  | pending recorded decision =>
      cases hreplay
      exact ⟨h, rfl⟩
  | failed failure => cases hreplay

/-- The decisions of a replay that were not made automatically are the choices. -/
theorem Replays.recorded (h : session.Replays) {now : Int} {includePast : Option Bool}
    {values : Nat → Option Int} {replay : Replay}
    (hreplay : session.replay now includePast values = .ok replay) :
    replay.recorded.filter (!·.automatic) = session.choices := by
  rcases replay_eq_ok.mp hreplay with ⟨compiled, hcompiled, hreplay⟩
  exact (replay_of_uses ((h.uses compiled hcompiled).2 _ _ _) hreplay).1

/-! ## One request after the other -/

/-- Nothing is chosen at the start. -/
theorem replays_start (settings : Settings) : (start settings).Replays where
  fits := by simp [start]
  uses := by simp [start]

/-- A contract that is set begins without choices. -/
theorem Replays.setContract (h : session.Replays) (text : String) :
    (session.setContract text).2.Replays := by
  -- a text that does not compile changes nothing, and another contract starts without choices
  cases hcompile : compile text with
  | error failure => simpa [Session.setContract, hcompile] using h
  | ok compiled =>
      have hsound := Compiled.sound_of_compile hcompile
      simp only [Session.setContract, hcompile]
      refine ⟨by simp, ?_⟩
      intro _ h
      cases h
      exact ⟨hsound, fun now past values =>
        (Compiled.walk_inStep hsound now now past past values values).uses_nil⟩

/-- Choices cut off anywhere still replay. -/
theorem Replays.keep (h : session.Replays) {recorded recorded' : List Recorded}
    (hall : recorded.filter (!·.automatic) = session.choices) (hinitial : recorded' <+: recorded) :
    (session.keep recorded').Replays := by
  rcases hinitial.filter (!·.automatic) with ⟨more, hmore⟩
  rw [hall] at hmore
  have hfits : ∀ choice ∈ recorded'.filter (!·.automatic), choice.Fits := fun choice hmem =>
    h.fits choice (hmore ▸ List.mem_append_left _ hmem)
  refine ⟨hfits, fun compiled hcompiled => ?_⟩
  rcases h.uses compiled hcompiled with ⟨hsound, huses⟩
  refine ⟨hsound, fun now past values => ?_⟩
  -- the walk uses up all the choices, so it uses up any of the first of them
  have hself := Compiled.walk_inStep hsound now now past past values values
  have hwhole := huses now past values
  rw [← hmore] at hwhole
  exact hself.uses_of_append hfits hwhole

/-- An answer is resolved to a time where one is decided, else to a branch. -/
theorem resolve_fits {decision : Decision} {answer : Answer} {now : Int} {value : Choice}
    (h : session.resolve decision answer now = .ok value) : value.Fits decision.kind := by
  by_cases hkind : decision.kind.isTime = true
  · -- whatever the answer is, only a slice is ever accepted
    have hslice : ∃ s, value = .slice s := by
      simp only [Session.resolve, hkind, if_true] at h
      cases answer with
      | branch first => cases h
      | text s =>
          rcases bind_eq_ok.mp h with ⟨options, _, hvalue⟩
          cases hvalue
      | nothing =>
          rcases bind_eq_ok.mp h with ⟨options, _, hvalue⟩
          cases hvalue
      | time t =>
          rcases bind_eq_ok.mp h with ⟨options, _, hvalue⟩
          dsimp only at hvalue
          split at hvalue
          · cases hvalue
            exact ⟨_, rfl⟩
          · cases hvalue
      | slice s =>
          rcases bind_eq_ok.mp h with ⟨options, _, hvalue⟩
          dsimp only at hvalue
          split at hvalue
          · cases hvalue
            exact ⟨_, rfl⟩
          · cases hvalue
    rcases hslice with ⟨s, rfl⟩
    exact hkind.symm
  · simp only [Session.resolve, if_neg hkind] at h
    -- the other answers are refused where a branch is decided on
    cases answer with
    | branch first =>
        cases h
        simpa [Choice.Fits, Choice.slice?] using hkind
    | _ => cases h

/-- A choice is recorded for the decision that is pending. -/
theorem choose_eq_ok {answer : Answer} {choice : Recorded}
    (h : session.choose answer clock = .ok choice) : ∃ replay decision value,
      session.replay (clock 0) none noValues = .ok replay ∧ replay.pending = some decision ∧
        value.Fits decision.kind ∧ choice = decision.chosen value := by
  rcases bind_eq_ok.mp h with ⟨replay, hreplay, h⟩
  -- an answer is refused if nothing is pending
  cases hpending : replay.pending with
  | none =>
      rw [hpending] at h
      cases h
  | some decision =>
      rw [hpending] at h
      rcases bind_eq_ok.mp h with ⟨value, hvalue, hchoice⟩
      cases hchoice
      exact ⟨replay, decision, value, hreplay, hpending, resolve_fits hvalue, rfl⟩

/-- An answer that is recorded is replayed with the rest. -/
theorem Replays.set (h : session.Replays) (answer : Answer) (clock : Clock) :
    (session.set answer clock).2.Replays := by
  -- a refusal changes nothing
  cases hchoose : session.choose answer clock with
  | error failure => simpa [Session.set, hchoose] using h
  | ok choice =>
      rcases choose_eq_ok hchoose with ⟨replay, decision, value, hreplay, hpending, hfits, rfl⟩
      rcases replay_eq_ok.mp hreplay with ⟨compiled, hcompiled, hreplay⟩
      rcases h.uses compiled hcompiled with ⟨hsound, huses⟩
      simp only [Session.set, hchoose]
      have hfit : (decision.chosen value).Fits := ⟨rfl, hfits⟩
      have hall : ∀ choice ∈ session.choices ++ [decision.chosen value], choice.Fits := by
        intro choice hmem
        rcases List.mem_append.mp hmem with hmem | hmem
        · exact h.fits choice hmem
        · exact List.mem_singleton.mp hmem ▸ hfit
      refine ⟨hall, fun compiled' hcompiled' => ?_⟩
      obtain rfl : compiled = compiled' := Option.some.inj (hcompiled.symm.trans hcompiled')
      refine ⟨hsound, fun now past values => ?_⟩
      -- the answer is used in the walk that asked, hence in every other
      have hasked := huses (clock 0) session.settings.includePast noValues
      have hself := Compiled.walk_inStep hsound (clock 0) now session.settings.includePast past
        noValues values
      refine hself.uses hall (hself.uses_append_answer h.fits hasked ?_ ⟨rfl, rfl⟩ hfit)
      exact (replay_of_uses hasked hreplay).2.symm.trans hpending

/-- The decisions before a position are the first ones. -/
theorem beforePosition_initial {replay : Replay} {position : Int} {recorded : List Recorded}
    (h : beforePosition replay position = .ok recorded) : recorded <+: replay.recorded := by
  simp only [beforePosition] at h
  split_ifs at h
  · cases h
  · cases h
  · cases h
  · exact Except.ok.inj h ▸ List.take_prefix _ _

/-- The decisions before a node are the first ones. -/
theorem beforeNode_initial {replay : Replay} {node : Int} {recorded : List Recorded}
    (h : beforeNode replay node = .ok recorded) : recorded <+: replay.recorded := by
  simp only [beforeNode] at h
  split at h
  · cases h
  · split_ifs at h
    · cases h
    · exact Except.ok.inj h ▸ List.takeWhile_prefix _

/-- A decision that is made again is one more answer after a cut. -/
theorem Replays.reset (h : session.Replays) (answer : Answer) (position : Int) (clock : Clock) :
    (session.reset answer position clock).2.Replays := by
  simp only [Session.reset]
  split
  · exact h
  · rename_i recorded hbefore
    rcases bind_eq_ok.mp hbefore with ⟨replay, hreplay, hrecorded⟩
    exact (h.keep (h.recorded hreplay) (beforePosition_initial hrecorded)).set _ _

/-- A decision that is taken back leaves a cut. -/
theorem Replays.delete (h : session.Replays) (node : Int) (clock : Clock) :
    (session.delete node clock).2.Replays := by
  simp only [Session.delete]
  split
  · exact h
  · rename_i recorded hbefore
    rcases bind_eq_ok.mp hbefore with ⟨replay, hreplay, hrecorded⟩
    exact h.keep (h.recorded hreplay) (beforeNode_initial hrecorded)

/-- Each request keeps the choices replayable, also when it fails. -/
theorem Replays.after (h : session.Replays) (clock : Clock) (request : Request) :
    (session.after clock request).Replays := by
  cases request with
  | setContract text => exact h.setContract text
  | set answer => exact h.set answer clock
  | reset answer position => exact h.reset answer position clock
  | delete node => exact h.delete node clock

/-- So do any requests. -/
theorem Replays.afterAll (h : session.Replays) (requests : List (Clock × Request)) :
    (session.afterAll requests).Replays := by
  induction requests generalizing session with
  | nil => exact h
  | cons request requests ih => exact ih (h.after request.1 request.2)

/-- Whatever requests lead to replays its choices. -/
theorem Reachable.replays (h : session.Reachable) : session.Replays := by
  obtain ⟨settings, requests, rfl⟩ := h
  exact (replays_start settings).afterAll requests

/-- A session with a contract always comes to a result when it is replayed. -/
theorem Replays.exists_replay (h : session.Replays) {compiled : Compiled}
    (hcompiled : session.compiled = some compiled) (now : Int) (includePast : Option Bool)
    (values : Nat → Option Int) : ∃ replay, session.replay now includePast values = .ok replay := by
  have huses := (h.uses compiled hcompiled).2 now
    (includePast.getD session.settings.includePast) values
  have hcourse : ∃ replay, compiled.replay session.choices now
      (includePast.getD session.settings.includePast) values = .ok replay := by
    unfold Compiled.replay
    revert huses
    generalize (compiled.walk now _ values).run session.choices = course
    intro huses
    -- choices that are used up do not make the walk fail
    cases course with
    | done recorded unused payoff => exact ⟨_, rfl⟩
    | pending recorded decision => exact ⟨_, rfl⟩
    | failed failure => exact huses.elim
  obtain ⟨replay, hreplay⟩ := hcourse
  exact ⟨replay, replay_eq_ok.mpr ⟨compiled, hcompiled, hreplay⟩⟩

/-- An answer that is not refused is recorded. The replay after it cannot fail, but the value may be
too long for the log. -/
theorem Replays.exists_set_eq (h : session.Replays) {answer : Answer} {choice : Recorded}
    (hchoose : session.choose answer clock = .ok choice) :
    ∃ more, session.set answer clock =
      (if choice.value.isShort then .ok more else .error .numberTooLong, session.record choice) := by
  have hafter := h.set answer clock
  simp only [Session.set, hchoose] at hafter ⊢
  obtain ⟨replay, decision, value, hreplay, _⟩ := choose_eq_ok hchoose
  obtain ⟨compiled, hcompiled, _⟩ := replay_eq_ok.mp hreplay
  obtain ⟨replay', hreplay'⟩ := hafter.exists_replay hcompiled (clock 2) none noValues
  have hnext : (session.record choice).hasNext (fun k => clock (k + 2)) =
      .ok (!replay'.isComplete) := bind_of_eq_ok hreplay'
  refine ⟨!replay'.isComplete, ?_⟩
  rw [hasNextAfter, bind_of_eq_ok hnext, ← Choice.isSome_text?]
  -- the value has a text just if it is short
  cases choice.value.text? <;> rfl

/-- An answer is taken if its value can be logged. -/
theorem Replays.exists_set_of_short (h : session.Replays) {answer : Answer} {choice : Recorded}
    (hchoose : session.choose answer clock = .ok choice) (hshort : choice.value.isShort = true) :
    ∃ more, session.set answer clock = (.ok more, session.record choice) := by
  obtain ⟨more, hset⟩ := h.exists_set_eq hchoose
  rw [if_pos hshort] at hset
  exact ⟨more, hset⟩

/-- An answer with a value that is too long for the log fails, and is recorded all the same. -/
theorem Replays.set_of_long (h : session.Replays) {answer : Answer} {choice : Recorded}
    (hchoose : session.choose answer clock = .ok choice) (hlong : choice.value.isShort = false) :
    session.set answer clock = (.error .numberTooLong, session.record choice) := by
  obtain ⟨more, hset⟩ := h.exists_set_eq hchoose
  rw [if_neg (Bool.eq_false_iff.mp hlong)] at hset
  exact hset

/-- What an answer that is taken has recorded: a value for the pending decision, short enough for the
log. -/
theorem Replays.choose_of_set (h : session.Replays) {answer : Answer} {more : Bool} {next : Session}
    (hset : session.set answer clock = (.ok more, next)) : ∃ choice,
      session.choose answer clock = .ok choice ∧ choice.value.isShort = true ∧
        next = session.record choice := by
  -- both ways to fail are ruled out, as the answer was taken
  cases hchoose : session.choose answer clock with
  | error failure =>
      rw [Session.set, hchoose] at hset
      cases hset
  | ok choice =>
      cases hshort : choice.value.isShort with
      | true =>
          obtain ⟨_, hset'⟩ := h.exists_set_of_short hchoose hshort
          exact ⟨choice, rfl, hshort, congrArg Prod.snd (hset.symm.trans hset')⟩
      | false =>
          have hset' := h.set_of_long hchoose hshort
          cases congrArg Prod.fst (hset.symm.trans hset')

/-- After any requests, at any readings of the clock, the choices that a session keeps are replayed
without failure at any time: each is used, and they are in order the decisions of the replay that
were not made automatically. -/
theorem choices_replay (settings : Settings) (requests : List (Clock × Request))
    {compiled : Compiled} (hcompiled : ((start settings).afterAll requests).compiled = some compiled)
    (now : Int) (includePast : Bool) (values : Nat → Option Int) :
    ∃ recorded, recorded.filter (!·.automatic) = ((start settings).afterAll requests).choices ∧
      ((∃ payoff, (compiled.walk now includePast values).run
          ((start settings).afterAll requests).choices = .done recorded [] payoff) ∨
        ∃ decision, (compiled.walk now includePast values).run
          ((start settings).afterAll requests).choices = .pending recorded decision) := by
  -- from the invariant, which every run of requests keeps
  have huses := (((replays_start settings).afterAll requests).uses compiled hcompiled).2 now
    includePast values
  revert huses
  generalize ((start settings).afterAll requests).choices = choices
  generalize (compiled.walk now includePast values).run choices = course
  intro huses
  cases course with
  | done recorded unused payoff =>
      rcases huses with ⟨rfl, hfilter⟩
      exact ⟨recorded, hfilter, Or.inl ⟨payoff, rfl⟩⟩
  | pending recorded decision => exact ⟨recorded, huses, Or.inr ⟨decision, rfl⟩⟩
  | failed failure => exact huses.elim

/-- Some requests: the second answer is refused, the third one is made again. -/
def someRequests : List (Clock × Request) :=
  [(fun _ => 0, .setContract waitingText), (fun k => 2 + k, .set (.time 3)),
    (fun _ => 4, .set (.time 3)), (fun _ => 7, .set (.branch true)),
    (fun _ => 9, .reset (.branch false) 1)]

/-- Two choices are left of the requests, and they are replayed at 11. -/
theorem choices_replay_of_someRequests :
    ((start .default).afterAll someRequests).choices =
        [acquisition ⟨2, .instant 5, by decide⟩, ⟨.or, .branch false, 0, 0, false⟩] ∧
      ∃ compiled, ((start .default).afterAll someRequests).compiled = some compiled ∧
      ∃ recorded, recorded.filter (!·.automatic) =
          ((start .default).afterAll someRequests).choices ∧
        ((∃ payoff, (compiled.walk 11 false noValues).run
            ((start .default).afterAll someRequests).choices = .done recorded [] payoff) ∨
          ∃ decision, (compiled.walk 11 false noValues).run
            ((start .default).afterAll someRequests).choices = .pending recorded decision) := by
  have hsome : ((start .default).afterAll someRequests).compiled.isSome = true := by rfl
  rcases Option.isSome_iff_exists.mp hsome with ⟨compiled, hcompiled⟩
  exact ⟨rfl, compiled, hcompiled,
    choices_replay .default someRequests hcompiled 11 false noValues⟩

end Session

end ContractAlgebra
