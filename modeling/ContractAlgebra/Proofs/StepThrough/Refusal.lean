import ContractAlgebra.Proofs.StepThrough.Session

/-!
# Calls that fail

Whatever fails in a session, the session keeps its contract. It keeps its choices too, with two
exceptions (`Session.after_failed_call`). If a decision is to be made again and the new answer is
refused, then the old choice and all later ones have been dropped by that time. And if an answer is
recorded whose value is too long for the log, then it stays recorded although the call fails.

A choice is recorded before the replay that tells whether more is to be decided. That this replay
cannot fail is what `Session.Replays` says, so a request that answers a decision is refused
beforehand, or fails when the choice is logged, or succeeds.
-/

namespace ContractAlgebra

/-- What a session can be called with: a request, or the question what the contract pays. -/
inductive Call where
  | request (request : Request)
  | evaluate (showTimes : Bool) (values : Nat → Option Int)

namespace Session

/-- A call fails for some reason. -/
def FailsWith (session : Session) (clock : Clock) (failure : Failure) : Call → Prop
  | .request (.setContract text) => (session.setContract text).1 = .error failure
  | .request (.set answer) => (session.set answer clock).1 = .error failure
  | .request (.reset answer position) => (session.reset answer position clock).1 = .error failure
  | .request (.delete node) => (session.delete node clock).1 = .error failure
  | .evaluate showTimes values => session.evaluate clock showTimes values = .error failure

/-- The session after a call. The question changes nothing. -/
def afterCall (session : Session) (clock : Clock) : Call → Session
  | .request request => session.after clock request
  | .evaluate _ _ => session

/-- The decision at a position was made by choice, after the decisions in `kept`. -/
def ChoseAt (session : Session) (now : Int) (position : Int) (kept : List Recorded) : Prop :=
  ∃ replay choice later, session.replay now none noValues = .ok replay ∧
    replay.recorded = kept ++ choice :: later ∧ choice.automatic = false ∧ position = kept.length

/-- What a call that fails has made of a session: nothing, or it has recorded a choice whose value is
too long for the log. -/
def Outlives (after session : Session) (failure : Failure) : Prop :=
  after = session ∨ failure = .numberTooLong ∧
    ∃ choice : Recorded, choice.value.isShort = false ∧ after = session.record choice

variable {session : Session} {clock : Clock} {failure : Failure}

/-! ## One request after the other -/

/-- A contract that does not compile leaves the one before. -/
theorem setContract_failed {text : String} (h : (session.setContract text).1 = .error failure) :
    (session.setContract text).2 = session := by
  unfold setContract at h ⊢
  -- the session changes only if the text compiles, and then the call succeeds
  cases hcompile : compile text with
  | error failure' => rfl
  | ok compiled =>
      rw [hcompile] at h
      cases h

/-- The contract is kept, also where a choice was recorded. -/
theorem Outlives.compiled_eq {after : Session} (h : after.Outlives session failure) :
    after.compiled = session.compiled := by
  rcases h with rfl | ⟨_, choice, _, rfl⟩
  · rfl
  · rfl

/-- An answer that fails was refused, or it is too long for the log: the replay after it cannot fail
any more. -/
theorem Replays.set_failed (hreplays : session.Replays) {answer : Answer}
    (h : (session.set answer clock).1 = .error failure) :
    (session.set answer clock).2.Outlives session failure := by
  -- a refusal comes before the choice is recorded, the log after it
  cases hchoose : session.choose answer clock with
  | error failure' =>
      unfold Session.set
      rw [hchoose]
      exact Or.inl rfl
  | ok choice =>
      cases hshort : choice.value.isShort with
      | true =>
          obtain ⟨more, hset⟩ := hreplays.exists_set_of_short hchoose hshort
          rw [hset] at h
          cases h
      | false =>
          have hset := hreplays.set_of_long hchoose hshort
          rw [hset] at h
          cases h
          exact Or.inr ⟨rfl, choice, hshort, congrArg Prod.snd hset⟩

/-- A decision that cannot be taken back leaves the session. -/
theorem delete_failed {node : Int} (h : (session.delete node clock).1 = .error failure) :
    (session.delete node clock).2 = session := by
  unfold delete at h ⊢
  split at h
  · rfl
  · cases h

/-! ### Making a decision again -/

/-- A position that passes the checks is that of a choice, or the end. -/
theorem beforePosition_eq_ok {replay : Replay} {position : Int} {kept : List Recorded}
    (h : beforePosition replay position = .ok kept) :
    kept = replay.recorded ∧ position = replay.recorded.length ∨
      ∃ choice later, replay.recorded = kept ++ choice :: later ∧ choice.automatic = false ∧
        position = kept.length := by
  unfold beforePosition at h
  dsimp only at h
  split at h
  · cases h
  next hinside =>
    split at h
    · cases h
    next hpending =>
      split at h
      · cases h
      next hchosen =>
        have hkept := Except.ok.inj h
        have hlow : 0 ≤ position := by omega
        -- at the end there is no choice yet; before it there is one, which was not automatic
        by_cases hend : position = replay.recorded.length
        · left
          have hall : replay.recorded.take position.toNat = replay.recorded :=
            List.take_of_length_le (by omega)
          exact ⟨hkept.symm.trans hall, hend⟩
        · right
          have hlt : position.toNat < replay.recorded.length := by omega
          have hget := List.getElem?_eq_getElem hlt
          have hsplit := List.take_append_drop position.toNat replay.recorded
          rw [List.drop_eq_getElem_cons hlt, hkept] at hsplit
          refine ⟨_, _, hsplit.symm, ?_, ?_⟩
          · simpa [hget] using hchosen
          · rw [← hkept, List.length_take, Nat.min_eq_left (Nat.le_of_lt hlt)]
            omega

/-- The position of a choice passes the checks. -/
theorem beforePosition_of_chosen {replay : Replay} {kept later : List Recorded} {choice : Recorded}
    (hrecorded : replay.recorded = kept ++ choice :: later) (hchosen : choice.automatic = false) :
    beforePosition replay kept.length = .ok kept := by
  have hlength : replay.recorded.length = kept.length + (later.length + 1) := by
    rw [hrecorded, List.length_append, List.length_cons]
  unfold beforePosition
  dsimp only
  rw [if_neg (by omega), if_neg (by omega), Int.toNat_natCast, hrecorded]
  simp [hchosen]

/-- Nothing is dropped if all decisions are kept. -/
theorem Replays.keep_recorded (hreplays : session.Replays) {now : Int} {replay : Replay}
    (hreplay : session.replay now none noValues = .ok replay) :
    session.keep replay.recorded = session := by
  unfold Session.keep
  rw [hreplays.recorded hreplay]

/-- Cut before a choice, a session has fewer choices. -/
theorem Replays.length_keep_lt (hreplays : session.Replays) {now position : Int}
    {kept : List Recorded} (h : session.ChoseAt now position kept) :
    (session.keep kept).choices.length < session.choices.length := by
  obtain ⟨replay, choice, later, hreplay, hrecorded, hchosen, _⟩ := h
  have hchoices := hreplays.recorded hreplay
  rw [hrecorded, List.filter_append, List.filter_cons_of_pos (by simp [hchosen])] at hchoices
  simp only [Session.keep, ← hchoices, List.length_append, List.length_cons]
  omega

/-- A decision that is made again and fails leaves the session cut before it, or as it was if
there was no such choice. -/
theorem Replays.reset_failed (hreplays : session.Replays) {answer : Answer} {position : Int}
    (h : (session.reset answer position clock).1 = .error failure) :
    (∀ kept, session.ChoseAt (clock 0) position kept →
        (session.reset answer position clock).2.Outlives (session.keep kept) failure) ∧
      ((∀ kept, ¬ session.ChoseAt (clock 0) position kept) →
        (session.reset answer position clock).2.Outlives session failure) := by
  unfold Session.reset at h ⊢
  cases hbefore : session.replay (clock 0) none noValues >>= (beforePosition · position) with
  | error failure' =>
      -- the checks fail, so there is no choice at the position
      refine ⟨fun kept hchose => ?_, fun _ => Or.inl rfl⟩
      obtain ⟨replay, choice, later, hreplay, hrecorded, hchosen, rfl⟩ := hchose
      have hpasses := beforePosition_of_chosen hrecorded hchosen
      rw [bind_of_eq_ok hreplay, hpasses] at hbefore
      cases hbefore
  | ok recorded =>
      -- the checks pass, so the answer is what fails, in the session that is cut
      obtain ⟨replay, hreplay, hrecorded⟩ := bind_eq_ok.mp hbefore
      have hcut := hreplays.keep (hreplays.recorded hreplay) (beforePosition_initial hrecorded)
      rw [hbefore] at h
      have hleft := hcut.set_failed h
      refine ⟨fun kept hchose => ?_, fun hnone => ?_⟩
      · obtain ⟨replay', choice, later, hreplay', hrecorded', hchosen, rfl⟩ := hchose
        obtain rfl : replay = replay' := Except.ok.inj (hreplay.symm.trans hreplay')
        have hpasses := beforePosition_of_chosen hrecorded' hchosen
        obtain rfl : recorded = kept := Except.ok.inj (hrecorded.symm.trans hpasses)
        exact hleft
      -- at the end nothing was cut; elsewhere there would have been a choice
      · rcases beforePosition_eq_ok hrecorded with ⟨rfl, _⟩ | ⟨choice, later, hchose⟩
        · simp only [hreplays.keep_recorded hreplay] at hleft ⊢
          exact hleft
        · exact absurd ⟨replay, choice, later, hreplay, hchose⟩ (hnone recorded)

/-! ## Any call -/

/-- Every other call that fails leaves the session as it was, but for a choice that is too long. -/
theorem Replays.outlives (hreplays : session.Replays) {call : Call}
    (hfails : session.FailsWith clock failure call)
    (hcall : ∀ answer position, call ≠ .request (.reset answer position)) :
    (session.afterCall clock call).Outlives session failure := by
  -- only an answer is recorded before the call can fail
  cases call with
  | evaluate showTimes values => exact Or.inl rfl
  | request request =>
      cases request with
      | setContract text => exact Or.inl (setContract_failed hfails)
      | set answer => exact hreplays.set_failed hfails
      | reset answer position => exact absurd rfl (hcall answer position)
      | delete node => exact Or.inl (delete_failed hfails)

/-- A call that fails leaves the session as it was, unless it was to make a choice again: then just
the choices before that one are left. In either case there may be one choice more if it is too long
to be written. The contract is kept, and so are the choices if no such number is in the way. -/
theorem after_failed_call (hsession : session.Reachable) {call : Call}
    (hfails : session.FailsWith clock failure call) :
    (session.afterCall clock call).compiled = session.compiled ∧
      (∀ answer position kept, call = .request (.reset answer position) →
        session.ChoseAt (clock 0) position kept →
          (session.afterCall clock call).Outlives (session.keep kept) failure ∧
            (session.keep kept).choices.length < session.choices.length) ∧
      ((∀ answer position kept, call = .request (.reset answer position) →
          ¬ session.ChoseAt (clock 0) position kept) →
        (session.afterCall clock call).Outlives session failure) := by
  have hreplays := hsession.replays
  -- only a decision that is made again cuts the session before the answer is looked at
  by_cases hreset : ∃ answer position, call = .request (.reset answer position)
  · obtain ⟨answer, position, rfl⟩ := hreset
    obtain ⟨hcut, hsame⟩ := hreplays.reset_failed hfails
    refine ⟨?_, ?_, fun hnone => hsame fun kept => hnone answer position kept rfl⟩
    · -- the contract is kept in either case
      show (session.reset answer position clock).2.compiled = session.compiled
      by_cases hchose : ∃ kept, session.ChoseAt (clock 0) position kept
      · obtain ⟨kept, hchose⟩ := hchose
        exact (hcut kept hchose).compiled_eq
      · exact (hsame (not_exists.mp hchose)).compiled_eq
    · intro answer' position' kept hcall hchose
      cases hcall
      exact ⟨hcut kept hchose, hreplays.length_keep_lt hchose⟩
  · have hother : ∀ answer position, call ≠ .request (.reset answer position) := by
      intro answer position hcall
      exact hreset ⟨answer, position, hcall⟩
    have hleft := hreplays.outlives hfails hother
    refine ⟨hleft.compiled_eq, ?_, fun _ => hleft⟩
    intro answer position kept hcall _
    exact absurd hcall (hother answer position)

/-- In the session of `someRequests` the branch of an `or` has been chosen. A time is refused in its
place, and the choice is gone then: only the acquisition is left. -/
theorem refused_reset_forgets :
    ¬ ∀ session : Session, session.Reachable → ∀ clock failure call,
      session.FailsWith clock failure call →
        (session.afterCall clock call).compiled = session.compiled ∧
          (session.afterCall clock call).choices = session.choices := by
  intro hkeeps
  have hreachable : ((start .default).afterAll someRequests).Reachable := ⟨_, _, rfl⟩
  have hfails : ((start .default).afterAll someRequests).FailsWith (fun _ => 11)
      (.rejected ⟨.branchExpected (.time 5), none, []⟩) (.request (.reset (.time 5) 1)) := by rfl
  have hkept := (hkeeps _ hreachable _ _ _ hfails).2
  have hlength : (((start .default).afterAll someRequests).afterCall (fun _ => 11)
      (.request (.reset (.time 5) 1))).choices.length ≠
        ((start .default).afterAll someRequests).choices.length := by decide
  exact hlength (congrArg List.length hkept)

/-- The session is cut before the second of its two choices. -/
theorem after_failed_call_of_refused_reset :
    let session := (start .default).afterAll someRequests
    let call := Call.request (.reset (.time 5) 1)
    let kept := [acquisition ⟨2, .instant 5, by decide⟩]
    session.Reachable ∧
      session.FailsWith (fun _ => 11) (.rejected ⟨.branchExpected (.time 5), none, []⟩) call ∧
        session.ChoseAt 11 1 kept ∧ session.afterCall (fun _ => 11) call = session.keep kept ∧
          (session.keep kept).choices = kept ∧ session.choices.length = 2 := by
  intro session call kept
  have hreachable : session.Reachable := ⟨_, _, rfl⟩
  have hfails : session.FailsWith (fun _ => 11)
      (.rejected ⟨.branchExpected (.time 5), none, []⟩) call := by rfl
  have hchose : session.ChoseAt 11 1 kept := ⟨_, _, _, rfl, rfl, rfl, rfl⟩
  obtain ⟨_, hcut, _⟩ := after_failed_call hreachable hfails
  obtain ⟨hleft, _⟩ := hcut _ _ kept rfl hchose
  have hafter : session.afterCall (fun _ => 11) call = session.keep kept := by
    -- the failure is a refusal, so no long number was recorded
    rcases hleft with hafter | ⟨hlong, _⟩
    · exact hafter
    · cases hlong
  exact ⟨hreachable, hfails, hchose, hafter, rfl, rfl⟩

end Session

end ContractAlgebra
