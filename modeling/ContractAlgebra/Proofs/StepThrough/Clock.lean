import ContractAlgebra.Proofs.StepThrough.Offer

/-!
# Sessions and the clock

Every call reads the clock again and replays all choices, but the time has a say in nothing else
than the options for the acquisition of the whole contract. Once this is chosen, a replay is the same
at any time (`Session.Replays.replay_eq`), no other decision looks at the time
(`Session.resolve_eq`), and so a request gives the same session whatever the clock shows
(`Session.Replays.after_eq`). Two runs that differ in their clocks alone stay together from there on
(`Session.Replays.afterAll_eq`).
-/

namespace ContractAlgebra

namespace Compiled

variable {compiled : Compiled} {values : Nat → Option Int}

/-- What a replay comes to after a choice for the acquisition is told by a walk without the clock. -/
theorem replay_started (h : compiled.Sound) {first : Recorded} (hkind : first.kind = .acquisition)
    (hnode : first.node = topNode) (rest : List Recorded) (now : Int) (includePast : Bool) :
    compiled.replay (first :: rest) now includePast values =
      (((compiled.acquire values first.value).run rest).after first).replay := by
  obtain ⟨options, _, hwalk⟩ := exists_walk_eq h now includePast
  have hanswers : Walk.Answers first (acquisitionAmong options) := ⟨hkind, hnode⟩
  rw [replay, hwalk, Walk.run_answer hanswers]

/-- After the acquisition, it is not asked for again. -/
theorem acquire_asks (h : compiled.Sound) (value : Choice) :
    (compiled.acquire values value).Asks fun decision => decision.kind ≠ .acquisition := by
  cases value with
  | slice time =>
      exact visit_asks h (fun _ _ _ _ _ _ _ _ h => nomatch h) (fun _ _ h => nomatch h)
        compiled.tree.self_mem_subtrees time
  | branch first => exact trivial

end Compiled

namespace Session

variable {session : Session} {compiled : Compiled} {clock clock' : Clock}

/-! ## What is asked after the acquisition -/

/-- The first choice of a session is the one for the acquisition of the whole contract. -/
theorem Replays.first_choice (h : session.Replays) (hcompiled : session.compiled = some compiled)
    {first : Recorded} {rest : List Recorded} (hchoices : session.choices = first :: rest) :
    first.kind = .acquisition ∧ first.node = topNode := by
  obtain ⟨hsound, huses⟩ := h.uses compiled hcompiled
  obtain ⟨options, _, hwalk⟩ := Compiled.exists_walk_eq hsound 0 false
  have hused := huses 0 false noValues
  rw [hchoices, hwalk] at hused
  exact Walk.answers_of_uses hused

/-- A replay records the acquisition before all else, and it waits for something else. -/
theorem Replays.recorded_started (h : session.Replays) {first : Recorded} {rest : List Recorded}
    (hchoices : session.choices = first :: rest) {now : Int} {includePast : Option Bool}
    {values : Nat → Option Int} {replay : Replay}
    (hreplay : session.replay now includePast values = .ok replay) :
    (∃ more, replay.recorded = first :: more) ∧
      ∀ decision, replay.pending = some decision → decision.kind ≠ .acquisition := by
  obtain ⟨compiled, hcompiled, hrun⟩ := replay_eq_ok.mp hreplay
  obtain ⟨hkind, hnode⟩ := h.first_choice hcompiled hchoices
  rw [hchoices, Compiled.replay_started (h.uses compiled hcompiled).1 hkind hnode] at hrun
  -- what follows the acquisition has ended, or waits for another decision; it cannot fail
  cases hcourse : (compiled.acquire values first.value).run rest with
  | done recorded unused payoff =>
      rw [hcourse] at hrun
      cases hrun
      exact ⟨⟨recorded, rfl⟩, fun _ hpending => nomatch hpending⟩
  | pending recorded decision =>
      have hasked := (Compiled.acquire_asks (h.uses compiled hcompiled).1 first.value).pending
        (congrArg Course.pending? hcourse)
      rw [hcourse] at hrun
      cases hrun
      refine ⟨⟨recorded, rfl⟩, fun decision' hpending => ?_⟩
      obtain rfl := Option.some.inj hpending
      exact hasked
  | failed failure =>
      rw [hcourse] at hrun
      cases hrun

/-- No decision but that on the acquisition looks at the time. -/
theorem resolve_eq {decision : Decision} (hkind : decision.kind ≠ .acquisition) (answer : Answer)
    (now now' : Int) :
    session.resolve decision answer now = session.resolve decision answer now' := by
  have htimes : session.timeOptions decision now = session.timeOptions decision now' := by
    unfold timeOptions
    rw [if_neg hkind, if_neg hkind]
  unfold resolve
  rw [htimes]

/-! ## One request at two times -/

/-- Once something is chosen, a replay is the same at any time, with or without the slices of the
past. -/
theorem Replays.replay_eq (h : session.Replays) (hchosen : session.choices ≠ []) (now now' : Int)
    (includePast includePast' : Option Bool) (values : Nat → Option Int) :
    session.replay now includePast values = session.replay now' includePast' values := by
  unfold Session.replay contract
  cases hcompiled : session.compiled with
  | none => rfl
  | some compiled =>
      obtain ⟨first, rest, hchoices⟩ := List.exists_cons_of_ne_nil hchosen
      rw [hchoices]
      exact Compiled.replay_cons (h.uses compiled hcompiled).1 first rest now now' _ _

/-- An answer is turned into the same choice at any time, or refused alike. -/
theorem Replays.choose_eq (h : session.Replays) (hchosen : session.choices ≠ []) (answer : Answer)
    (clock clock' : Clock) : session.choose answer clock = session.choose answer clock' := by
  unfold choose
  rw [h.replay_eq hchosen (clock 0) (clock' 0) none none noValues]
  -- something is chosen, so what is pending is not the acquisition
  cases hreplay : session.replay (clock' 0) none noValues with
  | error failure => rfl
  | ok replay =>
      obtain ⟨first, rest, hchoices⟩ := List.exists_cons_of_ne_nil hchosen
      obtain ⟨_, hinside⟩ := h.recorded_started hchoices hreplay
      rw [bind_of_eq_ok rfl, bind_of_eq_ok rfl]
      cases hpending : replay.pending with
      | none => rfl
      | some decision =>
          dsimp only
          rw [resolve_eq (hinside decision hpending) answer (clock 1) (clock' 1)]

/-- An answer is accepted at any time or at none, and gives the same session. -/
theorem Replays.set_eq (h : session.Replays) (hchosen : session.choices ≠ []) (answer : Answer)
    (clock clock' : Clock) : session.set answer clock = session.set answer clock' := by
  have hchoose := h.choose_eq hchosen answer clock clock'
  unfold Session.set
  rw [hchoose]
  -- once the answer is recorded, the replay that follows ignores the clock as well
  cases hchoice : session.choose answer clock' with
  | error failure => rfl
  | ok choice =>
      have hafter := h.set answer clock'
      simp only [Session.set, hchoice] at hafter ⊢
      have hnext := hafter.replay_eq (List.append_ne_nil_of_right_ne_nil _ (List.cons_ne_nil _ _))
        (clock 2) (clock' 2) none none noValues
      rw [hasNextAfter, hasNext, hnext]
      rfl

/-- An answer takes no choice away. -/
theorem choices_prefix_set (answer : Answer) :
    session.choices <+: (session.set answer clock).2.choices := by
  unfold Session.set
  cases session.choose answer clock with
  | error failure => exact List.prefix_refl _
  | ok choice => exact List.prefix_append ..

/-- A request that leaves the choice of the acquisition as it is: an answer to what is pending, or
another decision that is made again or taken back. -/
def KeepsAcquisition : Request → Prop
  | .setContract _ => False
  | .set _ => True
  | .reset _ position => position ≠ 0
  | .delete node => node ≠ topNode

/-- What is made again at another place than the first leaves the first decision. -/
theorem mem_of_beforePosition {replay : Replay} {first : Recorded} {more kept : List Recorded}
    {position : Int} (hrecorded : replay.recorded = first :: more) (hposition : position ≠ 0)
    (h : beforePosition replay position = .ok kept) : first ∈ kept := by
  unfold beforePosition at h
  dsimp only at h
  -- only the last case keeps anything, and there the position is not the first
  split_ifs at h with hinside _ _
  · cases h
  · cases h
  · cases h
  · obtain ⟨count, hcount⟩ : ∃ count, position.toNat = count + 1 :=
      Nat.exists_eq_add_one.mpr (by omega)
    rw [← Except.ok.inj h, hrecorded, hcount]
    exact List.mem_cons_self ..

/-- What is taken back at another node than that of the first decision leaves this decision. -/
theorem mem_of_beforeNode {replay : Replay} {first : Recorded} {more kept : List Recorded}
    {node : Int} (hrecorded : replay.recorded = first :: more) (hnode : first.node ≠ node)
    (h : beforeNode replay node = .ok kept) : first ∈ kept := by
  unfold beforeNode at h
  split at h
  · cases h
  · split_ifs at h
    · cases h
    · rw [← Except.ok.inj h, hrecorded, List.takeWhile_cons, if_pos (bne_iff_ne.mpr hnode)]
      exact List.mem_cons_self ..

/-- Where the first choice is among the decisions that are kept, something stays chosen. -/
theorem Replays.keep_ne_nil (h : session.Replays) {first : Recorded} {rest kept : List Recorded}
    (hchoices : session.choices = first :: rest) (hkept : first ∈ kept) :
    (session.keep kept).choices ≠ [] := by
  have hfirst := h.fits first (hchoices ▸ List.mem_cons_self ..)
  exact List.ne_nil_of_mem (List.mem_filter.mpr ⟨hkept, by rw [hfirst.automatic]; rfl⟩)

/-- A decision but the first is made again alike at any time, and something stays chosen. -/
theorem Replays.reset_eq (h : session.Replays) (hchosen : session.choices ≠ []) (answer : Answer)
    {position : Int} (hposition : position ≠ 0) (clock clock' : Clock) :
    session.reset answer position clock = session.reset answer position clock' ∧
      (session.reset answer position clock).2.choices ≠ [] := by
  obtain ⟨first, rest, hchoices⟩ := List.exists_cons_of_ne_nil hchosen
  unfold Session.reset
  rw [h.replay_eq hchosen (clock 0) (clock' 0) none none noValues]
  -- the position is refused at any time, or the session is cut there and takes the answer
  cases hbefore : session.replay (clock' 0) none noValues >>= (beforePosition · position) with
  | error failure => exact ⟨rfl, hchosen⟩
  | ok kept =>
      obtain ⟨replay, hreplay, hkept⟩ := bind_eq_ok.mp hbefore
      obtain ⟨⟨more, hrecorded⟩, _⟩ := h.recorded_started hchoices hreplay
      have hcut := h.keep (h.recorded hreplay) (beforePosition_initial hkept)
      have hcutChosen := h.keep_ne_nil hchoices (mem_of_beforePosition hrecorded hposition hkept)
      exact ⟨hcut.set_eq hcutChosen answer _ _, (choices_prefix_set answer).ne_nil hcutChosen⟩

/-- A decision but the acquisition is taken back alike at any time, and something stays chosen. -/
theorem Replays.delete_eq (h : session.Replays) (hchosen : session.choices ≠ []) {node : Int}
    (hnode : node ≠ topNode) (clock clock' : Clock) :
    session.delete node clock = session.delete node clock' ∧
      (session.delete node clock).2.choices ≠ [] := by
  obtain ⟨first, rest, hchoices⟩ := List.exists_cons_of_ne_nil hchosen
  unfold Session.delete
  rw [h.replay_eq hchosen (clock 0) (clock' 0) none none noValues]
  refine ⟨rfl, ?_⟩
  cases hbefore : session.replay (clock' 0) none noValues >>= (beforeNode · node) with
  | error failure => exact hchosen
  | ok kept =>
      obtain ⟨replay, hreplay, hkept⟩ := bind_eq_ok.mp hbefore
      obtain ⟨⟨more, hrecorded⟩, _⟩ := h.recorded_started hchoices hreplay
      obtain ⟨compiled, hcompiled, _⟩ := replay_eq_ok.mp hreplay
      -- the acquisition is the first decision, and it is not that of the node
      have htop := (h.first_choice hcompiled hchoices).2
      have hother : first.node ≠ node := by
        rw [htop]
        exact hnode.symm
      exact h.keep_ne_nil hchoices (mem_of_beforeNode hrecorded hother hkept)

/-- A request that keeps the acquisition leads to the same session at any time, and something stays
chosen there. -/
theorem Replays.after_eq (h : session.Replays) (hchosen : session.choices ≠ []) {request : Request}
    (hrequest : KeepsAcquisition request) (clock clock' : Clock) :
    session.after clock request = session.after clock' request ∧
      (session.after clock request).choices ≠ [] := by
  -- an answer only adds to the choices, and the other requests leave the first of them
  cases request with
  | setContract text => exact hrequest.elim
  | set answer =>
      refine ⟨congrArg Prod.snd (h.set_eq hchosen answer clock clock'), ?_⟩
      exact (choices_prefix_set answer).ne_nil hchosen
  | reset answer position =>
      obtain ⟨hsame, hkept⟩ := h.reset_eq hchosen answer hrequest clock clock'
      exact ⟨congrArg Prod.snd hsame, hkept⟩
  | delete node =>
      obtain ⟨hsame, hkept⟩ := h.delete_eq hchosen hrequest clock clock'
      exact ⟨congrArg Prod.snd hsame, hkept⟩

/-- From a session in which something is chosen, the same requests lead to the same session at any
times, as long as the acquisition is kept. -/
theorem Replays.afterAll_eq (h : session.Replays) (hchosen : session.choices ≠ [])
    {requests requests' : List (Clock × Request)}
    (hsame : requests.map Prod.snd = requests'.map Prod.snd)
    (hrequests : ∀ request ∈ requests.map Prod.snd, KeepsAcquisition request) :
    session.afterAll requests = session.afterAll requests' := by
  -- the first request leads both runs to one session, where something is chosen still
  induction requests generalizing session requests' with
  | nil =>
      rw [List.map_eq_nil_iff.mp hsame.symm]
  | cons request requests ih =>
      obtain ⟨clock, request⟩ := request
      cases requests' with
      | nil => cases hsame
      | cons request' requests' =>
          obtain ⟨clock', request'⟩ := request'
          obtain ⟨hhead, htail⟩ := List.cons.inj hsame
          obtain rfl : request = request' := hhead
          obtain ⟨hrequest, hrest⟩ := List.forall_mem_cons.mp hrequests
          obtain ⟨hstep, hchosen'⟩ := h.after_eq hchosen hrequest clock clock'
          have hrun := ih (h.after clock request) hchosen' htail hrest
          show (session.after clock request).afterAll requests =
            (session.after clock' request).afterAll requests'
          rw [← hstep]
          exact hrun

/-! ## Started sessions -/

/-- If anything but the acquisition is pending, then the acquisition is chosen. -/
theorem Replays.chosen_of_pending (h : session.Replays) {includePast : Option Bool}
    {decision : Decision} (hpending : session.pending clock includePast = .ok (some decision))
    (hkind : decision.kind ≠ .acquisition) : session.choices ≠ [] := by
  -- a session without choices waits for the acquisition
  intro hfresh
  obtain ⟨replay, hreplay, _⟩ := pending_eq_ok.mp hpending
  obtain ⟨compiled, hcompiled, _⟩ := replay_eq_ok.mp hreplay
  obtain ⟨options, hoptions⟩ := Compiled.exists_topOptions (h.uses compiled hcompiled).1 (clock 0)
    (includePast.getD session.settings.includePast)
  have hacquisition := hpending.symm.trans (pending_of_fresh hcompiled hfresh hoptions)
  obtain rfl := Option.some.inj (Except.ok.inj hacquisition)
  exact hkind rfl

/-- Past the choice of the acquisition nothing depends on the clock, nor on whether past times are
asked for. Any list of choices is replayed alike, a session has the acquisition first among its
choices, and an answer to any other decision has the same effect at any time. The same requests lead
to the same session then, as long as none of them makes the acquisition again. -/
theorem started_ignores_clock {text : String} (hcompile : compile text = .ok compiled) :
    (∀ values first rest now now' includePast includePast',
      compiled.replay (first :: rest) now includePast values =
        compiled.replay (first :: rest) now' includePast' values) ∧
    ∀ session : Session, session.Reachable → session.compiled = some compiled →
      (∀ first rest, session.choices = first :: rest →
        first.kind = .acquisition ∧ first.node = topNode) ∧
      (session.choices ≠ [] → ∀ now now' includePast includePast' values,
        session.replay now includePast values = session.replay now' includePast' values) ∧
      (∀ clock includePast decision, session.pending clock includePast = .ok (some decision) →
        decision.kind ≠ .acquisition →
          ∀ answer clock', session.set answer clock' = session.set answer clock) ∧
      (session.choices ≠ [] → ∀ requests requests' : List (Clock × Request),
        requests.map Prod.snd = requests'.map Prod.snd →
          (∀ request ∈ requests.map Prod.snd, KeepsAcquisition request) →
            session.afterAll requests = session.afterAll requests') := by
  have hsound := Compiled.sound_of_compile hcompile
  refine ⟨fun values => Compiled.replay_cons hsound, ?_⟩
  intro session hreachable hcompiled
  have hreplays := hreachable.replays
  -- the acquisition comes first, so from then on the replays do not read the clock
  refine ⟨fun first rest => hreplays.first_choice hcompiled, hreplays.replay_eq, ?_, ?_⟩
  · intro clock includePast decision hpending hkind answer clock'
    exact hreplays.set_eq (hreplays.chosen_of_pending hpending hkind) answer clock' clock
  · intro hchosen requests requests' hsame hkept
    exact hreplays.afterAll_eq hchosen hsame hkept

/-- After the first requests of `someRequests` the acquisition is chosen, for the times from 2 to 5.
At 11, when these have passed, the branch is still asked for, and it is chosen then as at 3. -/
theorem started_ignores_clock_of_waiting :
    let session := (start .default).afterAll (someRequests.take 2)
    let decision : Decision := ⟨.or, [.branch true, .branch false], 0, 0⟩
    session.choices = [acquisition ⟨2, .instant 5, by decide⟩] ∧
      session.pending (fun _ => 11) none = .ok (some decision) ∧
      session.replay 11 none noValues = session.replay 3 (some true) noValues ∧
        session.set (.branch true) (fun _ => 3) = session.set (.branch true) (fun _ => 11) := by
  intro session decision
  have hreachable : session.Reachable := ⟨_, _, rfl⟩
  have hsome : session.compiled = (compile waitingText).toOption := by rfl
  have hchoices : session.choices = [acquisition ⟨2, .instant 5, by decide⟩] := by rfl
  have hpending : session.pending (fun _ => 11) none = .ok (some decision) := by rfl
  have hparse : parse waitingText = .ok waiting := by rfl
  obtain ⟨compiled, hcompile, _⟩ := Compiled.sound_of_parse hparse
  have hcompiled : session.compiled = some compiled := by
    rw [hsome, hcompile]
    rfl
  obtain ⟨_, hsession⟩ := started_ignores_clock hcompile
  obtain ⟨_, hreplay, hset, _⟩ := hsession session hreachable hcompiled
  have hchosen : session.choices ≠ [] := by
    rw [hchoices]
    exact List.cons_ne_nil _ _
  refine ⟨hchoices, hpending, hreplay hchosen 11 3 none (some true) noValues, ?_⟩
  exact hset _ _ decision hpending (fun h => nomatch h) _ _

end Session

end ContractAlgebra
