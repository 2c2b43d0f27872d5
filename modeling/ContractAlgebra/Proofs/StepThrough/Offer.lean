import ContractAlgebra.Proofs.StepThrough.Session

/-!
# Options that are taken

Every option that a session offers can be taken, and is recorded as it was offered. The exception is
the acquisition of the whole contract: where the settings offer the slices of the past, a question
that leaves them out also cuts a slice at the present, and the piece is taken only if it is a whole
slice anyway (`Session.offered_taken_iff`).

What is offered depends on the time, the settings and the question only as long as nothing has been
chosen. After that the walk goes through the tree, and there it asks for the same in any case.
-/

namespace ContractAlgebra

/-- The answer that takes an option. -/
def Choice.answer : Choice → Answer
  | slice s => .slice s
  | branch first => .branch first

/-- The options of a decision are values for it: times where a time is decided, else branches. -/
def Decision.Fair (decision : Decision) : Prop :=
  ∀ option ∈ decision.options, option.Fits decision.kind

/-! ## What a walk asks -/

namespace Walk

variable {α β : Type} {p : Decision → Prop}

/-- Every decision that a walk can ask for, whatever it is answered, has a property. -/
def Asks (p : Decision → Prop) : Walk α → Prop
  | done _ => True
  | failed _ => True
  | record _ rest => rest.Asks p
  | ask decision next => p decision ∧ ∀ choice, (next choice).Asks p

theorem Asks.bind {walk : Walk α} {next : α → Walk β} (h : walk.Asks p)
    (hnext : ∀ value, (next value).Asks p) : (walk.bind next).Asks p := by
  induction walk with
  | done value => exact hnext value
  | failed failure => exact h
  | record recorded rest ih => exact ih h
  | ask decision rest ih => exact ⟨h.1, fun choice => ih choice (h.2 choice)⟩

/-- A decision that is pending was asked for. -/
theorem Asks.pending {walk : Walk α} (h : walk.Asks p) {choices : List Recorded}
    {decision : Decision} (hpending : (walk.run choices).pending? = some decision) : p decision := by
  induction walk generalizing choices with
  | done value => cases hpending
  | failed failure => cases hpending
  | record recorded rest ih =>
      rw [run, Course.pending?_after] at hpending
      exact ih h hpending
  | ask asked next ih =>
      -- without a choice the decision itself is pending, else one of what follows
      cases choices with
      | nil =>
          cases hpending
          exact h.1
      | cons choice choices =>
          unfold run at hpending
          split at hpending
          · rw [Course.pending?_after] at hpending
            exact ih _ (h.2 _) hpending
          · cases hpending

/-- A decision on a time is all that is asked for there. -/
theorem asks_decideTime {kind : DecisionKind} {node ordinal : Int} {options : List Slice}
    (h : p ⟨kind, options.map .slice, node, ordinal⟩) :
    (decideTime kind node ordinal options).Asks p := by
  refine ⟨h, fun choice => ?_⟩
  cases choice <;> exact trivial

/-- A decision on a branch is all that is asked for there. -/
theorem asks_decideBranch {node ordinal : Int}
    (h : p ⟨.or, [.branch true, .branch false], node, ordinal⟩) :
    (decideBranch node ordinal).Asks p := by
  refine ⟨h, fun choice => ?_⟩
  cases choice <;> exact trivial

end Walk

/-- The options of a decision on a time are times. -/
theorem Decision.fair_slices {kind : DecisionKind} (hkind : kind.isTime = true) (node ordinal : Int)
    (options : List Slice) : Decision.Fair ⟨kind, options.map .slice, node, ordinal⟩ := by
  intro option hoption
  obtain ⟨s, _, rfl⟩ := List.mem_map.mp hoption
  exact hkind.symm

/-- The options of a decision on a branch are the two branches. -/
theorem Decision.fair_branches (node ordinal : Int) :
    Decision.Fair ⟨.or, [.branch true, .branch false], node, ordinal⟩ := by
  intro option hoption
  simp only [List.mem_cons, List.not_mem_nil, or_false] at hoption
  rcases hoption with rfl | rfl <;> rfl

namespace Compiled

variable {compiled : Compiled} {values : Nat → Option Int}

/-- A visit asks for nothing but the times of `anytime`, where there are several, and the branches of
`or`. -/
theorem visit_asks (h : compiled.Sound) {p : Decision → Prop}
    (hanytime : ∀ (index ordinal : Nat) (body : Tree Nat) (start : Int) (options : List Slice),
      .unary index .anytime body ∈ compiled.tree.subtrees →
      compiled.OffersAt index ordinal body start options → 2 ≤ options.length →
        p ⟨.anytime, options.map .slice, index, ordinal⟩)
    (hor : ∀ index ordinal : Nat, p ⟨.or, [.branch true, .branch false], index, ordinal⟩)
    {part : Tree Nat} (hpart : part ∈ compiled.tree.subtrees) (time : Slice) :
    (compiled.visit values part time).Asks p := by
  apply h.visit_induction (motive := fun _ _ visit => (visit values).Asks p) hpart time
  case expired | leaf | never =>
    intros
    exact trivial
  case truncate | inTurn | afterwards =>
    intros
    assumption
  case give =>
    intro index body time _ _ hbody
    exact hbody.bind fun _ => trivial
  case constant =>
    intro index n body time _ _ hbody
    exact hbody.bind fun _ => trivial
  case observable =>
    intro index o body time ordinal _ _ _ _ hbody
    exact hbody.bind fun _ => trivial
  case and =>
    intro index first second time _ _ hfirst hsecond
    exact hfirst.bind fun _ => hsecond.bind fun _ => trivial
  -- what is recorded at these nodes is not asked for
  case get =>
    intro index body time horizon _ _ _ hbody
    exact hbody
  case orSecond =>
    intro index first second time ordinal _ _ _ _ _ hsecond
    exact hsecond
  case orFirst =>
    intro index first second time ordinal _ _ _ _ _ hfirst
    exact hfirst
  case anytime =>
    intro index body time ordinal options hpart hoffers hlive hbody
    -- only among several slices there is something to ask for
    match options, hoffers with
    | [], hoffers => exact absurd rfl (hoffers.offers.ne_nil hlive)
    | [only], _ => exact hbody only
    | _ :: _ :: _, hoffers =>
        have hasked := hanytime index ordinal body time.start _ hpart hoffers (by simp)
        exact (Walk.asks_decideTime hasked).bind hbody
  case or =>
    intro index first second time ordinal _ _ _ _ _ hfirst hsecond
    refine (Walk.asks_decideBranch (hor index ordinal)).bind fun chosen => ?_
    cases chosen with
    | false => exact hsecond
    | true => exact hfirst

/-- What a walk asks for: the acquisition of the whole contract, and then what a visit does. -/
theorem walk_asks (h : compiled.Sound) {p : Decision → Prop} {now : Int} {includePast : Bool}
    (hacquisition : ∀ options, compiled.topOptions now includePast = .ok options →
      p (acquisitionAmong options))
    (hvisit : ∀ time, (compiled.visit values compiled.tree time).Asks p) :
    (compiled.walk now includePast values).Asks p := by
  obtain ⟨options, hoptions, hwalk⟩ := exists_walk_eq h now includePast
  rw [hwalk]
  refine ⟨hacquisition options hoptions, fun choice => ?_⟩
  -- a branch does not answer the question, so the walk ends there
  cases choice with
  | slice time => exact hvisit time
  | branch first => exact trivial

/-- A walk asks for times with times and for branches with branches. -/
theorem walk_fair (h : compiled.Sound) (now : Int) (includePast : Bool) :
    (compiled.walk now includePast values).Asks Decision.Fair := by
  refine walk_asks h (fun options _ => Decision.fair_slices rfl _ _ options) fun time => ?_
  exact visit_asks h (fun _ _ _ _ _ _ _ _ => Decision.fair_slices rfl _ _ _)
    (fun _ _ => Decision.fair_branches _ _) compiled.tree.self_mem_subtrees time

/-- What a question offers for the acquisition is what the settings offer, or all slices, unless the
question leaves out a past that the settings offer. -/
theorem topOptions_cases {now : Int} {past : Bool} {includePast : Option Bool}
    {options own all : List Slice}
    (hoptions : compiled.topOptions now (includePast.getD past) = .ok options)
    (hown : compiled.topOptions now past = .ok own)
    (hall : compiled.topOptions now true = .ok all) :
    options = own ∨ options = all ∨ past = true ∧ includePast = some false := by
  cases includePast with
  | none => exact Or.inl (Except.ok.inj (hoptions.symm.trans hown))
  | some asked =>
      -- a question for the past gets all slices; one without it differs if the settings have it
      cases asked with
      | true => exact Or.inr (Or.inl (Except.ok.inj (hoptions.symm.trans hall)))
      | false =>
          cases past with
          | false => exact Or.inl (Except.ok.inj (hoptions.symm.trans hown))
          | true => exact Or.inr (Or.inr ⟨rfl, rfl⟩)

/-! ## What does not depend on the past -/

/-- Before anything is chosen, the acquisition is pending. -/
theorem replay_nil {now : Int} {includePast : Bool} {options : List Slice}
    (hoptions : compiled.topOptions now includePast = .ok options) :
    compiled.replay [] now includePast values =
      .ok ⟨[], some (acquisitionAmong options), none⟩ := by
  unfold replay walk
  rw [hoptions]
  rfl

/-- Once the acquisition is chosen, a replay is the same at any time, with or without the slices of
the past. -/
theorem replay_cons (h : compiled.Sound) (choice : Recorded) (choices : List Recorded)
    (now now' : Int) (includePast includePast' : Bool) :
    compiled.replay (choice :: choices) now includePast values =
      compiled.replay (choice :: choices) now' includePast' values := by
  obtain ⟨options, _, hwalk⟩ := exists_walk_eq h now includePast
  obtain ⟨options', _, hwalk'⟩ := exists_walk_eq h now' includePast'
  unfold replay
  rw [hwalk, hwalk']
  rfl

end Compiled

namespace Session

variable {session : Session} {now : Int} {clock : Clock} {includePast : Option Bool}
  {decision : Decision} {option : Choice}

/-! ## Answers that are accepted -/

/-- The pending decision is that of a replay. -/
theorem pending_eq_ok : session.pending clock includePast = .ok (some decision) ↔
    ∃ replay, session.replay (clock 0) includePast noValues = .ok replay ∧
      replay.pending = some decision := by
  unfold Session.pending
  rw [bind_eq_ok]
  constructor
  · intro h
    obtain ⟨replay, hreplay, hpending⟩ := h
    exact ⟨replay, hreplay, Except.ok.inj hpending⟩
  · intro h
    obtain ⟨replay, hreplay, hpending⟩ := h
    exact ⟨replay, hreplay, congrArg Except.ok hpending⟩

/-- The pending decision is put to the answer as the settings have it. -/
theorem choose_eq_ok_iff (hpending : session.pending clock none = .ok (some decision))
    {answer : Answer} {choice : Recorded} : session.choose answer clock = .ok choice ↔
      ∃ value, session.resolve decision answer (clock 1) = .ok value ∧
        decision.chosen value = choice := by
  obtain ⟨replay, hreplay, hdecision⟩ := pending_eq_ok.mp hpending
  unfold choose
  rw [bind_of_eq_ok hreplay, hdecision]
  dsimp only
  rw [bind_eq_ok]
  constructor
  · intro h
    obtain ⟨value, hvalue, hchoice⟩ := h
    exact ⟨value, hvalue, Except.ok.inj hchoice⟩
  · intro h
    obtain ⟨value, hvalue, hchoice⟩ := h
    exact ⟨value, hvalue, congrArg Except.ok hchoice⟩

/-- The times that are accepted: the options, and for the acquisition the slices of the past. -/
theorem exists_timeOptions {compiled : Compiled} (hcompiled : session.compiled = some compiled)
    (hsound : compiled.Sound) (decision : Decision) (now : Int) :
    ∃ times all, session.timeOptions decision now = .ok times ∧
      compiled.topOptions now true = .ok all ∧
        ∀ s, s ∈ times ↔ .slice s ∈ decision.options ∨ decision.kind = .acquisition ∧ s ∈ all := by
  obtain ⟨all, hall⟩ := Compiled.exists_topOptions hsound now true
  have hcontract : session.contract = .ok compiled := by
    unfold contract
    rw [hcompiled]
  have hslices : ∀ s, s ∈ decision.options.filterMap Choice.slice? ↔ .slice s ∈ decision.options := by
    intro s
    rw [List.mem_filterMap]
    constructor
    · intro h
      obtain ⟨option, hmem, hslice⟩ := h
      -- branches are no times and are left out
      cases option with
      | slice s' => exact Option.some.inj hslice ▸ hmem
      | branch first => cases hslice
    · intro hmem
      exact ⟨_, hmem, rfl⟩
  unfold timeOptions
  -- only for the acquisition all slices are added to the options
  by_cases hkind : decision.kind = .acquisition
  · simp only [hkind, if_true, hcontract, hall, bind, Except.bind]
    refine ⟨_, _, rfl, rfl, fun s => ?_⟩
    rw [List.mem_append, hslices]
    simp
  · simp only [hkind, if_false]
    refine ⟨_, _, rfl, hall, fun s => ?_⟩
    rw [hslices]
    simp

/-- A slice is accepted for a decision on a time if it is one of the times. -/
theorem resolve_slice (hkind : decision.kind.isTime = true) {times : List Slice}
    (htimes : session.timeOptions decision now = .ok times) {s : Slice} {value : Choice} :
    session.resolve decision (.slice s) now = .ok value ↔ s ∈ times ∧ .slice s = value := by
  unfold resolve
  rw [if_pos hkind]
  dsimp only
  rw [bind_of_eq_ok htimes]
  by_cases hmem : s ∈ times
  · rw [if_pos hmem]
    simp [pure, Except.pure, hmem]
  · rw [if_neg hmem]
    simp [Failure.refuse, hmem]

/-- A branch is accepted where one is decided on. -/
theorem resolve_branch (hkind : decision.kind.isTime = false) (first : Bool) :
    session.resolve decision (.branch first) now = .ok (.branch first) := by
  unfold resolve
  rw [if_neg (by simp [hkind])]
  rfl

/-- A time that an answer gives to a decision is one of those that are accepted. The answer was this
very slice, or an instant in it. -/
theorem mem_of_resolve {times : List Slice} (htimes : session.timeOptions decision now = .ok times)
    {answer : Answer} {s : Slice} (h : session.resolve decision answer now = .ok (.slice s)) :
    s ∈ times ∧ (answer = .slice s ∨ ∃ t, answer = .time t ∧ .instant t ∈ s) := by
  unfold resolve at h
  split at h
  -- a slice has to be one of the times, an instant has to lie in one
  · cases answer with
    | branch first => cases h
    | text _ | nothing =>
        dsimp only at h
        rw [bind_of_eq_ok htimes] at h
        cases h
    | slice _ =>
        dsimp only at h
        rw [bind_of_eq_ok htimes] at h
        split at h
        · next hmem =>
            cases h
            exact ⟨hmem, Or.inl rfl⟩
        · cases h
    | time t =>
        dsimp only at h
        rw [bind_of_eq_ok htimes] at h
        split at h
        · next hfound =>
            cases h
            have hin := List.find?_some hfound
            exact ⟨List.mem_of_find?_eq_some hfound, Or.inr ⟨t, rfl, of_decide_eq_true hin⟩⟩
        · cases h
  · cases answer <;> cases h

/-! ## Options that are taken -/

/-- A session takes an option of the pending decision: it can be answered, and what is recorded for
the decision after all earlier choices is the option itself. -/
def Takes (session : Session) (now : Int) (decision : Decision) (option : Choice) : Prop :=
  ∃ more next, session.set option.answer (fun _ => now) = (.ok more, next) ∧
    next.choices = session.choices ++ [decision.chosen option] ∧
    ∃ recorded, next.recorded (fun _ => now) = .ok recorded ∧
      recorded.filter (!·.automatic) = next.choices

/-- An option is taken if it is accepted as a value and short enough for the log. -/
theorem Replays.takes_of_resolve (hreplays : session.Replays)
    (hpending : session.pending (fun _ => now) none = .ok (some decision))
    (hvalue : session.resolve decision option.answer now = .ok option)
    (hshort : option.isShort = true) : session.Takes now decision option := by
  have hchoose : session.choose option.answer (fun _ => now) = .ok (decision.chosen option) :=
    (choose_eq_ok_iff hpending).mpr ⟨option, hvalue, rfl⟩
  obtain ⟨more, hset⟩ := hreplays.exists_set_of_short hchoose hshort
  have hafter := hreplays.set option.answer fun _ => now
  rw [hset] at hafter
  obtain ⟨replay, hreplay, _⟩ := pending_eq_ok.mp hpending
  obtain ⟨compiled, hcompiled, _⟩ := replay_eq_ok.mp hreplay
  -- after the answer the session replays, which tells what is recorded then
  obtain ⟨replay', hreplay'⟩ := hafter.exists_replay hcompiled now none noValues
  refine ⟨more, _, hset, rfl, replay'.recorded, ?_, hafter.recorded hreplay'⟩
  rw [Session.recorded, bind_of_eq_ok hreplay']
  rfl

/-- An option that is taken was accepted as a value, and could be logged. -/
theorem Replays.resolve_of_takes (hreplays : session.Replays)
    (hpending : session.pending (fun _ => now) none = .ok (some decision))
    (h : session.Takes now decision option) :
    session.resolve decision option.answer now = .ok option ∧ option.isShort = true := by
  obtain ⟨more, next, hset, hchoices, _⟩ := h
  obtain ⟨choice, hchoose, hshort, rfl⟩ := hreplays.choose_of_set hset
  obtain ⟨value, hvalue, rfl⟩ := (choose_eq_ok_iff hpending).mp hchoose
  -- the choice that was added is the one for the option
  have hlast := List.append_cancel_left hchoices
  have hsame : decision.chosen value = decision.chosen option := List.singleton_inj.mp hlast
  obtain rfl : value = option := congrArg Recorded.value hsame
  exact ⟨hvalue, hshort⟩

/-- An option that is among the accepted values is taken if it is short enough for the log. -/
theorem Replays.takes_of_mem (hreplays : session.Replays)
    (hpending : session.pending (fun _ => now) none = .ok (some decision))
    (hfits : option.Fits decision.kind) (hoption : option ∈ decision.options)
    (hshort : option.isShort = true) : session.Takes now decision option := by
  obtain ⟨replay, hreplay, _⟩ := pending_eq_ok.mp hpending
  obtain ⟨compiled, hcompiled, _⟩ := replay_eq_ok.mp hreplay
  have hsound := (hreplays.uses compiled hcompiled).1
  refine hreplays.takes_of_resolve hpending ?_ hshort
  -- a slice is looked for among the options, a branch is taken in any case
  cases option with
  | slice s =>
      obtain ⟨times, all, htimes, _, hmem⟩ := exists_timeOptions hcompiled hsound decision now
      exact (resolve_slice hfits.symm htimes).mpr ⟨(hmem s).mpr (Or.inl hoption), rfl⟩
  | branch first => exact resolve_branch hfits.symm first

/-- Once the acquisition is chosen, the question makes no difference: the pending decision is the
one that the settings offer too. -/
theorem Replays.pending_of_chosen (hreplays : session.Replays) (hchosen : session.choices ≠ [])
    (hpending : session.pending clock includePast = .ok (some decision)) :
    session.pending clock none = .ok (some decision) ∧ decision.Fair := by
  obtain ⟨replay, hreplay, hdecision⟩ := pending_eq_ok.mp hpending
  obtain ⟨compiled, hcompiled, hrun⟩ := replay_eq_ok.mp hreplay
  obtain ⟨hsound, huses⟩ := hreplays.uses compiled hcompiled
  obtain ⟨choice, choices, hchoices⟩ := List.exists_cons_of_ne_nil hchosen
  -- the replay is the same for both questions, and what it waits for was asked for
  constructor
  · rw [hchoices, Compiled.replay_cons hsound choice choices (clock 0) (clock 0) _
      session.settings.includePast, ← hchoices] at hrun
    exact pending_eq_ok.mpr ⟨replay, replay_eq_ok.mpr ⟨compiled, hcompiled, hrun⟩, hdecision⟩
  · have huses := huses (clock 0) (includePast.getD session.settings.includePast) noValues
    have hasked := (replay_of_uses huses hrun).2.symm.trans hdecision
    exact (Compiled.walk_fair hsound _ _).pending hasked

/-- Before the acquisition is chosen, it is the pending decision. -/
theorem pending_of_fresh {compiled : Compiled} (hcompiled : session.compiled = some compiled)
    (hchoices : session.choices = []) {options : List Slice}
    (hoptions : compiled.topOptions (clock 0) (includePast.getD session.settings.includePast) =
      .ok options) :
    session.pending clock includePast = .ok (some (Compiled.acquisitionAmong options)) := by
  have hreplay : session.replay (clock 0) includePast noValues =
      .ok ⟨[], some (Compiled.acquisitionAmong options), none⟩ := by
    refine replay_eq_ok.mpr ⟨compiled, hcompiled, ?_⟩
    rw [hchoices]
    exact Compiled.replay_nil hoptions
  exact pending_eq_ok.mpr ⟨_, hreplay, rfl⟩

/-- Before the acquisition is chosen, a slice is taken if it is offered by the settings, or is one
of those with the past, as long as it can be logged. -/
theorem Replays.takes_acquisition_iff (hreplays : session.Replays) {compiled : Compiled}
    (hcompiled : session.compiled = some compiled) (hchoices : session.choices = [])
    {own all : List Slice}
    (hown : compiled.topOptions now session.settings.includePast = .ok own)
    (hall : compiled.topOptions now true = .ok all) {options : List Slice} {s : Slice} :
    session.Takes now (Compiled.acquisitionAmong options) (.slice s) ↔
      (s ∈ own ∨ s ∈ all) ∧ s.isShort = true := by
  have hsound := (hreplays.uses compiled hcompiled).1
  have hpending : session.pending (fun _ => now) none =
      .ok (some (Compiled.acquisitionAmong own)) := pending_of_fresh hcompiled hchoices hown
  obtain ⟨times, all', htimes, hall', hmem⟩ :=
    exists_timeOptions hcompiled hsound (Compiled.acquisitionAmong own) now
  obtain rfl : all = all' := Except.ok.inj (hall.symm.trans hall')
  have hslice : s ∈ times ↔ s ∈ own ∨ s ∈ all := by
    rw [hmem]
    simp [Compiled.acquisitionAmong]
  rw [← hslice]
  -- the options that were asked for are not looked at, only what decision they are for
  constructor
  · intro htakes
    have htakes : session.Takes now (Compiled.acquisitionAmong own) (.slice s) := htakes
    obtain ⟨hvalue, hshort⟩ := hreplays.resolve_of_takes hpending htakes
    exact ⟨((resolve_slice rfl htimes).mp hvalue).1, hshort⟩
  · rintro ⟨hs, hshort⟩
    show session.Takes now (Compiled.acquisitionAmong own) (.slice s)
    exact hreplays.takes_of_resolve hpending ((resolve_slice rfl htimes).mpr ⟨hs, rfl⟩) hshort

/-- An option of the pending decision is taken if it is short enough for the log, unless it is a piece
that the question has cut off at the present while the settings offer the slices of the past. -/
theorem offered_taken_iff (hsession : session.Reachable)
    (hpending : session.pending (fun _ => now) includePast = .ok (some decision))
    (hoption : option ∈ decision.options) :
    session.Takes now decision option ↔ option.isShort = true ∧
      (session.settings.includePast = true → includePast = some false →
        decision.kind = .acquisition →
          ∃ own, session.pending (fun _ => now) none = .ok (some own) ∧ option ∈ own.options) := by
  have hreplays := hsession.replays
  -- the question matters for the acquisition alone, which is pending as long as nothing is chosen
  by_cases hchosen : session.choices = []
  · obtain ⟨replay, hreplay, hdecision⟩ := pending_eq_ok.mp hpending
    obtain ⟨compiled, hcompiled, hrun⟩ := replay_eq_ok.mp hreplay
    have hsound := (hreplays.uses compiled hcompiled).1
    obtain ⟨options, hoptions⟩ := Compiled.exists_topOptions hsound now
      (includePast.getD session.settings.includePast)
    obtain ⟨own, hown⟩ := Compiled.exists_topOptions hsound now session.settings.includePast
    obtain ⟨all, hall⟩ := Compiled.exists_topOptions hsound now true
    have hpendingOwn : session.pending (fun _ => now) none =
        .ok (some (Compiled.acquisitionAmong own)) := pending_of_fresh hcompiled hchosen hown
    have hoffered := hpending.symm.trans (pending_of_fresh hcompiled hchosen hoptions)
    obtain rfl : decision = Compiled.acquisitionAmong options :=
      Option.some.inj (Except.ok.inj hoffered)
    obtain ⟨s, hs, rfl⟩ := List.mem_map.mp hoption
    rw [hreplays.takes_acquisition_iff hcompiled hchosen hown hall, and_comm]
    refine and_congr_right fun _ => ⟨?_, ?_⟩
    · intro htaken hpast _ _
      rw [hpast] at hown
      obtain rfl : own = all := Except.ok.inj (hown.symm.trans hall)
      exact ⟨_, hpendingOwn, List.mem_map_of_mem (htaken.elim id id)⟩
    · intro hcut
      rcases Compiled.topOptions_cases hoptions hown hall with rfl | rfl | ⟨hpast, hask⟩
      · exact Or.inl hs
      · exact Or.inr hs
      · -- the exception, where the slice has to be among those of the settings
        obtain ⟨own', hown', hmem⟩ := hcut hpast hask rfl
        have hsameOwn := Option.some.inj (Except.ok.inj (hown'.symm.trans hpendingOwn))
        rw [hsameOwn] at hmem
        obtain ⟨s', hs', heq⟩ := List.mem_map.mp hmem
        exact Or.inl (Choice.slice.inj heq ▸ hs')
  · -- past or not, the decision is the same, and all of its options are accepted
    obtain ⟨hpending', hfair⟩ := hreplays.pending_of_chosen hchosen hpending
    constructor
    · intro htakes
      exact ⟨(hreplays.resolve_of_takes hpending' htakes).2, fun _ _ _ => ⟨_, hpending', hoption⟩⟩
    · intro hshort
      exact hreplays.takes_of_mem hpending' (hfair option hoption) hoption hshort.1

/-- A session whose settings offer the slices of the past, with the contract `waitingText`. -/
def withPast : Session :=
  (start { Settings.default with includePast := true }).afterAll [(fun _ => 0, .setContract waitingText)]

/-- Asked without the past at 3, this session offers the rest of the running slice. That is then not
among the slices that it takes. -/
theorem cut_option_refused :
    ¬ ∀ session : Session, session.Reachable → ∀ now includePast decision,
      session.pending (fun _ => now) includePast = .ok (some decision) →
        ∀ option ∈ decision.options, session.Takes now decision option := by
  intro htakes
  have hreachable : withPast.Reachable := ⟨_, _, rfl⟩
  have hpending : ∃ decision, withPast.pending (fun _ => 3) (some false) = .ok (some decision) ∧
      .slice ⟨3, .instant 5, by decide⟩ ∈ decision.options := ⟨_, rfl, by decide⟩
  obtain ⟨decision, hpending, hoption⟩ := hpending
  obtain ⟨more, next, hset, _⟩ := htakes _ hreachable 3 _ decision hpending _ hoption
  have hrefused : (withPast.set (.slice ⟨3, .instant 5, by decide⟩) fun _ => 3).1 =
    .error (.rejected ⟨.notAnOption (.slice ⟨3, .instant 5, by decide⟩), none, []⟩) := by rfl
  have hset' : withPast.set (.slice ⟨3, .instant 5, by decide⟩) (fun _ => 3) = (.ok more, next) :=
    hset
  -- the call cannot succeed and be refused
  rw [hset'] at hrefused
  cases hrefused

/-- At 3 the piece from 3 to 5 is refused, and the slice after it is taken. -/
theorem offered_taken_iff_of_past :
    let cut : Slice := ⟨3, .instant 5, by decide⟩
    let whole : Slice := ⟨6, .unbounded, trivial⟩
    let decision := Compiled.acquisitionAmong [cut, whole]
    withPast.Reachable ∧ withPast.pending (fun _ => 3) (some false) = .ok (some decision) ∧
      ¬ withPast.Takes 3 decision (.slice cut) ∧ withPast.Takes 3 decision (.slice whole) := by
  intro cut whole decision
  have hreachable : withPast.Reachable := ⟨_, _, rfl⟩
  have hpending : withPast.pending (fun _ => 3) (some false) = .ok (some decision) := by rfl
  have hown : withPast.pending (fun _ => 3) none =
    .ok (some (Compiled.acquisitionAmong [⟨0, .instant 5, by decide⟩, whole])) := by rfl
  refine ⟨hreachable, hpending, fun htakes => ?_, ?_⟩
  -- the settings offer the whole slice in the place of the piece
  · obtain ⟨own, hown', hcut⟩ :=
      ((offered_taken_iff hreachable hpending (by decide)).mp htakes).2 rfl rfl rfl
    obtain rfl := Option.some.inj (Except.ok.inj (hown.symm.trans hown'))
    exact absurd hcut (by decide)
  · have hmem : Choice.slice whole ∈ decision.options := by decide
    exact (offered_taken_iff hreachable hpending hmem).mpr
      ⟨by decide, fun _ _ _ => ⟨_, hown, by decide⟩⟩

end Session

end ContractAlgebra
