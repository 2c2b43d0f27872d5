import ContractAlgebra.Proofs.StepThrough.InStep
import ContractAlgebra.Proofs.StepThrough.Picking

/-!
# Slices of constant behaviour

Acquired at two times in one slice, a contract asks the same and pays the same. The two walks are
not equal: the first slice on offer starts with the time itself, so decisions match by the ends of
their options, answers by their positions, and payoffs up to the times of acquisition. The invariant
of the walk is that no boundary parts the two times.
-/

namespace ContractAlgebra

/-! ## What matches -/

/-- The same branch, or slices that stop at the same time. -/
inductive Choice.Matches : Choice → Choice → Prop where
  | slice {s s' : Slice} : s.stop = s'.stop → Matches (.slice s) (.slice s')
  | branch (first : Bool) : Matches (.branch first) (.branch first)

/-- Decisions of one kind for one node, both automatic or neither, with values that match. -/
structure Recorded.Matches (recorded recorded' : Recorded) : Prop where
  kind : recorded.kind = recorded'.kind
  node : recorded.node = recorded'.node
  ordinal : recorded.ordinal = recorded'.ordinal
  automatic : recorded.automatic = recorded'.automatic
  value : recorded.value.Matches recorded'.value

/-- Pending decisions of one kind for one node, with as many options, which match one by one. -/
structure Decision.Matches (decision decision' : Decision) : Prop where
  kind : decision.kind = decision'.kind
  node : decision.node = decision'.node
  ordinal : decision.ordinal = decision'.ordinal
  options : List.Forall₂ Choice.Matches decision.options decision'.options

/-- An entry without its time of acquisition. -/
def PayoffEntry.untimed : PayoffEntry → PayoffEntry
  | payment amount _ => payment amount none
  | scale factor => scale factor
  | observable name _ => observable name none
  | add => add

/-- A payoff without times of acquisition. -/
def Payoff.untimed (payoff : Payoff) : Payoff :=
  ⟨payoff.entries.map PayoffEntry.untimed⟩

/-- Payoffs that differ at most in times of acquisition. -/
def Payoff.Matches (payoff payoff' : Payoff) : Prop :=
  payoff.untimed = payoff'.untimed

/-- Answers are the same if they are the options at one position. -/
def positional : Likeness where
  recorded := Recorded.Matches
  decision := Decision.Matches
  answers decision decision' choice choice' := ∃ position : Nat,
    decision.options[position]? = some choice ∧ decision'.options[position]? = some choice'

namespace Payoff.Matches

variable {payoff payoff' other other' : Payoff}

/-- Payments match at any times. -/
theorem payment (amount : Int) (acquired acquired' : Option Slice) :
    (Payoff.payment amount acquired).Matches (Payoff.payment amount acquired') := rfl

/-- Multiples of payoffs match if the payoffs do. -/
theorem scale (h : payoff.Matches payoff') (factor : Int) :
    (payoff.scale factor).Matches (payoff'.scale factor) := by
  have hentries := congrArg Payoff.entries h
  simp only [untimed] at hentries
  simp [Matches, untimed, Payoff.scale, hentries]

/-- So do payoffs times an observable, whenever it is read. -/
theorem scaleBy (h : payoff.Matches payoff') (name : String) (acquired acquired' : Option Slice) :
    (payoff.scaleBy name acquired).Matches (payoff'.scaleBy name acquired') := by
  have hentries := congrArg Payoff.entries h
  simp only [untimed] at hentries
  simp [Matches, untimed, Payoff.scaleBy, hentries, PayoffEntry.untimed]

/-- So do sums. -/
theorem add (h : payoff.Matches payoff') (h' : other.Matches other') :
    (payoff.add other).Matches (payoff'.add other') := by
  have hentries := congrArg Payoff.entries h
  have hentries' := congrArg Payoff.entries h'
  simp only [untimed] at hentries hentries'
  simp [Matches, untimed, Payoff.add, hentries, hentries']

end Payoff.Matches

/-! ## Decisions in step -/

/-- At each position of lists that are related one by one stand related entries, or none. -/
theorem getElem?_cases {α β : Type} {R : α → β → Prop} {l : List α} {l' : List β}
    (h : List.Forall₂ R l l') (position : Nat) :
    l[position]? = none ∧ l'[position]? = none ∨
      ∃ a b, l[position]? = some a ∧ l'[position]? = some b ∧ R a b := by
  induction h generalizing position with
  | nil => exact Or.inl ⟨rfl, rfl⟩
  | cons hfirst _ ih =>
      -- the first entries are related, the later ones by induction
      cases position with
      | zero => exact Or.inr ⟨_, _, rfl, rfl, hfirst⟩
      | succ position => simpa using ih position

/-- Choices that match are recorded alike for decisions that match. -/
theorem Decision.Matches.chosen {decision decision' : Decision} {choice choice' : Choice}
    (h : decision.Matches decision') (hchoice : choice.Matches choice') :
    (decision.chosen choice).Matches (decision'.chosen choice') :=
  ⟨h.kind, h.node, h.ordinal, rfl, hchoice⟩

namespace Walk

/-- Picking by position, walks in step pick alike and stay in step. -/
theorem InStep.picked {α β : Type} {R : α → β → Prop} {walk : Walk α} {walk' : Walk β}
    (h : walk.InStep positional R walk') (positions : List Nat) :
    Option.Rel (fun choices choices' =>
        (walk.run choices).InStep positional R (walk'.run choices'))
      (walk.picked positions) (walk'.picked positions) := by
  -- by induction on the walks in step; positions are used up where both ask
  induction h generalizing positions with
  | done hvalue =>
      cases positions with
      | nil => exact .some (.done .nil hvalue)
      | cons => exact .none
  | record hrecorded _ ih =>
      have hrest := ih positions
      simp only [Walk.picked]
      revert hrest
      generalize Walk.picked _ positions = choices
      generalize Walk.picked _ positions = choices'
      rintro (hcourse | _)
      · exact .some (hcourse.after hrecorded)
      · exact .none
  | @ask decision decision' next next' hdecision _ ih =>
      cases positions with
      | nil => exact .some (.pending .nil hdecision)
      | cons position positions =>
          -- as many options stand on both sides, so both picks succeed or neither does
          rcases getElem?_cases hdecision.options position with
            ⟨hnone, hnone'⟩ | ⟨choice, choice', hchoice, hchoice', hmatch⟩
          · simp only [Walk.picked, hnone, hnone']
            exact .none
          · have hrest := ih choice choice' ⟨position, hchoice, hchoice'⟩ positions
            simp only [Walk.picked, hchoice, hchoice', Option.bind_eq_bind, Option.bind_some]
            revert hrest
            generalize (next choice).picked positions = choices
            generalize (next' choice').picked positions = choices'
            rintro (hcourse | _)
            · refine .some ?_
              rw [run_chosen, run_chosen]
              exact hcourse.after (hdecision.chosen hmatch)
            · exact .none

/-- Related lists of slices are offered, and accepted, alike. -/
theorem decideAmong_inStep {R : Slice → Slice → Prop} {options options' : List Slice}
    (h : List.Forall₂ R options options') (hstop : ∀ s s', R s s' → s.stop = s'.stop)
    (index ordinal : Int) :
    (decideAmong index ordinal options).InStep positional R
      (decideAmong index ordinal options') := by
  have hchoices : List.Forall₂ Choice.Matches (options.map .slice) (options'.map .slice) :=
    List.forall₂_map_left_iff.mpr (List.forall₂_map_right_iff.mpr
      (h.imp fun s s' hR => .slice (hstop s s' hR)))
  have hask : (decideTime .anytime index ordinal options).InStep positional R
      (decideTime .anytime index ordinal options') := by
    refine .ask ⟨rfl, rfl, rfl, hchoices⟩ ?_
    intro choice choice' h
    rcases h with ⟨position, hchoice, hchoice'⟩
    -- both answers are the options at one position, and these are related
    rcases getElem?_cases h position with ⟨hnone, _⟩ | ⟨s, s', hs, hs', hR⟩
    · simp [hnone] at hchoice
    · simp only [List.getElem?_map, hs, hs', Option.map_some, Option.some.injEq] at hchoice hchoice'
      subst hchoice hchoice'
      exact .done hR
  -- one slice is taken on both sides without a question, else both ask
  match h with
  | .nil => exact hask
  | .cons hfirst .nil => exact .record ⟨rfl, rfl, rfl, rfl, .slice (hstop _ _ hfirst)⟩ (.done hfirst)
  | .cons _ (.cons _ _) => exact hask

/-- A branch is asked for and taken alike. -/
theorem decideBranch_inStep (index ordinal : Int) :
    (decideBranch index ordinal).InStep positional Eq (decideBranch index ordinal) := by
  refine .ask ⟨rfl, rfl, rfl, .cons (.branch true) (.cons (.branch false) .nil)⟩ ?_
  intro choice choice' h
  rcases h with ⟨position, hchoice, hchoice'⟩
  rw [hchoice] at hchoice'
  cases hchoice'
  cases choice <;> exact .done rfl

end Walk

/-! ## Visits in step -/

/-- Slices with one end and starts, not before 0, that no boundary of a contract parts. -/
structure Tree.Twins {ι : Type} (body : Tree ι) (s s' : Slice) : Prop where
  stop : s.stop = s'.stop
  alike : body.Alike s.start s'.start
  zero_le : 0 ≤ s.start
  zero_le' : 0 ≤ s'.start

/-- What is on offer at two times that no boundary parts differs in the first start only. -/
theorem Tree.Offers.twins {ι : Type} {body : Tree ι} {t t' : Int} {options options' : List Slice}
    (h : body.Offers t options) (h' : body.Offers t' options') (halike : body.Alike t t')
    (ht : 0 ≤ t) (ht' : 0 ≤ t') : List.Forall₂ body.Twins options options' := by
  have hends : ∀ b, b ∈ Slices.ends options ↔ b ∈ Slices.ends options' := by
    intro b
    rw [h.ends, h'.ends]
    exact and_congr_right (halike b)
  -- both tilings have the same boundaries, so they differ at most in where they start
  rcases h.tiles.unique h'.tiles hends with ⟨hstops, htails, _⟩
  match options, options', h.tiles, h'.tiles with
  | [], [], _, _ => exact .nil
  | [], _ :: _, _, _ => cases hstops
  | _ :: _, [], _, _ => cases hstops
  -- the first slices start with the two times, and the others are the same
  | first :: rest, first' :: rest', htiles, htiles' =>
      have hstart : first.start = t := by
        rw [max_eq_left ht] at htiles
        cases htiles <;> assumption
      have hstart' : first'.start = t' := by
        rw [max_eq_left ht'] at htiles'
        cases htiles' <;> assumption
      obtain rfl : rest = rest' := htails
      refine .cons ⟨(List.cons.inj hstops).1, ?_, ?_, ?_⟩ (List.forall₂_same.mpr fun s hmem => ?_)
      · rwa [hstart, hstart']
      · rwa [hstart]
      · rwa [hstart']
      · have hzero := (h.start_within (List.mem_cons_of_mem _ hmem)).2.1
        exact ⟨rfl, fun _ _ => Iff.rfl, hzero, hzero⟩

namespace Compiled

variable {compiled : Compiled} {values : Nat → Option Int} {time time' : Slice}

/-- Payoffs times an observable match whether its value is known or not. -/
theorem scaleKnown_matches {payoff payoff' : Payoff} (h : payoff.Matches payoff') (o : Observable)
    (value : Option Int) : (Sound.scaleKnown o time value payoff).Matches
      (Sound.scaleKnown o time' value payoff') := by
  -- the time shows only beside the name of an observable that is not known
  cases value with
  | none => exact h.scaleBy o.name time time'
  | some n => exact h.scale n

/-- Visits to a part of the contract go in step at two times that no boundary of it parts. -/
theorem visit_inStep (h : compiled.Sound) {part : Tree Nat} (hpart : part ∈ compiled.tree.subtrees)
    (time : Slice) (ht : 0 ≤ time.start) (time' : Slice) (ht' : 0 ≤ time'.start)
    (halike : part.Alike time.start time'.start) :
    (compiled.visit values part time).InStep positional Payoff.Matches
      (compiled.visit values part time') := by
  revert ht time'
  -- what the visit does at the one time, it also does at the other
  apply h.visit_induction (motive := fun part time visit => 0 ≤ time.start → ∀ time' : Slice,
    0 ≤ time'.start → part.Alike time.start time'.start →
      (visit values).InStep positional Payoff.Matches (compiled.visit values part time')) hpart time
  case expired =>
    intro part time hpart hlate _ time' _ halike
    have hlate' := halike.horizon_lt.mp hlate
    rw [h.visit_expired hpart hlate']
    exact .done (.payment _ _ _)
  case leaf =>
    intro index op time hpart _ time' _ _
    rw [h.visit_leaf hpart]
    exact .done (.payment _ _ _)
  case give =>
    intro index body time hpart hlive hbody ht time' ht' halike
    rw [h.visit_give hpart (halike.le_horizon.mp hlive)]
    exact (hbody ht time' ht' halike).bind fun _ _ hmatch => .done (hmatch.scale (-1))
  case truncate =>
    intro index date body time hpart hlive hbody ht time' ht' halike
    rw [h.visit_truncate hpart (halike.le_horizon.mp hlive)]
    exact hbody ht time' ht' (halike.truncate hlive)
  case constant =>
    intro index n body time hpart hlive hbody ht time' ht' halike
    rw [h.visit_constant hpart (halike.le_horizon.mp hlive)]
    exact (hbody ht time' ht' halike).bind fun _ _ hmatch => .done (hmatch.scale n)
  case observable =>
    intro index o body time ordinal hpart hordinal _ hlive hbody ht time' ht' halike
    rw [h.visit_observable hpart hordinal (halike.le_horizon.mp hlive)]
    exact (hbody ht time' ht' halike).bind fun _ _ hmatch =>
      .done (scaleKnown_matches hmatch o (values ordinal))
  case never =>
    intro index body time hpart hhorizon _ time' _ _
    rw [h.visit_get_unbounded hpart hhorizon]
    exact .done (.payment _ _ _)
  case get =>
    -- both go on at the horizon, so at one and the same time
    intro index body time horizon hpart hhorizon hle hbody ht time' _ halike
    have hlive : Time.instant time.start ≤ body.horizon :=
      hhorizon ▸ Time.instant_le_instant.mpr hle
    have hlive' : Time.instant time'.start ≤ body.horizon := halike.le_horizon.mp hlive
    rw [hhorizon] at hlive'
    have hzero : 0 ≤ (Slice.moment horizon).start := le_trans ht hle
    rw [h.visit_get_instant hpart hhorizon (Time.instant_le_instant.mp hlive')]
    exact .record ⟨rfl, rfl, rfl, rfl, .slice rfl⟩ (hbody hzero _ hzero fun _ _ => Iff.rfl)
  case anytime =>
    intro index body time ordinal options hpart hoffers hlive hbody ht time' ht' halike
    have hlive' : Time.instant time'.start ≤ body.horizon := halike.le_horizon.mp hlive
    obtain ⟨ordinal', options', hoffers'⟩ := h.exists_offersAt hpart hlive'
    obtain rfl : ordinal = ordinal' :=
      Option.some.inj (hoffers.counted.symm.trans hoffers'.counted)
    rw [h.visit_anytime hpart hoffers' hlive']
    have htwins := hoffers.offers.twins hoffers'.offers halike ht ht'
    exact (Walk.decideAmong_inStep htwins (fun _ _ htwin => htwin.stop) _ _).bind
      fun _ _ htwin => hbody _ htwin.zero_le _ htwin.zero_le' htwin.alike
  case and =>
    intro index first second time hpart hlive hfirst hsecond ht time' ht' halike
    rw [h.visit_and hpart (halike.le_horizon.mp hlive)]
    exact (hfirst ht time' ht' halike.first).bind fun _ _ hmatch =>
      (hsecond ht time' ht' (halike.second (by simp))).bind fun _ _ hmatch' =>
        .done (hmatch.add hmatch')
  case inTurn =>
    intro index first second time hpart hlive hfirst ht time' ht' halike
    have hlive' := halike.first.le_horizon.mp hlive
    rw [h.visit_andThen hpart (le_max_of_le_left hlive'), if_neg (not_lt.mpr hlive')]
    exact hfirst ht time' ht' halike.first
  case afterwards =>
    -- the times need to be alike for the second part only now that the first has expired
    intro index first second time hpart hlate hlive hsecond ht time' ht' halike
    have halike₂ := halike.second_of_lt hlate
    have hlate' := halike.first.horizon_lt.mp hlate
    rw [h.visit_andThen hpart (le_max_of_le_right (halike₂.le_horizon.mp hlive)), if_pos hlate']
    exact hsecond ht time' ht' halike₂
  case orSecond =>
    intro index first second time ordinal hpart hordinal _ hlate hlive hsecond ht time' ht' halike
    have halike₂ : second.Alike time.start time'.start := halike.second (by simp)
    have hlate' := halike.first.horizon_lt.mp hlate
    rw [h.visit_or hpart hordinal (le_max_of_le_right (halike₂.le_horizon.mp hlive)),
      if_pos hlate']
    exact .record ⟨rfl, rfl, rfl, rfl, .branch false⟩ (hsecond ht time' ht' halike₂)
  case orFirst =>
    intro index first second time ordinal hpart hordinal _ hlive hlate hfirst ht time' ht' halike
    have halike₂ : second.Alike time.start time'.start := halike.second (by simp)
    have hlive' := halike.first.le_horizon.mp hlive
    have hlate' := halike₂.horizon_lt.mp hlate
    rw [h.visit_or hpart hordinal (le_max_of_le_left hlive'), if_neg (not_lt.mpr hlive'),
      if_pos hlate']
    exact .record ⟨rfl, rfl, rfl, rfl, .branch true⟩ (hfirst ht time' ht' halike.first)
  case or =>
    intro index first second time ordinal hpart hordinal _ hlive₁ hlive₂ hfirst hsecond ht
      time' ht' halike
    have halike₂ : second.Alike time.start time'.start := halike.second (by simp)
    have hlive₁' := halike.first.le_horizon.mp hlive₁
    rw [h.visit_or hpart hordinal (le_max_of_le_left hlive₁'), if_neg (not_lt.mpr hlive₁'),
      if_neg (not_lt.mpr (halike₂.le_horizon.mp hlive₂))]
    refine (Walk.decideBranch_inStep index ordinal).bind ?_
    rintro chosen _ rfl
    cases chosen with
    | false => exact hsecond ht time' ht' halike₂
    | true => exact hfirst ht time' ht' halike.first

/-! ## Replays in step -/

/-- Two replays that begin with the given acquisitions and match from there on. -/
structure ReplaysMatch (time time' : Slice) (replay replay' : Replay) : Prop where
  recorded : ∃ rest rest', replay.recorded = acquisition time :: rest ∧
    replay'.recorded = acquisition time' :: rest' ∧ List.Forall₂ Recorded.Matches rest rest'
  pending : Option.Rel Decision.Matches replay.pending replay'.pending
  payoff : Option.Rel Payoff.Matches replay.payoff replay'.payoff

/-- Courses in step come to replays that match. -/
theorem replaysMatch_of_inStep {course course' : Course Payoff}
    (h : course.InStep positional Payoff.Matches course') :
    ∃ replay replay', (course.after (acquisition time)).replay = .ok replay ∧
      (course'.after (acquisition time')).replay = .ok replay' ∧
      ReplaysMatch time time' replay replay' := by
  -- courses in step have both ended or both wait, and neither has failed
  cases h with
  | done hrecorded hpayoff =>
      exact ⟨_, _, rfl, rfl, ⟨_, _, rfl, rfl, hrecorded⟩, .none, .some hpayoff⟩
  | pending hrecorded hdecision =>
      exact ⟨_, _, rfl, rfl, ⟨_, _, rfl, rfl, hrecorded⟩, .some hdecision, .none⟩

/-- Two times in one slice of a contract, or both after its horizon. -/
def SameSlice (compiled : Compiled) (t t' : Int) : Prop :=
  (∃ range ∈ compiled.slices.ranges, .instant t ∈ range ∧ .instant t' ∈ range) ∨
    compiled.horizon < .instant t ∧ compiled.horizon < .instant t'

/-- No boundary parts the times in one slice. -/
theorem alike_of_mem_range (h : compiled.Sound) {range : Slice} {t t' : Int}
    (hrange : range ∈ compiled.slices.ranges) (ht : .instant t ∈ range)
    (ht' : .instant t' ∈ range) : compiled.tree.Alike t t' := by
  have hthrough : ∀ {u u' b : Int}, .instant u ∈ range → .instant u' ∈ range →
      compiled.tree.Boundary b → u ≤ b → u' ≤ b := by
    intro u u' b hu hu' hb hle
    rcases h.slices.covers.tiles.end_outside hrange ((h.slices.boundaries b).mpr hb) with hlt | hstop
    · have := Time.instant_le_instant.mp hu.1
      omega
    · exact Time.instant_le_instant.mp (le_trans hu'.2 hstop)
  exact fun b hb => ⟨hthrough ht ht' hb, hthrough ht' ht hb⟩

/-- Visits to the whole contract in one slice go in step. -/
theorem visit_tree_inStep (h : compiled.Sound) (hsame : compiled.SameSlice time.start time'.start)
    (ht : 0 ≤ time.start) (ht' : 0 ≤ time'.start) :
    (compiled.visit values compiled.tree time).InStep positional Payoff.Matches
      (compiled.visit values compiled.tree time') := by
  have hself := compiled.tree.self_mem_subtrees
  -- in one range no boundary parts the times, and after the horizon nothing is left to part
  rcases hsame with ⟨range, hrange, hmem, hmem'⟩ | ⟨hlate, hlate'⟩
  · exact visit_inStep h hself time ht time' ht' (alike_of_mem_range h hrange hmem hmem')
  · rw [h.horizon] at hlate hlate'
    rw [h.visit_expired hself hlate, h.visit_expired hself hlate']
    exact .done (.payment _ _ _)

/-- From two times in one slice, replays that pick the options at the same positions meet the same
decisions and come to the same payoff, whenever they are made. Either both find an option at each
position or neither does. -/
theorem picks_match {text : String} {parsed : Parsed} (hparse : parse text = .ok parsed) :
    ∃ compiled, compile text = .ok compiled ∧
      ∀ time time' : Slice, 0 ≤ time.start → 0 ≤ time'.start →
        compiled.SameSlice time.start time'.start →
        ∀ now now' includePast includePast' values positions,
          Option.Rel (fun choices choices' => ∃ replay replay',
              compiled.replay choices now includePast values = .ok replay ∧
              compiled.replay choices' now' includePast' values = .ok replay' ∧
              ReplaysMatch time time' replay replay')
            (compiled.picks now includePast values time positions)
            (compiled.picks now' includePast' values time' positions) := by
  rcases sound_of_parse hparse with ⟨compiled, hcompile, _, hsound⟩
  refine ⟨compiled, hcompile, fun time time' ht ht' hsame now now' past past' values ps => ?_⟩
  have hvisits : (compiled.visit values compiled.tree time).InStep positional Payoff.Matches
      (compiled.visit values compiled.tree time') := visit_tree_inStep hsound hsame ht ht'
  have hpicked := hvisits.picked ps
  rw [picks_eq hsound, picks_eq hsound]
  revert hpicked
  generalize (compiled.visit values compiled.tree time).picked ps = choices
  generalize (compiled.visit values compiled.tree time').picked ps = choices'
  -- both picks have found choices, or neither has
  rintro (hcourse | _)
  · refine .some ?_
    rw [replay_acquired hsound, replay_acquired hsound]
    exact replaysMatch_of_inStep hcourse
  · exact .none

/-- Two times before the end of the waiting, and the later branch taken at both. -/
theorem picks_match_of_waiting :
    parse waitingText = .ok waiting ∧ ∃ compiled, compile waitingText = .ok compiled ∧
      (0 : Int) ≤ 2 ∧ (0 : Int) ≤ 4 ∧ compiled.SameSlice 2 4 ∧
        Option.Rel (fun choices choices' => ∃ replay replay',
            compiled.replay choices 0 false (fun _ => none) = .ok replay ∧
            compiled.replay choices' 9 true (fun _ => none) = .ok replay' ∧
            ReplaysMatch (.moment 2) (.onwards 4) replay replay')
          (compiled.picks 0 false (fun _ => none) (.moment 2) [0])
          (compiled.picks 9 true (fun _ => none) (.onwards 4) [0]) := by
  have hparse : parse waitingText = .ok waiting := by rfl
  have hslices : (compile waitingText).toOption.map (·.slices.ranges) =
      some [⟨0, .instant 5, by decide⟩, .onwards 6] := by rfl
  rcases picks_match hparse with ⟨compiled, hcompile, hall⟩
  have hsame : compiled.SameSlice 2 4 := by
    rw [hcompile, Except.toOption, Option.map_some, Option.some.injEq] at hslices
    exact Or.inl ⟨_, hslices ▸ List.mem_cons_self, by decide, by decide⟩
  exact ⟨hparse, compiled, hcompile, by decide, by decide, hsame,
    hall (.moment 2) (.onwards 4) (by decide) (by decide) hsame 0 9 false true _ [0]⟩

end Compiled

end ContractAlgebra
