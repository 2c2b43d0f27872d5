import ContractAlgebra.Proofs.StepThrough.Picking
import ContractAlgebra.Proofs.Valuation.Amount
import ContractAlgebra.Proofs.Valuation.Worth

/-!
# Replays find what a contract can be worth

The payoffs of complete replays are compared with the meaning of the contract, one combinator after
the other. `Walk.Yields` is the relation that is carried through the walk: the payoffs it can end
with come to the given amounts, and to all of them.
-/

namespace ContractAlgebra

/-- The payoffs that a walk can end with come to just the given amounts. -/
structure Walk.Yields (walk : Walk Payoff) (amounts : Set Int) : Prop where
  sound : ∀ payoff, walk.EndsIn payoff → ∃ x ∈ amounts, payoff.ComesTo x
  complete : ∀ x ∈ amounts, ∃ payoff, walk.EndsIn payoff ∧ payoff.ComesTo x

namespace Walk

variable {walk other : Walk Payoff} {xs ys : Set Int}

/-- A walk that ends at once yields its payoff. -/
theorem yields_done {payoff : Payoff} {x : Int} (h : payoff.ComesTo x) :
    (done payoff).Yields {x} where
  sound := by
    rintro _ rfl
    exact ⟨x, rfl, h⟩
  complete := by
    rintro _ rfl
    exact ⟨payoff, rfl, h⟩

/-- What is recorded on the way does not change what a walk yields. -/
theorem Yields.record (h : walk.Yields xs) (recorded : Recorded) :
    (record recorded walk).Yields xs :=
  ⟨h.sound, h.complete⟩

/-- A change to every payoff changes every amount. -/
theorem Yields.map {f : Payoff → Payoff} {g : Int → Int} (h : walk.Yields xs)
    (hf : ∀ payoff x, payoff.ComesTo x → (f payoff).ComesTo (g x)) :
    (walk.bind fun payoff => done (f payoff)).Yields {y | ∃ x ∈ xs, g x = y} where
  sound := by
    intro payoff hends
    rcases endsIn_bind.mp hends with ⟨a, ha, rfl⟩
    rcases h.sound a ha with ⟨x, hx, hcomes⟩
    exact ⟨g x, ⟨x, hx, rfl⟩, hf a x hcomes⟩
  complete := by
    intro _ h
    rcases h with ⟨x, hx, rfl⟩
    rcases h.complete x hx with ⟨a, ha, hcomes⟩
    exact ⟨f a, endsIn_bind.mpr ⟨a, ha, rfl⟩, hf a x hcomes⟩

/-- One walk after the other adds the amounts of both. -/
theorem Yields.add (h : walk.Yields xs) (h' : other.Yields ys) :
    (walk.bind fun payoff => other.bind fun payoff' => done (payoff.add payoff')).Yields
      {z | ∃ x ∈ xs, ∃ y ∈ ys, x + y = z} where
  sound := by
    intro payoff hends
    -- the payoff is a sum, of one that each of the two walks ends with
    rcases endsIn_bind.mp hends with ⟨a, ha, hrest⟩
    rcases endsIn_bind.mp hrest with ⟨b, hb, rfl⟩
    rcases h.sound a ha with ⟨x, hx, hcomes⟩
    rcases h'.sound b hb with ⟨y, hy, hcomes'⟩
    exact ⟨x + y, ⟨x, hx, y, hy, rfl⟩, hcomes.add hcomes'⟩
  complete := by
    intro _ h
    rcases h with ⟨x, hx, y, hy, rfl⟩
    rcases h.complete x hx with ⟨a, ha, hcomes⟩
    rcases h'.complete y hy with ⟨b, hb, hcomes'⟩
    exact ⟨a.add b, endsIn_bind.mpr ⟨a, ha, endsIn_bind.mpr ⟨b, hb, rfl⟩⟩, hcomes.add hcomes'⟩

/-- Between two branches either can be taken. -/
theorem Yields.either (h : walk.Yields xs) (h' : other.Yields ys) (index ordinal : Int) :
    ((decideBranch index ordinal).bind fun chosen => if chosen then walk else other).Yields
      {x | x ∈ xs ∨ x ∈ ys} := by
  -- the ends are those of the first walk and those of the second
  have hends : ∀ payoff,
      ((decideBranch index ordinal).bind fun chosen => if chosen then walk else other).EndsIn
        payoff ↔ walk.EndsIn payoff ∨ other.EndsIn payoff := by
    intro payoff
    simp [decideBranch, decide, EndsIn]
  constructor
  · intro payoff hp
    rcases (hends payoff).mp hp with hp | hp
    · rcases h.sound payoff hp with ⟨x, hx, hcomes⟩
      exact ⟨x, Or.inl hx, hcomes⟩
    · rcases h'.sound payoff hp with ⟨x, hx, hcomes⟩
      exact ⟨x, Or.inr hx, hcomes⟩
  · rintro x (hx | hx)
    · rcases h.complete x hx with ⟨payoff, hp, hcomes⟩
      exact ⟨payoff, (hends payoff).mpr (Or.inl hp), hcomes⟩
    · rcases h'.complete x hx with ⟨payoff, hp, hcomes⟩
      exact ⟨payoff, (hends payoff).mpr (Or.inr hp), hcomes⟩

/-- Among some slices each can be chosen, also if there is but one. -/
theorem endsIn_decideAmong {next : Slice → Walk Payoff} {index ordinal : Int}
    {options : List Slice} {payoff : Payoff} :
    ((decideAmong index ordinal options).bind next).EndsIn payoff ↔
      ∃ option ∈ options, (next option).EndsIn payoff := by
  -- with one slice nothing is asked, and the walk goes on with it
  match options with
  | [] => simp [decideAmong, decideTime, decide, EndsIn]
  | [only] => simp [decideAmong, EndsIn]
  | _ :: _ :: _ => simp [decideAmong, decideTime, decide, EndsIn]

/-- Among some slices, all that follows any of them is yielded. -/
theorem Yields.among {next : Slice → Walk Payoff} {index ordinal : Int} {options : List Slice}
    {amounts : Slice → Set Int} (h : ∀ option ∈ options, (next option).Yields (amounts option)) :
    ((decideAmong index ordinal options).bind next).Yields
      {x | ∃ option ∈ options, x ∈ amounts option} where
  sound := by
    intro payoff hends
    rcases endsIn_decideAmong.mp hends with ⟨option, hmem, hends⟩
    rcases (h option hmem).sound payoff hends with ⟨x, hx, hcomes⟩
    exact ⟨x, ⟨option, hmem, hx⟩, hcomes⟩
  complete := by
    intro x h
    rcases h with ⟨option, hmem, hx⟩
    rcases (h option hmem).complete x hx with ⟨payoff, hends, hcomes⟩
    exact ⟨payoff, endsIn_decideAmong.mpr ⟨option, hmem, hends⟩, hcomes⟩

end Walk

namespace Compiled

/-- The values of the observables by their places. -/
def valuation (compiled : Compiled) (assigned : Observable → Int) (place : Nat) : Option Int :=
  (compiled.observables[place]?).map fun (_, o) => assigned o

variable {compiled : Compiled} {assigned : Observable → Int} {time : Slice}

/-- The starts of the slices on offer stand for all later times. -/
theorem worth_offers {body : Tree Nat} {start : Int} {options : List Slice}
    (h : body.Offers start options) (hstart : 0 ≤ start) :
    {x | ∃ option ∈ options, x ∈ body.worth assigned option.start} =
      {x | ∃ t, start ≤ t ∧ .instant t ≤ body.horizon ∧ x ∈ body.worth assigned t} := by
  ext x
  constructor
  · intro h
    rcases h with ⟨option, hmem, hx⟩
    rcases h.start_within hmem with ⟨hle, _, hstop⟩
    exact ⟨option.start, hle, hstop, hx⟩
  · intro h
    rcases h with ⟨t, hle, hstop, hx⟩
    -- the instant lies in a slice on offer, the start of which is alike
    rcases h.exists_mem hle (le_trans hstart hle) hstop with ⟨option, hmem, ht⟩
    exact ⟨option, hmem, Tree.worth_alike (h.alike hmem ht) ▸ hx⟩

/-- A visit yields what the part of the contract can be worth at the start of the slice. -/
theorem visit_yields (h : compiled.Sound) {part : Tree Nat} (hpart : part ∈ compiled.tree.subtrees)
    (time : Slice) (htime : 0 ≤ time.start) :
    (compiled.visit (compiled.valuation assigned) part time).Yields
      (part.worth assigned time.start) := by
  revert htime
  apply h.visit_induction (motive := fun part time visit => 0 ≤ time.start →
    (visit (compiled.valuation assigned)).Yields (part.worth assigned time.start)) hpart time
  case expired =>
    intro part time _ hlate _
    rw [Tree.worth_expired hlate]
    exact Walk.yields_done (Payoff.comesTo_payment _ _)
  case leaf =>
    intro index op time _ _
    rw [Tree.worth_leaf]
    exact Walk.yields_done (Payoff.comesTo_payment _ _)
  case give =>
    intro index body time _ hlive hbody htime
    rw [Tree.worth_give hlive]
    exact (hbody htime).map fun payoff x hx => by simpa using hx.scale (-1)
  case truncate =>
    intro index date body time _ hlive hbody htime
    rw [Tree.worth_truncate hlive]
    exact hbody htime
  case constant =>
    intro index n body time _ hlive hbody htime
    rw [Tree.worth_scale hlive]
    exact (hbody htime).map fun payoff x hx => hx.scale n
  case observable =>
    intro index o body time ordinal _ _ hplace hlive hbody htime
    have hvalue : compiled.valuation assigned ordinal = some (assigned o) := by
      simp [valuation, h.observables, hplace]
    dsimp only
    rw [hvalue, Tree.worth_scale hlive]
    exact (hbody htime).map fun payoff x hx => hx.scale (assigned o)
  case never =>
    intro index body time _ hhorizon _
    rw [Tree.worth_get_unbounded hhorizon]
    exact Walk.yields_done (Payoff.comesTo_payment _ _)
  case get =>
    intro index body time horizon _ hhorizon hle hbody htime
    have hzero : 0 ≤ (Slice.moment horizon).start := le_trans htime hle
    rw [Tree.worth_get_instant hhorizon hle]
    exact (hbody hzero).record _
  case anytime =>
    -- the worth ranges over instants, the walk over the starts of slices
    intro index body time ordinal options _ hoffers hlive hbody htime
    rw [Tree.worth_anytime hlive, ← worth_offers hoffers.offers htime]
    exact Walk.Yields.among fun option hmem => hbody _ (hoffers.offers.start_within hmem).2.1
  case and =>
    intro index first second time _ hlive hfirst hsecond htime
    rw [Tree.worth_and hlive]
    exact (hfirst htime).add (hsecond htime)
  case inTurn =>
    intro index first second time _ hlive hfirst htime
    rw [Tree.worth_andThen (le_max_of_le_left hlive), if_pos hlive]
    exact hfirst htime
  case afterwards =>
    intro index first second time _ hlate hlive hsecond htime
    rw [Tree.worth_andThen (le_max_of_le_right hlive), if_neg (not_le.mpr hlate)]
    exact hsecond htime
  -- a branch that has expired is not taken, so it adds nothing to the worth
  case orSecond =>
    intro index first second time ordinal _ _ _ hlate hlive hsecond htime
    rw [Tree.worth_or (le_max_of_le_right hlive)]
    simpa only [not_le.mpr hlate, hlive, true_and, false_and, false_or,
      Set.ofPred_mem_eq] using (hsecond htime).record _
  case orFirst =>
    intro index first second time ordinal _ _ _ hlive hlate hfirst htime
    rw [Tree.worth_or (le_max_of_le_left hlive)]
    simpa only [not_le.mpr hlate, hlive, true_and, false_and, or_false,
      Set.ofPred_mem_eq] using (hfirst htime).record _
  case or =>
    intro index first second time ordinal _ _ _ hlive₁ hlive₂ hfirst hsecond htime
    rw [Tree.worth_or (le_max_of_le_left hlive₁)]
    simpa only [hlive₁, hlive₂, true_and]
      using (hfirst htime).either (hsecond htime) index ordinal

/-! ## Complete replays -/

/-- The values of the payoffs of complete replays that begin with an acquisition at some time and in
which every choice after it is one of the offered options. -/
def amounts (compiled : Compiled) (now : Int) (includePast : Bool) (values : Nat → Option Int)
    (time : Slice) : Set (Option Int) :=
  {amount | ∃ positions choices recorded payoff,
    compiled.picks now includePast values time positions = some choices ∧
    compiled.replay choices now includePast values = .ok ⟨recorded, none, some payoff⟩ ∧
    payoff.amount? = amount}

/-- What a course comes to is complete if nothing is left to decide. -/
theorem replay_eq_complete {course : Course Payoff} {first : Recorded} {payoff : Payoff} :
    (∃ recorded, (course.after first).replay = .ok ⟨recorded, none, some payoff⟩) ↔
      ∃ recorded unused, course = .done recorded unused payoff := by
  -- a course that waits or has failed is not complete
  cases course with
  | done recorded unused value =>
      simp only [Course.after, Course.replay, Except.ok.injEq, Replay.mk.injEq, true_and,
        Option.some.injEq, Course.done.injEq]
      constructor
      · intro h
        rcases h with ⟨_, _, rfl⟩
        exact ⟨recorded, unused, rfl, rfl, rfl⟩
      · intro h
        rcases h with ⟨_, _, _, _, rfl⟩
        exact ⟨_, rfl, rfl⟩
  | pending => simp [Course.after, Course.replay]
  | failed => simp [Course.after, Course.replay]

/-- The amounts are those that the visit can end with. -/
theorem mem_amounts (h : compiled.Sound) {now : Int} {includePast : Bool}
    {values : Nat → Option Int} {amount : Option Int} :
    amount ∈ compiled.amounts now includePast values time ↔ ∃ payoff,
      (compiled.visit values compiled.tree time).EndsIn payoff ∧ payoff.amount? = amount := by
  -- positions pick an end of the walk, and every end is picked by some
  constructor
  · intro h
    rcases h with ⟨positions, choices, recorded, payoff, hpicks, hreplay, hamount⟩
    rcases (picks_eq_some h).mp hpicks with ⟨rest, hpicked, rfl⟩
    rw [replay_acquired h] at hreplay
    rcases replay_eq_complete.mp ⟨recorded, hreplay⟩ with ⟨recorded', unused, hrun⟩
    exact ⟨payoff, Walk.endsIn_iff.mpr ⟨positions, rest, recorded', unused, hpicked, hrun⟩, hamount⟩
  · intro h
    rcases h with ⟨payoff, hends, hamount⟩
    rcases Walk.endsIn_iff.mp hends with ⟨positions, rest, recorded, unused, hpicked, hrun⟩
    rcases replay_eq_complete.mpr ⟨recorded, unused, hrun⟩ with ⟨recorded', hreplay⟩
    rw [← replay_acquired h] at hreplay
    exact ⟨positions, acquisition time :: rest, recorded', payoff,
      (picks_eq_some h).mpr ⟨rest, hpicked, rfl⟩, hreplay, hamount⟩

/-- Complete replays from any time on come to the amounts that the contract can be worth then, and
to all of them; and an acquisition at that time is on offer. -/
theorem amounts_eq_worth {text : String} {parsed : Parsed} (hparse : parse text = .ok parsed) :
    ∃ compiled, compile text = .ok compiled ∧
      ∀ (assigned : Observable → Int) (t : Int), 0 ≤ t →
        (∀ now includePast time, time.start = t →
          compiled.amounts now includePast (compiled.valuation assigned) time =
            some '' parsed.tree.worth assigned t) ∧
        ∃ decision time,
          compiled.replay [] t false (compiled.valuation assigned) =
            .ok ⟨[], some decision, none⟩ ∧
          .slice time ∈ decision.options ∧
          decision.chosen (.slice time) = acquisition time ∧ time.start = t := by
  rcases sound_of_parse hparse with ⟨compiled, hcompile, rfl, hsound⟩
  refine ⟨compiled, hcompile, fun assigned t ht => ⟨?_, exists_offered hsound ht⟩⟩
  -- complete replays are the ends of the walk, which come to the worth
  rintro now includePast time rfl
  have hyields : (compiled.visit (compiled.valuation assigned) compiled.tree time).Yields
      (compiled.tree.worth assigned time.start) :=
    visit_yields hsound (Tree.self_mem_subtrees _) time ht
  ext amount
  rw [mem_amounts hsound]
  constructor
  · intro h
    rcases h with ⟨payoff, hends, rfl⟩
    rcases hyields.sound payoff hends with ⟨x, hx, hcomes⟩
    exact ⟨x, hx, hcomes.amount?.symm⟩
  · intro h
    rcases h with ⟨x, hx, rfl⟩
    rcases hyields.complete x hx with ⟨payoff, hends, hcomes⟩
    exact ⟨payoff, hends, hcomes.amount?⟩

/-- A choice between waiting for a payment and an obligation. -/
theorem amounts_eq_worth_of_waiting :
    parse waitingText = .ok waiting ∧ (0 : Int) ≤ 3 ∧
      ∃ compiled, compile waitingText = .ok compiled ∧
        compiled.amounts 0 false (compiled.valuation fun _ => 0) (.moment 3) =
          some '' waiting.tree.worth (fun _ => 0) 3 := by
  have hparse : parse waitingText = .ok waiting := by rfl
  rcases amounts_eq_worth hparse with ⟨compiled, hcompile, hall⟩
  have hle : (0 : Int) ≤ 3 := by decide
  exact ⟨hparse, hle, compiled, hcompile, (hall (fun _ => 0) 3 hle).1 0 false (.moment 3) rfl⟩

end Compiled

end ContractAlgebra
