import ContractAlgebra.Proofs.Compiled.Renumbering
import ContractAlgebra.Proofs.Explanation
import ContractAlgebra.Proofs.StepThrough.Picking

/-!
# Walks through contracts with other labels

A walk asks for decisions by the labels of their nodes, and does nothing else with labels than to
look up compiled data and to compare them with those of recorded choices. So two contracts whose
data differ by a change of labels are walked through alike, up to this change
(`Compiled.Renumbered.replay_eq`).
-/

namespace ContractAlgebra

variable {α β : Type} {f : Nat → Nat}

/-! ## Changing the labels of decisions -/

/-- The node of a decision, with other labels. Numbers below 0 are no labels and stay as they are. -/
def renumberNode (f : Nat → Nat) : Int → Int
  | .ofNat label => f label
  | .negSucc n => .negSucc n

/-- Different nodes stay different. -/
theorem renumberNode_injective (hf : f.Injective) : (renumberNode f).Injective := by
  intro node node' h
  -- labels go to labels and other numbers to themselves, so the two kinds never meet
  cases node with
  | ofNat label =>
      cases node' with
      | ofNat label' =>
          have hlabel : (f label : Int) = f label' := h
          rw [hf (Int.ofNat_inj.mp hlabel)]
      | negSucc n => cases h
  | negSucc n =>
      cases node' with
      | ofNat label => cases h
      | negSucc n' => exact h

/-- A decision that has not been made, with other labels. -/
def Decision.renumber (f : Nat → Nat) (decision : Decision) : Decision :=
  { decision with node := renumberNode f decision.node }

/-- A decision that has been made, with other labels. -/
def Recorded.renumber (f : Nat → Nat) (recorded : Recorded) : Recorded :=
  { recorded with node := renumberNode f recorded.node }

/-- What a replay has come to, with other labels. -/
def Replay.renumber (f : Nat → Nat) (replay : Replay) : Replay where
  recorded := replay.recorded.map (·.renumber f)
  pending := replay.pending.map (·.renumber f)
  payoff := replay.payoff

/-- A cause, with other labels in the causes that name nodes of a contract. -/
def Cause.renumber (f : Nat → Nat) : Cause → Cause
  | mismatch recorded recordedNode pending node =>
    mismatch recorded (renumberNode f recordedNode) pending (renumberNode f node)
  | deleteUnknown node => deleteUnknown (renumberNode f node)
  | deleteAutomatic node => deleteAutomatic (renumberNode f node)
  | cause => cause

/-- A node is short enough to be written under its new label just if it is under the old one. Nodes of
contracts are so in any case, but a choice or a request may name any number. -/
def KeepsShort (f : Nat → Nat) (node : Int) : Prop :=
  Text.isShort (renumberNode f node) = Text.isShort node

/-- A failure, with other labels in the failures that name nodes of a contract. -/
def Failure.renumber (f : Nat → Nat) : Failure → Failure
  | rejected rejection => rejected { rejection with cause := rejection.cause.renumber f }
  | noNode index => noNode (renumberNode f index)
  | failure => failure

/-- What cannot be explained cannot be explained with other labels either. -/
theorem Failure.because_renumber (cause : Cause) (position : Option Int)
    (h : (cause.renumber f).isShort = cause.isShort) :
    (because cause position).renumber f = because (cause.renumber f) position := by
  rw [because_eq, because_eq, h]
  cases cause.isShort <;> rfl

/-- A result, with other labels in the failure if it is one. -/
def renumberFailure (f : Nat → Nat) (result : Except Failure α) : Except Failure α :=
  result.mapError (Failure.renumber f)

/-! ## Walks -/

namespace Walk

/-- A walk, with other labels. -/
def renumber (f : Nat → Nat) : Walk α → Walk α
  | done value => done value
  | failed failure => failed (failure.renumber f)
  | record recorded rest => record (recorded.renumber f) (rest.renumber f)
  | ask decision next => ask (decision.renumber f) fun choice => (next choice).renumber f

/-- A walk and what follows it get their labels together. -/
theorem renumber_bind (walk : Walk α) (next : α → Walk β) :
    (walk.bind next).renumber f = (walk.renumber f).bind fun a => (next a).renumber f := by
  -- the end of the walk is where the next one begins
  induction walk with
  | done value => rfl
  | failed failure => rfl
  | record recorded rest ih => exact congrArg (record _) ih
  | ask decision rest ih => exact congrArg (ask _) (funext ih)

/-- One walk after another has other labels if both have. -/
theorem bind_eq_renumber {walk walk' : Walk α} {next next' : α → Walk β}
    (h : walk' = walk.renumber f) (hnext : ∀ a, next' a = (next a).renumber f) :
    walk'.bind next' = (walk.bind next).renumber f := by
  rw [renumber_bind, h, funext hnext]

/-- A decision on a time has one label only, that of its node. -/
theorem decideTime_eq_renumber (kind : DecisionKind) (node ordinal : Int) (options : List Slice) :
    decideTime kind (renumberNode f node) ordinal options =
      (decideTime kind node ordinal options).renumber f := by
  apply congrArg (ask _)
  funext choice
  cases choice <;> rfl

/-- A decision on a branch has one label only. -/
theorem decideBranch_eq_renumber (node ordinal : Int) :
    decideBranch (renumberNode f node) ordinal = (decideBranch node ordinal).renumber f := by
  apply congrArg (ask _)
  funext choice
  cases choice <;> rfl

/-- A time is decided on alike among any options, be it by choice or not. -/
theorem decideAmong_eq_renumber (node : Nat) (ordinal : Int) (options : List Slice) :
    decideAmong (f node) ordinal options = (decideAmong node ordinal options).renumber f := by
  match options with
  | [] => exact decideTime_eq_renumber .anytime node ordinal []
  | [_] => rfl
  | first :: second :: rest => exact decideTime_eq_renumber .anytime node ordinal _

end Walk

/-! ## Visits -/

namespace Compiled.Renumbered

variable {compiled compiled' : Compiled} {values : Nat → Option Int}

/-- What is on offer at an `anytime` is on offer with other labels. -/
theorem offersAt (h : compiled.Renumbered f compiled') {index ordinal : Nat} {body : Tree Nat}
    {start : Int} {options : List Slice}
    (hoffers : compiled.OffersAt index ordinal body start options) :
    compiled'.OffersAt (f index) ordinal (body.map f) start options where
  slices := by
    rw [h.anytimeSlices?]
    exact hoffers.slices
  counted := by rw [h.anytimeOrdinal?, hoffers.counted]
  place := by
    rw [h.tree.tree_eq, Tree.labelsOf_map, List.getElem?_map, hoffers.place]
    rfl
  offers := by
    obtain ⟨htiles, hends⟩ := hoffers.offers
    refine ⟨?_, fun b => ?_⟩
    · rwa [Tree.horizon_map]
    · rw [hends, Tree.boundary_map]

/-- A part of a contract is visited alike in one compiled contract and, with other labels, in
another, at any time. -/
theorem visit_eq (h : compiled.Renumbered f compiled') (hsound : compiled.Sound) {part : Tree Nat}
    (hpart : part ∈ compiled.tree.subtrees) (time : Slice) :
    compiled'.visit values (part.map f) time = (compiled.visit values part time).renumber f := by
  have hsound' := h.sound hsound
  -- the horizons of all parts are the same under both labels, so each case is the same
  apply hsound.visit_induction (motive := fun part time visit =>
    compiled'.visit values (part.map f) time = (visit values).renumber f) hpart time
  case expired =>
    intro part time hpart hlate
    refine hsound'.visit_expired (h.map_mem_subtrees hpart) ?_
    rwa [Tree.horizon_map]
  case leaf =>
    intro index op time hpart
    exact hsound'.visit_leaf (h.map_mem_subtrees hpart)
  case give =>
    intro index body time hpart hlive hbody
    rw [← body.horizon_map f] at hlive
    refine (hsound'.visit_give (h.map_mem_subtrees hpart) hlive).trans ?_
    exact Walk.bind_eq_renumber hbody fun _ => rfl
  case truncate =>
    intro index date body time hpart hlive hbody
    rw [← Tree.horizon_map f] at hlive
    exact (hsound'.visit_truncate (h.map_mem_subtrees hpart) hlive).trans hbody
  case constant =>
    intro index n body time hpart hlive hbody
    rw [← body.horizon_map f] at hlive
    refine (hsound'.visit_constant (h.map_mem_subtrees hpart) hlive).trans ?_
    exact Walk.bind_eq_renumber hbody fun _ => rfl
  case observable =>
    intro index o body time ordinal hpart hordinal _ hlive hbody
    rw [← body.horizon_map f] at hlive
    rw [← h.observableOrdinal?] at hordinal
    refine (hsound'.visit_observable (h.map_mem_subtrees hpart) hordinal hlive).trans ?_
    exact Walk.bind_eq_renumber hbody fun _ => rfl
  case never =>
    intro index body time hpart hhorizon
    rw [← body.horizon_map f] at hhorizon
    exact hsound'.visit_get_unbounded (h.map_mem_subtrees hpart) hhorizon
  case get =>
    intro index body time horizon hpart hhorizon hle hbody
    rw [← body.horizon_map f] at hhorizon
    refine (hsound'.visit_get_instant (h.map_mem_subtrees hpart) hhorizon hle).trans ?_
    exact congrArg (Walk.record _) hbody
  case anytime =>
    intro index body time ordinal options hpart hoffers hlive hbody
    rw [← body.horizon_map f] at hlive
    refine (hsound'.visit_anytime (h.map_mem_subtrees hpart) (h.offersAt hoffers) hlive).trans ?_
    exact Walk.bind_eq_renumber (Walk.decideAmong_eq_renumber index ordinal options) hbody
  case and =>
    intro index first second time hpart hlive hfirst hsecond
    rw [← first.horizon_map f, ← second.horizon_map f] at hlive
    refine (hsound'.visit_and (h.map_mem_subtrees hpart) hlive).trans ?_
    exact Walk.bind_eq_renumber hfirst fun _ => Walk.bind_eq_renumber hsecond fun _ => rfl
  case inTurn =>
    intro index first second time hpart hlive hfirst
    rw [← first.horizon_map f] at hlive
    refine (hsound'.visit_andThen (h.map_mem_subtrees hpart) (le_max_of_le_left hlive)).trans ?_
    rw [if_neg (not_lt.mpr hlive), hfirst]
  case afterwards =>
    intro index first second time hpart hlate hlive hsecond
    rw [← first.horizon_map f] at hlate
    rw [← second.horizon_map f] at hlive
    refine (hsound'.visit_andThen (h.map_mem_subtrees hpart) (le_max_of_le_right hlive)).trans ?_
    rw [if_pos hlate, hsecond]
  case orSecond =>
    intro index first second time ordinal hpart hordinal _ hlate hlive hsecond
    rw [← first.horizon_map f] at hlate
    rw [← second.horizon_map f] at hlive
    rw [← h.orOrdinal?] at hordinal
    refine (hsound'.visit_or (h.map_mem_subtrees hpart) hordinal
      (le_max_of_le_right hlive)).trans ?_
    rw [if_pos hlate]
    exact congrArg (Walk.record _) hsecond
  case orFirst =>
    intro index first second time ordinal hpart hordinal _ hlive hlate hfirst
    rw [← first.horizon_map f] at hlive
    rw [← second.horizon_map f] at hlate
    rw [← h.orOrdinal?] at hordinal
    refine (hsound'.visit_or (h.map_mem_subtrees hpart) hordinal (le_max_of_le_left hlive)).trans ?_
    rw [if_neg (not_lt.mpr hlive), if_pos hlate]
    exact congrArg (Walk.record _) hfirst
  case or =>
    intro index first second time ordinal hpart hordinal _ hlive₁ hlive₂ hfirst hsecond
    rw [← first.horizon_map f] at hlive₁
    rw [← second.horizon_map f] at hlive₂
    rw [← h.orOrdinal?] at hordinal
    refine (hsound'.visit_or (h.map_mem_subtrees hpart) hordinal (le_max_of_le_left hlive₁)).trans ?_
    rw [if_neg (not_lt.mpr hlive₁), if_neg (not_lt.mpr hlive₂)]
    refine Walk.bind_eq_renumber (Walk.decideBranch_eq_renumber index _) fun chosen => ?_
    cases chosen with
    | false => exact hsecond
    | true => exact hfirst

/-- The slices on offer for the acquisition of the whole contract do not depend on labels. -/
theorem topOptions_eq (h : compiled.Renumbered f compiled') (now : Int) (includePast : Bool) :
    compiled'.topOptions now includePast = compiled.topOptions now includePast := by
  unfold topOptions
  rw [h.horizon, h.slices]

/-- The walk through a contract with other labels has these labels. -/
theorem walk_eq (h : compiled.Renumbered f compiled') (hsound : compiled.Sound) (now : Int)
    (includePast : Bool) (values : Nat → Option Int) :
    compiled'.walk now includePast values = (compiled.walk now includePast values).renumber f := by
  obtain ⟨options, hoptions⟩ := exists_topOptions hsound now includePast
  unfold walk
  rw [h.topOptions_eq, hoptions, h.tree.tree_eq]
  -- the acquisition is no node of the contract, so it keeps its label
  show (Walk.decideTime .acquisition (renumberNode f topNode) noOrdinal options).bind _ =
    ((Walk.decideTime .acquisition topNode noOrdinal options).bind _).renumber f
  apply Walk.bind_eq_renumber (Walk.decideTime_eq_renumber ..)
  exact h.visit_eq hsound compiled.tree.self_mem_subtrees

end Compiled.Renumbered

/-! ## Replays -/

/-- How a walk went, with other labels. -/
def Course.renumber (f : Nat → Nat) : Course α → Course α
  | done recorded unused value =>
    done (recorded.map (·.renumber f)) (unused.map (·.renumber f)) value
  | pending recorded decision => pending (recorded.map (·.renumber f)) (decision.renumber f)
  | failed failure => failed (failure.renumber f)

/-- What comes first in a course gets its label with the rest. -/
theorem Course.after_renumber (first : Recorded) (course : Course α) :
    (course.renumber f).after (first.renumber f) = (course.after first).renumber f := by
  cases course <;> rfl

/-- With other labels, a walk takes the choices that it takes without them. If it fails, one of their
nodes may have to be shown. -/
theorem Walk.run_renumber (hf : f.Injective) (walk : Walk α) (choices : List Recorded)
    (hshown : ∀ failure, walk.run choices = .failed failure →
      ∀ choice ∈ choices, KeepsShort f choice.node) :
    (walk.renumber f).run (choices.map (·.renumber f)) = (walk.run choices).renumber f := by
  -- choices are used up where the walk asks
  induction walk generalizing choices with
  | done value => rfl
  | failed failure => rfl
  | record recorded rest ih =>
      have hrest := ih choices fun failure hfailed => hshown failure (by rw [run, hfailed]; rfl)
      simp only [renumber, run, hrest, Course.after_renumber]
  | ask decision next ih =>
      cases choices with
      | nil => rfl
      | cons choice choices =>
          have hmatches : (choice.renumber f).kind = (decision.renumber f).kind ∧
              (choice.renumber f).node = (decision.renumber f).node ↔
                choice.kind = decision.kind ∧ choice.node = decision.node :=
            and_congr_right fun _ => (renumberNode_injective hf).eq_iff
          unfold run at hshown
          simp only [renumber, List.map_cons, run, hmatches]
          split
          · next hanswers =>
              -- the choice is taken, and the later ones are shown if the rest fails
              rw [if_pos hanswers] at hshown
              have hrest := ih choice.value choices fun failure hfailed => by
                have hall := hshown failure (by rw [hfailed]; rfl)
                exact (List.forall_mem_cons.mp hall).2
              have hafter := congrArg (Course.after (choice.renumber f)) hrest
              exact hafter.trans (Course.after_renumber ..)
          · next hanswers =>
              -- the walk fails here, and shows the node of the choice
              rw [if_neg hanswers] at hshown
              have hnode := hshown _ rfl choice (List.mem_cons_self ..)
              have hfailed := Failure.because_renumber
                (.mismatch choice.kind choice.node decision.kind decision.node) none hnode
              exact congrArg Course.failed hfailed.symm

/-- What a course has come to shows the labels of the course. -/
theorem Course.replay_renumber (course : Course Payoff) :
    (course.renumber f).replay = renumberFailure f (course.replay.map (Replay.renumber f)) := by
  cases course <;> rfl

namespace Compiled.Renumbered

variable {compiled compiled' : Compiled}

/-- Choices with other labels are replayed over a contract with these labels as the choices are over
the contract, also where they do not fit. -/
theorem replay_eq (h : compiled.Renumbered f compiled') (hsound : compiled.Sound)
    (choices : List Recorded) (now : Int) (includePast : Bool) (values : Nat → Option Int)
    (hshown : ∀ failure, compiled.replay choices now includePast values = .error failure →
      ∀ choice ∈ choices, KeepsShort f choice.node) :
    compiled'.replay (choices.map (·.renumber f)) now includePast values =
      renumberFailure f
        ((compiled.replay choices now includePast values).map (Replay.renumber f)) := by
  unfold replay at hshown ⊢
  rw [h.walk_eq hsound, Walk.run_renumber h.tree.injective, Course.replay_renumber]
  intro failure hfailed
  exact hshown failure (by rw [hfailed]; rfl)

end Compiled.Renumbered

end ContractAlgebra
