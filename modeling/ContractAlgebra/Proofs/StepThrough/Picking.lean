import ContractAlgebra.Proofs.StepThrough.Acquisition
import ContractAlgebra.Proofs.StepThrough.Visit

/-!
# Replays in which options are picked

After the choice of an acquisition time, a replay is brought to its end by answering each pending
decision with one of its options. `Compiled.picks` does so by the positions of the options, through
replays alone; it is shown to pick along the walk (`picks_eq_some`), and the acquisition itself is
shown to be on offer (`exists_offered`).
-/

namespace ContractAlgebra

/-- A contract on which theorems are tried out: a payment that can be waited for, or an obligation. -/
def waitingText : String :=
  "or anytime truncate 5 one give one"

/-- What is read from that text. -/
def waiting : Parsed where
  atoms := ["or", "anytime", "truncate", "5", "one", "give", "one"]
  tree := .binary 0 .or (.unary 1 .anytime (.unary 2 (.truncate 5) (.leaf 4 .one)))
    (.unary 5 .give (.leaf 6 .one))

/-- The choice of a time for the acquisition of the whole contract. -/
def acquisition (time : Slice) : Recorded :=
  ⟨.acquisition, .slice time, topNode, noOrdinal, false⟩

namespace Compiled

/-- Some choices and one more: the option at a position of the decision that is pending. -/
def pick (compiled : Compiled) (now : Int) (includePast : Bool) (values : Nat → Option Int)
    (choices : List Recorded) (position : Nat) : Option (List Recorded) :=
  match compiled.replay choices now includePast values with
  | .ok replay => do
    let decision ← replay.pending
    return choices ++ [decision.chosen (← decision.options[position]?)]
  | .error _ => none

/-- The choices after an acquisition at some time, when each decision that is pending then is
answered with the option at the next of some positions. -/
def picks (compiled : Compiled) (now : Int) (includePast : Bool) (values : Nat → Option Int)
    (time : Slice) (positions : List Nat) : Option (List Recorded) :=
  positions.foldlM (compiled.pick now includePast values) [acquisition time]

variable {compiled : Compiled} {now : Int} {includePast : Bool} {values : Nat → Option Int}
  {time : Slice}

/-! ## The acquisition -/

/-- What follows the choice of an acquisition time. -/
def acquire (compiled : Compiled) (values : Nat → Option Int) : Choice → Walk Payoff
  | .slice time => compiled.visit values compiled.tree time
  | .branch _ => .failed .branchAsTime

/-- The decision on the acquisition of the whole contract. -/
def acquisitionAmong (options : List Slice) : Decision :=
  ⟨.acquisition, options.map .slice, topNode, noOrdinal⟩

/-- A walk begins with the decision on the acquisition. -/
theorem exists_walk_eq (h : compiled.Sound) (now : Int) (includePast : Bool) :
    ∃ options, compiled.topOptions now includePast = .ok options ∧ ∀ values,
      compiled.walk now includePast values =
        .ask (acquisitionAmong options) (compiled.acquire values) := by
  rcases exists_topOptions h now includePast with ⟨options, hoptions⟩
  refine ⟨options, hoptions, fun values => ?_⟩
  simp only [walk, hoptions, Walk.ofExcept, Walk.decideTime, Walk.decide, Walk.bind_eq,
    Walk.pure_eq, Walk.done_bind, Walk.ask_bind, acquisitionAmong]
  congr 1
  funext choice
  -- a slice leads into the tree, a branch to the end
  cases choice <;> rfl

/-- At every time the contract can be acquired then. -/
theorem exists_offered (h : compiled.Sound) {now : Int} (hnow : 0 ≤ now) :
    ∃ decision time, compiled.replay [] now false values = .ok ⟨[], some decision, none⟩ ∧
      .slice time ∈ decision.options ∧ decision.chosen (.slice time) = acquisition time ∧
      time.start = now := by
  rcases exists_walk_eq h now false with ⟨options, hoptions, hwalk⟩
  rcases exists_option_at h hnow hoptions with ⟨time, hmem, hstart⟩
  refine ⟨acquisitionAmong options, time, ?_, List.mem_map_of_mem hmem, rfl, hstart⟩
  rw [replay, hwalk]
  rfl

/-- After the acquisition a replay goes through the contract's tree. -/
theorem replay_acquired (h : compiled.Sound) (choices : List Recorded) :
    compiled.replay (acquisition time :: choices) now includePast values =
      (((compiled.visit values compiled.tree time).run choices).after (acquisition time)).replay := by
  rcases exists_walk_eq h now includePast with ⟨options, _, hwalk⟩
  rw [replay, hwalk]
  exact congrArg Course.replay
    (Walk.run_chosen (acquisitionAmong options) (compiled.acquire values) (.slice time) choices)

/-! ## Picking along the walk -/

/-- The next option is picked at the decision that the course through the tree waits for. -/
theorem pick_acquired (h : compiled.Sound) (choices : List Recorded) (position : Nat) :
    compiled.pick now includePast values (acquisition time :: choices) position =
      ((compiled.visit values compiled.tree time).run choices).pending?.bind fun decision =>
        (decision.options[position]?).map fun value =>
          acquisition time :: (choices ++ [decision.chosen value]) := by
  rw [pick, replay_acquired h]
  -- only a course that waits has a decision to pick for
  cases (compiled.visit values compiled.tree time).run choices with
  | pending recorded decision =>
      simp only [Course.after, Course.replay, Course.pending?, Option.bind_eq_bind, Option.bind_some]
      cases decision.options[position]? <;> rfl
  | _ => rfl

/-- Options are picked along the walk through the tree. -/
theorem picks_eq (h : compiled.Sound) (positions : List Nat) :
    compiled.picks now includePast values time positions =
      ((compiled.visit values compiled.tree time).picked positions).map (acquisition time :: ·) := by
  -- from the end, as the last position picks an option of what the others leave pending
  induction positions using List.reverseRecOn with
  | nil => simp [picks]
  | append_singleton positions position ih =>
      have hstep : compiled.picks now includePast values time (positions ++ [position]) =
          (compiled.picks now includePast values time positions).bind
            (compiled.pick now includePast values · position) := by
        simp [picks]
      rw [hstep, ih, Walk.picked_append]
      cases (compiled.visit values compiled.tree time).picked positions with
      | none => rfl
      | some choices =>
          simp only [Option.map_some, Option.bind_some, pick_acquired h]
          cases ((compiled.visit values compiled.tree time).run choices).pending? with
          | none => rfl
          | some decision =>
              simp only [Option.bind_eq_bind, Option.bind_some]
              cases decision.options[position]? <;> rfl

/-- What is picked is the acquisition and what is picked along the walk after it. -/
theorem picks_eq_some (h : compiled.Sound) {positions : List Nat} {choices : List Recorded} :
    compiled.picks now includePast values time positions = some choices ↔
      ∃ rest, (compiled.visit values compiled.tree time).picked positions = some rest ∧
        acquisition time :: rest = choices := by
  rw [picks_eq h, Option.map_eq_some_iff]

end Compiled

end ContractAlgebra
