import ContractAlgebra.Proofs.Bytecode.Surrogates
import ContractAlgebra.Proofs.StepThrough.Renumbering
import ContractAlgebra.Proofs.StepThrough.Session

/-!
# Sessions over stored contracts

A contract that is stored as bytecode comes back as its canonical text, with other labels. A session
over what came back goes through the same steps as one over the text that was stored: the relation
`Session.Mirrors` between the two holds at the start, each request keeps it, and sessions in that
relation answer every question alike (`Session.stored_contract_steps_alike`).
-/

namespace ContractAlgebra

/-- A request, with other labels. -/
def Request.renumber (f : Nat → Nat) : Request → Request
  | delete node => delete (renumberNode f node)
  | request => request

variable {f : Nat → Nat}

@[simp] theorem Replay.isComplete_renumber (replay : Replay) :
    (replay.renumber f).isComplete = replay.isComplete :=
  Option.isNone_map

namespace Session

/-- A session, and one over the same contract with other labels: its choices have these labels. -/
structure Mirrors (f : Nat → Nat) (session session' : Session) : Prop where
  replays : session.Replays
  contracts : ∃ compiled compiled', session.compiled = some compiled ∧
    session'.compiled = some compiled' ∧ compiled.Renumbered f compiled'
  settings : session'.settings = session.settings
  choices : session'.choices = session.choices.map (·.renumber f)

/-- Two sessions answer every question and take every request alike, up to labels. What a refusal says
of a node is alike if the node can be written under both labels or under neither. -/
structure StepsAlike (f : Nat → Nat) (session session' : Session) : Prop where
  hasNext : ∀ clock, session'.hasNext clock = session.hasNext clock
  recorded : ∀ clock,
    session'.recorded clock = (session.recorded clock).map (List.map (·.renumber f))
  pending : ∀ clock includePast, session'.pending clock includePast =
    (session.pending clock includePast).map (Option.map (·.renumber f))
  evaluate : ∀ clock showTimes values,
    session'.evaluate clock showTimes values = session.evaluate clock showTimes values
  set : ∀ answer clock, (session'.set answer clock).1 = (session.set answer clock).1
  reset : ∀ answer position clock,
    (session'.reset answer position clock).1 = (session.reset answer position clock).1
  delete : ∀ node clock, KeepsShort f node →
    (session'.delete (renumberNode f node) clock).1 = renumberFailure f (session.delete node clock).1

namespace Mirrors

variable {session session' : Session} {clock : Clock}

/-! ## Questions -/

/-- The replays of two such sessions differ by labels. -/
theorem exists_replays (h : Mirrors f session session') (now : Int) (includePast : Option Bool)
    (values : Nat → Option Int) : ∃ replay, session.replay now includePast values = .ok replay ∧
      session'.replay now includePast values = .ok (replay.renumber f) := by
  obtain ⟨compiled, compiled', hcompiled, hcompiled', hrenumbered⟩ := h.contracts
  obtain ⟨replay, hreplay⟩ := h.replays.exists_replay hcompiled now includePast values
  refine ⟨replay, hreplay, ?_⟩
  obtain ⟨_, hsame, hreplay⟩ := replay_eq_ok.mp hreplay
  obtain rfl := Option.some.inj (hcompiled.symm.trans hsame)
  apply replay_eq_ok.mpr
  refine ⟨compiled', hcompiled', ?_⟩
  -- the choices fit the contract, so a replay of them changes labels and does nothing else
  rw [h.choices, h.settings, hrenumbered.replay_eq (h.replays.uses compiled hcompiled).1, hreplay]
  · rfl
  · -- nothing has to be shown, as the replay does not fail
    intro failure hfailure
    cases hreplay.symm.trans hfailure

/-- Both sessions are complete, or neither is. -/
theorem hasNext_eq (h : Mirrors f session session') (clock : Clock) :
    session'.hasNext clock = session.hasNext clock := by
  obtain ⟨replay, hreplay, hreplay'⟩ := h.exists_replays (clock 0) none noValues
  rw [hasNext, hasNext, bind_of_eq_ok hreplay, bind_of_eq_ok hreplay', Replay.isComplete_renumber]

/-- The decisions of one session are those of the other with other labels. -/
theorem recorded_eq (h : Mirrors f session session') (clock : Clock) :
    session'.recorded clock = (session.recorded clock).map (List.map (·.renumber f)) := by
  obtain ⟨replay, hreplay, hreplay'⟩ := h.exists_replays (clock 0) none noValues
  rw [recorded, recorded, bind_of_eq_ok hreplay, bind_of_eq_ok hreplay']
  rfl

/-- The same decision is pending in both, with other labels. -/
theorem pending_eq (h : Mirrors f session session') (clock : Clock) (includePast : Option Bool) :
    session'.pending clock includePast =
      (session.pending clock includePast).map (Option.map (·.renumber f)) := by
  obtain ⟨replay, hreplay, hreplay'⟩ := h.exists_replays (clock 0) includePast noValues
  rw [pending, pending, bind_of_eq_ok hreplay, bind_of_eq_ok hreplay']
  rfl

/-- Both come to the same text. -/
theorem evaluate_eq (h : Mirrors f session session') (clock : Clock) (showTimes : Bool)
    (values : Nat → Option Int) :
    session'.evaluate clock showTimes values = session.evaluate clock showTimes values := by
  obtain ⟨replay, hreplay, hreplay'⟩ := h.exists_replays (clock 0) none values
  rw [evaluate, evaluate, bind_of_eq_ok hreplay, bind_of_eq_ok hreplay', h.settings]
  rfl

/-! ## Requests -/

/-- The slices that an answer may pick are those of the same decision. -/
theorem timeOptions_eq (h : Mirrors f session session') (decision : Decision) (now : Int) :
    session'.timeOptions (decision.renumber f) now = session.timeOptions decision now := by
  obtain ⟨compiled, compiled', hcompiled, hcompiled', hrenumbered⟩ := h.contracts
  unfold timeOptions contract
  rw [hcompiled, hcompiled']
  simp only [Decision.renumber, bind, Except.bind, hrenumbered.topOptions_eq]

/-- An answer picks the same value or is refused alike. -/
theorem resolve_eq (h : Mirrors f session session') (decision : Decision) (answer : Answer)
    (now : Int) :
    session'.resolve (decision.renumber f) answer now = session.resolve decision answer now := by
  unfold resolve
  rw [h.timeOptions_eq]
  rfl

/-- An answer is refused in both sessions for the same reason, or is recorded in both. -/
theorem choose_eq (h : Mirrors f session session') (answer : Answer) (clock : Clock) :
    session'.choose answer clock = (session.choose answer clock).map (·.renumber f) := by
  obtain ⟨replay, hreplay, hreplay'⟩ := h.exists_replays (clock 0) none noValues
  rw [choose, choose, bind_of_eq_ok hreplay, bind_of_eq_ok hreplay']
  obtain ⟨_, pending, _⟩ := replay
  -- a refusal here and one of the answer name no node, so both are the same in the two sessions
  cases pending with
  | none => rfl
  | some decision =>
      simp only [Replay.renumber, Option.map_some, h.resolve_eq]
      cases session.resolve decision answer (clock 1) <;> rfl

/-- An answer has the same result in both sessions, and they mirror each other after it. -/
theorem set (h : Mirrors f session session') (answer : Answer) (clock : Clock) :
    (session'.set answer clock).1 = (session.set answer clock).1 ∧
      Mirrors f (session.set answer clock).2 (session'.set answer clock).2 := by
  have hreplays := h.replays.set answer clock
  have hchoose' := h.choose_eq answer clock
  -- a refused answer leaves both sessions, an accepted one is added to the choices of both
  cases hchoose : session.choose answer clock with
  | error failure =>
      rw [hchoose] at hchoose'
      have hset : session.set answer clock = (.error failure, session) := by
        rw [Session.set, hchoose]
      have hset' : session'.set answer clock = (.error failure, session') := by
        rw [Session.set, hchoose']
        rfl
      rw [hset, hset']
      exact ⟨rfl, h⟩
  | ok choice =>
      rw [hchoose] at hchoose'
      simp only [Session.set, hchoose, hchoose', Except.map] at hreplays ⊢
      have hafter : Mirrors f (session.record choice) (session'.record (choice.renumber f)) := by
        refine ⟨hreplays, h.contracts, h.settings, ?_⟩
        show session'.choices ++ [choice.renumber f] = (session.choices ++ [choice]).map _
        rw [h.choices, List.map_append]
        rfl
      refine ⟨?_, hafter⟩
      -- what is logged is the value, which has no label
      unfold hasNextAfter
      rw [hafter.hasNext_eq]
      rfl

/-- Choices cut off at the same place mirror each other. -/
theorem keep (h : Mirrors f session session') {recorded recorded' : List Recorded}
    (hall : recorded.filter (!·.automatic) = session.choices) (hinitial : recorded' <+: recorded) :
    Mirrors f (session.keep recorded') (session'.keep (recorded'.map (·.renumber f))) where
  replays := h.replays.keep hall hinitial
  contracts := h.contracts
  settings := h.settings
  choices := List.filter_map

/-- A position is one to decide again in both replays or in neither. -/
theorem beforePosition_renumber (replay : Replay) (position : Int) :
    beforePosition (replay.renumber f) position =
      (beforePosition replay position).map (List.map (·.renumber f)) := by
  have hlength : (replay.renumber f).recorded.length = replay.recorded.length := List.length_map _
  have hat : ((replay.renumber f).recorded[position.toNat]?).any (·.automatic) =
      (replay.recorded[position.toNat]?).any (·.automatic) := by
    show ((replay.recorded.map (·.renumber f))[position.toNat]?).any _ = _
    rw [List.getElem?_map, Option.any_map]
    rfl
  simp only [beforePosition, hlength, hat, Replay.isComplete_renumber]
  -- all that is looked at is how many decisions there are and whether one was automatic
  split_ifs
  · rfl
  · rfl
  · rfl
  · exact congrArg Except.ok List.map_take.symm

/-- A decision is made again in both sessions or is refused in both. -/
theorem reset (h : Mirrors f session session') (answer : Answer) (position : Int) (clock : Clock) :
    (session'.reset answer position clock).1 = (session.reset answer position clock).1 ∧
      Mirrors f (session.reset answer position clock).2 (session'.reset answer position clock).2 := by
  obtain ⟨replay, hreplay, hreplay'⟩ := h.exists_replays (clock 0) none noValues
  simp only [Session.reset, bind_of_eq_ok hreplay, bind_of_eq_ok hreplay', beforePosition_renumber]
  -- the position is refused in both sessions, or both are cut there and take the answer
  cases hbefore : beforePosition replay position with
  | error failure => exact ⟨rfl, h⟩
  | ok recorded =>
      have hkept := h.keep (h.replays.recorded hreplay) (beforePosition_initial hbefore)
      exact hkept.set answer _

/-- A node has a decision to take back in both replays, or it is refused in both. The refusal names the
node and no other number. -/
theorem beforeNode_renumber (hf : f.Injective) (replay : Replay) (node : Int) :
    (∃ kept, beforeNode replay node = .ok kept ∧
        beforeNode (replay.renumber f) (renumberNode f node) = .ok (kept.map (·.renumber f))) ∨
      ∃ cause : Cause, beforeNode replay node = Failure.refuse cause ∧
        beforeNode (replay.renumber f) (renumberNode f node) = Failure.refuse (cause.renumber f) ∧
        cause.isShort = Text.isShort node ∧
        (cause.renumber f).isShort = Text.isShort (renumberNode f node) := by
  -- two nodes have one new label only if they had one before
  have hnode : ∀ recorded : Recorded,
      ((recorded.renumber f).node == renumberNode f node) = (recorded.node == node) :=
    fun _ => (renumberNode_injective hf).beq_eq
  have hfind : (replay.renumber f).recorded.find? (·.node == renumberNode f node) =
      (replay.recorded.find? (·.node == node)).map (·.renumber f) := by
    simp only [Replay.renumber, List.find?_map, Function.comp_def, hnode]
  have htake : (replay.renumber f).recorded.takeWhile (·.node != renumberNode f node) =
      (replay.recorded.takeWhile (·.node != node)).map (·.renumber f) := by
    simp only [Replay.renumber, List.takeWhile_map, Function.comp_def, bne, hnode]
  unfold beforeNode
  rw [hfind, htake]
  cases replay.recorded.find? (·.node == node) with
  | none => exact Or.inr ⟨.deleteUnknown node, rfl, rfl, rfl, rfl⟩
  | some decision =>
      have hautomatic : (decision.renumber f).automatic = decision.automatic := rfl
      rw [Option.map_some]
      dsimp only
      rw [hautomatic]
      split
      · exact Or.inr ⟨.deleteAutomatic node, rfl, rfl, rfl, rfl⟩
      · exact Or.inl ⟨_, rfl, rfl⟩

/-- A decision is taken back in both sessions or is refused in both. -/
theorem delete (h : Mirrors f session session') (node : Int) (clock : Clock) :
    (KeepsShort f node → (session'.delete (renumberNode f node) clock).1 =
        renumberFailure f (session.delete node clock).1) ∧
      Mirrors f (session.delete node clock).2 (session'.delete (renumberNode f node) clock).2 := by
  obtain ⟨replay, hreplay, hreplay'⟩ := h.exists_replays (clock 0) none noValues
  obtain ⟨_, _, _, _, hrenumbered⟩ := h.contracts
  simp only [Session.delete, bind_of_eq_ok hreplay, bind_of_eq_ok hreplay']
  -- where the node is refused, only the text that names it may differ
  rcases beforeNode_renumber hrenumbered.tree.injective replay node with
    ⟨kept, hkept, hkept'⟩ | ⟨cause, hrefused, hrefused', hshort, hshort'⟩
  · rw [hkept, hkept']
    exact ⟨fun _ => rfl, h.keep (h.replays.recorded hreplay) (beforeNode_initial hkept)⟩
  · rw [hrefused, hrefused']
    refine ⟨fun hkeeps => ?_, h⟩
    have hcause : (cause.renumber f).isShort = cause.isShort := by
      rw [hshort, hshort']
      exact hkeeps
    exact congrArg Except.error (Failure.because_renumber cause none hcause).symm

/-- Sessions that mirror each other cannot be told apart but by labels. -/
theorem stepsAlike (h : Mirrors f session session') : StepsAlike f session session' where
  hasNext := h.hasNext_eq
  recorded := h.recorded_eq
  pending := h.pending_eq
  evaluate := h.evaluate_eq
  set answer clock := (h.set answer clock).1
  reset answer position clock := (h.reset answer position clock).1
  delete node clock := (h.delete node clock).1

/-! ## One request after the other -/

/-- Sessions mirror each other after the same request, with its label changed if it has one. -/
theorem after (h : Mirrors f session session') (clock : Clock) {request : Request}
    (hsame : ∀ text, request ≠ .setContract text) :
    Mirrors f (session.after clock request) (session'.after clock (request.renumber f)) := by
  cases request with
  -- another contract would need another change of labels
  | setContract text => exact absurd rfl (hsame text)
  | set answer => exact (h.set answer clock).2
  | reset answer position => exact (h.reset answer position clock).2
  | delete node => exact (h.delete node clock).2

/-- Sessions mirror each other after the same requests. -/
theorem afterAll (h : Mirrors f session session') {requests : List (Clock × Request)}
    (hsame : ∀ request ∈ requests, ∀ text, request.2 ≠ .setContract text) :
    Mirrors f (session.afterAll requests)
      (session'.afterAll (requests.map (Prod.map id (·.renumber f)))) := by
  -- the relation carries over from each request to the next
  induction requests generalizing session session' with
  | nil => exact h
  | cons request requests ih =>
      rw [List.forall_mem_cons] at hsame
      exact ih (h.after request.1 hsame.1) hsame.2

end Mirrors

/-- A session that begins with a contract mirrors one that begins with it on other labels. -/
theorem mirrors_start (settings : Settings) {text text' : String} {compiled compiled' : Compiled}
    (hcompile : compile text = .ok compiled) (hcompile' : compile text' = .ok compiled')
    (h : compiled.Renumbered f compiled') :
    Mirrors f ((start settings).setContract text).2 ((start settings).setContract text').2 := by
  have hreplays := (replays_start settings).setContract text
  simp only [setContract, hcompile, hcompile'] at hreplays ⊢
  exact ⟨hreplays, ⟨compiled, compiled', rfl, rfl, h⟩, rfl, rfl⟩

/-- A contract that is stored as bytecode and read back compiles to the same data with other labels,
and its choices are replayed alike. Sessions over the two texts that are asked for the same steps, at
the same readings of the clock, answer every question alike. -/
theorem stored_contract_steps_alike {text : String} {parsed : Parsed} (h : parse text = .ok parsed)
    (hend : parsed.extraneous = []) (hlength : (text.length : Int) < wordLimit) :
    ∃ words decoded f compiled compiled',
      encode text = .ok words ∧ decode 0 (words.map .integer) = .ok decoded ∧
      compile text = .ok compiled ∧ compile decoded.text = .ok compiled' ∧
      compiled.Renumbered f compiled' ∧ compiled'.entries = compiled.entries ∧
      (∀ choices now includePast values,
        (∀ failure, compiled.replay choices now includePast values = .error failure →
          ∀ choice ∈ choices, KeepsShort f choice.node) →
        compiled'.replay (choices.map (·.renumber f)) now includePast values = renumberFailure f
          ((compiled.replay choices now includePast values).map (Replay.renumber f))) ∧
      ∀ settings requests, (∀ request ∈ requests, ∀ text, request.2 ≠ .setContract text) →
        StepsAlike f (((start settings).setContract text).2.afterAll requests)
          (((start settings).setContract decoded.text).2.afterAll
            (requests.map (Prod.map id (·.renumber f)))) := by
  have hround := roundTrips_of_parse h hend hlength
  obtain ⟨f, compiled, compiled', hcompile, hcompile', hrenumbered⟩ := Compiled.exists_renumbered h
  have hsound := Compiled.sound_of_compile hcompile
  refine ⟨_, _, f, compiled, compiled', hround.writes, hround.reads, hcompile, hcompile',
    hrenumbered, hrenumbered.entries, hrenumbered.replay_eq hsound, ?_⟩
  intro settings requests hsame
  exact ((mirrors_start settings hcompile hcompile' hrenumbered).afterAll hsame).stepsAlike

/-- A contract with a surrogate in a name is stored, but does not come back: there is no text that a
session could begin with. -/
theorem surrogate_name_not_restored :
    ¬ ∃ decoded compiled,
      decode 0 ((scaledByCodes nowhere [0xD800] [1]).map .integer) = .ok decoded ∧
        compile decoded.text = .ok compiled := by
  rintro ⟨decoded, _, hdecode, _⟩
  rw [decode_of_surrogate_alone] at hdecode
  cases hdecode

/-- A contract with a date before a node that needs a decision. -/
def datedText : String :=
  "truncate 5 or one give one"

/-- What is read from that text. -/
def dated : Parsed where
  atoms := ["truncate", "5", "or", "one", "give", "one"]
  tree := .unary 0 (.truncate 5) (.binary 2 .or (.leaf 3 .one) (.unary 4 .give (.leaf 5 .one)))

/-- Some requests for it: the decision of a node is taken back and made again. -/
def datedRequests : List (Clock × Request) :=
  [(fun _ => 0, .set (.time 3)), (fun _ => 1, .set (.branch true)), (fun _ => 2, .delete 2),
    (fun _ => 3, .set (.branch false))]

/-- The date takes an atom of its own in the text and a word of its own in the bytecode, and what
comes back spells it in another way. -/
theorem stored_contract_steps_alike_of_dated :
    parse datedText = .ok dated ∧ dated.extraneous = [] ∧ (datedText.length : Int) < wordLimit ∧
      (∀ request ∈ datedRequests, ∀ text, request.2 ≠ .setContract text) ∧
      ∃ words decoded f, encode datedText = .ok words ∧
        decode 0 (words.map .integer) = .ok decoded ∧
        StepsAlike f (((start .default).setContract datedText).2.afterAll datedRequests)
          (((start .default).setContract decoded.text).2.afterAll
            (datedRequests.map (Prod.map id (·.renumber f)))) ∧
        (((start .default).setContract decoded.text).2.afterAll
          (datedRequests.map (Prod.map id (·.renumber f)))).evaluate (fun _ => 4) false noValues =
            .ok "-1 Wei" := by
  have hparse : parse datedText = .ok dated := by rfl
  have hend : dated.extraneous = [] := by rfl
  have hlength : (datedText.length : Int) < wordLimit := by decide
  have hsame : ∀ request ∈ datedRequests, ∀ text, request.2 ≠ .setContract text := by
    simp [datedRequests]
  have hvalue : (((start .default).setContract datedText).2.afterAll datedRequests).evaluate
      (fun _ => 4) false noValues = .ok "-1 Wei" := by decide +kernel
  obtain ⟨words, decoded, f, _, _, hwrites, hreads, _, _, _, _, _, hsteps⟩ :=
    stored_contract_steps_alike hparse hend hlength
  have halike := hsteps .default datedRequests hsame
  refine ⟨hparse, hend, hlength, hsame, words, decoded, f, hwrites, hreads, halike, ?_⟩
  -- the value was computed over the text that was stored
  rw [halike.evaluate, hvalue]

end Session

end ContractAlgebra
