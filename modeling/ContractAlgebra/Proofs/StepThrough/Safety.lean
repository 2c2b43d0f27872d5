import ContractAlgebra.Proofs.Contract.Arena
import ContractAlgebra.Proofs.Contract.NormalForm
import ContractAlgebra.Proofs.StepThrough.Brevity

/-!
# Lookups that succeed

A walk looks up nodes, slices and places in a compiled contract and computes slices from what it
finds. `Compiled.Complete` says that nothing of this fails: a replay then gives a result or refuses
a choice that was made for another decision. In a session that requests lead to, a replay gives a
result in any case, so a call returns or is refused (`Session.lookups_succeed`).

A refusal is explained, with the numbers of the call in it, and a value that is accepted is logged. So
a call with a number that is too long to be written may fail because of that number, and of nothing
else.
-/

namespace ContractAlgebra

/-- A computation gives a result, or what it was asked for is refused. It fails in no other way, if the
numbers that are handed to it are short enough to be written. -/
def ReturnsOrRefuses {α : Type} (short : Bool) (result : Except Failure α) : Prop :=
  ∀ failure, result = .error failure →
    (∃ rejection, failure = .rejected rejection) ∨ short = false ∧ failure = .numberTooLong

namespace ReturnsOrRefuses

variable {α β : Type} {short : Bool} {result : Except Failure α}

/-- What returns does not fail. -/
theorem of_eq_ok {a : α} (h : result = .ok a) : ReturnsOrRefuses short result := by
  intro failure hfailure
  cases h.symm.trans hfailure

/-- A refusal without numbers is one. -/
theorem reject (cause : Cause) :
    ReturnsOrRefuses short (Failure.reject cause : Except Failure α) := by
  intro failure hfailure
  cases hfailure
  exact Or.inl ⟨_, rfl⟩

/-- What is refused with numbers of any size is explained if these are short. -/
theorem because {cause : Cause} (h : cause.isShort = false → short = false) :
    ReturnsOrRefuses short (.error (.because cause none) : Except Failure α) := by
  intro failure hfailure
  cases hfailure
  -- what can be written is a refusal, and what cannot fails for that reason
  cases hcause : cause.isShort with
  | true => exact Or.inl ⟨_, Failure.because_of_short hcause⟩
  | false => exact Or.inr ⟨h hcause, Failure.because_of_long hcause⟩

/-- What is refused as one thing is refused as another. -/
theorem error {failure : Failure} (h : ReturnsOrRefuses short result)
    (herror : result = .error failure) :
    ReturnsOrRefuses short (.error failure : Except Failure β) := by
  intro failure' hfailure
  cases hfailure
  exact h failure herror

/-- One computation after the other returns or is refused if both are like that. -/
theorem bind {f : α → Except Failure β} (h : ReturnsOrRefuses short result)
    (hf : ∀ a, ReturnsOrRefuses short (f a)) : ReturnsOrRefuses short (result >>= f) := by
  cases result with
  | ok a => exact hf a
  | error failure => exact h.error rfl

/-- The more numbers are handed in, the more of them may be too long. -/
theorem mono {more : Bool} (h : ReturnsOrRefuses short result)
    (hmore : short = false → more = false) : ReturnsOrRefuses more result := by
  intro failure hfailure
  rcases h failure hfailure with hrejected | ⟨hlong, htoolong⟩
  · exact Or.inl hrejected
  · exact Or.inr ⟨hmore hlong, htoolong⟩

end ReturnsOrRefuses

/-! ## Compiled contracts -/

/-- A course fails with its first decision or without it. -/
theorem Course.after_eq_failed {α : Type} {first : Recorded} {course : Course α}
    {failure : Failure} : course.after first = .failed failure ↔ course = .failed failure := by
  cases course <;> simp [after]

/-- Walks in step fail for no other reason than that a choice was made for another decision; and that
is explained if the node is short for which the choice was made. -/
theorem Walk.InStep.refuses_of_failed {α β γ : Type} {R : α → β → Prop} {walk : Walk α}
    {walk' : Walk β} (h : walk.InStep verbatim R walk') {choices : List Recorded}
    (hfits : ∀ choice ∈ choices, choice.Fits) {failure : Failure}
    (hfailed : walk.run choices = .failed failure) :
    ReturnsOrRefuses (choices.all fun choice => Text.isShort choice.node)
      (.error failure : Except Failure γ) := by
  induction h generalizing choices with
  | done _ => cases hfailed
  | record _ _ ih => exact ih hfits (Course.after_eq_failed.mp hfailed)
  | @ask decision _ next _ _ _ ih =>
      cases choices with
      | nil => cases hfailed
      | cons choice choices =>
          rcases List.forall_mem_cons.mp hfits with ⟨hfit, hrest⟩
          -- the first choice is taken and a later one is refused, or it is refused itself
          unfold Walk.run at hfailed
          split at hfailed
          · next hanswers =>
              have hanswer : choice.value.Fits decision.kind := hanswers.1 ▸ hfit.value
              have hlater := ih _ _ ⟨rfl, hanswer⟩ hrest (Course.after_eq_failed.mp hfailed)
              refine hlater.mono fun hlong => ?_
              rw [List.all_cons, hlong, Bool.and_false]
          · cases hfailed
            refine .because fun hlong => ?_
            have hnode : Text.isShort choice.node = false := hlong
            rw [List.all_cons, hnode, Bool.false_and]

namespace Compiled

variable {compiled : Compiled}

/-- What is looked up for a part of the contract is found: the part under its label, as many
sub-contracts as its combinator takes, each of them under its label, and the data that is kept for
an `anytime`, an `or` and a scaling by an observable. The slices of an `anytime` can be cut at any
time. The pass over the part, the walk through it and its text are those that are made from its node
in the arena. -/
structure Finds (compiled : Compiled) (part : Tree Nat) : Prop where
  node : compiled.tree.subtree? part.label = some part
  arity : part.children.length = part.head.combinator.arity
  children : ∀ child ∈ part.children, compiled.tree.subtree? child.label = some child
  anytime : part.head = .unary .anytime → ∃ slices ordinal,
    compiled.anytimeSlices? part.label = some slices ∧
      (∀ t, ∃ valid, slices.validFrom t = .ok valid) ∧
        compiled.anytimeOrdinal? part.label = some ordinal
  or : part.head = .binary .or → ∃ ordinal, compiled.orOrdinal? part.label = some ordinal
  observable : ∀ o, part.head = .unary (.scale (.observable o)) →
    ∃ ordinal, compiled.observableOrdinal? part.label = some ordinal
  outlook : compiled.tree.arena.fold Node.outlook (maxDepth + 1) part.label = some part.outlook
  visit : ∀ values, compiled.tree.arena.fold (compiled.visitNode values) (maxDepth + 1) part.label =
    some (compiled.visit values part)
  texts : compiled.tree.arena.fold Node.texts (maxDepth + 1) part.label = some part.texts

/-- A compiled contract answers whatever is looked up in it. There are slices on offer for its
acquisition, and a replay of choices returns or refuses one of them, which it names with its node. -/
structure Complete (compiled : Compiled) : Prop where
  finds : ∀ part ∈ compiled.tree.subtrees, compiled.Finds part
  topOptions : ∀ now includePast, ∃ options, compiled.topOptions now includePast = .ok options
  replay : ∀ choices, (∀ choice ∈ choices, choice.Fits) → ∀ now includePast values,
    ReturnsOrRefuses (choices.all fun choice => Text.isShort choice.node)
      (compiled.replay choices now includePast values)

/-- Outlooks and walks are made from those of the sub-contracts. -/
theorem outlook_node (part : Tree Nat) :
    part.node.outlook (part.children.map Tree.outlook) = some part.outlook := by
  cases part <;> rfl

/-- The walk through a node is that through its part, as soon as those through the sub-contracts
are. -/
theorem visitNode_node (compiled : Compiled) (values : Nat → Option Int) (part : Tree Nat) :
    compiled.visitNode values part.node (part.children.map (compiled.visit values)) =
      some (compiled.visit values part) := by
  cases part <;> rfl

/-- The compiled data has what is looked up, and labels that ascend lead to the parts. -/
theorem Sound.finds (h : compiled.Sound) (hasc : compiled.tree.Ascending)
    (hheight : compiled.tree.height ≤ maxDepth + 1) {part : Tree Nat}
    (hpart : part ∈ compiled.tree.subtrees) : compiled.Finds part where
  node := hasc.subtree?_label hpart
  arity := part.length_children
  children := fun _ hchild => hasc.subtree?_label (Tree.child_mem_subtrees hpart hchild)
  anytime := by
    intro hhead
    rcases (h.knows part hpart).anytime hhead with
      ⟨slices, ordinal, hslices, hdescribes, hordinal, _⟩
    refine ⟨slices, ordinal, hslices, fun t => ?_, hordinal⟩
    rcases hdescribes.covers.validFrom t with ⟨valid, hvalid, _⟩
    exact ⟨valid, hvalid⟩
  or := by
    intro hhead
    rcases (h.knows part hpart).or hhead with ⟨ordinal, hordinal, _⟩
    exact ⟨ordinal, hordinal⟩
  observable := by
    intro o hhead
    rcases (h.knows part hpart).observable o hhead with ⟨ordinal, hordinal, _⟩
    exact ⟨ordinal, hordinal⟩
  -- a part nests no deeper than the whole, so the rounds of the whole are enough for it
  outlook := Arena.fold_part outlook_node ((Tree.holds_arena hasc).part hpart)
    ((Tree.height_le hpart).trans hheight)
  visit values := Arena.fold_part (compiled.visitNode_node values)
    ((Tree.holds_arena hasc).part hpart) ((Tree.height_le hpart).trans hheight)
  texts := Arena.fold_part Tree.texts_node ((Tree.holds_arena hasc).part hpart)
    ((Tree.height_le hpart).trans hheight)

/-- A replay of choices that fit refuses at most one of them. -/
theorem Sound.replay_refuses (h : compiled.Sound) {choices : List Recorded}
    (hfits : ∀ choice ∈ choices, choice.Fits) (now : Int) (includePast : Bool)
    (values : Nat → Option Int) :
    ReturnsOrRefuses (choices.all fun choice => Text.isShort choice.node)
      (compiled.replay choices now includePast values) := by
  unfold replay
  -- only a course that has failed is no result
  cases hrun : (compiled.walk now includePast values).run choices with
  | done _ _ _ | pending _ _ => exact .of_eq_ok rfl
  | failed failure =>
      have hself := walk_inStep h now now includePast includePast values values
      exact hself.refuses_of_failed hfits hrun

/-- All of this holds of compiled data that describes its contract. -/
theorem Sound.complete (h : compiled.Sound) (hasc : compiled.tree.Ascending)
    (hheight : compiled.tree.height ≤ maxDepth + 1) : compiled.Complete where
  finds _ hpart := h.finds hasc hheight hpart
  topOptions := exists_topOptions h
  replay _ hfits := h.replay_refuses hfits

end Compiled

/-! ## Sessions -/

namespace Session

/-- Questions to a session are answered, and requests are answered or refused, whatever the clock
shows at each of its readings and whatever is known of the observables. Only the numbers in a request
can be too long for that. -/
structure Responsive (session : Session) : Prop where
  replay : ∀ now includePast values, ∃ replay, session.replay now includePast values = .ok replay
  hasNext : ∀ clock, ∃ more, session.hasNext clock = .ok more
  recorded : ∀ clock, ∃ recorded, session.recorded clock = .ok recorded
  pending : ∀ clock includePast, ∃ decision?, session.pending clock includePast = .ok decision?
  set : ∀ answer clock, ReturnsOrRefuses answer.isShort (session.set answer clock).1
  reset : ∀ answer position clock,
    ReturnsOrRefuses (answer.isShort && Text.isShort position) (session.reset answer position clock).1
  delete : ∀ node clock, ReturnsOrRefuses (Text.isShort node) (session.delete node clock).1

variable {session : Session} {compiled : Compiled}

/-- An answer gives a value to a decision or is refused. -/
theorem resolve_refuses (hcompiled : session.compiled = some compiled) (hsound : compiled.Sound)
    (decision : Decision) (answer : Answer) (now : Int) :
    ReturnsOrRefuses answer.isShort (session.resolve decision answer now) := by
  obtain ⟨times, _, htimes, _⟩ := exists_timeOptions hcompiled hsound decision now
  unfold resolve
  -- a time is looked for among the slices on offer, which are there; a branch needs nothing
  by_cases hkind : decision.kind.isTime = true
  · rw [if_pos hkind]
    cases answer with
    | branch first => exact .because id
    | text s =>
        dsimp only
        rw [bind_of_eq_ok htimes]
        exact .because id
    | nothing =>
        dsimp only
        rw [bind_of_eq_ok htimes]
        exact .because id
    | time t =>
        dsimp only
        rw [bind_of_eq_ok htimes]
        cases times.find? fun option => .instant t ∈ option with
        | some slice => exact .of_eq_ok rfl
        | none => exact .because id
    | slice s =>
        dsimp only
        rw [bind_of_eq_ok htimes]
        split
        · exact .of_eq_ok rfl
        · exact .because id
  · rw [if_neg hkind]
    cases answer with
    | branch first => exact .of_eq_ok rfl
    | time _ | slice _ | text _ | nothing => exact .because id

namespace Replays

/-- An answer becomes a choice or is refused. -/
theorem choose_refuses (h : session.Replays) (hcompiled : session.compiled = some compiled)
    (answer : Answer) (clock : Clock) :
    ReturnsOrRefuses answer.isShort (session.choose answer clock) := by
  have hsound := (h.uses compiled hcompiled).1
  rcases h.exists_replay hcompiled (clock 0) none noValues with ⟨replay, hreplay⟩
  unfold choose
  rw [bind_of_eq_ok hreplay]
  -- nothing is pending, or the answer is put to the decision
  cases replay.pending with
  | none => exact .reject _
  | some decision =>
      exact (resolve_refuses hcompiled hsound decision answer _).bind fun _ => .of_eq_ok rfl

/-- A short answer is a short choice, if it is one. -/
theorem isShort_of_choose (h : session.Replays) {answer : Answer} {clock : Clock} {choice : Recorded}
    (hchoose : session.choose answer clock = .ok choice) (hshort : answer.isShort = true) :
    choice.value.isShort = true := by
  obtain ⟨replay, decision, _, hreplay, hdecision, _⟩ := choose_eq_ok hchoose
  have hpending : session.pending clock none = .ok (some decision) :=
    pending_eq_ok.mpr ⟨replay, hreplay, hdecision⟩
  obtain ⟨value, hvalue, rfl⟩ := (choose_eq_ok_iff hpending).mp hchoose
  exact h.isShort_of_resolve hpending hvalue hshort

/-- An answer that is not refused is recorded, and if it is short it is logged too. -/
theorem set_refuses (h : session.Replays) (hcompiled : session.compiled = some compiled)
    (answer : Answer) (clock : Clock) :
    ReturnsOrRefuses answer.isShort (session.set answer clock).1 := by
  cases hchoose : session.choose answer clock with
  | error failure =>
      unfold Session.set
      rw [hchoose]
      exact (h.choose_refuses hcompiled answer clock).error hchoose
  | ok choice =>
      -- the value of a short answer is short, so only a long one fails in the log
      cases hshort : choice.value.isShort with
      | true =>
          obtain ⟨more, hset⟩ := h.exists_set_of_short hchoose hshort
          rw [hset]
          exact .of_eq_ok rfl
      | false =>
          rw [h.set_of_long hchoose hshort]
          intro failure hfailure
          cases hfailure
          refine Or.inr ⟨?_, rfl⟩
          rw [← Bool.not_eq_true]
          intro hanswer
          rw [h.isShort_of_choose hchoose hanswer] at hshort
          cases hshort

/-- A position is refused or tells where to cut. -/
theorem beforePosition_refuses (replay : Replay) (position : Int) :
    ReturnsOrRefuses (Text.isShort position) (beforePosition replay position) := by
  unfold beforePosition
  dsimp only
  split
  · exact .because id
  · split
    · exact .because id
    · split
      · exact .because id
      · exact .of_eq_ok rfl

/-- A node is refused or tells where to cut. -/
theorem beforeNode_refuses (replay : Replay) (node : Int) :
    ReturnsOrRefuses (Text.isShort node) (beforeNode replay node) := by
  unfold beforeNode
  split
  · exact .because id
  · split
    · exact .because id
    · exact .of_eq_ok rfl

/-- After a cut the answer is put to a session that replays too. -/
theorem reset_refuses (h : session.Replays) (hcompiled : session.compiled = some compiled)
    (answer : Answer) (position : Int) (clock : Clock) :
    ReturnsOrRefuses (answer.isShort && Text.isShort position)
      (session.reset answer position clock).1 := by
  rcases h.exists_replay hcompiled (clock 0) none noValues with ⟨replay, hreplay⟩
  unfold Session.reset
  rw [bind_of_eq_ok hreplay]
  -- the position passes the checks and the answer is put to the rest, or the position is refused
  cases hbefore : beforePosition replay position with
  | ok kept =>
      have hcut := h.keep (h.recorded hreplay) (beforePosition_initial hbefore)
      refine (hcut.set_refuses hcompiled answer _).mono fun hlong => ?_
      rw [hlong, Bool.false_and]
  | error failure =>
      refine ((beforePosition_refuses replay position).error hbefore).mono fun hlong => ?_
      rw [hlong, Bool.and_false]

/-- A decision is taken back or the node is refused. -/
theorem delete_refuses (h : session.Replays) (hcompiled : session.compiled = some compiled)
    (node : Int) (clock : Clock) :
    ReturnsOrRefuses (Text.isShort node) (session.delete node clock).1 := by
  rcases h.exists_replay hcompiled (clock 0) none noValues with ⟨replay, hreplay⟩
  unfold Session.delete
  rw [bind_of_eq_ok hreplay]
  cases hbefore : beforeNode replay node with
  | ok kept => exact .of_eq_ok rfl
  | error failure => exact (beforeNode_refuses replay node).error hbefore

/-- A session whose choices replay responds to any call. -/
theorem responsive (h : session.Replays) (hcompiled : session.compiled = some compiled) :
    session.Responsive where
  replay := h.exists_replay hcompiled
  hasNext clock := by
    rcases h.exists_replay hcompiled (clock 0) none noValues with ⟨replay, hreplay⟩
    exact ⟨_, bind_of_eq_ok hreplay⟩
  recorded clock := by
    rcases h.exists_replay hcompiled (clock 0) none noValues with ⟨replay, hreplay⟩
    exact ⟨_, bind_of_eq_ok hreplay⟩
  pending clock includePast := by
    rcases h.exists_replay hcompiled (clock 0) includePast noValues with ⟨replay, hreplay⟩
    exact ⟨_, bind_of_eq_ok hreplay⟩
  set := h.set_refuses hcompiled
  reset := h.reset_refuses hcompiled
  delete := h.delete_refuses hcompiled

end Replays

/-- A contract that is read compiles, everything that is looked up in the compiled contract is
found, and every session that requests lead to with this contract responds to any call. -/
theorem lookups_succeed {text : String} {parsed : Parsed} (hparse : parse text = .ok parsed) :
    ∃ compiled, compile text = .ok compiled ∧ compiled.parsed = parsed ∧ compiled.Complete ∧
      ∀ session : Session, session.Reachable → session.compiled = some compiled →
        session.Responsive := by
  rcases Compiled.sound_of_parse hparse with ⟨compiled, hcompile, rfl, hsound⟩
  have hcomplete := hsound.complete (Tree.ascending_of_parse hparse) (Tree.height_le_of_parse hparse)
  refine ⟨compiled, hcompile, rfl, hcomplete, ?_⟩
  intro session hreachable hcompiled
  exact hreachable.replays.responsive hcompiled

/-- A number that is too long to be written is no answer, and cannot be refused either. -/
theorem long_answer_fails :
    ¬ ∀ session : Session, session.Reachable → session.compiled.isSome = true →
      ∀ answer clock failure, (session.set answer clock).1 = .error failure →
        ∃ rejection, failure = .rejected rejection := by
  intro hrefuses
  have hreachable : oneFresh.Reachable := ⟨_, _, rfl⟩
  have hset : (oneFresh.set (.time (-Text.tooLong)) fun _ => 1000).1 = .error .numberTooLong := by
    decide +kernel
  obtain ⟨rejection, hrejected⟩ := hrefuses oneFresh hreachable (by rfl) _ _ _ hset
  -- the failure is that of a number that is too long
  cases hrejected

/-- The session of `someRequests` responds to any call. -/
theorem lookups_succeed_of_waiting :
    parse waitingText = .ok waiting ∧ ∃ compiled, compile waitingText = .ok compiled ∧
      compiled.Complete ∧ ((start .default).afterAll someRequests).compiled = some compiled ∧
        ((start .default).afterAll someRequests).Responsive := by
  have hparse : parse waitingText = .ok waiting := by rfl
  rcases lookups_succeed hparse with ⟨compiled, hcompile, _, hcomplete, hresponds⟩
  have hcompiled : ((start .default).afterAll someRequests).compiled = some compiled := by
    have hsome : (compile waitingText).toOption =
        ((start .default).afterAll someRequests).compiled := by rfl
    rw [← hsome, hcompile]
    rfl
  exact ⟨hparse, compiled, hcompile, hcomplete, hcompiled, hresponds _ ⟨_, _, rfl⟩ hcompiled⟩

end Session

end ContractAlgebra
