import ContractAlgebra.Proofs.Contract.Arena
import ContractAlgebra.Proofs.StepThrough.Clock
import ContractAlgebra.Proofs.StepThrough.Partition
import ContractAlgebra.Proofs.StepThrough.Warrant
import Mathlib.Data.List.Perm.Subperm

/-!
# Decisions run out

A replay records the acquisition of the whole contract first and then goes on to nodes of ascending
labels, each with the combinator for what is decided there (`Replay.InOrder`). Choices are only made
for the whole contract and for `or` and `anytime` nodes, and for none of them twice. So as long as
nothing is taken back, a session accepts at most one answer more than its contract has such nodes
(`Session.decisions_run_out`).
-/

namespace ContractAlgebra

/-- The nodes ascend, beginning with the whole contract. -/
theorem Tree.Ascending.pairwise_nodes {tree : Tree Nat} (h : tree.Ascending) :
    (topNode :: tree.nodes).Pairwise (· < ·) := by
  -- the acquisition stands before all nodes, which ascend
  constructor
  · intro node hnode
    rcases List.mem_map.mp hnode with ⟨label, _, rfl⟩
    show (-1 : Int) < label
    omega
  · exact h.map _ fun _ _ => Int.ofNat_lt.mpr

/-- The nodes that choices are made for: the whole contract, and each `or` and `anytime`. -/
def Tree.decidingNodes (tree : Tree Nat) : List Int :=
  topNode :: ((tree.labelsOf .or).map Int.ofNat ++ (tree.labelsOf .anytime).map Int.ofNat)

/-- There is one of them for the whole contract. -/
theorem Tree.length_decidingNodes (tree : Tree Nat) : tree.decidingNodes.length =
    (tree.labelsOf .or).length + (tree.labelsOf .anytime).length + 1 := by
  simp [decidingNodes]

/-- What is counted among some labels is one of them. -/
theorem CountedAmong.mem {labels : List Nat} {node ordinal : Int}
    (h : CountedAmong labels node ordinal) : node ∈ labels.map Int.ofNat := by
  rcases h with ⟨label, place, hplace, rfl, _⟩
  exact List.mem_map_of_mem (List.mem_of_getElem? hplace)

/-- Decisions in order stay in order when some are left out. -/
theorem Recorded.pairwise_filter {recorded : List Recorded} {p : Recorded → Bool}
    (h : (recorded.map Recorded.node).Pairwise (· < ·)) :
    ((recorded.filter p).map Recorded.node).Pairwise (· < ·) :=
  h.sublist (List.filter_sublist.map Recorded.node)

/-- What a replay has come to is in the order of a contract's nodes, each decision in its place, with
a time or a branch as its kind asks for. -/
structure Replay.InOrder (tree : Tree Nat) (replay : Replay) : Prop where
  first : ∀ first ∈ replay.recorded.head?, first.kind = .acquisition ∧ first.node = topNode
  ascending : (replay.recorded.map Recorded.node).Pairwise (· < ·)
  places : ∀ recorded ∈ replay.recorded,
    tree.Places recorded.kind recorded.node recorded.ordinal ∧ recorded.value.Fits recorded.kind
  pending : ∀ decision, replay.pending = some decision →
    tree.Places decision.kind decision.node decision.ordinal ∧
      ∀ recorded ∈ replay.recorded, recorded.node < decision.node

namespace Session

variable {session : Session} {compiled : Compiled} {now : Int} {includePast : Option Bool}
  {values : Nat → Option Int} {replay : Replay}

/-! ## Order -/

/-- Whatever is recorded, the acquisition of the whole contract stands at its head. -/
theorem Replays.head_recorded (h : session.Replays) (hcompiled : session.compiled = some compiled)
    (hreplay : session.replay now includePast values = .ok replay) {first : Recorded}
    (hfirst : first ∈ replay.recorded.head?) : first.kind = .acquisition ∧ first.node = topNode := by
  cases hchoices : session.choices with
  | nil =>
      -- before the first choice nothing is recorded
      rcases Compiled.exists_walk_eq (h.uses compiled hcompiled).1 now
        (includePast.getD session.settings.includePast) with ⟨options, _, hwalk⟩
      rw [replay_of_compiled hcompiled, hchoices, Compiled.replay, hwalk] at hreplay
      cases hreplay
      cases hfirst
  | cons choice rest =>
      rcases h.recorded_started hchoices hreplay with ⟨⟨more, hrecorded⟩, _⟩
      rw [hrecorded] at hfirst
      obtain rfl := Option.some.inj hfirst
      exact h.first_choice hcompiled hchoices

/-- All that a session comes to is in order. -/
theorem Reachable.inOrder (h : session.Reachable) (hcompiled : session.compiled = some compiled)
    (hreplay : session.replay now includePast values = .ok replay) :
    replay.InOrder compiled.tree := by
  have hreplays := h.replays
  have hnodes := (h.orderly.ascending compiled hcompiled).pairwise_nodes
  rcases h.orderly.replay hreplays hcompiled hreplay with ⟨horder, hasked⟩
  -- the nodes of what is recorded are some of those of the contract, in their order
  refine ⟨fun first => hreplays.head_recorded hcompiled hreplay, hnodes.sublist horder, ?_, ?_⟩
  · intro recorded hmem
    rcases List.append_of_mem hmem with ⟨before, later, hsplit⟩
    have hwarrants := h.warrants hcompiled hreplay hsplit
    exact ⟨hwarrants.places, hwarrants.fits⟩
  · intro decision hpending
    rcases hasked decision hpending with ⟨horder', hexpects⟩
    refine ⟨hexpects.places, ?_⟩
    intro recorded hmem
    have hlast := (List.pairwise_append.mp (hnodes.sublist horder')).2.2
    exact hlast _ (List.mem_map_of_mem hmem) _ (List.mem_singleton_self _)

/-! ## How many -/

/-- A choice was made for one of these nodes. -/
theorem Reachable.node_choice (h : session.Reachable) (hcompiled : session.compiled = some compiled)
    {choice : Recorded} (hmem : choice ∈ session.choices) :
    choice.node ∈ compiled.tree.decidingNodes := by
  rcases h.replays.exists_replay hcompiled 0 none noValues with ⟨replay, hreplay⟩
  rw [← h.replays.recorded hreplay, List.mem_filter] at hmem
  rcases List.append_of_mem hmem.1 with ⟨before, later, hsplit⟩
  have hchosen : choice.automatic = false := by simpa using hmem.2
  rcases h.expects hcompiled hreplay hsplit hchosen with ⟨decision, value, rfl, hexpects, _, _⟩
  show decision.node ∈ _
  have hplaces := hexpects.places
  -- what was chosen was asked for: never a `get`, and else one of the nodes counted here
  cases hkind : decision.kind with
  | acquisition =>
      rw [hkind] at hplaces
      exact List.mem_cons.mpr (Or.inl hplaces.1)
  | get => exact absurd hkind hexpects.asked
  | anytime =>
      rw [hkind] at hplaces
      exact List.mem_cons_of_mem _ (List.mem_append_right _ hplaces.mem)
  | or =>
      rw [hkind] at hplaces
      exact List.mem_cons_of_mem _ (List.mem_append_left _ hplaces.mem)

/-- A session has at most one choice more than its contract has `or` and `anytime` nodes. -/
theorem Reachable.length_choices_le (h : session.Reachable)
    (hcompiled : session.compiled = some compiled) : session.choices.length ≤
      (compiled.tree.labelsOf .or).length + (compiled.tree.labelsOf .anytime).length + 1 := by
  rcases h.replays.exists_replay hcompiled 0 none noValues with ⟨replay, hreplay⟩
  have hnodup : (session.choices.map Recorded.node).Nodup := by
    rw [← h.replays.recorded hreplay]
    exact (Recorded.pairwise_filter (h.inOrder hcompiled hreplay).ascending).imp Int.ne_of_lt
  have hsubset : session.choices.map Recorded.node ⊆ compiled.tree.decidingNodes := by
    intro node hnode
    rcases List.mem_map.mp hnode with ⟨choice, hmem, rfl⟩
    exact h.node_choice hcompiled hmem
  -- no node stands twice in the choices, and each is one of those that decide
  have hle := (List.subperm_of_subset hnodup hsubset).length_le
  rwa [List.length_map, Tree.length_decidingNodes] at hle

/-! ## Answers -/

/-- How many of some answers are accepted if they are given to a session one after the other. -/
def accepted (session : Session) : List (Clock × Answer) → Nat
  | [] => 0
  | (clock, answer) :: answers =>
    (if (session.set answer clock).1.isOk then 1 else 0) +
      (session.set answer clock).2.accepted answers

/-- An answer that is accepted adds a choice, and none takes one away. -/
theorem Replays.accepted_set_le (h : session.Replays) (answer : Answer) (clock : Clock) :
    (if (session.set answer clock).1.isOk then 1 else 0) + session.choices.length ≤
        (session.set answer clock).2.choices.length ∧
      (session.set answer clock).2.compiled = session.compiled := by
  cases hchoose : session.choose answer clock with
  | error failure =>
      rw [Session.set, hchoose]
      exact ⟨(Nat.zero_add _).le, rfl⟩
  | ok choice =>
      have hlength : (session.record choice).choices.length = session.choices.length + 1 :=
        List.length_append
      -- an answer is recorded, but accepted only if it can be logged
      cases hshort : choice.value.isShort with
      | true =>
          rcases h.exists_set_of_short hchoose hshort with ⟨more, hset⟩
          rw [hset, hlength]
          exact ⟨(Nat.add_comm _ _).le, rfl⟩
      | false =>
          rw [h.set_of_long hchoose hshort, hlength]
          exact ⟨(Nat.zero_add _).le.trans (Nat.le_succ _), rfl⟩

/-- Answers that are accepted add as many choices. -/
theorem Replays.accepted_le (h : session.Replays) (answers : List (Clock × Answer)) :
    session.accepted answers + session.choices.length ≤
        (session.afterAll (answers.map fun answer => (answer.1, .set answer.2))).choices.length ∧
      (session.afterAll (answers.map fun answer => (answer.1, .set answer.2))).compiled =
        session.compiled := by
  -- each answer that is accepted pays for itself with a choice
  induction answers generalizing session with
  | nil => exact ⟨(Nat.zero_add _).le, rfl⟩
  | cons first answers ih =>
      rcases first with ⟨clock, answer⟩
      rcases h.accepted_set_le answer clock with ⟨hlength, hcompiled⟩
      rcases ih (h.set answer clock) with ⟨hlengths, hcompileds⟩
      refine ⟨Nat.le_trans ?_ hlengths, hcompileds.trans hcompiled⟩
      rw [accepted]
      omega

/-- Requests lead on from where requests have led. -/
theorem Reachable.afterAll (h : session.Reachable) (requests : List (Clock × Request)) :
    (session.afterAll requests).Reachable := by
  rcases h with ⟨settings, requests', rfl⟩
  exact ⟨settings, requests' ++ requests, List.foldl_append.symm⟩

/-- In a session that requests lead to, every replay is in order. The session has at most one choice
more than its contract has `or` and `anytime` nodes, which a walk over its arena counts, and so has
every session that answers make of it; of these answers, no more are accepted than are left up to this
bound. -/
theorem decisions_run_out (h : session.Reachable) (hcompiled : session.compiled = some compiled) :
    (∀ now includePast values, ∃ replay, session.replay now includePast values = .ok replay ∧
      replay.InOrder compiled.tree) ∧
    (∀ c, compiled.tree.arena.indexesOf c = some (compiled.tree.labelsOf c)) ∧
    session.choices.length ≤
      (compiled.tree.labelsOf .or).length + (compiled.tree.labelsOf .anytime).length + 1 ∧
    ∀ answers : List (Clock × Answer), session.accepted answers + session.choices.length ≤
      (compiled.tree.labelsOf .or).length + (compiled.tree.labelsOf .anytime).length + 1 := by
  have hasc := h.orderly.ascending compiled hcompiled
  refine ⟨?_, Tree.indexesOf_arena hasc, h.length_choices_le hcompiled, ?_⟩
  · intro now includePast values
    rcases h.replays.exists_replay hcompiled now includePast values with ⟨replay, hreplay⟩
    exact ⟨replay, hreplay, h.inOrder hcompiled hreplay⟩
  · intro answers
    -- answers lead to a session with the same contract, for which the bound holds too
    rcases h.replays.accepted_le answers with ⟨haccepted, hsame⟩
    exact haccepted.trans ((h.afterAll _).length_choices_le (hsame.trans hcompiled))

/-- The contract in two slices has an `or` and an `anytime`. Once it is acquired, two more answers
are accepted, and then nothing is left to be decided. -/
theorem decisions_run_out_of_twoSlices :
    let answers : List (Clock × Answer) :=
      [(fun _ => 7, .time 3), (fun _ => 8, .branch true), (fun _ => 9, .branch false)]
    twoSlicesAcquired.Reachable ∧ twoSlicesAcquired.accepted answers = 2 ∧
      ∃ compiled, twoSlicesAcquired.compiled = some compiled ∧
        compiled.tree.labelsOf .or = [1] ∧ compiled.tree.labelsOf .anytime = [0] ∧
        (∀ now includePast values, ∃ replay,
          twoSlicesAcquired.replay now includePast values = .ok replay ∧
            replay.InOrder compiled.tree) ∧
        twoSlicesAcquired.choices.length ≤
          (compiled.tree.labelsOf .or).length + (compiled.tree.labelsOf .anytime).length + 1 ∧
        twoSlicesAcquired.accepted answers + twoSlicesAcquired.choices.length ≤
          (compiled.tree.labelsOf .or).length + (compiled.tree.labelsOf .anytime).length + 1 := by
  intro answers
  have hreachable : twoSlicesAcquired.Reachable := ⟨_, _, rfl⟩
  have hsome : twoSlicesAcquired.compiled.isSome = true := by rfl
  rcases Option.isSome_iff_exists.mp hsome with ⟨compiled, hcompiled⟩
  have htree : twoSlicesAcquired.compiled.map (·.tree) = some twoSlices.tree := by rfl
  rw [hcompiled] at htree
  -- which nodes there are is computed, the rest is told by the theorem
  have htree : compiled.tree = twoSlices.tree := Option.some.inj htree
  rcases decisions_run_out hreachable hcompiled with ⟨hreplays, _, hchoices, haccepted⟩
  refine ⟨hreachable, by rfl, compiled, hcompiled, ?_, ?_, hreplays, hchoices, haccepted answers⟩
  · rw [htree]
    rfl
  · rw [htree]
    rfl

end Session

end ContractAlgebra
