import ContractAlgebra.Proofs.StepThrough.Exhaustion

/-!
# Acquisitions in time

No part of a contract is acquired before the part around it, or after its horizon
(`Session.acquisitions_in_time`). Decisions are recorded in the order of the nodes, so what is in
force at a node when it decides is still so at the end, and it is the time of the nearest combinator
around the node that has decided. An `anytime` that is visited by its horizon has a slice on offer.
-/

namespace ContractAlgebra

namespace Tree

variable {tree part : Tree Nat} {node : Nat} {recorded : List Recorded} {decided : Recorded}

/-- A combinator stands before all nodes inside it. -/
theorem Ascending.label_lt (h : part.Ascending) {child : Tree Nat} (hchild : child ∈ part.children)
    (hnode : node ∈ child.labels) : part.label < node := by
  -- a combinator has a smaller label than all of its sub-contracts
  cases part with
  | leaf index op => cases hchild
  | unary index op body =>
      rw [List.mem_singleton.mp hchild] at hnode
      exact (ascending_unary.mp h).1 node hnode
  | binary index op first second =>
      have hinside : node ∈ first.labels ++ second.labels := by
        rcases List.mem_cons.mp hchild with rfl | hchild
        · exact List.mem_append_left _ hnode
        · rw [List.mem_singleton.mp hchild] at hnode
          exact List.mem_append_right _ hnode
      exact (ascending_binary.mp h).1 node hinside

/-- What has a say about a node stands before it. -/
theorem Governs.lt (h : tree.Governs node decided) (hasc : tree.Ascending) :
    decided.node < node := by
  -- the whole contract is -1, and a combinator around a node stands before it
  rcases h.2 with htop | ⟨part, hpart, hnode, child, hchild, hinside⟩
  · rw [htop]
    show (-1 : Int) < node
    omega
  · rw [hnode]
    exact Int.ofNat_lt.mpr ((hasc.of_mem hpart).label_lt hchild hinside)

/-- A decision on a time is the nearest around a node: there is none at a combinator further inside
that has a say about the node. -/
def Nearest (tree : Tree Nat) (recorded : List Recorded) (node : Nat) (nearest : Recorded) : Prop :=
  nearest ∈ recorded ∧ tree.Governs node nearest ∧
    ∀ other ∈ recorded, tree.Governs node other → other.node ≤ nearest.node

/-- The acquisition in force at a node is the nearest around it. -/
theorem exists_nearest {acquired : Slice} (hasc : (recorded.map Recorded.node).Pairwise (· < ·))
    (h : tree.inForce recorded node = some acquired) :
    ∃ nearest, tree.Nearest recorded node nearest ∧ nearest.value = .slice acquired := by
  rcases Option.bind_eq_some_iff.mp h with ⟨nearest, hlast, hvalue⟩
  have hgoverning : ∀ other, other ∈ recorded.filter (tree.Governs node ·) ↔
      other ∈ recorded ∧ tree.Governs node other := by
    intro other
    rw [List.mem_filter, decide_eq_true_iff]
  rcases (hgoverning nearest).mp (List.mem_of_getLast? hlast) with ⟨hmem, hgoverns⟩
  refine ⟨nearest, ⟨hmem, hgoverns, ?_⟩, ?_⟩
  · intro other hother hgoverns'
    rcases List.getLast?_eq_some_iff.mp hlast with ⟨before, hsplit⟩
    have hall := (hgoverning other).mpr ⟨hother, hgoverns'⟩
    have horder := Recorded.pairwise_filter hasc (p := fun other => tree.Governs node other)
    rw [hsplit, List.map_append, List.pairwise_append] at horder
    rw [hsplit, List.mem_append, List.mem_singleton] at hall
    -- in the order of the nodes, what comes last is the furthest inside
    rcases hall with hbefore | rfl
    · exact le_of_lt (horder.2.2 _ (List.mem_map_of_mem hbefore) _ (List.mem_singleton_self _))
    · exact le_refl _
  -- only a slice is in force
  · cases hchoice : nearest.value with
    | slice s =>
        rw [hchoice] at hvalue
        rw [Option.some.inj hvalue]
    | branch first =>
        rw [hchoice] at hvalue
        cases hvalue

end Tree

/-- The time that was decided for an `anytime` or a `get` is in time among all decisions: it starts no
earlier than the nearest acquisition around the node and ends by the horizon of the node. So the
sub-contract has not expired then, and an `anytime` had a slice on offer. -/
structure Compiled.InTime (compiled : Compiled) (recorded : List Recorded) (decided : Recorded)
    (index : Nat) (body : Tree Nat) (earlier acquired : Slice) : Prop
    extends compiled.Timely recorded decided index body earlier acquired where
  nearest : ∃ nearest, compiled.tree.Nearest recorded index nearest ∧ nearest.value = .slice earlier
  live : ¬ compiled.horizonAt body.label < .instant acquired.start
  offered : decided.kind = .anytime → ∃ slices options, compiled.anytimeSlices? index = some slices ∧
    slices.validFrom earlier.start = .ok options ∧ options ≠ []

namespace Compiled

variable {compiled : Compiled} {recorded before later : List Recorded} {decided : Recorded}
  {index : Nat} {body : Tree Nat} {earlier acquired : Slice}

/-- What is decided later has no say about a node. -/
theorem Timely.append (h : compiled.Timely before decided index body earlier acquired)
    (hasc : compiled.tree.Ascending) (hlater : ∀ other ∈ later, decided.node ≤ other.node) :
    compiled.Timely (before ++ later) decided index body earlier acquired := by
  refine { h with inForce := ?_ }
  rw [Tree.inForce_append, h.inForce]
  intro other hother hgoverns
  have hlt := hgoverns.lt hasc
  have hle := hlater other hother
  rw [h.node] at hle
  omega

/-- A decision that is timely among all others is in time. -/
theorem Timely.inTime (h : compiled.Timely recorded decided index body earlier acquired)
    (hsound : compiled.Sound) (hasc : (recorded.map Recorded.node).Pairwise (· < ·)) :
    compiled.InTime recorded decided index body earlier acquired := by
  -- an `anytime` and a `get` have the horizon of their sub-contracts
  have hhorizon : compiled.horizonAt index = body.horizon ∧ body ∈ compiled.tree.subtrees := by
    rcases h.part with ⟨_, hpart⟩ | ⟨_, hpart⟩
    · exact ⟨(hsound.knows _ hpart).horizon, Tree.body_mem_subtrees hpart⟩
    · exact ⟨(hsound.knows _ hpart).horizon, Tree.body_mem_subtrees hpart⟩
  have hlive : Time.instant acquired.start ≤ body.horizon := by
    rw [← hhorizon.1]
    exact le_trans acquired.start_le_stop h.stop
  refine ⟨h, Tree.exists_nearest hasc h.inForce, ?_, ?_⟩
  · rw [(hsound.knows body hhorizon.2).horizon]
    exact not_lt.mpr hlive
  · intro hkind
    rcases h.part with ⟨_, hpart⟩ | ⟨hget, _⟩
    · have hearlier : Time.instant earlier.start ≤ body.horizon :=
        le_trans (Time.instant_le_instant.mpr h.start) hlive
      -- up to the horizon the sub-contract offers something
      rcases hsound.exists_offersAt hpart hearlier with ⟨_, options, hoffers⟩
      rcases hoffers.slices with ⟨slices, hslices, hvalid⟩
      exact ⟨slices, options, hslices, hvalid, hoffers.offers.ne_nil hearlier⟩
    · rw [hkind] at hget
      cases hget

end Compiled

namespace Session

variable {session : Session} {compiled : Compiled}

/-- In a session that requests lead to, every time that was decided for an `anytime` or a `get` is in
time. -/
theorem acquisitions_in_time (h : session.Reachable) (hcompiled : session.compiled = some compiled)
    (now : Int) (includePast : Option Bool) (values : Nat → Option Int) :
    ∃ replay, session.replay now includePast values = .ok replay ∧
      ∀ decided ∈ replay.recorded, decided.kind = .anytime ∨ decided.kind = .get →
        ∃ index body earlier acquired,
          compiled.InTime replay.recorded decided index body earlier acquired := by
  have hreplays := h.replays
  rcases hreplays.exists_replay hcompiled now includePast values with ⟨replay, hreplay⟩
  refine ⟨replay, hreplay, ?_⟩
  intro decided hmem htimed
  have horder := (h.inOrder hcompiled hreplay).ascending
  rcases List.append_of_mem hmem with ⟨before, later, hsplit⟩
  rcases (h.warrants hcompiled hreplay hsplit).timely htimed with
    ⟨index, body, earlier, acquired, htimely⟩
  refine ⟨index, body, earlier, acquired, ?_⟩
  -- nothing that was decided after it stands before it
  have hlater : ∀ other ∈ decided :: later, decided.node ≤ other.node := by
    rw [hsplit, List.map_append, List.pairwise_append, List.map_cons, List.pairwise_cons] at horder
    intro other hother
    rcases List.mem_cons.mp hother with rfl | hother
    · exact le_refl _
    · exact le_of_lt (horder.2.1.1 _ (List.mem_map_of_mem hother))
  have hall := htimely.append (h.orderly.ascending compiled hcompiled) hlater
  rw [← hsplit] at hall
  exact hall.inTime (hreplays.uses compiled hcompiled).1 horder

/-- A contract that is limited more strictly outside than inside, acquired at once. -/
def strictAcquired : Session :=
  (start .default).afterAll [(fun _ => 0, .setContract "truncate 3 anytime get truncate 5 one"),
    (fun _ => 1, .set (.time 2))]

/-- The inner parts of that contract are acquired by their own horizon, after the outer one. -/
theorem acquisitions_in_time_of_strict :
    let outer := acquisition ⟨1, .instant 3, by decide⟩
    let waited : Recorded := ⟨.anytime, .slice ⟨1, .instant 5, by decide⟩, 2, 0, true⟩
    let got : Recorded := ⟨.get, .slice (.moment 5), 3, noOrdinal, true⟩
    strictAcquired.Reachable ∧ strictAcquired.replay 4 none noValues =
        .ok ⟨[outer, waited, got], none, some (.payment 1 (Slice.moment 5))⟩ ∧
      ∃ compiled, strictAcquired.compiled = some compiled ∧
        ∀ decided ∈ [waited, got], ∃ index body earlier acquired,
          compiled.InTime [outer, waited, got] decided index body earlier acquired := by
  intro outer waited got
  have hreachable : strictAcquired.Reachable := ⟨_, _, rfl⟩
  have hreplay : strictAcquired.replay 4 none noValues =
      .ok ⟨[outer, waited, got], none, some (.payment 1 (Slice.moment 5))⟩ := by rfl
  have hsome : strictAcquired.compiled.isSome = true := by rfl
  rcases Option.isSome_iff_exists.mp hsome with ⟨compiled, hcompiled⟩
  rcases acquisitions_in_time hreachable hcompiled 4 none noValues with ⟨replay, hreplay', hall⟩
  have hsame := Except.ok.inj (hreplay'.symm.trans hreplay)
  rw [hsame] at hall
  refine ⟨hreachable, hreplay, compiled, hcompiled, ?_⟩
  intro decided hmem
  -- both are among the three decisions
  refine hall decided (List.mem_cons_of_mem _ hmem) ?_
  rcases List.mem_cons.mp hmem with rfl | hmem
  · exact Or.inl rfl
  · rw [List.mem_singleton.mp hmem]
    exact Or.inr rfl

end Session

end ContractAlgebra
