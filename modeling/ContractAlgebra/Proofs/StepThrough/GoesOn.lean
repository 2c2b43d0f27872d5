import ContractAlgebra.Proofs.StepThrough.History
import ContractAlgebra.Proofs.StepThrough.InForce

/-!
# Walks go on as expected

Along a walk the nodes decide in reading order, so the time that a visit is told is the one in force
at every node that it comes to, and what it asks there is offered from that time on. A decision that
it makes on its own is in its place in the contract, and a time that is decided so lies between the
acquisition in force and the horizon. `GoesOn` says so of a walk that begins after some decisions; it
is shown of one node after the other, and then of the walk through the whole contract
(`Compiled.walk_goesOn`).
-/

namespace ContractAlgebra

/-! ## What is asked -/

/-- A choice that is not for a time before 0. -/
def Choice.FromZero (choice : Choice) : Prop :=
  ∀ s : Slice, choice = .slice s → 0 ≤ s.start

/-- Slices from 0 on are choices from 0 on. -/
theorem Choice.fromZero_of_mem_map {options : List Slice} (h : ∀ option ∈ options, 0 ≤ option.start) :
    ∀ choice ∈ options.map Choice.slice, choice.FromZero := by
  rintro _ hmem s rfl
  obtain ⟨option, hoption, heq⟩ := List.mem_map.mp hmem
  exact Choice.slice.inj heq ▸ h option hoption

/-- A choice as it can be given to a walk: not made automatically, and for no time before 0. -/
structure Recorded.Given (choice : Recorded) : Prop where
  automatic : choice.automatic = false
  fromZero : choice.value.FromZero

/-- A node is one of some labels, and its ordinal is its place among them. -/
def CountedAmong (labels : List Nat) (node ordinal : Int) : Prop :=
  ∃ label place : Nat, labels[place]? = some label ∧ node = label ∧ ordinal = place

/-- A decision has its place in a contract: that on the acquisition of the whole stands before all
nodes, and any other is taken at a node with the combinator for it. The `anytime` and the `or` nodes
are counted. -/
def Tree.Places (tree : Tree Nat) (kind : DecisionKind) (node ordinal : Int) : Prop :=
  match kind with
  | .acquisition => node = topNode ∧ ordinal = noOrdinal
  | .anytime => CountedAmong (tree.labelsOf .anytime) node ordinal
  | .get => (∃ label ∈ tree.labelsOf .get, node = (label : Nat)) ∧ ordinal = noOrdinal
  | .or => CountedAmong (tree.labelsOf .or) node ordinal

namespace Compiled

/-- A decision waits for the time of an `anytime`. Its options are slices from the start of the
acquisition in force up to the horizon of the sub-contract, one after the other without a gap, and
there are at least two. -/
structure OffersAnytime (compiled : Compiled) (recorded : List Recorded) (decision : Decision)
    (index : Nat) (body : Tree Nat) (acquired : Slice) (options : List Slice) : Prop where
  part : .unary index .anytime body ∈ compiled.tree.subtrees
  node : decision.node = index
  inForce : compiled.tree.inForce recorded index = some acquired
  offered : decision.options = options.map .slice
  partition : Slices.Partition acquired.start (compiled.horizonAt body.label) options
  several : 2 ≤ options.length

/-- What is known of a decision that a walk asks for. -/
structure Expects (compiled : Compiled) (recorded : List Recorded) (decision : Decision) : Prop where
  fromZero : ∀ option ∈ decision.options, option.FromZero
  anytime : decision.kind = .anytime → ∃ index body acquired options,
    compiled.OffersAnytime recorded decision index body acquired options
  places : compiled.tree.Places decision.kind decision.node decision.ordinal
  asked : decision.kind ≠ .get

/-! ## What is recorded -/

/-- The time of an `anytime` or a `get` was decided after some decisions. It starts no earlier than
the acquisition in force there, and it ends by the horizon of the node. -/
structure Timely (compiled : Compiled) (before : List Recorded) (recorded : Recorded) (index : Nat)
    (body : Tree Nat) (earlier acquired : Slice) : Prop where
  part : recorded.kind = .anytime ∧ .unary index .anytime body ∈ compiled.tree.subtrees ∨
    recorded.kind = .get ∧ .unary index .get body ∈ compiled.tree.subtrees
  node : recorded.node = index
  value : recorded.value = .slice acquired
  inForce : compiled.tree.inForce before index = some earlier
  start : earlier.start ≤ acquired.start
  stop : acquired.stop ≤ compiled.horizonAt index

/-- What is known of a decision that was made after some others. -/
structure Warrants (compiled : Compiled) (before : List Recorded) (recorded : Recorded) : Prop where
  places : compiled.tree.Places recorded.kind recorded.node recorded.ordinal
  fits : recorded.value.Fits recorded.kind
  timely : recorded.kind = .anytime ∨ recorded.kind = .get → ∃ index body earlier acquired,
    compiled.Timely before recorded index body earlier acquired

/-- This is known of all that a walk decides on its own after some decisions. -/
def Warranted (compiled : Compiled) : List Recorded → List Recorded → Prop
  | _, [] => True
  | before, first :: more => (first.automatic = true → compiled.Warrants before first) ∧
    compiled.Warranted (before ++ [first]) more

/-- Decisions are warranted together if each row of them is after what was decided before it. -/
theorem warranted_append {compiled : Compiled} {before more later : List Recorded} :
    compiled.Warranted before (more ++ later) ↔
      compiled.Warranted before more ∧ compiled.Warranted (before ++ more) later := by
  induction more generalizing before with
  | nil => simp [Warranted]
  | cons first more ih =>
      simp only [List.cons_append, Warranted, ih, List.append_assoc, List.nil_append, and_assoc]

/-- Some decisions follow others: they are made in the order of some nodes, and those that were made
automatically are warranted. -/
structure Follows (compiled : Compiled) (nodes : List Int) (before more : List Recorded) : Prop where
  order : (more.map Recorded.node).Sublist nodes
  warranted : compiled.Warranted before more

/-- After some decisions, a visit makes decisions in the order of some nodes, and each that it asks
for is as expected. -/
def GoesOn (compiled : Compiled) (nodes : List Int) (before : List Recorded)
    (walk : Walk Payoff) : Prop :=
  walk.Meets Recorded.Given
    (fun more decision => compiled.Follows nodes before more ∧
      (more.map Recorded.node ++ [decision.node]).Sublist nodes ∧
        compiled.Expects (before ++ more) decision)
    (fun more _ => compiled.Follows nodes before more)

variable {compiled : Compiled} {values : Nat → Option Int} {nodes nodes' : List Int}
  {before more later : List Recorded} {walk : Walk Payoff}

namespace Follows

/-- No decisions follow any. -/
theorem nil : compiled.Follows nodes before [] :=
  ⟨List.nil_sublist _, trivial⟩

/-- One decision follows if it is warranted or was made by choice. -/
theorem singleton {first : Recorded}
    (h : first.automatic = true → compiled.Warrants before first) :
    compiled.Follows [first.node] before [first] :=
  ⟨List.Sublist.refl _, h, trivial⟩

theorem mono (h : compiled.Follows nodes before more) (hnodes : nodes.Sublist nodes') :
    compiled.Follows nodes' before more :=
  ⟨h.order.trans hnodes, h.warranted⟩

/-- Decisions at later nodes follow those at earlier ones. -/
theorem append (h : compiled.Follows nodes before more)
    (h' : compiled.Follows nodes' (before ++ more) later) :
    compiled.Follows (nodes ++ nodes') before (more ++ later) := by
  refine ⟨?_, warranted_append.mpr ⟨h.warranted, h'.warranted⟩⟩
  rw [List.map_append]
  exact h.order.append h'.order

end Follows

namespace GoesOn

theorem done (payoff : Payoff) : compiled.GoesOn nodes before (.done payoff) :=
  Follows.nil

theorem mono (h : compiled.GoesOn nodes before walk) (hnodes : nodes.Sublist nodes') :
    compiled.GoesOn nodes' before walk :=
  Walk.Meets.mono h
    (fun _ _ hasked => ⟨hasked.1.mono hnodes, hasked.2.1.trans hnodes, hasked.2.2⟩)
    fun _ _ hended => hended.mono hnodes

theorem map (h : compiled.GoesOn nodes before walk) (f : Payoff → Payoff) :
    compiled.GoesOn nodes before (walk.bind fun payoff => .done (f payoff)) := by
  refine Walk.Meets.bind (Walk.Meets.mono h (fun _ _ => id) ?_)
  intro more payoff hended
  show compiled.Follows nodes before (more ++ [])
  rwa [List.append_nil]

/-- What a walk goes on with after some more decisions. -/
theorem append (hmore : compiled.Follows nodes before more)
    (h : compiled.GoesOn nodes' (before ++ more) walk) :
    walk.Meets Recorded.Given
      (fun later decision => compiled.Follows (nodes ++ nodes') before (more ++ later) ∧
        ((more ++ later).map Recorded.node ++ [decision.node]).Sublist (nodes ++ nodes') ∧
          compiled.Expects (before ++ (more ++ later)) decision)
      (fun later _ => compiled.Follows (nodes ++ nodes') before (more ++ later)) := by
  -- what is asked and what is come to are each put after the decisions before
  refine Walk.Meets.mono h ?_ ?_
  · rintro later decision ⟨hlater, horder, hexpects⟩
    rw [List.append_assoc] at hexpects
    rw [List.map_append, List.append_assoc]
    exact ⟨hmore.append hlater, hmore.order.append horder, hexpects⟩
  · intro later _ hlater
    exact hmore.append hlater

/-- A decision at a node comes before those in its sub-contracts. -/
theorem record {first : Recorded} (hwarrants : compiled.Warrants before first)
    (h : compiled.GoesOn nodes (before ++ [first]) walk) :
    compiled.GoesOn (first.node :: nodes) before (.record first walk) :=
  append (Follows.singleton fun _ => hwarrants) h

theorem ask (decision : Decision) {next : Choice → Walk Payoff}
    (hexpects : compiled.Expects before decision)
    (hnext : ∀ choice : Recorded, Walk.Answers choice decision → choice.Given →
      compiled.GoesOn nodes (before ++ [choice]) (next choice.value)) :
    compiled.GoesOn (decision.node :: nodes) before (.ask decision next) := by
  constructor
  · refine ⟨Follows.nil, (List.nil_sublist nodes).cons_cons _, ?_⟩
    rwa [List.append_nil]
  -- the choice is given, so nothing has to warrant it
  · intro choice hanswers hgiven
    have hfirst : compiled.Follows [choice.node] before [choice] := by
      refine Follows.singleton fun hautomatic => ?_
      rw [hgiven.automatic] at hautomatic
      cases hautomatic
    rw [← hanswers.2]
    exact append hfirst (hnext choice hanswers hgiven)

end GoesOn

/-- What a visit to a part does at a time goes on as expected after any decisions by which this time is
in force in that part. -/
def GoesOnAt (compiled : Compiled) (part : Tree Nat) (time : Slice) (walk : Walk Payoff) : Prop :=
  ∀ before : List Recorded, 0 ≤ time.start →
    (∀ node ∈ part.labels, compiled.tree.inForce before node = some time) →
      compiled.GoesOn part.nodes before walk

/-! ## One node after the other -/

variable {index : Nat} {body first second : Tree Nat} {time : Slice} {walk' : Walk Payoff}

/-- An `anytime` decides on its own if there is one slice only, and else asks. -/
theorem GoesOn.among {ordinal : Int} {options : List Slice} {next : Slice → Walk Payoff}
    (hsome : options ≠ []) (hzero : ∀ option ∈ options, 0 ≤ option.start)
    (hwarrants : ∀ only ∈ options,
      compiled.Warrants before ⟨.anytime, .slice only, index, ordinal, true⟩)
    (hexpects : 2 ≤ options.length →
      compiled.Expects before ⟨.anytime, options.map .slice, index, ordinal⟩)
    (hnext : ∀ (recorded : Recorded) (acquired : Slice), recorded.kind = .anytime →
      recorded.node = index → recorded.value = .slice acquired → 0 ≤ acquired.start →
        compiled.GoesOn nodes (before ++ [recorded]) (next acquired)) :
    compiled.GoesOn (index :: nodes) before ((Walk.decideAmong index ordinal options).bind next) := by
  -- nothing is asked where there is one slice only
  match options with
  | [] => exact absurd rfl hsome
  | [only] =>
      have honly : only ∈ [only] := List.mem_cons_self
      exact .record (hwarrants only honly) (hnext _ only rfl rfl rfl (hzero only honly))
  | _ :: _ :: _ =>
      refine .ask _ (hexpects (by simp)) ?_
      intro choice hanswers hgiven
      -- a branch is no answer, and the walk ends with it
      cases hvalue : choice.value with
      | slice acquired =>
          exact hnext choice acquired hanswers.1 hanswers.2 hvalue (hgiven.fromZero _ hvalue)
      | branch _ => exact trivial

/-- An `or` asks for a branch, and goes on with either. -/
theorem GoesOn.branch {ordinal : Int}
    (hplaces : compiled.tree.Places .or index ordinal)
    (h : ∀ recorded : Recorded, recorded.kind = .or →
      compiled.GoesOn nodes (before ++ [recorded]) walk ∧
        compiled.GoesOn nodes (before ++ [recorded]) walk') :
    compiled.GoesOn (index :: nodes) before
      ((Walk.decideBranch index ordinal).bind fun chosen => if chosen then walk else walk') := by
  refine ask ⟨.or, [.branch true, .branch false], index, ordinal⟩ ⟨?_, nofun, hplaces, nofun⟩ ?_
  · intro option hoption s heq
    subst heq
    simp at hoption
  · intro choice hanswers _
    obtain ⟨hwalk, hwalk'⟩ := h choice hanswers.1
    -- any answer but the second branch leads into the first
    cases choice.value with
    | slice _ => exact hwalk
    | branch chosen =>
        cases chosen with
        | true => exact hwalk
        | false => exact hwalk'

namespace GoesOnAt

theorem done (part : Tree Nat) (time : Slice) (payoff : Payoff) :
    compiled.GoesOnAt part time (.done payoff) :=
  fun _ _ _ => .done payoff

/-- What goes on in the sub-contract goes on in the contract. -/
theorem unary (op : Unary) (h : compiled.GoesOnAt body time walk) :
    compiled.GoesOnAt (.unary index op body) time walk := by
  intro before htime hforce
  rw [Tree.nodes_unary]
  refine (h before htime ?_).mono (List.sublist_cons_self _ _)
  intro node hnode
  exact hforce node (List.mem_cons_of_mem _ hnode)

theorem map {part : Tree Nat} (h : compiled.GoesOnAt part time walk) (f : Payoff → Payoff) :
    compiled.GoesOnAt part time (walk.bind fun payoff => .done (f payoff)) :=
  fun before htime hforce => (h before htime hforce).map f

/-- What goes on in the first of two parts goes on among the nodes of both. -/
theorem left {op : Binary} (h : compiled.GoesOnAt first time walk) (htime : 0 ≤ time.start)
    (hforce : ∀ node ∈ (Tree.binary index op first second).labels,
      compiled.tree.inForce before node = some time) :
    compiled.GoesOn (first.nodes ++ second.nodes) before walk := by
  refine (h before htime ?_).mono (List.sublist_append_left _ _)
  intro node hnode
  exact hforce node (Tree.labels_subset (Tree.first_mem_subtrees (Tree.self_mem_subtrees _)) hnode)

/-- So does what goes on in the second. -/
theorem right {op : Binary} (h : compiled.GoesOnAt second time walk) (htime : 0 ≤ time.start)
    (hforce : ∀ node ∈ (Tree.binary index op first second).labels,
      compiled.tree.inForce before node = some time) :
    compiled.GoesOn (first.nodes ++ second.nodes) before walk := by
  refine (h before htime ?_).mono (List.sublist_append_right _ _)
  intro node hnode
  exact hforce node (Tree.labels_subset (Tree.second_mem_subtrees (Tree.self_mem_subtrees _)) hnode)

/-- What goes on in the first part goes on in the whole, if it is taken alone. -/
theorem inFirst (op : Binary) (h : compiled.GoesOnAt first time walk) :
    compiled.GoesOnAt (.binary index op first second) time walk := by
  intro before htime hforce
  rw [Tree.nodes_binary]
  exact (h.left htime hforce).mono (List.sublist_cons_self _ _)

/-- So it is with the second part. -/
theorem inSecond (op : Binary) (h : compiled.GoesOnAt second time walk) :
    compiled.GoesOnAt (.binary index op first second) time walk := by
  intro before htime hforce
  rw [Tree.nodes_binary]
  exact (h.right htime hforce).mono (List.sublist_cons_self _ _)

/-- A `get` decides on its own for the horizon, and that is the time in force from there on. -/
theorem get {horizon : Int} (h : compiled.Sound)
    (hpart : .unary index .get body ∈ compiled.tree.subtrees)
    (hhorizon : body.horizon = .instant horizon) (hle : time.start ≤ horizon)
    (hbody : compiled.GoesOnAt body (.moment horizon) walk) :
    compiled.GoesOnAt (.unary index .get body) time
      (.record ⟨.get, .slice (.moment horizon), index, noOrdinal, true⟩ walk) := by
  intro before htime hforce
  rw [Tree.nodes_unary]
  have hplaces : compiled.tree.Places .get index noOrdinal :=
    ⟨⟨index, Tree.label_mem_labelsOf hpart rfl, rfl⟩, rfl⟩
  -- the horizon of the node is that of the sub-contract, at which it is acquired
  have hat : compiled.horizonAt index = .instant horizon := (h.knows _ hpart).horizon.trans hhorizon
  have hwarrants : compiled.Warrants before
      ⟨.get, .slice (.moment horizon), index, noOrdinal, true⟩ :=
    ⟨hplaces, rfl, fun _ => ⟨index, body, time, .moment horizon, Or.inr ⟨rfl, hpart⟩, rfl,
      rfl, hforce index List.mem_cons_self, hle, hat.ge⟩⟩
  exact .record hwarrants
    (hbody _ (le_trans htime hle) (Tree.inForce_decided hpart rfl rfl rfl))

/-- An `anytime` decides among the slices that its sub-contract offers from the time in force there,
and the one that is decided is in force from there on. -/
theorem anytime {ordinal : Nat} {options : List Slice} {next : Slice → Walk Payoff}
    (h : compiled.Sound) (hpart : .unary index .anytime body ∈ compiled.tree.subtrees)
    (hat : compiled.OffersAt index ordinal body time.start options)
    (hlive : .instant time.start ≤ body.horizon)
    (hbody : ∀ acquired, compiled.GoesOnAt body acquired (next acquired)) :
    compiled.GoesOnAt (.unary index .anytime body) time
      ((Walk.decideAmong index ordinal options).bind next) := by
  intro before htime hforce
  rw [Tree.nodes_unary]
  have hoffers := hat.offers
  have hinForce := hforce index List.mem_cons_self
  have hzero : ∀ option ∈ options, 0 ≤ option.start :=
    fun option hoption => (hoffers.start_within hoption).2.1
  have hplaces : compiled.tree.Places .anytime index ordinal :=
    ⟨index, ordinal, hat.place, rfl, rfl⟩
  -- on its own it decides for a slice that ends by the horizon; if it asks, there are several; and
  -- it goes on with the slice
  refine .among (hoffers.ne_nil hlive) hzero ?_ ?_ ?_
  · intro only honly
    have hstop : only.stop ≤ compiled.horizonAt index :=
      (h.knows _ hpart).horizon ▸ (hoffers.tiles.within honly).2
    exact ⟨hplaces, rfl, fun _ => ⟨index, body, time, only, Or.inl ⟨rfl, hpart⟩, rfl, rfl,
      hinForce, (hoffers.start_within honly).1, hstop⟩⟩
  · intro hseveral
    -- the time of the visit is in force here, and the slices begin with its start
    have htiles := hoffers.tiles
    rw [max_eq_left htime, ← (h.knows body (Tree.body_mem_subtrees hpart)).horizon] at htiles
    refine ⟨Choice.fromZero_of_mem_map hzero, fun _ => ⟨index, body, time, options, ?_⟩,
      hplaces, nofun⟩
    exact ⟨hpart, rfl, hinForce, rfl, htiles.partition, hseveral⟩
  · intro recorded acquired hkind hnode hvalue hstart
    have htimed : recorded.kind.isTime = true := by
      rw [hkind]
      rfl
    exact hbody acquired _ hstart (Tree.inForce_decided hpart htimed hnode hvalue)

/-- The second part goes on after the first, whose decisions have no say about it. -/
theorem and {f : Payoff → Payoff → Payoff} (hasc : compiled.tree.Ascending)
    (hpart : .binary index .and first second ∈ compiled.tree.subtrees)
    (hfirst : compiled.GoesOnAt first time walk) (hsecond : compiled.GoesOnAt second time walk') :
    compiled.GoesOnAt (.binary index .and first second) time
      (walk.bind fun payoff => walk'.bind fun other => .done (f payoff other)) := by
  intro before htime hforce
  rw [Tree.nodes_binary]
  have hleft : first.nodes.Sublist (first.nodes ++ second.nodes) := List.sublist_append_left _ _
  have hforce₁ : ∀ node ∈ first.labels, compiled.tree.inForce before node = some time := by
    intro node hnode
    exact hforce node (Tree.labels_subset (Tree.first_mem_subtrees (Tree.self_mem_subtrees _)) hnode)
  refine .mono ?_ (List.sublist_cons_self _ _)
  -- the second part begins after some decisions at nodes of the first
  refine Walk.Meets.bind (Walk.Meets.mono (hfirst before htime hforce₁) ?_ ?_)
  · rintro more decision ⟨hmore, horder, hexpects⟩
    exact ⟨hmore.mono hleft, horder.trans hleft, hexpects⟩
  · intro more payoff hmore
    have hforce₂ : ∀ node ∈ second.labels,
        compiled.tree.inForce (before ++ more) node = some time := by
      intro node hnode
      rw [Tree.inForce_beside hasc hpart hmore.order hnode]
      exact hforce node
        (Tree.labels_subset (Tree.second_mem_subtrees (Tree.self_mem_subtrees _)) hnode)
    exact ((hsecond _ htime hforce₂).map _).append hmore

/-- A branch is no time, so the time stays in force when one is decided. -/
theorem inForce_branch {recorded : Recorded} (hkind : recorded.kind = .or) {labels : List Nat}
    (hforce : ∀ node ∈ labels, compiled.tree.inForce before node = some time) :
    ∀ node ∈ labels, compiled.tree.inForce (before ++ [recorded]) node = some time := by
  intro node hnode
  rw [Tree.inForce_branched hkind, hforce node hnode]

/-- An `or` of which one part has expired decides on its own for the other. -/
theorem orAlone {ordinal : Nat} (hplace : (compiled.tree.labelsOf .or)[ordinal]? = some index)
    (chosen : Bool)
    (h : compiled.GoesOnAt first time walk ∨ compiled.GoesOnAt second time walk) :
    compiled.GoesOnAt (.binary index .or first second) time
      (.record ⟨.or, .branch chosen, index, ordinal, true⟩ walk) := by
  intro before htime hforce
  rw [Tree.nodes_binary]
  have hplaces : compiled.tree.Places .or index ordinal := ⟨index, ordinal, hplace, rfl, rfl⟩
  have hwarrants : compiled.Warrants before ⟨.or, .branch chosen, index, ordinal, true⟩ := by
    refine ⟨hplaces, rfl, ?_⟩
    rintro (hkind | hkind) <;> cases hkind
  refine .record hwarrants ?_
  -- the branch is one of the two, and its nodes are among those of both
  rcases h with h | h
  · exact h.left htime (inForce_branch rfl hforce)
  · exact h.right htime (inForce_branch rfl hforce)

/-- An `or` asks for a branch, and whichever is taken is acquired at the same time. -/
theorem or {ordinal : Nat} (hplace : (compiled.tree.labelsOf .or)[ordinal]? = some index)
    (hfirst : compiled.GoesOnAt first time walk) (hsecond : compiled.GoesOnAt second time walk') :
    compiled.GoesOnAt (.binary index .or first second) time
      ((Walk.decideBranch index ordinal).bind fun chosen => if chosen then walk else walk') := by
  intro before htime hforce
  rw [Tree.nodes_binary]
  refine .branch ⟨index, ordinal, hplace, rfl, rfl⟩ ?_
  intro recorded hkind
  have hforce' := inForce_branch hkind hforce
  exact ⟨hfirst.left htime hforce', hsecond.right htime hforce'⟩

end GoesOnAt

/-- Visits to any part go on as expected. -/
theorem visit_goesOnAt (h : compiled.Sound) (hasc : compiled.tree.Ascending) {part : Tree Nat}
    (hpart : part ∈ compiled.tree.subtrees) (time : Slice) :
    compiled.GoesOnAt part time (compiled.visit values part time) := by
  -- by what a visit does at one node, as soon as the sub-contracts go on as expected
  apply h.visit_induction (motive := fun part time visit => compiled.GoesOnAt part time (visit values))
    hpart time
  case expired | leaf | never =>
    intros
    exact .done _ _ _
  -- nothing is decided at these nodes
  case give =>
    intro index body time _ _ hbody
    exact (hbody.unary .give).map _
  case truncate =>
    intro index date body time _ _ hbody
    exact hbody.unary _
  case constant =>
    intro index n body time _ _ hbody
    exact (hbody.unary _).map _
  case observable =>
    intro index o body time ordinal _ _ _ _ hbody
    exact (hbody.unary _).map _
  case inTurn =>
    intro index first second time _ _ hfirst
    exact hfirst.inFirst _
  case afterwards =>
    intro index first second time _ _ _ hsecond
    exact hsecond.inSecond _
  case and =>
    intro index first second time hpart _ hfirst hsecond
    exact hfirst.and hasc hpart hsecond
  -- and at these, a time or a branch
  case get =>
    intro index body time horizon hpart hhorizon hle hbody
    exact .get h hpart hhorizon hle hbody
  case anytime =>
    intro index body time ordinal options hpart hoffers hlive hbody
    exact .anytime h hpart hoffers hlive hbody
  case orSecond =>
    intro index first second time ordinal _ _ hplace _ _ hsecond
    exact .orAlone hplace false (Or.inr hsecond)
  case orFirst =>
    intro index first second time ordinal _ _ hplace _ _ hfirst
    exact .orAlone hplace true (Or.inl hfirst)
  case or =>
    intro index first second time ordinal _ _ hplace _ _ hfirst hsecond
    exact .or hplace hfirst hsecond

/-- A walk through the whole contract decides on its acquisition first, and goes on with its nodes in
reading order. -/
theorem walk_goesOn (h : compiled.Sound) (hasc : compiled.tree.Ascending) (now : Int)
    (includePast : Bool) (values : Nat → Option Int) :
    compiled.GoesOn (topNode :: compiled.tree.nodes) [] (compiled.walk now includePast values) := by
  obtain ⟨options, hoptions, hwalk⟩ := exists_walk_eq h now includePast
  rw [hwalk]
  have hzero := Choice.fromZero_of_mem_map fun _ => zero_le_of_mem_topOptions h hoptions
  have hexpects : compiled.Expects [] (acquisitionAmong options) :=
    ⟨hzero, nofun, ⟨rfl, rfl⟩, nofun⟩
  refine .ask _ hexpects ?_
  intro choice hanswers hgiven
  -- the slice that answers the question is in force at all nodes
  cases hvalue : choice.value with
  | slice time =>
      refine visit_goesOnAt h hasc (Tree.self_mem_subtrees _) time _ (hgiven.fromZero _ hvalue) ?_
      intro node _
      have hgoverns : compiled.tree.Governs node choice :=
        ⟨by rw [hanswers.1]; rfl, Or.inl hanswers.2⟩
      rw [Tree.inForce_concat hgoverns, hvalue]
      rfl
  | branch _ => exact trivial

end Compiled

end ContractAlgebra
