import ContractAlgebra.Proofs.Compiled.Outlook
import ContractAlgebra.Proofs.SuccessorMap

/-!
# Looking up compiled data

A contract that was read from text compiles, and the compiled contract knows of every part of its
tree what the walk asks for: the horizon, the slices of an `anytime`, and the place of each node
that is counted (`Compiled.sound_of_parse`).
-/

namespace ContractAlgebra

namespace Tree

/-- The labels of a combinator are those of its nodes. -/
theorem label_mem_labelsOf {part tree : Tree Nat} {c : Combinator} (hpart : part ∈ tree.subtrees)
    (hc : part.head.combinator = c) : part.label ∈ tree.labelsOf c :=
  List.mem_map_of_mem (List.mem_filter.mpr ⟨hpart, by simpa using hc⟩)

/-- A label stands beside one observable at most. -/
theorem eq_of_mem_observables {index : Nat} {o o' : Observable} {tree : Tree Nat}
    (h : tree.Ascending) (ho : (index, o) ∈ tree.observables)
    (ho' : (index, o') ∈ tree.observables) : o' = o := by
  rcases List.mem_filterMap.mp ho with ⟨part, hpart, heq⟩
  rcases List.mem_filterMap.mp ho' with ⟨node, hnode, heq'⟩
  rcases Option.map_eq_some_iff.mp heq with ⟨x, hx, hxo⟩
  rcases Option.map_eq_some_iff.mp heq' with ⟨y, hy, hyo⟩
  -- both nodes have the label, so they are one node
  have hlabel : part.label = node.label :=
    (Prod.mk.inj hxo).1.trans (Prod.mk.inj hyo).1.symm
  rcases eq_of_label_eq h hpart hnode hlabel with rfl
  rw [hx] at hy
  rw [← (Prod.mk.inj hxo).2, ← (Prod.mk.inj hyo).2]
  exact (Option.some.inj hy).symm

end Tree

namespace Compiled

/-- What a compiled contract knows of a part of its tree. -/
structure Knows (compiled : Compiled) (part : Tree Nat) : Prop where
  horizon : compiled.horizonAt part.label = part.horizon
  anytime : part.head = .unary .anytime → ∃ slices ordinal,
    compiled.anytimeSlices? part.label = some slices ∧ slices.Describes part ∧
      compiled.anytimeOrdinal? part.label = some ordinal ∧
        (compiled.tree.labelsOf .anytime)[ordinal]? = some part.label
  or : part.head = .binary .or → ∃ ordinal, compiled.orOrdinal? part.label = some ordinal ∧
    (compiled.tree.labelsOf .or)[ordinal]? = some part.label
  observable : ∀ o, part.head = .unary (.scale (.observable o)) → ∃ ordinal,
    compiled.observableOrdinal? part.label = some ordinal ∧
      compiled.tree.observables[ordinal]? = some (part.label, o)

/-- A compiled contract knows its own horizon, slices and observables, and every part of its tree. -/
structure Sound (compiled : Compiled) : Prop where
  horizon : compiled.horizon = compiled.tree.horizon
  slices : compiled.slices.Describes compiled.tree
  observables : compiled.observables = compiled.tree.observables
  knows : ∀ part ∈ compiled.tree.subtrees, compiled.Knows part

variable {text : String} {parsed : Parsed} {outlook : Outlook}

/-- The compiled contract that keeps what a pass found out. -/
def ofOutlook (text : String) (parsed : Parsed) (outlook : Outlook) : Compiled where
  text := text
  parsed := parsed
  horizon := outlook.horizon
  slices := outlook.slices
  anytimes := outlook.anytimes
  horizons := .ofList (outlook.horizons.map fun (index, time) => (index, time))
  ors := parsed.tree.labelsOf .or
  observables := outlook.observables

/-- Nothing else is kept. -/
theorem ofParsed_eq (h : parsed.tree.outlook = .ok outlook) :
    ofParsed text parsed = .ok (ofOutlook text parsed outlook) := by
  simp only [ofParsed, h, ofSlices, bind, Except.bind]
  rfl

/-- The horizons that are kept are those of the nodes that set one. -/
theorem mem_horizons_ofOutlook (h : outlook.Sound parsed.tree) (key : Int) (time : Time) :
    (key, time) ∈ outlook.horizons.map (fun (index, time) => ((index : Int), time)) ↔
      ∃ node ∈ parsed.tree.subtrees,
        node.head.setsHorizon ∧ (node.label : Int) = key ∧ node.horizon = time := by
  simp only [List.mem_map, Prod.mk.injEq, Prod.exists, h.horizons]
  constructor
  · intro h
    rcases h with ⟨index, t, ⟨node, hmem, hsets, rfl, rfl⟩, rfl, rfl⟩
    exact ⟨node, hmem, hsets, rfl, rfl⟩
  · intro h
    rcases h with ⟨node, hmem, hsets, rfl, rfl⟩
    exact ⟨node.label, _, ⟨node, hmem, hsets, rfl, rfl⟩, rfl, rfl⟩

/-- The horizon found for a node is that of the next node that sets one. -/
theorem horizonAt_ofOutlook {part : Tree Nat} (h : outlook.Sound parsed.tree)
    (hasc : parsed.tree.Ascending) (hpart : part ∈ parsed.tree.subtrees) :
    (ofOutlook text parsed outlook).horizonAt part.label = part.horizon := by
  have hentry := mem_horizons_ofOutlook h
  -- the part has the horizon of some node in it, and no node between the two sets one
  rcases part.exists_setsHorizon with ⟨node, hnode, hsets, hlabel, htime⟩
  have hmem := Tree.mem_subtrees_trans hnode hpart
  have hfound : (ofOutlook text parsed outlook).horizons.next? part.label = some part.horizon := by
    refine SuccessorMap.next?_eq_some (k := (part.horizonLabel : Int))
      (SuccessorMap.ascending_ofList _) (SuccessorMap.mem_ofList_of_mem ?_ ?_) ?_ ?_
    · exact (hentry _ _).mpr ⟨node, hmem, hsets, by rw [hlabel], htime⟩
    · intro time htime'
      rcases (hentry _ _).mp htime' with ⟨node', hnode', _, hkey, htime'⟩
      rcases Tree.eq_of_label_eq hasc hnode' hmem (by omega) with rfl
      exact htime'.symm.trans htime
    · have := Tree.label_le_label (hasc.of_mem hpart) hnode
      omega
    · intro key time hkey hle
      obtain ⟨node', hnode', hsets', rfl, _⟩ :=
        (hentry _ _).mp (SuccessorMap.mem_of_mem_ofList hkey)
      have := Tree.horizonLabel_le hasc hpart hnode' hsets' (by omega)
      omega
  simp [horizonAt, hfound]

/-- The entries have the labels of the nodes. -/
theorem keys_anytimes {entries : List (Nat × Slices)} {parts : List (Tree Nat)}
    (h : List.Forall₂ (fun entry part => entry.1 = part.label ∧ entry.2.Describes part)
      entries parts) :
    entries.map Prod.fst = parts.map Tree.label := by
  induction h with
  | nil => rfl
  | cons hentry _ ih => rw [List.map_cons, List.map_cons, hentry.1, ih]

/-- What is found at a place by its label has that label. -/
theorem getElem?_of_findIdx? {labels : List Nat} {label place : Nat}
    (h : labels.findIdx? (· == label) = some place) : labels[place]? = some label := by
  rcases List.findIdx?_eq_some_iff_getElem.mp h with ⟨hlt, hlabel, _⟩
  rw [List.getElem?_eq_getElem hlt, beq_iff_eq.mp hlabel]

/-- The slices and the place of an `anytime` are found. -/
theorem anytime_ofOutlook {part : Tree Nat} (h : outlook.Sound parsed.tree)
    (hasc : parsed.tree.Ascending) (hpart : part ∈ parsed.tree.subtrees)
    (hhead : part.head = .unary .anytime) : ∃ slices ordinal,
      (ofOutlook text parsed outlook).anytimeSlices? part.label = some slices ∧
        slices.Describes part ∧
        (ofOutlook text parsed outlook).anytimeOrdinal? part.label = some ordinal ∧
        (parsed.tree.labelsOf .anytime)[ordinal]? = some part.label := by
  have hmem : part ∈ parsed.tree.anytimes :=
    List.mem_filter.mpr ⟨hpart, by simp [hhead, Head.combinator, Unary.combinator]⟩
  have hkeys : (outlook.anytimes.map Prod.fst).Nodup := by
    rw [keys_anytimes h.anytimes]
    exact (hasc.imp Nat.ne_of_lt).sublist (List.filter_sublist.map Tree.label)
  -- the entries and the nodes stand side by side, so each node has its entry
  rcases List.getElem_of_mem hmem with ⟨k, hk, hget⟩
  have hk' : k < outlook.anytimes.length := h.anytimes.length_eq ▸ hk
  have hentry := (List.forall₂_iff_get.mp h.anytimes).2 k hk' hk
  simp only [List.get_eq_getElem, hget] at hentry
  rcases hentry with ⟨hlabel, hdescribes⟩
  have hin : (part.label, outlook.anytimes[k].2) ∈ outlook.anytimes := by
    rw [← hlabel]
    exact List.getElem_mem _
  have hany : outlook.anytimes.any (·.1 == part.label) :=
    List.any_eq_true.mpr ⟨_, hin, beq_self_eq_true _⟩
  rcases Option.isSome_iff_exists.mp (List.findIdx?_isSome ▸ hany) with ⟨ordinal, hordinal⟩
  have hplace : (outlook.anytimes.map Prod.fst).findIdx? (· == part.label) = some ordinal := by
    rw [List.findIdx?_map]
    exact hordinal
  rw [keys_anytimes h.anytimes] at hplace
  refine ⟨_, ordinal, SuccessorMap.lookup_eq_some_of_mem hin fun slices hslices => ?_,
    hdescribes, hordinal, getElem?_of_findIdx? hplace⟩
  exact (Prod.mk.inj (List.inj_on_of_nodup_map hkeys hslices hin rfl)).2

/-- The place of an `or` is found. -/
theorem or_ofOutlook {part : Tree Nat} (hpart : part ∈ parsed.tree.subtrees)
    (hhead : part.head = .binary .or) :
    ∃ ordinal, (ofOutlook text parsed outlook).orOrdinal? part.label = some ordinal ∧
      (parsed.tree.labelsOf .or)[ordinal]? = some part.label := by
  have hany : (parsed.tree.labelsOf .or).any (· == part.label) :=
    List.any_eq_true.mpr ⟨_, Tree.label_mem_labelsOf hpart
      (by rw [hhead]; rfl), beq_self_eq_true _⟩
  rcases Option.isSome_iff_exists.mp (List.findIdx?_isSome ▸ hany) with ⟨ordinal, hordinal⟩
  exact ⟨ordinal, hordinal, getElem?_of_findIdx? hordinal⟩

/-- The observable of a node has a place, and stands there among all of them. -/
theorem observable_ofOutlook {part : Tree Nat} {o : Observable} (h : outlook.Sound parsed.tree)
    (hasc : parsed.tree.Ascending) (hpart : part ∈ parsed.tree.subtrees)
    (hhead : part.head = .unary (.scale (.observable o))) : ∃ ordinal,
      (ofOutlook text parsed outlook).observableOrdinal? part.label = some ordinal ∧
        parsed.tree.observables[ordinal]? = some (part.label, o) := by
  have hmem : (part.label, o) ∈ parsed.tree.observables :=
    List.mem_filterMap.mpr ⟨part, hpart, by rw [hhead]; rfl⟩
  have hany : outlook.observables.any (·.1 == part.label) := by
    rw [h.observables]
    exact List.any_eq_true.mpr ⟨_, hmem, beq_self_eq_true _⟩
  rcases Option.isSome_iff_exists.mp (List.findIdx?_isSome ▸ hany) with ⟨ordinal, hordinal⟩
  refine ⟨ordinal, hordinal, ?_⟩
  rw [h.observables] at hordinal
  rcases List.findIdx?_eq_some_iff_getElem.mp hordinal with ⟨hlt, hlabel, _⟩
  rw [List.getElem?_eq_getElem hlt, Option.some.injEq]
  -- what stands at this place has the label of the node
  have hfst : (parsed.tree.observables[ordinal]).1 = part.label := by simpa using hlabel
  have hat : (part.label, (parsed.tree.observables[ordinal]).2) ∈ parsed.tree.observables := by
    rw [← hfst]
    exact List.getElem_mem hlt
  exact Prod.ext hfst (Tree.eq_of_mem_observables hasc hmem hat)

/-- A parsed contract compiles to what a pass finds out. -/
theorem exists_compile_eq (h : parse text = .ok parsed) :
    ∃ outlook, outlook.Sound parsed.tree ∧ compile text = .ok (ofOutlook text parsed outlook) := by
  rcases parsed.tree.outlook_sound with ⟨outlook, hrun, hsound⟩
  refine ⟨outlook, hsound, ?_⟩
  rw [compile, bind_of_eq_ok h]
  exact ofParsed_eq hrun

/-- A parsed contract compiles, and the compiled contract knows its parts. -/
theorem sound_of_parse (h : parse text = .ok parsed) :
    ∃ compiled, compile text = .ok compiled ∧ compiled.parsed = parsed ∧ compiled.Sound := by
  have hasc := Tree.ascending_of_parse h
  rcases exists_compile_eq h with ⟨outlook, hsound, hcompile⟩
  refine ⟨ofOutlook text parsed outlook, hcompile, rfl, hsound.horizon, hsound.slices,
    hsound.observables, ?_⟩
  intro part hpart
  exact ⟨horizonAt_ofOutlook hsound hasc hpart, anytime_ofOutlook hsound hasc hpart,
    or_ofOutlook hpart, fun o => observable_ofOutlook hsound hasc hpart⟩

/-- Whatever compiles was parsed. -/
theorem sound_of_compile {compiled : Compiled} (h : compile text = .ok compiled) :
    compiled.Sound := by
  rcases bind_eq_ok.mp h with ⟨parsed, hparse, _⟩
  rcases sound_of_parse hparse with ⟨compiled', hcompile, _, hsound⟩
  rw [h] at hcompile
  cases hcompile
  exact hsound

/-- Whatever compiles has labels in reading order. -/
theorem ascending_of_compile {compiled : Compiled} (h : compile text = .ok compiled) :
    compiled.tree.Ascending := by
  rcases bind_eq_ok.mp h with ⟨parsed, hparse, _⟩
  rcases sound_of_parse hparse with ⟨compiled', hcompile, rfl, _⟩
  rw [h] at hcompile
  cases hcompile
  exact Tree.ascending_of_parse hparse

end Compiled

end ContractAlgebra
