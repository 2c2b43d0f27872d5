import ContractAlgebra.Proofs.Compiled.Parts

/-!
# Compiled contracts with other labels

The pass over a contract takes no notice of its labels. So a contract and its canonical text, whose
trees differ by a change of labels, compile to data that differ by this change too and by nothing
else (`Compiled.exists_renumbered`).
-/

namespace ContractAlgebra

/-! ## The pass -/

/-- What a pass found out, with other labels. -/
def Outlook.renumber (f : Nat → Nat) (outlook : Outlook) : Outlook where
  horizon := outlook.horizon
  slices := outlook.slices
  anytimes := outlook.anytimes.map (Prod.map f id)
  horizons := outlook.horizons.map (Prod.map f id)
  observables := outlook.observables.map (Prod.map f id)

/-- If what is done next changes with the labels, what is done in all changes with them. -/
theorem map_bind_eq_map {ε α α' β β' : Type} {x : Except ε α} {k : α → α'} {h : β → β'}
    {next : α → Except ε β} {next' : α' → Except ε β'}
    (hnext : ∀ a, next' (k a) = (next a).map h) : x.map k >>= next' = (x >>= next).map h := by
  cases x with
  | error e => rfl
  | ok a => exact hnext a

/-- So it is where nothing is found out before. -/
theorem bind_eq_map {ε α β β' : Type} {x : Except ε α} {h : β → β'} {next : α → Except ε β}
    {next' : α → Except ε β'} (hnext : ∀ a, next' a = (next a).map h) :
    x >>= next' = (x >>= next).map h := by
  cases x with
  | error e => rfl
  | ok a => exact hnext a

/-- The pass over a contract with other labels finds out the same with these labels. -/
theorem Tree.outlook_map (f : Nat → Nat) (tree : Tree Nat) :
    (tree.map f).outlook = tree.outlook.map (Outlook.renumber f) := by
  -- on the tree; the parts have the same outlooks with the other labels
  induction tree with
  | leaf index op => rfl
  | unary index op body ih =>
      rw [map, outlook, outlook, ih]
      apply map_bind_eq_map
      intro sub
      cases op with
      | give => rfl
      | scale factor => cases factor <;> rfl
      | anytime => exact bind_eq_map fun slices => rfl
      | get => exact bind_eq_map fun slices => rfl
      | truncate date =>
          apply bind_eq_map
          intro slices
          simp only [pure, Except.pure, Except.map, Outlook.renumber, List.map_append,
            List.map_singleton, Prod.map_apply, id]
  | binary index op first second ih₁ ih₂ =>
      rw [map, outlook, outlook, ih₁, ih₂]
      apply map_bind_eq_map
      intro sub
      apply map_bind_eq_map
      intro sub'
      -- whatever slices the combinator makes of those of its parts
      cases op
      all_goals
        apply bind_eq_map
        intro slices
        simp only [pure, Except.pure, Except.map, Outlook.renumber, List.map_append,
          List.map_singleton, Prod.map_apply, id]

namespace Compiled

/-! ## Compiled data -/

/-- Two compiled contracts whose data differ by a change of labels. -/
structure Renumbered (f : Nat → Nat) (compiled compiled' : Compiled) : Prop where
  tree : Tree.Renumbering f compiled.tree compiled'.tree
  horizon : compiled'.horizon = compiled.horizon
  slices : compiled'.slices = compiled.slices
  anytimes : compiled'.anytimes = compiled.anytimes.map (Prod.map f id)
  ors : compiled'.ors = compiled.ors.map f
  observables : compiled'.observables = compiled.observables.map (Prod.map f id)
  horizonAt : ∀ part ∈ compiled.tree.subtrees,
    compiled'.horizonAt (f part.label) = compiled.horizonAt part.label

variable {text text' : String} {parsed parsed' : Parsed} {f : Nat → Nat} {compiled compiled' : Compiled}

/-- Trees that differ by their labels compile to data that differ by these. -/
theorem renumbered_of_sound (hcompile : ofParsed text parsed = .ok compiled) (hsound : compiled.Sound)
    (hcompile' : ofParsed text' parsed' = .ok compiled') (hsound' : compiled'.Sound)
    (h : Tree.Renumbering f parsed.tree parsed'.tree) : compiled.Renumbered f compiled' := by
  obtain ⟨outlook, houtlook, _⟩ := parsed.tree.outlook_sound
  have houtlook' : parsed'.tree.outlook = .ok (outlook.renumber f) := by
    rw [h.tree_eq, Tree.outlook_map, houtlook]
    rfl
  -- both are made from one outlook
  rw [ofParsed_eq houtlook] at hcompile
  rw [ofParsed_eq houtlook'] at hcompile'
  cases hcompile
  cases hcompile'
  refine ⟨h, rfl, rfl, rfl, ?_, rfl, ?_⟩
  · show parsed'.tree.labelsOf .or = _
    rw [h.tree_eq, Tree.labelsOf_map]
    rfl
  · intro part hpart
    have hpart' : part.map f ∈ parsed'.tree.subtrees := by
      rw [h.tree_eq, Tree.subtrees_map]
      exact List.mem_map_of_mem hpart
    have hhorizon := (hsound'.knows _ hpart').horizon
    rw [Tree.label_map, Tree.horizon_map] at hhorizon
    rw [hhorizon, (hsound.knows _ hpart).horizon]

/-- The canonical text of a contract compiles to the data of the contract, with other labels. -/
theorem exists_renumbered (h : parse text = .ok parsed) : ∃ f compiled compiled',
    compile text = .ok compiled ∧ compile parsed.tree.render = .ok compiled' ∧
      compiled.Renumbered f compiled' := by
  obtain ⟨own, f, hown, _, hrenumbering⟩ :=
    Tree.exists_renumbering_of_render h parsed.tree.self_mem_subtrees
  obtain ⟨compiled, hcompile, _, hsound⟩ := sound_of_parse h
  obtain ⟨compiled', hcompile', _, hsound'⟩ := sound_of_parse hown
  refine ⟨f, compiled, compiled', hcompile, hcompile', ?_⟩
  rw [compile, bind_of_eq_ok h] at hcompile
  rw [compile, bind_of_eq_ok hown] at hcompile'
  exact renumbered_of_sound hcompile hsound hcompile' hsound' hrenumbering

/-! ## Looking up -/

namespace Renumbered

/-- The slices of a node are found under its other label. -/
theorem anytimeSlices? (h : compiled.Renumbered f compiled') (index : Nat) :
    compiled'.anytimeSlices? (f index) = compiled.anytimeSlices? index := by
  unfold Compiled.anytimeSlices?
  rw [h.anytimes]
  -- the labels are told apart as before
  induction compiled.anytimes with
  | nil => rfl
  | cons entry entries ih =>
      obtain ⟨key, slices⟩ := entry
      rw [List.map_cons, Prod.map_apply, List.lookup_cons, List.lookup_cons, ih,
        h.tree.injective.beq_eq, id]

/-- So is its ordinal. -/
theorem anytimeOrdinal? (h : compiled.Renumbered f compiled') (index : Nat) :
    compiled'.anytimeOrdinal? (f index) = compiled.anytimeOrdinal? index := by
  unfold Compiled.anytimeOrdinal?
  simp only [h.anytimes, List.findIdx?_map, Function.comp_def, Prod.map_fst, h.tree.injective.beq_eq]

/-- And that of an `or`. -/
theorem orOrdinal? (h : compiled.Renumbered f compiled') (index : Nat) :
    compiled'.orOrdinal? (f index) = compiled.orOrdinal? index := by
  unfold Compiled.orOrdinal?
  simp only [h.ors, List.findIdx?_map, Function.comp_def, h.tree.injective.beq_eq]

/-- And that of an observable. -/
theorem observableOrdinal? (h : compiled.Renumbered f compiled') (index : Nat) :
    compiled'.observableOrdinal? (f index) = compiled.observableOrdinal? index := by
  unfold Compiled.observableOrdinal?
  simp only [h.observables, List.findIdx?_map, Function.comp_def, Prod.map_fst,
    h.tree.injective.beq_eq]

/-- The entries of the ledger do not tell labels. -/
theorem entries (h : compiled.Renumbered f compiled') : compiled'.entries = compiled.entries := by
  unfold Compiled.entries
  rw [h.observables, List.zipIdx_map, List.map_map]
  rfl

/-- A part of the one contract is a part of the other, with other labels. -/
theorem map_mem_subtrees (h : compiled.Renumbered f compiled') {part : Tree Nat}
    (hpart : part ∈ compiled.tree.subtrees) : part.map f ∈ compiled'.tree.subtrees := by
  rw [h.tree.tree_eq, Tree.subtrees_map]
  exact List.mem_map_of_mem hpart

/-- What is known of a part is known under its other label. -/
theorem knows (h : compiled.Renumbered f compiled') {part : Tree Nat}
    (hpart : part ∈ compiled.tree.subtrees) (hknows : compiled.Knows part) :
    compiled'.Knows (part.map f) where
  horizon := by
    rw [Tree.label_map, Tree.horizon_map, h.horizonAt part hpart, hknows.horizon]
  anytime hhead := by
    obtain ⟨slices, ordinal, hslices, hdescribes, hordinal, hplace⟩ :=
      hknows.anytime ((Tree.head_map f part).symm.trans hhead)
    refine ⟨slices, ordinal, ?_, Slices.Describes.map_iff.mpr hdescribes, ?_, ?_⟩
    · rw [Tree.label_map, h.anytimeSlices?, hslices]
    · rw [Tree.label_map, h.anytimeOrdinal?, hordinal]
    · rw [Tree.label_map, h.tree.tree_eq, Tree.labelsOf_map, List.getElem?_map, hplace]
      rfl
  or hhead := by
    obtain ⟨ordinal, hordinal, hplace⟩ := hknows.or ((Tree.head_map f part).symm.trans hhead)
    refine ⟨ordinal, ?_, ?_⟩
    · rw [Tree.label_map, h.orOrdinal?, hordinal]
    · rw [Tree.label_map, h.tree.tree_eq, Tree.labelsOf_map, List.getElem?_map, hplace]
      rfl
  observable o hhead := by
    obtain ⟨ordinal, hordinal, hplace⟩ :=
      hknows.observable o ((Tree.head_map f part).symm.trans hhead)
    refine ⟨ordinal, ?_, ?_⟩
    · rw [Tree.label_map, h.observableOrdinal?, hordinal]
    · rw [Tree.label_map, h.tree.tree_eq, Tree.observables_map, List.getElem?_map, hplace]
      rfl

/-- What is known of a contract is known of it with other labels. -/
theorem sound (h : compiled.Renumbered f compiled') (hsound : compiled.Sound) : compiled'.Sound where
  horizon := by rw [h.horizon, h.tree.tree_eq, Tree.horizon_map, hsound.horizon]
  slices := by
    rw [h.slices, h.tree.tree_eq]
    exact Slices.Describes.map_iff.mpr hsound.slices
  observables := by
    rw [h.observables, h.tree.tree_eq, Tree.observables_map, hsound.observables]
  knows part' hpart' := by
    rw [h.tree.tree_eq, Tree.subtrees_map] at hpart'
    obtain ⟨part, hpart, rfl⟩ := List.mem_map.mp hpart'
    exact h.knows hpart (hsound.knows part hpart)

end Renumbered

end Compiled

end ContractAlgebra
