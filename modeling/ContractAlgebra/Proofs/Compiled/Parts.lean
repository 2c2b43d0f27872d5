import ContractAlgebra.Proofs.Compiled.Lookup
import ContractAlgebra.Proofs.Contract.NormalForm

/-!
# Parts compiled on their own

Horizons and slices do not depend on where a contract stands. What a compiled contract holds for a
part of its tree is what that part gets when its text is compiled by itself
(`Compiled.parts_compile_alone`).
-/

namespace ContractAlgebra

/-! ## One slice set for a contract -/

namespace Slices.Describes

variable {ι κ : Type} {s s' : Slices} {tree : Tree ι}

/-- Slices do not tell the labels of a contract. -/
theorem map_iff {f : ι → κ} : s.Describes (tree.map f) ↔ s.Describes tree := by
  constructor
  · rintro ⟨hcovers, hboundaries⟩
    rw [Tree.horizon_map] at hcovers
    exact ⟨hcovers, fun b => (hboundaries b).trans (Tree.boundary_map f tree b)⟩
  · rintro ⟨hcovers, hboundaries⟩
    refine ⟨?_, fun b => (hboundaries b).trans (Tree.boundary_map f tree b).symm⟩
    rw [Tree.horizon_map]
    exact hcovers

/-- Acquired by an `anytime`, a contract has the slices that it has without one. -/
theorem body {index : ι} (h : s.Describes (.unary index .anytime tree)) : s.Describes tree where
  covers := h.covers
  boundaries := h.boundaries

/-- The horizon and the boundaries of a contract leave no choice of slices. -/
theorem unique (h : s.Describes tree) (h' : s'.Describes tree) : s = s' := by
  apply h.covers.unique h'.covers
  intro b
  rw [h.boundaries, h'.boundaries]

end Slices.Describes

/-! ## Compiling a part -/

namespace Compiled

variable {text : String} {parsed : Parsed}

/-- The text of a part compiles, to the horizon and the slices of the part. -/
theorem exists_own (h : parse text = .ok parsed) {part : Tree Nat}
    (hpart : part ∈ parsed.tree.subtrees) : ∃ own, compile part.render = .ok own ∧
      own.horizon = part.horizon ∧ own.slices.Describes part := by
  obtain ⟨alone, f, halone, _, hrenumbering⟩ := Tree.exists_renumbering_of_render h hpart
  obtain ⟨own, hown, rfl, hsound⟩ := sound_of_parse halone
  have htree : own.tree = part.map f := hrenumbering.tree_eq
  refine ⟨own, hown, ?_, ?_⟩
  · rw [hsound.horizon, htree, Tree.horizon_map]
  · rw [← Slices.Describes.map_iff (f := f), ← htree]
    exact hsound.slices

/-- The horizon found for a node of a contract is the one that its part of the contract has by the
rules for horizons, and gets when it is compiled by itself. The slices recorded for an `anytime` are
those that its sub-contract gets when it is compiled by itself. -/
theorem parts_compile_alone (h : parse text = .ok parsed) :
    ∃ compiled, compile text = .ok compiled ∧ compiled.parsed = parsed ∧
      ∀ part ∈ parsed.tree.subtrees,
        compiled.horizonAt part.label = part.horizon ∧
        (∃ own, compile part.render = .ok own ∧ own.horizon = compiled.horizonAt part.label) ∧
        ∀ index body, part = .unary index .anytime body → ∃ own,
          compile body.render = .ok own ∧ compiled.anytimeSlices? index = some own.slices := by
  obtain ⟨compiled, hcompile, rfl, hsound⟩ := sound_of_parse h
  refine ⟨compiled, hcompile, rfl, ?_⟩
  intro part hpart
  have hknows := hsound.knows part hpart
  refine ⟨hknows.horizon, ?_, ?_⟩
  · obtain ⟨own, hown, hhorizon, _⟩ := exists_own h hpart
    exact ⟨own, hown, hhorizon.trans hknows.horizon.symm⟩
  · rintro index body rfl
    -- both slice sets describe the sub-contract, so they are one
    obtain ⟨slices, _, hslices, hdescribes, _⟩ := hknows.anytime rfl
    obtain ⟨own, hown, _, halone⟩ := exists_own h (Tree.body_mem_subtrees hpart)
    have hlabel : (Tree.unary index .anytime body).label = index := rfl
    rw [hlabel, hdescribes.body.unique halone] at hslices
    exact ⟨own, hown, hslices⟩

/-- An `anytime` in a contract that ends before the sub-contract of the `anytime` does. -/
def cutText : String :=
  "truncate 3 anytime truncate 5 one"

/-- What is read from that text. -/
def cut : Parsed where
  atoms := ["truncate", "3", "anytime", "truncate", "5", "one"]
  tree := .unary 0 (.truncate 3) (.unary 2 .anytime (.unary 3 (.truncate 5) (.leaf 5 .one)))

/-- The `anytime` ends at 5 there, too, though the contract ends at 3. -/
theorem parts_compile_alone_of_cut :
    parse cutText = .ok cut ∧ ∃ compiled own own', compile cutText = .ok compiled ∧
      compiled.horizonAt 0 = .instant 3 ∧ compiled.horizonAt 2 = .instant 5 ∧
      compile "anytime truncate <01/01/1970 00:00:05> one" = .ok own ∧ own.horizon = .instant 5 ∧
      compile "truncate <01/01/1970 00:00:05> one" = .ok own' ∧
      compiled.anytimeSlices? 2 = some own'.slices := by
  have hparse : parse cutText = .ok cut := by rfl
  have hpart : Tree.unary 2 .anytime (.unary 3 (.truncate 5) (.leaf 5 .one)) ∈ cut.tree.subtrees :=
    .tail _ (.head _)
  have htext : (Tree.unary 2 .anytime (.unary 3 (.truncate 5) (.leaf 5 .one))).render =
      "anytime truncate <01/01/1970 00:00:05> one" := by decide +kernel
  have htext' : (Tree.unary 3 (.truncate 5) (.leaf 5 .one)).render =
      "truncate <01/01/1970 00:00:05> one" := by decide +kernel
  obtain ⟨compiled, hcompile, _, hparts⟩ := parts_compile_alone hparse
  obtain ⟨hwhole, _⟩ := hparts cut.tree cut.tree.self_mem_subtrees
  obtain ⟨hinner, ⟨own, hown, hhorizon⟩, hanytime⟩ := hparts _ hpart
  obtain ⟨own', hown', hslices⟩ := hanytime _ _ rfl
  rw [htext] at hown
  rw [htext'] at hown'
  exact ⟨hparse, compiled, own, own', hcompile, hwhole, hinner, hown, hhorizon.trans hinner, hown',
    hslices⟩

end Compiled

end ContractAlgebra
