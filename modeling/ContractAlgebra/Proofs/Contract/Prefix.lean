import ContractAlgebra.Proofs.Contract.Grammar
import ContractAlgebra.Proofs.Contract.Row

/-!
# Contracts in front of other atoms

No reader looks further than it says. A date, a factor, a head and a whole contract are read from
atoms of their own, and in the same way whatever follows these (`Tree.Reads.exists_own`). So the
atoms of a contract that stands in front of others are this contract alone
(`parseAtoms_take_of_parse`).
-/

namespace ContractAlgebra

/-- A reader uses the first `count` of some atoms, and does not depend on those after them. -/
def ReadsOwn {α : Type} (read : List String → Except Failure (α × Nat)) (atoms : List String) (a : α)
    (count : Nat) : Prop :=
  ∃ taken rest, atoms = taken ++ rest ∧ taken.length = count ∧
    ∀ more, read (taken ++ more) = .ok (a, count)

/-! ## Parameters -/

/-- A date is read from the atoms in its brackets, or from its number. -/
theorem readsOwn_readDate {index : Int} {atoms : List String} {date : UInt32} {count : Nat}
    (h : readDate index atoms = .ok (date, count)) : ReadsOwn (readDate index) atoms date count := by
  rcases readDate_cases h with
    ⟨atom, after, rfl, ⟨hopens, hcount, t, htime, hdate⟩ | ⟨hopens, hinteger, rfl, t, ht, hdate⟩⟩
  · rcases exists_bracketed hopens hcount htime hdate with
      ⟨taken, rest, hatoms, hbracketed, hread, rfl⟩
    exact ⟨taken, rest, hatoms, rfl, fun more => readDate_of_bracketed hbracketed hread⟩
  · refine ⟨[atom], after, rfl, rfl, fun more => ?_⟩
    rw [List.singleton_append, readDate, if_neg hopens, if_pos hinteger, bind_of_eq_ok ht,
      bind_of_eq_ok hdate]
    rfl

/-- A factor is read from one atom, or from two. -/
theorem readsOwn_readFactor {index : Int} {atoms : List String} {factor : Factor} {count : Nat}
    (h : readFactor index atoms = .ok (factor, count)) :
    ReadsOwn (readFactor index) atoms factor count := by
  rcases readFactor_cases h with
    ⟨atom, rest, n, rfl, hinteger, hn, hfits, rfl, rfl⟩ |
    ⟨name, arbiter, rest, address, rfl, hname, haddress, rfl, rfl⟩
  · refine ⟨[atom], rest, rfl, rfl, fun more => ?_⟩
    simp only [List.singleton_append, readFactor, if_pos hinteger, bind_of_eq_ok hn, if_pos hfits]
    rfl
  · refine ⟨[name, arbiter], rest, rfl, rfl, fun more => ?_⟩
    simp only [List.cons_append, List.nil_append, readFactor, if_neg hname, bind_of_eq_ok haddress]
    rfl

/-- A head is read from the atoms of its parameter. -/
theorem readsOwn_read {index : Int} {atoms : List String} {c : Combinator} {head : Head}
    {count : Nat} (h : Head.read index atoms c = .ok (head, count)) :
    ReadsOwn (Head.read index · c) atoms head count := by
  -- only a date and a factor are read from atoms
  cases c with
  | truncate =>
      rcases bind_eq_ok.mp h with ⟨⟨date, count'⟩, hdate, h⟩
      cases h
      rcases readsOwn_readDate hdate with ⟨taken, rest, hatoms, hlength, hread⟩
      exact ⟨taken, rest, hatoms, hlength, fun more => bind_of_eq_ok (hread more)⟩
  | scale =>
      rcases bind_eq_ok.mp h with ⟨⟨factor, count'⟩, hfactor, h⟩
      cases h
      rcases readsOwn_readFactor hfactor with ⟨taken, rest, hatoms, hlength, hread⟩
      exact ⟨taken, rest, hatoms, hlength, fun more => bind_of_eq_ok (hread more)⟩
  | zero | one | and | or | andThen | give | get | anytime =>
      cases h
      exact ⟨[], atoms, rfl, rfl, fun _ => rfl⟩

/-! ## Heads and contracts -/

/-- A head stands at the start of its own atoms, whatever follows them. -/
theorem HeadAt.exists_own {index next : Nat} {atoms rest : List String} {head : Head}
    (h : HeadAt index atoms head next rest) :
    ∃ taken, atoms = taken ++ rest ∧ index + taken.length = next ∧
      ∀ more, HeadAt index (taken ++ more) head next more := by
  cases h with
  | @intro count atom after c _ hc hread =>
      -- the word is one atom, and those of the parameter follow
      rcases readsOwn_read hread with ⟨taken, rest, rfl, rfl, hown⟩
      refine ⟨atom :: taken, ?_, ?_, fun more => ?_⟩
      · rw [List.drop_left, List.cons_append]
      · rw [List.length_cons]
        omega
      · have hhead := HeadAt.intro hc (hown more)
        rw [List.drop_left] at hhead
        exact hhead

namespace Tree

/-- A contract is read from its own atoms, whatever follows them. -/
theorem Reads.exists_own {room index : Nat} {declared : List Observable} {atoms : List String}
    {reading : Reading} (h : Reads room declared index atoms reading) :
    ∃ taken, atoms = taken ++ reading.rest ∧ index + taken.length = reading.tree.lastLabel + 1 ∧
      ∀ more, Reads room declared index (taken ++ more) { reading with rest := more } := by
  -- along the reading; the atoms of the parts are put together
  induction h with
  | leaf hopens =>
      rcases hopens.stands.exists_own with ⟨taken, hatoms, hlength, hstands⟩
      refine ⟨taken, hatoms, ?_, fun more => .leaf ⟨hstands more, hopens.declares⟩⟩
      rw [hlength]
      exact hopens.stands.next_leaf
  | unary hopens _ ih =>
      rcases hopens.stands.exists_own with ⟨taken, rfl, hlength, hstands⟩
      rcases ih with ⟨taken₁, rfl, hlength₁, hbody⟩
      refine ⟨taken ++ taken₁, (List.append_assoc ..).symm, ?_, fun more => ?_⟩
      · rw [List.length_append, ← Nat.add_assoc, hlength]
        exact hlength₁
      · rw [List.append_assoc]
        exact .unary ⟨hstands _, hopens.declares⟩ (hbody more)
  | binary hopens _ _ ih₁ ih₂ =>
      rcases hopens.stands.exists_own with ⟨taken, rfl, hlength, hstands⟩
      rcases ih₁ with ⟨taken₁, rfl, hlength₁, hfirst⟩
      rcases ih₂ with ⟨taken₂, hrest, hlength₂, hsecond⟩
      refine ⟨taken ++ (taken₁ ++ taken₂), ?_, ?_, fun more => ?_⟩
      · rw [hrest, List.append_assoc, List.append_assoc]
      · rw [List.length_append, List.length_append, ← Nat.add_assoc, hlength, ← Nat.add_assoc,
          hlength₁]
        exact hlength₂
      · rw [List.append_assoc, List.append_assoc]
        exact .binary ⟨hstands _, hopens.declares⟩ (hfirst (taken₂ ++ more)) (hsecond more)

end Tree

/-- The atoms of a contract are that contract, without those that follow it in the text. -/
theorem parseAtoms_take_of_parse {text : String} {parsed : Parsed} (h : parse text = .ok parsed) :
    parseAtoms ((atoms text).take (parsed.stop + 1)) =
      .ok ⟨(atoms text).take (parsed.stop + 1), parsed.tree⟩ := by
  rcases parseAtoms_eq_ok.mp h with ⟨reading, hreads, rfl⟩
  rcases hreads.exists_own with ⟨taken, hatoms, hlength, hown⟩
  have htaken : (atoms text).take (reading.tree.lastLabel + 1) = taken := by
    rw [hatoms, ← hlength, Nat.zero_add, List.take_left]
  have hown := hown []
  rw [List.append_nil, ← htaken] at hown
  exact parseAtoms_eq_ok.mpr ⟨_, hown, rfl⟩

end ContractAlgebra
