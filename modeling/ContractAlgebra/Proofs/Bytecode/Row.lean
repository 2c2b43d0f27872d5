import ContractAlgebra.Bytecode.Encode
import ContractAlgebra.Proofs.Contract.Row

/-!
# Rows of heads in bytecode

The writer goes through a row of heads and sets down the words of each (`encodeFrom_eq_ok`), so the
bytecode of a contract is that of its tree (`encode_of_parse`).
-/

namespace ContractAlgebra

/-- A head takes one atom at least. -/
theorem HeadAt.length_lt {index next : Nat} {atoms rest : List String} {head : Head}
    (h : HeadAt index atoms head next rest) : rest.length < atoms.length := by
  cases h
  rw [List.length_drop, List.length_cons]
  omega

/-- One step of the writer. -/
theorem encodeFrom_of_headAt {index next : Nat} {atoms rest : List String} {head : Head}
    (h : HeadAt index atoms head next rest) :
    encodeFrom index atoms = (do
      let words ← encodeFrom next rest
      return head.words ++ words) := by
  cases h with
  | intro hc hread =>
      rw [encodeFrom]
      simp only [hc, bind_of_eq_ok hread]

/-- A successful step of the writer has read a head. -/
theorem exists_headAt_of_encodeFrom {index : Nat} {atom : String} {after : List String}
    {words : List Int} (h : encodeFrom index (atom :: after) = .ok words) :
    ∃ head next rest, HeadAt index (atom :: after) head next rest := by
  rw [encodeFrom] at h
  cases hc : Combinator.ofAtom? atom with
  | none => simp [hc, Failure.rejectAt] at h
  | some c =>
      simp only [hc, bind_eq_ok] at h
      rcases h with ⟨⟨head, count⟩, hread, _⟩
      exact ⟨head, _, _, .intro hc hread⟩

/-- The writer accepts just the rows of heads. -/
theorem encodeFrom_eq_ok {index : Nat} {atoms : List String} {words : List Int} :
    encodeFrom index atoms = .ok words ↔
      ∃ heads, Row index atoms heads ∧ words = heads.flatMap Head.words := by
  constructor
  · intro h
    -- on the number of atoms, as a head may take several of them
    induction hlength : atoms.length using Nat.strongRecOn generalizing index atoms words with
    | ind length ih =>
        cases atoms with
        | nil =>
            rw [encodeFrom] at h
            cases h
            exact ⟨[], .nil, rfl⟩
        | cons atom after =>
            rcases exists_headAt_of_encodeFrom h with ⟨head, next, rest, hhead⟩
            simp only [encodeFrom_of_headAt hhead, bind_eq_ok] at h
            rcases h with ⟨more, hmore, hwords⟩
            cases hwords
            rcases ih _ (hlength ▸ hhead.length_lt) hmore rfl with ⟨heads, hrow, rfl⟩
            exact ⟨head :: heads, .cons hhead hrow, rfl⟩
  · intro h
    rcases h with ⟨heads, hrow, rfl⟩
    induction hrow with
    | nil => rw [encodeFrom]; rfl
    | cons hhead _ ih =>
        rw [encodeFrom_of_headAt hhead, ih]
        rfl

/-- The words of a contract are those of its heads. -/
theorem Tree.words_eq_flatMap {ι : Type} (tree : Tree ι) :
    tree.words = tree.heads.flatMap Head.words := by
  induction tree with
  | leaf index op => simp [words]
  | unary index op body ih => simp [words, ih]
  | binary index op first second ih₁ ih₂ => simp [words, ih₁, ih₂]

/-- The bytecode of a contract is that of its tree. -/
theorem encode_of_parse {text : String} {parsed : Parsed} (h : parse text = .ok parsed)
    (hend : parsed.extraneous = []) : encode text = .ok parsed.tree.words :=
  encodeFrom_eq_ok.mpr ⟨_, (row_of_parse h hend).2, Tree.words_eq_flatMap _⟩

end ContractAlgebra
