import ContractAlgebra.Bytecode.Encode
import ContractAlgebra.Compiled
import ContractAlgebra.Proofs.Contract.Grammar
import ContractAlgebra.Proofs.Text.Spacing

/-!
# Spacing of contract text

Parentheses, commas and white space set atoms apart, and have no other meaning. A text has just the
atoms that it sets out (`atoms_eq_iff_setOut`), and all that is read from it is read from its atoms. So
it can be spaced in any other way (`reads_alike_respaced`).
-/

namespace ContractAlgebra

open Text

/-- The delimiters, one by one: parentheses, the comma and all white space. -/
def delimiters : List Char :=
  ['(', ')', ',', '\t', '\n', '\x0b', '\x0c', '\r', '\x1c', '\x1d', '\x1e', '\x1f', ' ', '\u0085',
   '\u00a0', '\u1680', '\u2000', '\u2001', '\u2002', '\u2003', '\u2004', '\u2005', '\u2006', '\u2007',
   '\u2008', '\u2009', '\u200a', '\u2028', '\u2029', '\u202f', '\u205f', '\u3000']

/-- Atoms set out as text: each is a run between delimiters, with at least one delimiter between each
two of them and any before the first and after the last. -/
def SetOut (pieces : List String) (text : String) : Prop :=
  Spaced (· ∈ delimiters) (pieces.map String.toList) text.toList

/-- Two texts that set out the same atoms, so that only their delimiters differ. -/
def Respaced (text text' : String) : Prop :=
  ∃ pieces, SetOut pieces text ∧ SetOut pieces text'

/-! ## Atoms -/

/-- The list has all delimiters. -/
theorem isDelimiter_iff {c : Char} : isDelimiter c = true ↔ c ∈ delimiters := by
  constructor
  · intro h
    -- as code points, delimiters are single numbers and rows of them
    have hcode : ∀ d : Char, c = d ↔ c.toNat = d.toNat := fun d => Char.toNat_inj.symm
    simp only [isDelimiter, isBlank, Bool.or_eq_true, Bool.and_eq_true, decide_eq_true_eq,
      beq_iff_eq, hcode, Char.reduceToNat] at h
    simp only [delimiters, List.mem_cons, List.not_mem_nil, or_false, hcode, Char.reduceToNat]
    grind
  · intro h
    have hall : delimiters.all isDelimiter = true := by decide +kernel
    exact List.all_eq_true.mp hall c h

/-- So they are known by the list. -/
theorem isDelimiter_eq : isDelimiter = fun c => decide (c ∈ delimiters) := by
  funext c
  rw [Bool.eq_iff_iff, isDelimiter_iff, decide_eq_true_eq]

/-- The atoms of a text are those that it sets out. -/
theorem atoms_eq_iff_setOut {text : String} {pieces : List String} :
    atoms text = pieces ↔ SetOut pieces text := by
  -- texts are compared by their characters
  have hchars : atoms text = pieces ↔ runs isDelimiter text.toList = pieces.map String.toList := by
    unfold atoms
    constructor
    · intro h
      rw [← h, List.map_map]
      simp [Function.comp_def]
    · intro h
      rw [h, List.map_map]
      simp [Function.comp_def]
  rw [hchars, isDelimiter_eq]
  exact runs_eq_iff_spaced

instance (pieces : List String) (text : String) : Decidable (SetOut pieces text) :=
  decidable_of_iff (atoms text = pieces) atoms_eq_iff_setOut

/-- The atoms of a text are all of it but its delimiters. -/
theorem join_atoms (text : String) :
    String.join (atoms text) = String.ofList (text.toList.filter (· ∉ delimiters)) := by
  have hpieces : (atoms text).flatMap String.toList = (runs isDelimiter text.toList).flatten := by
    simp only [atoms, List.flatMap_map, String.toList_ofList, List.flatMap_id']
  rw [← String.toList_inj, String.toList_join, String.toList_ofList, hpieces, flatten_runs,
    isDelimiter_eq]
  simp only [decide_not]

/-- Two texts differ in their delimiters only if they have the same atoms, and then they do. -/
theorem respaced_iff {text text' : String} : Respaced text text' ↔ atoms text' = atoms text := by
  constructor
  · rintro ⟨pieces, hpieces, hpieces'⟩
    rw [atoms_eq_iff_setOut.mpr hpieces, atoms_eq_iff_setOut.mpr hpieces']
  · intro h
    exact ⟨atoms text, atoms_eq_iff_setOut.mp rfl, atoms_eq_iff_setOut.mp h⟩

instance (text text' : String) : Decidable (Respaced text text') :=
  decidable_of_iff (atoms text' = atoms text) respaced_iff.symm

-- two texts may hold the same characters besides their delimiters and still have other atoms
example : ¬Respaced "give one" "giveone" := by decide +kernel

/-! ## What is read from atoms -/

section

variable {text text' : String} (h : atoms text' = atoms text)
include h

/-- Only the atoms are read. -/
theorem parse_congr : parse text' = parse text := by
  rw [parse, parse, h]

/-- So the verdict is the same. -/
theorem verify_congr : verify text' = verify text := by
  rw [verify, verify, parse_congr h]

/-- So is the canonical text. -/
theorem normalize_congr : normalize text' = normalize text := by
  rw [normalize, normalize, parse_congr h]

/-- The writer goes through the atoms as well. -/
theorem encode_congr : encode text' = encode text := by
  rw [encode, encode, h]

/-- What is compiled keeps the text, and nothing else of its spacing. -/
theorem compile_congr :
    compile text' = (compile text).map fun compiled => { compiled with text := text' } := by
  rw [compile, compile, parse_congr h]
  cases parse text with
  | error failure => rfl
  | ok parsed =>
      show Compiled.ofParsed text' parsed = (Compiled.ofParsed text parsed).map _
      unfold Compiled.ofParsed
      cases ofSlices parsed.tree.outlook with
      | error failure => rfl
      | ok outlook => rfl

end

/-- A text has the atoms that it sets out and no others. None of them is empty or holds a delimiter,
and besides them there are delimiters only. Texts that differ in their delimiters only get the same
verdict, the same canonical text and the same bytecode, or are refused for the same reason, and what
is compiled from them differs in the text that it keeps. -/
theorem reads_alike_respaced (text : String) :
    (∀ pieces, atoms text = pieces ↔ SetOut pieces text) ∧
    (∀ atom ∈ atoms text, atom ≠ "" ∧ ∀ c ∈ atom.toList, c ∉ delimiters) ∧
    String.join (atoms text) = String.ofList (text.toList.filter (· ∉ delimiters)) ∧
    ∀ text', Respaced text text' →
      parse text' = parse text ∧ verify text' = verify text ∧ normalize text' = normalize text ∧
        encode text' = encode text ∧
        compile text' = (compile text).map fun compiled => { compiled with text := text' } := by
  refine ⟨fun pieces => atoms_eq_iff_setOut, ?_, join_atoms text, ?_⟩
  · intro atom hatom
    rcases of_mem_atoms hatom with ⟨hne, hunbroken⟩
    refine ⟨hne, ?_⟩
    intro c hc hdelimiter
    -- the list has what breaks atoms, and nothing in an atom does
    have hbreaks := isDelimiter_iff.mpr hdelimiter
    rw [hunbroken c hc] at hbreaks
    cases hbreaks
  · intro text' hrespaced
    have hatoms := respaced_iff.mp hrespaced
    exact ⟨parse_congr hatoms, verify_congr hatoms, normalize_congr hatoms, encode_congr hatoms,
      compile_congr hatoms⟩

/-- Blanks inside the brackets of a date are delimiters too, so a comma may stand there. -/
theorem reads_alike_respaced_of_crowded :
    let plain := "truncate <01/01/1970 00:00:05> one"
    let crowded := "(truncate (<01/01/1970,\t00:00:05>)one\u3000)\n"
    Respaced plain crowded ∧ verify crowded = .ok (.valid 3 false) ∧
      normalize crowded = .ok plain ∧ encode crowded = .ok [4, 5, 1] ∧
      (compile crowded).map Compiled.horizon = .ok (.instant 5) ∧
      compile crowded = (compile plain).map fun compiled => { compiled with text := crowded } := by
  intro plain crowded
  have hrespaced : Respaced plain crowded := by decide +kernel
  rcases (reads_alike_respaced plain).2.2.2 crowded hrespaced with
    ⟨_, hverify, hnormalize, hencode, hcompile⟩
  refine ⟨hrespaced, ?_, ?_, ?_, ?_, hcompile⟩
  · rw [hverify]
    decide +kernel
  · rw [hnormalize]
    decide +kernel
  · rw [hencode]
    decide +kernel
  · rw [hcompile]
    decide +kernel

end ContractAlgebra
