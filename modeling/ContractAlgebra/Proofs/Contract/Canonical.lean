import ContractAlgebra.Proofs.Bytecode.Head
import ContractAlgebra.Proofs.Contract.Grammar
import ContractAlgebra.Proofs.Time.Timestamp

/-!
# The atoms of canonical text

The canonical text of a contract puts the texts of its heads side by side. When it is cut at
delimiters, each head gets its own atoms back (`atoms_render`), and these are read as the head that
they were written for (`row_canonical`).

The names of observables are the exception, as they are written without marks around them. A name
has to be an atom of its own that is no number (`IsName`).
-/

namespace ContractAlgebra

open Text

/-! ## Names -/

/-- A name that can stand in contract text: a single atom, and no number. -/
structure IsName (name : String) : Prop where
  ne_empty : name ≠ ""
  unbroken : ∀ c ∈ name.toList, isDelimiter c = false
  not_numeral : ∀ negative digits, ¬Numeral name.toList negative digits

/-- The observable that a head scales by, if any, has a name that can stand in contract text. -/
def Head.Named (head : Head) : Prop :=
  ∀ o, head.observable? = some o → IsName o.name

/-- A head that contract text can hold: if it scales by a constant, this has 64 bits, and if it
scales by an observable, this has a name that can stand there. -/
structure Head.Writable (head : Head) : Prop where
  constant : ∀ n, head.factor? = some (.constant n) → fitsWord n = true
  named : head.Named

/-- A head whose words fit can be written, too, if its name can. -/
theorem Head.Fits.writable {head : Head} (h : head.Fits) (hnamed : head.Named) : head.Writable where
  constant _ hn := h _ hn
  named := hnamed

/-! ## Delimiters -/

/-- No digit is a delimiter. -/
theorem isDelimiter_of_digit {c : Char} {d : Nat} (h : digit? c = some d) :
    isDelimiter c = false := by
  have hother : ∀ mark : Char, digit? mark = none → (c == mark) = false := by
    intro mark hmark
    rw [beq_eq_false_iff_ne]
    rintro rfl
    rw [hmark] at h
    cases h
  simp only [isDelimiter, isBlank_of_digit h, hother '(' rfl, hother ')' rfl, hother ',' rfl,
    Bool.or_self]

/-- No decimal digit is one, either. -/
theorem isDelimiter_of_isDigit (c : Char) (h : c.isDigit = true) : isDelimiter c = false :=
  isDelimiter_of_digit (digit?_of_isDigit h)

/-- No numeral has a delimiter in it. -/
theorem isDelimiter_of_numeral {text : List Char} {negative : Bool} {digits : List Nat}
    (h : Numeral text negative digits) {c : Char} (hc : c ∈ text) : isDelimiter c = false := by
  rcases h.sign_or_digit_of_mem hc with rfl | rfl | ⟨d, hd⟩
  · rfl
  · rfl
  · exact isDelimiter_of_digit hd

/-- A text with a character that is neither a sign nor a digit is no numeral. -/
theorem not_numeral_of_mem {text : List Char} {c : Char} (hc : c ∈ text)
    (hsign : c ≠ '+' ∧ c ≠ '-') (hdigit : digit? c = none) (negative : Bool) (digits : List Nat) :
    ¬Numeral text negative digits := by
  intro h
  rcases h.sign_or_digit_of_mem hc with hplus | hminus | ⟨d, hd⟩
  · exact hsign.1 hplus
  · exact hsign.2 hminus
  · rw [hdigit] at hd
    cases hd

/-- An atom that is no number is legible. -/
theorem legible_of_not_numeral {atom : String} (h : ∀ c ∈ atom.toList, isDelimiter c = false)
    (hnumeral : ∀ negative digits, ¬Numeral atom.toList negative digits) : Legible atom :=
  ⟨fun c hc => isBlank_of_isDelimiter (h c hc),
    fun negative digits hdigits => absurd hdigits (hnumeral negative digits)⟩

/-! ## Atoms of texts -/

/-- Texts with blanks between them keep their atoms. -/
theorem atoms_intercalate (texts : List String) :
    atoms (String.intercalate " " texts) = texts.flatMap atoms := by
  have hblank : " ".toList = [' '] := rfl
  simp only [atoms, String.toList_intercalate, hblank]
  rw [runs_intercalate rfl, List.flatMap_map, List.map_flatMap]
  rfl

/-- A text without delimiters is one atom. -/
theorem atoms_eq_singleton {text : String} (hne : text ≠ "")
    (h : ∀ c ∈ text.toList, isDelimiter c = false) : atoms text = [text] := by
  have hchars : text.toList ≠ [] := fun hnil => hne (String.toList_eq_nil_iff.mp hnil)
  rw [atoms, runs_eq_singleton hchars h, List.map_singleton, String.ofList_toList]

/-- Atoms come back when they are put together. -/
theorem atoms_joinAtoms {pieces : List String}
    (h : ∀ piece ∈ pieces, piece ≠ "" ∧ ∀ c ∈ piece.toList, isDelimiter c = false) :
    atoms (joinAtoms pieces) = pieces := by
  rw [joinAtoms, atoms_intercalate]
  induction pieces with
  | nil => rfl
  | cons piece pieces ih =>
      obtain ⟨hpiece, hpieces⟩ := List.forall_mem_cons.mp h
      rw [List.flatMap_cons, atoms_eq_singleton hpiece.1 hpiece.2, ih hpieces, List.singleton_append]

/-- The atoms of a head in canonical text. -/
def Head.canonical (head : Head) : List String :=
  head.texts.flatMap atoms

/-- The atoms of a canonical text are those of its heads. -/
theorem atoms_render {ι : Type} (tree : Tree ι) :
    atoms tree.render = tree.heads.flatMap Head.canonical := by
  rw [Tree.render, atoms_intercalate, Tree.texts_eq_flatMap, List.flatMap_assoc]
  rfl

/-- The words of combinators have letters only. -/
theorem isDelimiter_of_mem_name (c : Combinator) {letter : Char} (h : letter ∈ c.name.toList) :
    isDelimiter letter = false := by
  have hall : c.name.toList.all (!isDelimiter ·) = true := by cases c <;> decide
  have hletter := List.all_eq_true.mp hall letter h
  rwa [Bool.not_eq_true'] at hletter

/-- The word of a combinator can stand among other atoms. -/
theorem unbroken_name (c : Combinator) :
    c.name ≠ "" ∧ ∀ letter ∈ c.name.toList, isDelimiter letter = false := by
  refine ⟨?_, fun letter hletter => isDelimiter_of_mem_name c hletter⟩
  cases c <;> decide

/-- The word of a combinator is one atom. -/
theorem atoms_name (c : Combinator) : atoms c.name = [c.name] :=
  atoms_eq_singleton (unbroken_name c).1 (unbroken_name c).2

/-- They have no blanks, and are too short to have too many digits. -/
theorem legible_name (c : Combinator) : Legible c.name := by
  have hlength : c.name.toList.length ≤ maxDigits := by cases c <;> decide
  refine ⟨fun letter h => isBlank_of_isDelimiter (isDelimiter_of_mem_name c h), ?_⟩
  intro negative digits h
  exact Nat.le_trans h.length_le hlength

/-! ## Dates -/

/-- The dates of 32 bits lie in years of four digits. -/
theorem hasText_ofDate (date : UInt32) : Timestamp.HasText (.ofDays (date.toNat / 86400)) := by
  have hlt := date.toNat_lt
  obtain ⟨era, year, day, hyear, hday, hdays, hof⟩ := CalendarDay.exists_ofDays (date.toNat / 86400)
  rw [CalendarDay.yearLength_eq] at hday
  unfold CalendarDay.daysBefore CalendarDay.epochOfEra at hdays
  -- 2 ^ 32 seconds are less than 137 years, so the year lies in one of two eras
  have hera : era = 4 ∨ era = 5 := by
    split at hday <;> omega
  have hbounds : 1000 ≤ (CalendarDay.ofDays (date.toNat / 86400)).year ∧
      (CalendarDay.ofDays (date.toNat / 86400)).year ≤ 9999 := by
    rw [hof]
    dsimp only
    split <;> omega
  exact Timestamp.hasText_ofDays hbounds.1 hbounds.2

/-- The text of a date is that of its day and that of its time, in brackets. -/
theorem toList_dateText (date : UInt32) : (dateText date).toList =
    '<' :: (Timestamp.render (.ofDays (date.toNat / 86400)) (date.toNat % 86400)).toList ++ ['>'] := by
  have hsecond : ((date.toNat : Int) % 86400).toNat = date.toNat % 86400 := by omega
  unfold dateText
  simp only [hsecond, String.toList_append]
  rfl

/-- An atom with a bracket in it is legible, as no number has one. -/
theorem legible_of_bracket {atom : String} (h : ∀ c ∈ atom.toList, isDelimiter c = false)
    (hbracket : '<' ∈ atom.toList ∨ '>' ∈ atom.toList) : Legible atom := by
  apply legible_of_not_numeral h
  rcases hbracket with hopen | hclose
  · exact not_numeral_of_mem hopen (by decide) rfl
  · exact not_numeral_of_mem hclose (by decide) rfl

/-- An opening atom and a closing one are a date in brackets. -/
theorem bracketed_pair {opening closing : String} (hopens : opening.toList.head? = some '<')
    (hcloses : Closes closing) (hopening : ¬Closes opening) : Bracketed [opening, closing] :=
  ⟨⟨opening, rfl, hopens⟩, [opening], closing, rfl, hcloses, List.forall_mem_singleton.mpr hopening⟩

/-- The day of a bracketed timestamp is an atom that opens a date and does not close it. -/
theorem opening_dayText {d : CalendarDay} (h : Timestamp.HasText d) {opening : String}
    (hopens : opening.toList = '<' :: Timestamp.dayText d) :
    opening ≠ "" ∧ (∀ c ∈ opening.toList, isDelimiter c = false) ∧ ¬Closes opening := by
  -- digits and slashes, with the opening bracket in front
  have hmarks : ∀ c ∈ opening.toList, isDelimiter c = false ∧ c ≠ '>' := by
    rw [hopens]
    refine List.forall_mem_cons.mpr ⟨by decide, ?_⟩
    refine h.forall_mem_dayText (fun c hc => ⟨isDelimiter_of_isDigit c hc, ?_⟩) (by decide)
    rintro rfl
    cases hc
  refine ⟨?_, fun c hc => (hmarks c hc).1, ?_⟩
  · rintro rfl
    cases hopens
  · intro hlast
    exact (hmarks _ (List.mem_of_getLast? hlast)).2 rfl

/-- The time of a bracketed timestamp is an atom that closes a date. -/
theorem closing_timeText {second : Nat} (h : second < 86400) {closing : String}
    (hcloses : closing.toList = Timestamp.timeText second ++ ['>']) :
    closing ≠ "" ∧ (∀ c ∈ closing.toList, isDelimiter c = false) ∧ Closes closing := by
  refine ⟨?_, ?_, ?_⟩
  · rintro rfl
    simp at hcloses
  · rw [hcloses]
    refine List.forall_mem_append.mpr ⟨?_, List.forall_mem_singleton.mpr rfl⟩
    exact Timestamp.forall_mem_timeText h isDelimiter_of_isDigit rfl
  · rw [Closes, hcloses, List.getLast?_append]
    rfl

/-- A bracketed timestamp is cut into its day and its time, which are read as a date together. -/
theorem bracketed_render {d : CalendarDay} {second : Nat} {text : String}
    (hday : Timestamp.HasText d) (hsecond : second < 86400)
    (htext : text.toList = '<' :: (Timestamp.render d second).toList ++ ['>']) :
    Bracketed (atoms text) ∧
      Timestamp.read? (joinAtoms (atoms text)).toList = some (d.toDays * 86400 + second) ∧
        ∀ atom ∈ atoms text, Legible atom := by
  obtain ⟨opening, hopens⟩ : ∃ opening : String, opening.toList = '<' :: Timestamp.dayText d :=
    ⟨_, String.toList_ofList⟩
  obtain ⟨closing, hcloses⟩ : ∃ closing : String,
      closing.toList = Timestamp.timeText second ++ ['>'] := ⟨_, String.toList_ofList⟩
  obtain ⟨hopening, hopeningMarks, hnot⟩ := opening_dayText hday hopens
  obtain ⟨hclosing, hclosingMarks, hlast⟩ := closing_timeText hsecond hcloses
  -- the blank between day and time cuts the text in two
  have hjoin : text = joinAtoms [opening, closing] := by
    apply String.toList_inj.mp
    rw [htext, Timestamp.toList_render]
    simp [joinAtoms, hopens, hcloses]
  have hatoms : atoms text = [opening, closing] := by
    rw [hjoin]
    apply atoms_joinAtoms
    rw [List.forall_mem_cons, List.forall_mem_singleton]
    exact ⟨⟨hopening, hopeningMarks⟩, hclosing, hclosingMarks⟩
  -- put together again, the two atoms are the text
  have hread : Timestamp.read? (joinAtoms [opening, closing]).toList =
      some (d.toDays * 86400 + second) := by
    rw [← hjoin, htext]
    exact Timestamp.read?_bracketed hday hsecond
  rw [hatoms]
  refine ⟨bracketed_pair (by rw [hopens]; rfl) hlast hnot, hread, ?_⟩
  rw [List.forall_mem_cons, List.forall_mem_singleton]
  constructor
  · apply legible_of_bracket hopeningMarks
    exact Or.inl (hopens ▸ List.mem_cons_self ..)
  · apply legible_of_bracket hclosingMarks
    exact Or.inr (List.mem_of_getLast? hlast)

/-- The text of a date is read as that date. -/
theorem dateAtoms_dateText (date : UInt32) : DateAtoms (atoms (dateText date)) date.toNat ∧
    ∀ atom ∈ atoms (dateText date), Legible atom := by
  have hsecond : date.toNat % 86400 < 86400 := Nat.mod_lt _ (by decide)
  have htime : (CalendarDay.ofDays (date.toNat / 86400)).toDays * 86400 +
      (date.toNat % 86400 : Nat) = date.toNat := by
    rw [CalendarDay.toDays_ofDays]
    omega
  obtain ⟨hbracketed, hread, hlegible⟩ :=
    bracketed_render (hasText_ofDate date) hsecond (toList_dateText date)
  exact ⟨.written hbracketed (htime ▸ hread), hlegible⟩

/-! ## Factors -/

/-- A constant of 64 bits is one atom, which is read as that constant. -/
theorem factorAtoms_constant {n : Int} (h : fitsWord n) :
    FactorAtoms (atoms (toString n)) (.constant n) ∧ ∀ atom ∈ atoms (toString n), Legible atom := by
  obtain ⟨negative, digits, hnumeral, hvalue, hlength⟩ := numeral_toString n
  obtain ⟨hlow, hhigh⟩ := fitsWord_iff.mp h
  have hatoms : atoms (toString n) = [toString n] := by
    refine atoms_eq_singleton ?_ fun c hc => isDelimiter_of_numeral hnumeral hc
    intro hempty
    rw [hempty] at hnumeral
    cases hnumeral with
    | plain hspells => exact hspells.ne_nil rfl
  -- a number of 64 bits has twenty digits at most
  have hshort : digits.length ≤ maxDigits := by
    rw [wordLimit] at hlow hhigh
    rw [hlength]
    exact length_toDigits_le_maxDigits (by omega)
  rw [hatoms]
  constructor
  · rw [← hvalue] at hlow hhigh
    have hconstant := FactorAtoms.constant hnumeral hlow hhigh
    rwa [hvalue] at hconstant
  · refine List.forall_mem_singleton.mpr ⟨fun c hc => hnumeral.isBlank_of_mem hc, ?_⟩
    intro negative' digits' hnumeral'
    rw [← (hnumeral.eq hnumeral').2]
    exact hshort

/-- An observable is two atoms: its name, and its arbiter's address in brackets. -/
theorem factorAtoms_observable {o : Observable} (h : IsName o.name) :
    FactorAtoms (atoms (Factor.observable o).text) (.observable o) ∧
      ∀ atom ∈ atoms (Factor.observable o).text, Legible atom := by
  obtain ⟨arbiter, harbiter⟩ : ∃ arbiter : String, arbiter.toList = '<' :: o.arbiter.chars ++ ['>'] :=
    ⟨_, String.toList_ofList⟩
  have hmarks : ∀ c ∈ arbiter.toList, isDelimiter c = false := by
    rw [harbiter, List.cons_append, List.forall_mem_cons, List.forall_mem_append]
    exact ⟨rfl, o.arbiter.forall_mem_chars (by decide) rfl, List.forall_mem_singleton.mpr rfl⟩
  have hatoms : atoms (Factor.observable o).text = [o.name, arbiter] := by
    -- the blank between name and address cuts the text in two
    have hjoin : (Factor.observable o).text = joinAtoms [o.name, arbiter] := by
      apply String.toList_inj.mp
      simp [Factor.text, Address.text, joinAtoms, harbiter]
    have hne : arbiter ≠ "" := by
      rintro rfl
      cases harbiter
    rw [hjoin]
    apply atoms_joinAtoms
    rw [List.forall_mem_cons, List.forall_mem_singleton]
    exact ⟨⟨h.ne_empty, h.unbroken⟩, hne, hmarks⟩
  have hread : Address.read? (unbracket arbiter.toList) = some o.arbiter := by
    rw [harbiter, unbracket_bracketed]
    exact o.arbiter.read?_chars
  rw [hatoms]
  refine ⟨.observable h.not_numeral hread, ?_⟩
  refine List.forall_mem_cons.mpr ⟨legible_of_not_numeral h.unbroken h.not_numeral, ?_⟩
  refine List.forall_mem_singleton.mpr (legible_of_bracket hmarks ?_)
  rw [harbiter]
  exact Or.inl (List.mem_cons_self ..)

/-- A factor is read from its own text. -/
theorem factorAtoms_text {factor : Factor} (h : (Head.unary (.scale factor)).Writable) :
    FactorAtoms (atoms factor.text) factor ∧ ∀ atom ∈ atoms factor.text, Legible atom := by
  cases factor with
  | constant n => exact factorAtoms_constant (h.constant n rfl)
  | observable o => exact factorAtoms_observable (h.named o rfl)

/-! ## Heads -/

/-- The parameter of a head is read from its own text. -/
theorem parameters_texts {op : Unary} (h : (Head.unary op).Writable) :
    Parameters (op.parameterTexts.flatMap atoms) (.unary op) ∧
      ∀ atom ∈ op.parameterTexts.flatMap atoms, Legible atom := by
  -- a date and a factor have texts of their own
  cases op with
  | give => exact ⟨.give, List.forall_mem_nil _⟩
  | get => exact ⟨.get, List.forall_mem_nil _⟩
  | anytime => exact ⟨.anytime, List.forall_mem_nil _⟩
  | truncate date =>
      obtain ⟨hdate, hlegible⟩ := dateAtoms_dateText date
      rw [Unary.parameterTexts, List.flatMap_singleton]
      exact ⟨.truncate hdate, hlegible⟩
  | scale factor =>
      obtain ⟨hfactor, hlegible⟩ := factorAtoms_text h
      rw [Unary.parameterTexts, List.flatMap_singleton]
      exact ⟨.scale hfactor, hlegible⟩

/-- A head is read from its own atoms. -/
theorem written_canonical {head : Head} (h : head.Writable) :
    Written head.canonical head ∧ ∀ atom ∈ head.canonical, Legible atom := by
  have hspelled : ∀ c : Combinator, c.Spelled c.name := fun c =>
    List.forall₂_same.mpr fun _ _ => Or.inl rfl
  have hword : ∀ (c : Combinator) (texts : List String),
      (c.name :: texts).flatMap atoms = c.name :: texts.flatMap atoms := by
    intro c texts
    rw [List.flatMap_cons, atoms_name, List.singleton_append]
  unfold Head.canonical
  -- the word comes first, and a parameter follows only with one sub-contract
  cases head with
  | leaf op =>
      rw [Head.texts, hword]
      exact ⟨.intro (hspelled _) .leaf, List.forall_mem_singleton.mpr (legible_name _)⟩
  | binary op =>
      rw [Head.texts, hword]
      exact ⟨.intro (hspelled _) .binary, List.forall_mem_singleton.mpr (legible_name _)⟩
  | unary op =>
      obtain ⟨hparameters, hlegible⟩ := parameters_texts h
      rw [Head.texts, hword]
      exact ⟨.intro (hspelled _) hparameters, List.forall_mem_cons.mpr ⟨legible_name _, hlegible⟩⟩

/-- The atoms of heads can be told apart. -/
theorem legible_canonical {heads : List Head} (h : ∀ head ∈ heads, head.Writable) :
    ∀ atom ∈ heads.flatMap Head.canonical, Legible atom := by
  intro atom hatom
  obtain ⟨head, hhead, hatom⟩ := List.mem_flatMap.mp hatom
  exact (written_canonical (h head hhead)).2 atom hatom

/-- Heads are read from their own atoms, one after the other. -/
theorem row_canonical {heads : List Head} (index : Nat) (h : ∀ head ∈ heads, head.Writable) :
    Row index (heads.flatMap Head.canonical) heads := by
  -- on the heads; those that follow do not matter for the first
  induction heads generalizing index with
  | nil => exact .nil
  | cons head heads ih =>
      obtain ⟨hhead, hheads⟩ := List.forall_mem_cons.mp h
      have hat : HeadAt index ((head :: heads).flatMap Head.canonical) head
          (index + head.canonical.length) (heads.flatMap Head.canonical) :=
        (headAt_iff (legible_canonical h)).mpr
          ⟨_, List.flatMap_cons, (written_canonical hhead).1, rfl⟩
      exact .cons hat (ih _ hheads)

/-! ## What was read -/

/-- A constant that was read has 64 bits. -/
theorem fitsWord_of_readFactor {index n : Int} {atoms : List String} {count : Nat}
    (h : readFactor index atoms = .ok (.constant n, count)) : fitsWord n = true := by
  rcases readFactor_cases h with ⟨_, _, _, _, _, _, hfits, heq, _⟩ | ⟨_, _, _, _, _, _, _, heq, _⟩
  · cases heq
    exact hfits
  · cases heq

/-- The name of an observable that was read can stand there: it was an atom, and no number. -/
theorem isName_of_readFactor {index : Int} {atoms : List String} {o : Observable} {count : Nat}
    (h : readFactor index atoms = .ok (.observable o, count))
    (hatoms : ∀ atom ∈ atoms, atom ≠ "" ∧ ∀ c ∈ atom.toList, isDelimiter c = false) :
    IsName o.name := by
  rcases readFactor_cases h with ⟨_, _, _, _, _, _, _, heq, _⟩ | ⟨name, _, _, _, rfl, hname, _, heq, _⟩
  · cases heq
  · cases heq
    obtain ⟨hne, hunbroken⟩ := hatoms name (List.mem_cons_self ..)
    refine ⟨hne, hunbroken, fun negative digits hnumeral => hname ?_⟩
    rw [isIntegerAtom_iff fun c hc => isBlank_of_isDelimiter (hunbroken c hc)]
    exact ⟨negative, digits, hnumeral⟩

/-- A head that was read can stand in contract text. -/
theorem HeadAt.writable {index next : Nat} {atoms rest : List String} {head : Head}
    (h : HeadAt index atoms head next rest)
    (hatoms : ∀ atom ∈ atoms, atom ≠ "" ∧ ∀ c ∈ atom.toList, isDelimiter c = false) :
    head.Writable := by
  constructor
  · intro n hn
    obtain ⟨_, _, _, hread, _⟩ := h.exists_readFactor hn
    exact fitsWord_of_readFactor hread
  · intro o ho
    have hfactor : head.factor? = some (.observable o) := by
      rw [Head.eq_scale_of_observable? ho]
      rfl
    obtain ⟨_, _, _, hread, hmem⟩ := h.exists_readFactor hfactor
    exact isName_of_readFactor hread fun atom hatom => hatoms atom (hmem atom hatom)

/-- The heads of a text can stand in it. -/
theorem Row.writable {index : Nat} {atoms : List String} {heads : List Head} (h : Row index atoms heads)
    (hatoms : ∀ atom ∈ atoms, atom ≠ "" ∧ ∀ c ∈ atom.toList, isDelimiter c = false) :
    ∀ head ∈ heads, head.Writable := by
  induction h with
  | nil => exact List.forall_mem_nil _
  | cons hat _ ih =>
      have hrest := ih fun atom hatom => hatoms atom (hat.mem_of_mem_rest hatom)
      exact List.forall_mem_cons.mpr ⟨hat.writable hatoms, hrest⟩

end ContractAlgebra
