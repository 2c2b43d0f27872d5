import ContractAlgebra.Proofs.Contract.Canonical
import ContractAlgebra.Proofs.Contract.Descent
import ContractAlgebra.Proofs.Contract.Verdict

/-!
# Texts without a verdict

A text gets a verdict unless the parser gets to a combinator with a number of more than 4300 digits for
its parameter (`verify_answers_unless_overlong`). Such a number cannot be read, so it is not refused as
out of range either (`overlong_factor_unanswered`). A verdict that refuses a text says where: the trail
ends at the first atom.
-/

namespace ContractAlgebra

open Text

/-- A date or a factor at a place begins with a number of more digits than can be read. -/
inductive Place.Overlong : Place → Prop where
  | intro {room declared index word atom after c negative digits} :
      Combinator.ofAtom? word = some c → c.parameter ≠ .none →
      Numeral atom.toList negative digits → 4300 < digits.length →
      Place.Overlong ⟨room + 1, declared, index, word :: atom :: after⟩

/-- A number is not read just if it has too many digits. -/
theorem readInt_numeral {atom : String} {negative : Bool} {digits : List Nat}
    (h : Numeral atom.toList negative digits) :
    readInt atom.toList = .error .notANumeral ↔ 4300 < digits.length := by
  have hint := int?_numeral h
  unfold readInt
  -- the number of digits decides
  by_cases hshort : digits.length ≤ maxDigits
  · rw [if_pos hshort] at hint
    rw [hint]
    constructor
    · intro hread
      cases hread
    · intro hlong
      exact absurd hlong (Nat.not_lt.mpr hshort)
  · rw [if_neg hshort] at hint
    rw [hint]
    exact ⟨fun _ => Nat.not_le.mp hshort, fun _ => rfl⟩

/-- The parameters that begin with a number are not read if that is not. -/
theorem read_overlong {index : Int} {atom : String} {after : List String} {c : Combinator}
    {negative : Bool} {digits : List Nat} (hparameter : c.parameter ≠ .none)
    (hnumeral : Numeral atom.toList negative digits) (hinteger : isIntegerAtom atom.toList = true)
    (hread : readInt atom.toList = .error .notANumeral) :
    Head.read index (atom :: after) c = .error .notANumeral := by
  -- a date and a factor try the number first
  cases c with
  | truncate =>
      have hdate : readDate index (atom :: after) = .error .notANumeral := by
        rw [readDate, if_neg (head?_ne_of_numeral hnumeral), if_pos hinteger, bind_of_eq_error hread]
      exact bind_of_eq_error hdate
  | scale =>
      have hfactor : readFactor index (atom :: after) = .error .notANumeral := by
        simp only [readFactor, if_pos hinteger]
        exact bind_of_eq_error hread
      exact bind_of_eq_error hfactor
  | zero | one | and | or | andThen | give | get | anytime => exact absurd rfl hparameter

namespace Place

variable {place : Place}

/-- Atoms without blanks stop the parser without a refusal just if there is a number that is too
long. -/
theorem stops_notANumeral_iff (hunbroken : ∀ atom ∈ place.atoms, ∀ c ∈ atom.toList, isBlank c = false) :
    place.Stops .notANumeral ↔ place.Overlong := by
  constructor
  · intro h
    cases h with
    | @unread room declared word after c why index hc hread =>
        cases Unreadable.of_read hread with
        | @overlong atom after hinteger hoverlong =>
            have hatom := hunbroken atom (List.mem_cons_of_mem _ (List.mem_cons_self ..))
            obtain ⟨negative, digits, hnumeral⟩ := (isIntegerAtom_iff hatom).mp hinteger
            refine .intro hc ?_ hnumeral ((readInt_numeral hnumeral).mp hoverlong)
            -- a combinator without a parameter reads no atoms, and so fails at none
            intro hparameter
            cases c with
            | truncate | scale => cases hparameter
            | zero | one | and | or | andThen | give | get | anytime => cases hread
  · intro h
    cases h with
    | @intro room declared index word atom after c negative digits hc hparameter hnumeral hlong =>
        have hatom := hunbroken atom (List.mem_cons_of_mem _ (List.mem_cons_self ..))
        have hinteger := (isIntegerAtom_iff hatom).mpr ⟨negative, digits, hnumeral⟩
        have hread := (readInt_numeral hnumeral).mpr hlong
        exact .unread hc (read_overlong hparameter hnumeral hinteger hread)

end Place

/-! ## Verdicts -/

/-- The parser gets to a place in a text where a number is too long. -/
def MeetsOverlong (text : String) : Prop :=
  ∃ place outers, Place.Path (.start (atoms text)) (place :: outers) ∧ place.Overlong

/-- What a verdict tells about some atoms: where their contract ends, and whether that is at the last
of them; or that there are none; or where they are refused, with a path that ends at the first. -/
inductive Verdict.Answers (atoms : List String) : Verdict → Prop where
  | valid {stop extraneous} : stop < atoms.length → (extraneous = true ↔ stop + 1 < atoms.length) →
      Answers atoms (.valid stop extraneous)
  | empty : atoms = [] → Answers atoms (.invalid ⟨.noContract, none, []⟩)
  | invalid {rejection : Rejection} {k : Nat} {first : String} : rejection.position = some (k : Int) →
      k ≤ atoms.length → atoms.head? = some first → rejection.trail.getLast? = some ⟨0, some first⟩ →
      Answers atoms (.invalid rejection)

/-- There is no verdict if the parser fails otherwise than by a refusal. -/
theorem verify_eq_error {text : String} {failure : Failure} : verify text = .error failure ↔
    parse text = .error failure ∧ ∀ rejection, failure ≠ .rejected rejection := by
  unfold verify
  cases parse text with
  | ok parsed => simp
  | error failure' =>
      constructor
      · intro h
        -- a refusal is a verdict
        cases failure' with
        | rejected rejection => cases h
        | _ =>
            cases h
            exact ⟨rfl, fun rejection hrejected => by cases hrejected⟩
      · intro h
        obtain ⟨hsame, hother⟩ := h
        obtain rfl := Except.error.inj hsame
        cases failure' with
        | rejected rejection => exact absurd rfl (hother rejection)
        | _ => rfl

/-- A verdict that refuses is the refusal of the parser. -/
theorem verify_eq_invalid {text : String} {rejection : Rejection} :
    verify text = .ok (.invalid rejection) ↔ parse text = .error (.rejected rejection) := by
  unfold verify
  cases parse text with
  | ok parsed => simp
  | error failure => cases failure <;> simp

/-- There is no verdict just if a number is too long, and nothing else goes wrong. -/
theorem verify_eq_error_iff {text : String} {failure : Failure} :
    verify text = .error failure ↔ failure = .notANumeral ∧ MeetsOverlong text := by
  have hunbroken : ∀ atom ∈ atoms text, ∀ c ∈ atom.toList, isBlank c = false := by
    intro atom hatom c hc
    exact isBlank_of_isDelimiter ((of_mem_atoms hatom).2 c hc)
  -- the parser looks at no other atoms than those of the text
  have hplace : ∀ place : Place, place.LiesIn (atoms text) →
      (place.Stops .notANumeral ↔ place.Overlong) := by
    intro place hplace
    obtain ⟨before, hatoms, _⟩ := hplace
    refine Place.stops_notANumeral_iff fun atom hatom => hunbroken atom ?_
    rw [hatoms]
    exact List.mem_append_right _ hatom
  rw [verify_eq_error]
  constructor
  · intro h
    obtain ⟨hparse, hother⟩ := h
    rcases parseAtoms_eq_error.mp hparse with ⟨_, rfl⟩ | ⟨_, hread⟩
    · exact absurd rfl (hother _)
    · obtain ⟨place, outers, why, hpath, hstops, rfl⟩ := Place.read_eq_error.mp hread
      rcases hstops.cases with ⟨cause, position, rfl, _, _⟩ | rfl
      · exact absurd rfl (hother _)
      · have hlies := hpath.liesIn place (List.mem_cons_self ..)
        exact ⟨rfl, place, outers, hpath, (hplace place hlies).mp hstops⟩
  · intro h
    obtain ⟨rfl, place, outers, hpath, hoverlong⟩ := h
    have hlies := hpath.liesIn place (List.mem_cons_self ..)
    have hread : (Place.start (atoms text)).read = .error .notANumeral :=
      Place.read_eq_error.mpr ⟨place, outers, _, hpath, (hplace place hlies).mpr hoverlong, rfl⟩
    -- a place with a number is one with atoms, so there are some
    have hne : atoms text ≠ [] := by
      intro hnil
      obtain ⟨before, hatoms, _⟩ := hlies
      cases hoverlong
      rw [hnil] at hatoms
      simp at hatoms
    refine ⟨parseAtoms_eq_error.mpr (Or.inr ⟨hne, hread⟩), ?_⟩
    intro rejection hrejected
    cases hrejected

/-- A verdict says where the contract ends, or where the text is refused. -/
theorem answers_of_verify {text : String} {verdict : Verdict} (h : verify text = .ok verdict) :
    verdict.Answers (atoms text) := by
  cases verdict with
  | valid stop extraneous =>
      obtain ⟨parsed, hparse, rfl, rfl⟩ := verify_eq_valid_iff_parsed.mp h
      obtain ⟨reading, hreads, rfl⟩ := parseAtoms_eq_ok.mp hparse
      obtain ⟨taken, hatoms, hlength, _⟩ := hreads.exists_own
      have hall : (atoms text).length = reading.tree.lastLabel + 1 + reading.rest.length := by
        rw [hatoms, List.length_append]
        omega
      have hstop : (Parsed.mk (atoms text) reading.tree).stop = reading.tree.lastLabel := rfl
      rw [hreads.extraneous, hstop]
      refine .valid (by omega) ?_
      -- whether atoms are left over decides about the warning
      cases hrest : reading.rest with
      | nil =>
          rw [hrest] at hall
          simp [hall]
      | cons atom rest =>
          rw [hrest] at hall
          simp [hall]
  | invalid rejection =>
      rcases parseAtoms_eq_error.mp (verify_eq_invalid.mp h) with ⟨hempty, hfailure⟩ | ⟨hne, hread⟩
      · cases hfailure
        exact .empty hempty
      · obtain ⟨innermost, outers, htraces⟩ := Rejection.exists_traces hread
        -- the trail ends at the root, which is the first atom
        obtain ⟨k, hposition, _, hk⟩ := htraces.position
        obtain ⟨first, after, hatoms⟩ := List.exists_cons_of_ne_nil hne
        have hfirst : (atoms text).head? = some first := by
          rw [hatoms]
          rfl
        refine .invalid hposition hk hfirst ?_
        rw [htraces.trail, List.getLast?_map, htraces.path.getLast?_eq, hatoms]
        rfl

/-- A text gets a verdict unless the parser meets a number that is too long. It then gets none for
this reason alone. A verdict says where the contract ends or where the text is refused. -/
theorem verify_answers_unless_overlong (text : String) :
    ((∃ verdict, verify text = .ok verdict) ↔ ¬MeetsOverlong text) ∧
    (∀ failure, verify text = .error failure → failure = .notANumeral) ∧
    ∀ verdict, verify text = .ok verdict → verdict.Answers (atoms text) := by
  refine ⟨?_, fun failure h => (verify_eq_error_iff.mp h).1, fun verdict => answers_of_verify⟩
  -- a number that is too long leaves no verdict, and nothing else does
  cases hverify : verify text with
  | ok verdict =>
      refine iff_of_true ⟨verdict, rfl⟩ ?_
      intro hmeets
      cases hverify.symm.trans (verify_eq_error_iff.mpr ⟨rfl, hmeets⟩)
  | error failure =>
      refine iff_of_false ?_ (not_not_intro (verify_eq_error_iff.mp hverify).2)
      intro h
      obtain ⟨verdict, hverdict⟩ := h
      cases hverdict

/-- That text is refused at its sixth atom. -/
theorem verify_answers_of_strayText :
    let rejection : Rejection := ⟨.notAnAddress "0x12", some 5,
      [⟨3, some "scale"⟩, ⟨2, some "give"⟩, ⟨0, some "or"⟩]⟩
    verify strayText = .ok (.invalid rejection) ∧ ¬MeetsOverlong strayText ∧
      (Verdict.invalid rejection).Answers (atoms strayText) := by
  intro rejection
  have hverify : verify strayText = .ok (.invalid rejection) := by rfl
  obtain ⟨hverdict, _, hanswers⟩ := verify_answers_unless_overlong strayText
  exact ⟨hverify, hverdict.mp ⟨_, hverify⟩, hanswers _ hverify⟩

/-! ## A number that is too long -/

/-- The atoms of a unit that is scaled by a number of as many nines as given. -/
def ninesAtoms (count : Nat) : List String :=
  ["scale", String.ofList (List.replicate count '9'), "one"]

/-- They are atoms if there is a nine. -/
theorem atoms_ninesAtoms {count : Nat} (h : 0 < count) :
    atoms (joinAtoms (ninesAtoms count)) = ninesAtoms count := by
  apply atoms_joinAtoms
  simp only [ninesAtoms, List.forall_mem_cons]
  refine ⟨unbroken_name .scale, ⟨?_, ?_⟩, unbroken_name .one, List.forall_mem_nil _⟩
  · intro hempty
    have hlength := congrArg String.length hempty
    rw [String.length_ofList, List.length_replicate] at hlength
    exact Nat.ne_of_gt h hlength
  · intro c hc
    rw [String.toList_ofList] at hc
    rw [List.eq_of_mem_replicate hc]
    rfl

/-- Nines spell nines. -/
theorem spells_replicate {count : Nat} (h : 0 < count) :
    Spells (List.replicate count '9') (List.replicate count 9) where
  ne_nil := by
    intro hnil
    have hlength := congrArg List.length hnil
    rw [List.length_replicate] at hlength
    exact Nat.ne_of_gt h hlength
  values := by
    clear h
    induction count with
    | zero => exact .nil
    | succ count ih => exact .cons rfl ih

/-- Their number is too long from 4301 nines on. -/
theorem overlong_ninesAtoms {count : Nat} (h : 4300 < count) :
    (Place.start (ninesAtoms count)).Overlong := by
  have hnumeral : Numeral (String.ofList (List.replicate count '9')).toList false
      (List.replicate count 9) := by
    rw [String.toList_ofList]
    exact .plain (spells_replicate (Nat.zero_lt_of_lt h))
  have hword : Combinator.ofAtom? "scale" = some .scale := by decide
  exact .intro hword (by decide) hnumeral (by rw [List.length_replicate]; exact h)

/-- A factor of 4301 nines is out of range, but its text is not refused: it gets no verdict. -/
theorem overlong_factor_unanswered :
    let text := joinAtoms (ninesAtoms 4301)
    verify text = .error .notANumeral ∧ ¬∃ verdict, verify text = .ok verdict := by
  intro text
  have hatoms : atoms text = ninesAtoms 4301 := atoms_ninesAtoms (by decide)
  -- the parser begins at the number that is too long
  have hmeets : MeetsOverlong text := by
    refine ⟨_, [], .here, ?_⟩
    rw [hatoms]
    exact overlong_ninesAtoms (by decide)
  have hverify : verify text = .error .notANumeral := verify_eq_error_iff.mpr ⟨rfl, hmeets⟩
  refine ⟨hverify, ?_⟩
  intro h
  obtain ⟨verdict, hverdict⟩ := h
  cases hverify.symm.trans hverdict

end ContractAlgebra
