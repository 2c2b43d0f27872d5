import ContractAlgebra.Ledger.Offer
import ContractAlgebra.Proofs.Explanation

/-!
# What the ledger is told

An arbiter may offer anything as a value, and the ledger must never be told what does not fit a word. It
is told the number that the offer is or spells just if that fits (`Offer.told_iff`). An offer that is
refused is named in the refusal, and nothing is told then (`Offer.setObservable_cases`).
-/

namespace ContractAlgebra.Offer

variable {offer : Offer} {n place : Int}

/-- An offer is or spells a number. -/
inductive Means : Offer → Int → Prop where
  | integer (n : Int) : Means (integer n) n
  | text {s : String} {n : Int} (hatom : Text.isIntegerAtom s.toList = true)
      (hread : Text.int? s.toList = some n) : Means (text s) n

/-- An offer spells a number that has too many digits to be read. -/
def Overflows : Offer → Prop
  | text s => Text.isIntegerAtom s.toList = true ∧ Text.int? s.toList = none
  | _ => False

/-- An offer is read as what it means; what is no numeral has no number. -/
theorem toInt?_cases (offer : Offer) :
    (∃ n, offer.Means n ∧ offer.toInt? = .ok (some n)) ∨
      (offer.Overflows ∧ offer.toInt? = .error .notANumeral) ∨
        ((∀ n, ¬ offer.Means n) ∧ offer.toInt? = .ok none) := by
  cases offer with
  | integer n => exact Or.inl ⟨n, .integer n, rfl⟩
  | text s =>
      -- a numeral may be too long; what is no numeral has no number at all
      by_cases hatom : Text.isIntegerAtom s.toList = true
      · cases hread : Text.int? s.toList with
        | some n =>
            refine Or.inl ⟨n, .text hatom hread, ?_⟩
            rw [toInt?, if_pos hatom, readInt, hread]
            rfl
        | none =>
            refine Or.inr (Or.inl ⟨⟨hatom, hread⟩, ?_⟩)
            rw [toInt?, if_pos hatom, readInt, hread]
            rfl
      · refine Or.inr (Or.inr ⟨?_, ?_⟩)
        · intro n hmeans
          cases hmeans with
          | text hatom' _ => exact hatom hatom'
        · rw [toInt?, if_neg hatom]
          rfl
  | nothing | truth b | fraction f | list items | record fields =>
      exact Or.inr (Or.inr ⟨nofun, rfl⟩)

/-- No offer means two numbers. -/
theorem Means.unique {m : Int} (h : offer.Means n) (h' : offer.Means m) : n = m := by
  cases h with
  | integer _ => cases h'; rfl
  | text _ hread =>
      cases h' with
      | text _ hread' => exact Option.some.inj (hread.symm.trans hread')

/-! ## What is accepted -/

/-- A refusal names the offer, if it can be written. -/
structure Names (offer : Offer) (failure : Failure) : Prop where
  named : ∀ shown, offer.plain? = some shown →
    failure = .rejected ⟨.notAnObservableValue shown, none, []⟩
  unnamed : offer.plain? = none → failure = .numberTooLong

/-- What is refused is named, if it can be written. -/
theorem exists_refuse (offer : Offer) : ∃ failure, offer.refuse = .error failure ∧ offer.Names failure := by
  unfold refuse
  -- one of the two clauses speaks of the other case
  cases hplain : offer.plain? with
  | some shown =>
      refine ⟨_, rfl, ?_, ?_⟩
      · intro shown' hshown
        rw [hplain] at hshown
        cases hshown
        rfl
      · intro hnone
        rw [hplain] at hnone
        cases hnone
  | none =>
      refine ⟨_, rfl, ?_, fun _ => rfl⟩
      intro shown hshown
      rw [hplain] at hshown
      cases hshown

/-- A number that an offer means is accepted if it fits a word. Whatever else is offered is refused by
its name, or it spells a number that cannot be read. -/
theorem toObservableValue_cases (offer : Offer) :
    (∃ n, offer.Means n ∧ fitsWord n ∧ offer.toObservableValue = .ok n) ∨
      (∀ n, offer.Means n → ¬ fitsWord n) ∧ ∃ failure, offer.toObservableValue = .error failure ∧
        (offer.Overflows ∧ failure = .notANumeral ∨ offer.Names failure) := by
  obtain ⟨failure, hrefuse, hnames⟩ := exists_refuse offer
  unfold toObservableValue
  rcases toInt?_cases offer with ⟨n, hmeans, hread⟩ | ⟨hoverflows, hread⟩ | ⟨hnone, hread⟩
  · rw [hread]
    -- the offer means a number; it may still not fit a word
    by_cases hfits : fitsWord n = true
    · exact Or.inl ⟨n, hmeans, hfits, if_pos hfits⟩
    · refine Or.inr ⟨?_, failure, (if_neg hfits).trans hrefuse, Or.inr hnames⟩
      intro m hmeans'
      exact hmeans.unique hmeans' ▸ hfits
  · rw [hread]
    -- a numeral that is too long means nothing that is read
    refine Or.inr ⟨?_, .notANumeral, rfl, Or.inl ⟨hoverflows, rfl⟩⟩
    intro m hmeans
    cases hmeans with
    | integer _ => exact hoverflows.elim
    | text _ hread' => exact absurd (hoverflows.2.symm.trans hread') nofun
  · rw [hread]
    exact Or.inr ⟨fun m hmeans => absurd hmeans (hnone m), failure, hrefuse, Or.inr hnames⟩

/-! ## What the ledger is told -/

/-- The ledger is told a number for an observable just if the number fits a word and is what is offered. -/
theorem told_iff : (setObservable place offer).2 = some (place, n) ↔ offer.Means n ∧ fitsWord n := by
  unfold setObservable
  -- the offer means one number at most, so it is this one that is told
  rcases toObservableValue_cases offer with ⟨m, hmeans, hfits, hvalue⟩ | ⟨hnone, failure, hvalue, _⟩
  · rw [hvalue]
    constructor
    · intro htold
      cases htold
      exact ⟨hmeans, hfits⟩
    · intro h
      rw [hmeans.unique h.1]
  · rw [hvalue]
    exact iff_of_false nofun fun h => hnone n h.1 h.2

/-- What is accepted is told, and answered if the place can be written. Else nothing is told, and the
offer is named. -/
theorem setObservable_cases (place : Int) (offer : Offer) :
    (∃ n, offer.Means n ∧ fitsWord n ∧ (setObservable place offer).2 = some (place, n) ∧
      (setObservable place offer).1 =
        if Text.isShort place then .ok n else .error .numberTooLong) ∨
      (setObservable place offer).2 = none ∧ ∃ failure,
        (setObservable place offer).1 = .error failure ∧
          (offer.Overflows ∧ failure = .notANumeral ∨ offer.Names failure) := by
  rcases toObservableValue_cases offer with ⟨n, hmeans, hfits, hvalue⟩ | ⟨_, failure, hvalue, hnames⟩
  · refine Or.inl ⟨n, hmeans, hfits, told_iff.mpr ⟨hmeans, hfits⟩, ?_⟩
    unfold setObservable
    rw [hvalue]
    -- the number is told before the place is written in the log
    cases hshort : Text.isShort place with
    | true =>
        dsimp only
        rw [writeInt_of_short hshort]
        rfl
    | false =>
        dsimp only
        rw [writeInt_of_long hshort]
        rfl
  · right
    unfold setObservable
    rw [hvalue]
    exact ⟨rfl, failure, rfl, hnames⟩

end ContractAlgebra.Offer
