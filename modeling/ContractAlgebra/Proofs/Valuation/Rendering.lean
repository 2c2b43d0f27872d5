import ContractAlgebra.Proofs.Contract.Reading
import ContractAlgebra.Proofs.Text.Numeral
import ContractAlgebra.Proofs.Text.Short
import ContractAlgebra.Proofs.Valuation.Amount
import Mathlib.Data.List.Basic

/-!
# Payoffs are written simplified

Read back, a payoff is the term of the operations that built it, and no entry is left over or lacks
an operand. What is written of it is an expression without factors (`Payoff.render_eq_text`): all
factors are multiplied into the payments below them, and payments of nothing are left out, with the
observables and sums that have no other term.
-/

namespace ContractAlgebra.Payoff

/-! ## Taking a payoff apart -/

/-- Entries are taken off the end of a payoff until a term is complete, that of a sum's first operand
before that of its second. The others are left. -/
inductive Pops : List PayoffEntry → Term → List PayoffEntry → Prop where
  | payment (rest : List PayoffEntry) (amount : Int) (acquired : Option Slice) :
      Pops (rest ++ [.payment amount acquired]) (.payment amount acquired) rest
  | scale {entries rest : List PayoffEntry} {term : Term} (factor : Int)
      (h : Pops entries term rest) : Pops (entries ++ [.scale factor]) (.scale factor term) rest
  | observable {entries rest : List PayoffEntry} {term : Term} (name : String)
      (acquired : Option Slice) (h : Pops entries term rest) :
      Pops (entries ++ [.observable name acquired]) (.observable name acquired term) rest
  | add {entries middle rest : List PayoffEntry} {first second : Term}
      (h : Pops entries first middle) (h' : Pops middle second rest) :
      Pops (entries ++ [.add]) (.add first second) rest

/-- What is taken off for a term are the entries of the payoff that it builds. -/
theorem pops_iff {entries rest : List PayoffEntry} {term : Term} :
    Pops entries term rest ↔ entries = rest ++ term.payoff.entries := by
  constructor
  · intro h
    -- what is taken off is put together again from the end
    induction h with
    | payment rest amount acquired => rfl
    | scale factor _ ih => rw [ih, List.append_assoc, Term.payoff, Payoff.scale]
    | observable name acquired _ ih => rw [ih, List.append_assoc, Term.payoff, Payoff.scaleBy]
    | add _ _ ih₁ ih₂ =>
        rw [ih₁, ih₂, Term.payoff, Payoff.add]
        simp only [List.append_assoc]
  · rintro rfl
    -- the other way round, along the term that built the entries
    induction term generalizing rest with
    | payment amount acquired => exact .payment rest amount acquired
    | scale factor term ih =>
        rw [Term.payoff, Payoff.scale, ← List.append_assoc]
        exact .scale factor ih
    | observable name acquired term ih =>
        rw [Term.payoff, Payoff.scaleBy, ← List.append_assoc]
        exact .observable name acquired ih
    | add first second ih₁ ih₂ =>
        rw [Term.payoff, Payoff.add, ← List.append_assoc, ← List.append_assoc]
        exact .add ih₁ ih₂

/-- A payoff that operations have built is taken apart in one way only: nothing is left then, and at
no time is there nothing to take. -/
theorem Term.pops_payoff_iff {term term' : Term} {rest : List PayoffEntry} :
    Pops term.payoff.entries term' rest ↔ term' = term ∧ rest = [] := by
  rw [pops_iff]
  constructor
  · intro h
    -- read from the front, the entries leave one term, and what was taken off leaves another
    have hread := term.terms?_payoff
    rw [terms?, h, List.foldlM_append] at hread
    rcases Option.bind_eq_some_iff.mp hread with ⟨terms, _, hlast⟩
    rw [foldlM_payoff] at hlast
    rcases List.cons.inj (Option.some.inj hlast) with ⟨rfl, _⟩
    exact ⟨rfl, List.append_left_eq_self.mp h.symm⟩
  · rintro ⟨rfl, rfl⟩
    rfl

/-! ## Expressions -/

/-- A payoff without factors. -/
inductive Expression where
  | payment (coefficient : Int) (acquired : Option Slice)
  | observable (name : String) (acquired : Option Slice) (expression : Expression)
  | sum (first second : Expression)
  deriving DecidableEq, Repr

namespace Expression

/-- An expression with every payment multiplied. -/
def times (factor : Int) : Expression → Expression
  | payment coefficient acquired => payment (coefficient * factor) acquired
  | observable name acquired e => observable name acquired (e.times factor)
  | sum first second => sum (first.times factor) (second.times factor)

/-- Once is as it is. -/
theorem times_one (e : Expression) : e.times 1 = e := by
  induction e with
  | payment coefficient acquired => rw [times, Int.mul_one]
  | observable name acquired e ih => rw [times, ih]
  | sum first second ih₁ ih₂ => rw [times, ih₁, ih₂]

/-- Factors multiply. -/
theorem times_times (e : Expression) (factor factor' : Int) :
    (e.times factor).times factor' = e.times (factor' * factor) := by
  induction e with
  | payment coefficient acquired =>
      -- factors multiply in the order in which they are met
      rw [times, times, times, Int.mul_assoc, Int.mul_comm factor]
  | observable name acquired e ih => rw [times, times, times, ih]
  | sum first second ih₁ ih₂ => rw [times, times, times, ih₁, ih₂]

/-- What all payments are multiplied with in the end. -/
def coefficients : Expression → List Int
  | payment coefficient _ => [coefficient]
  | observable _ _ e => e.coefficients
  | sum first second => first.coefficients ++ second.coefficients

/-- All times of acquisition. -/
def acquisitions : Expression → List Slice
  | payment _ acquired => acquired.toList
  | observable _ acquired e => acquired.toList ++ e.acquisitions
  | sum first second => first.acquisitions ++ second.acquisitions

/-- The sum of what is left of two expressions. -/
def sum? : Option Expression → Option Expression → Option Expression
  | none, e => e
  | e, none => e
  | some first, some second => some (sum first second)

/-- An expression without its payments of nothing, and without the observables and sums that have no
term then; a sum with one term is that term. -/
def simplified : Expression → Option Expression
  | payment coefficient acquired =>
    if coefficient = 0 then none else some (payment coefficient acquired)
  | observable name acquired e => e.simplified.map (observable name acquired)
  | sum first second => sum? first.simplified second.simplified

end Expression

/-- The expression for a term: each factor is multiplied into the payments that it applies to. -/
def Term.expression : Term → Expression
  | payment amount acquired => .payment amount acquired
  | scale factor term => term.expression.times factor
  | observable name acquired term => .observable name acquired term.expression
  | add first second => .sum first.expression second.expression

/-! ## Texts -/

/-- The dates that stand behind a part, if dates are to be written. -/
def Style.suffix (style : Style) : Option Slice → String
  | none => ""
  | some slice =>
    if style.showTimes then " <" ++ (slice.dateRange.toOption.getD "") ++ ">" else ""

/-- The text of an expression. -/
def Expression.text (style : Style) : Expression → String
  | payment coefficient acquired =>
    toString coefficient ++ " " ++ style.unit ++ style.suffix acquired
  | observable name acquired e => name ++ style.suffix acquired ++ " * " ++ e.text style
  | sum first second => "(" ++ first.text style ++ " + " ++ second.text style ++ ")"

/-- The text of what is left of an expression. -/
def Style.text (style : Style) : Option Expression → String
  | none => "0 " ++ style.unit
  | some e => e.text style

/-- The numbers of an expression are short enough to be written, and its dates can be written if they
are to be. -/
structure Expression.Writable (style : Style) (e : Expression) : Prop where
  short : ∀ coefficient ∈ e.coefficients, coefficient.natAbs < Nat.pow 10 Text.maxDigits
  dated : style.showTimes = true → ∀ slice ∈ e.acquisitions, ∃ range, slice.dateRange = .ok range

/-! ## Writing -/

/-- Dates that can be written are written behind the part. -/
theorem Style.dates_eq {style : Style} {acquired : Option Slice}
    (h : style.showTimes = true → ∀ slice ∈ acquired.toList, ∃ range, slice.dateRange = .ok range) :
    style.dates acquired = .ok (style.suffix acquired) := by
  cases acquired with
  | none => rfl
  | some slice =>
      -- dates are only looked for if they are to be shown
      by_cases hshow : style.showTimes = true
      · rcases h hshow slice (List.mem_singleton_self slice) with ⟨range, hrange⟩
        simp only [dates, suffix, hshow, hrange, if_true]
        rfl
      · simp only [dates, suffix, if_neg hshow]
        rfl

namespace Expression.Writable

variable {style : Style} {e e₁ e₂ : Expression} {name : String} {acquired : Option Slice}

/-- The term of an observable can be written if the whole can be. -/
theorem body (h : (observable name acquired e).Writable style) : e.Writable style :=
  ⟨h.short, fun hshow slice hmem => h.dated hshow slice (List.mem_append_right _ hmem)⟩

/-- So can the first term of a sum. -/
theorem first (h : (sum e₁ e₂).Writable style) : e₁.Writable style :=
  ⟨fun c hmem => h.short c (List.mem_append_left _ hmem),
    fun hshow slice hmem => h.dated hshow slice (List.mem_append_left _ hmem)⟩

/-- And the second. -/
theorem second (h : (sum e₁ e₂).Writable style) : e₂.Writable style :=
  ⟨fun c hmem => h.short c (List.mem_append_right _ hmem),
    fun hshow slice hmem => h.dated hshow slice (List.mem_append_right _ hmem)⟩

end Expression.Writable

namespace Expression

variable {style : Style} {left left₁ left₂ : Option Expression}

/-- What is left of a term can be written if that times an observable can be. -/
theorem writable_body {name : String} {acquired : Option Slice}
    (h : ∀ e ∈ left.map (observable name acquired), e.Writable style) :
    ∀ e ∈ left, e.Writable style :=
  fun _ hmem => (h _ (Option.mem_map_of_mem _ hmem)).body

/-- What is left of two terms can be written if what is left of their sum can be. -/
theorem writable_sum? (h : ∀ e ∈ sum? left₁ left₂, e.Writable style) :
    (∀ e ∈ left₁, e.Writable style) ∧ ∀ e ∈ left₂, e.Writable style := by
  cases left₁ with
  | none => exact ⟨nofun, fun e hmem => h e hmem⟩
  | some e₁ =>
      cases left₂ with
      | none => exact ⟨h, nofun⟩
      | some e₂ =>
          have hsum : (sum e₁ e₂).Writable style := h _ rfl
          constructor
          · intro e hmem
            exact Option.some.inj hmem ▸ hsum.first
          · intro e hmem
            exact Option.some.inj hmem ▸ hsum.second

end Expression

/-- The entries of a term as they lie on a stack, the last of them on top. -/
theorem Term.reverse_entries_scale (factor : Int) (term : Term) :
    (scale factor term).payoff.entries.reverse = .scale factor :: term.payoff.entries.reverse :=
  List.reverse_concat ..

/-- An observable lies above its term. -/
theorem Term.reverse_entries_observable (name : String) (acquired : Option Slice) (term : Term) :
    (observable name acquired term).payoff.entries.reverse =
      .observable name acquired :: term.payoff.entries.reverse :=
  List.reverse_concat ..

/-- In a sum the first term lies above the second. -/
theorem Term.reverse_entries_add (first second : Term) :
    (add first second).payoff.entries.reverse =
      .add :: (first.payoff.entries.reverse ++ second.payoff.entries.reverse) := by
  simp [Term.payoff, Payoff.add]

/-- A payment is written with its coefficient, unless that is 0. -/
theorem write_payment {style : Style} {amount : Int} {acquired : Option Slice} {scalar : Int}
    (h : ∀ e ∈ (Expression.payment (amount * scalar) acquired).simplified, e.Writable style)
    (room : Nat) (stack : List PayoffEntry) :
    write style (room + 1) (.payment amount acquired :: stack) scalar =
      .ok ((Expression.payment (amount * scalar) acquired).simplified.map (·.text style), stack) := by
  rw [write]
  unfold Expression.simplified at h ⊢
  -- a payment of 0 leaves nothing to be written, and no slice is looked at
  by_cases hzero : amount * scalar = 0
  · rw [if_pos hzero, if_pos hzero]
    rfl
  · rw [if_neg hzero] at h
    rw [if_neg hzero, if_neg hzero]
    have hwritable := h _ rfl
    have hshort := hwritable.short _ (List.mem_singleton_self _)
    rw [Text.decimal?_of_short (Text.isShort_iff.mpr hshort), Style.dates_eq hwritable.dated]
    rfl

/-- An observable is written before what is left of its term, if anything is. -/
theorem write_observable {style : Style} {room : Nat} {name : String} {acquired : Option Slice}
    {stack rest : List PayoffEntry} {scalar : Int} {left : Option Expression}
    (hleft : write style room stack scalar = .ok (left.map (·.text style), rest))
    (h : ∀ e ∈ left.map (Expression.observable name acquired), e.Writable style) :
    write style (room + 1) (.observable name acquired :: stack) scalar =
      .ok ((left.map (Expression.observable name acquired)).map (·.text style), rest) := by
  rw [write, bind_of_eq_ok hleft]
  -- nothing is written for an observable of a term of which nothing is left
  cases left with
  | none => rfl
  | some e =>
      have hdated := fun hshow slice hmem =>
        (h _ rfl).dated hshow slice (List.mem_append_left _ hmem)
      rw [Style.dates_eq hdated]
      rfl

/-- A sum is written as what is left of its two terms. -/
theorem write_add {style : Style} {room : Nat} {stack middle rest : List PayoffEntry} {scalar : Int}
    {left₁ left₂ : Option Expression}
    (hfirst : write style room stack scalar = .ok (left₁.map (·.text style), middle))
    (hsecond : write style room middle scalar = .ok (left₂.map (·.text style), rest)) :
    write style (room + 1) (.add :: stack) scalar =
      .ok ((Expression.sum? left₁ left₂).map (·.text style), rest) := by
  rw [write, bind_of_eq_ok hfirst]
  dsimp only
  rw [bind_of_eq_ok hsecond]
  cases left₁ <;> cases left₂ <;> rfl

/-- The entries of a term at the top of a stack are taken off, and no others. What is written for them,
times a number, is what is left of the term's expression times this number. -/
theorem Term.write_eq (style : Style) (term : Term) (stack : List PayoffEntry) {room : Nat}
    (hroom : term.payoff.entries.reverse.length ≤ room) (scalar : Int)
    (h : ∀ e ∈ (term.expression.times scalar).simplified, e.Writable style) :
    write style room (term.payoff.entries.reverse ++ stack) scalar =
      .ok ((term.expression.times scalar).simplified.map (·.text style), stack) := by
  -- by induction on the term, the combinator of which lies on top
  induction term generalizing stack room scalar with
  | payment amount acquired =>
      obtain ⟨below, rfl⟩ : ∃ below, room = below + 1 := Nat.exists_eq_add_one.mpr hroom
      exact write_payment h below stack
  | scale factor term ih =>
      rw [Term.reverse_entries_scale] at hroom ⊢
      obtain ⟨below, rfl⟩ := Nat.exists_eq_add_of_le' (Nat.lt_of_lt_of_le (Nat.succ_pos _) hroom)
      rw [List.cons_append, write]
      simp only [Term.expression, Expression.times_times] at h ⊢
      exact ih stack (Nat.le_of_succ_le_succ hroom) (scalar * factor) h
  | observable name acquired term ih =>
      rw [Term.reverse_entries_observable] at hroom ⊢
      obtain ⟨below, rfl⟩ := Nat.exists_eq_add_of_le' (Nat.lt_of_lt_of_le (Nat.succ_pos _) hroom)
      have hbody := ih stack (Nat.le_of_succ_le_succ hroom) scalar (Expression.writable_body h)
      exact write_observable hbody h
  | add first second ih₁ ih₂ =>
      rw [Term.reverse_entries_add] at hroom ⊢
      obtain ⟨below, rfl⟩ := Nat.exists_eq_add_of_le' (Nat.lt_of_lt_of_le (Nat.succ_pos _) hroom)
      have hbelow := Nat.le_of_succ_le_succ hroom
      rw [List.length_append] at hbelow
      obtain ⟨hwritable₁, hwritable₂⟩ := Expression.writable_sum? h
      have hfirst := ih₁ (second.payoff.entries.reverse ++ stack) (Nat.le_of_add_right_le hbelow)
        scalar hwritable₁
      have hsecond := ih₂ stack (Nat.le_of_add_left_le hbelow) scalar hwritable₂
      rw [List.cons_append, List.append_assoc]
      exact write_add hfirst hsecond

/-! ## Payoffs of nothing -/

namespace Expression

variable {e e' : Expression} {left left' : Option Expression}

/-- Nothing is left of a sum if nothing is left of its terms. -/
theorem sum?_eq_none : sum? left left' = none ↔ left = none ∧ left' = none := by
  cases left <;> cases left' <;> simp [sum?]

/-- Nothing is left if all coefficients are 0. -/
theorem simplified_eq_none (e : Expression) :
    e.simplified = none ↔ ∀ coefficient ∈ e.coefficients, coefficient = 0 := by
  induction e with
  | payment coefficient acquired => simp [simplified, coefficients]
  | observable name acquired e ih => simpa [simplified, coefficients] using ih
  | sum first second ih₁ ih₂ =>
      rw [simplified, sum?_eq_none, ih₁, ih₂, coefficients, List.forall_mem_append]

/-- No payment of nothing is left. -/
theorem ne_zero_of_simplified (h : e.simplified = some e') :
    ∀ coefficient ∈ e'.coefficients, coefficient ≠ 0 := by
  induction e generalizing e' with
  | payment coefficient acquired =>
      by_cases hzero : coefficient = 0
      · simp [simplified, hzero] at h
      · rw [simplified, if_neg hzero] at h
        obtain rfl := Option.some.inj h
        simpa [coefficients] using hzero
  | observable name acquired e ih =>
      rcases Option.map_eq_some_iff.mp h with ⟨left, hleft, rfl⟩
      have hall := ih hleft
      exact hall
  | sum first second ih₁ ih₂ =>
      rw [simplified] at h
      -- of a sum both terms, one, or none may be left
      cases hleft₁ : first.simplified with
      | none =>
          rw [hleft₁] at h
          exact ih₂ h
      | some left₁ =>
          cases hleft₂ : second.simplified with
          | none =>
              rw [hleft₁, hleft₂] at h
              obtain rfl := Option.some.inj h
              exact ih₁ hleft₁
          | some left₂ =>
              rw [hleft₁, hleft₂] at h
              obtain rfl := Option.some.inj h
              exact List.forall_mem_append.mpr ⟨ih₁ hleft₁, ih₂ hleft₂⟩

end Expression

/-- The text of a number ends at the first blank after it. -/
theorem takeWhile_toString (n : Int) (rest : List Char) :
    ((toString n).toList ++ ' ' :: rest).takeWhile (· != ' ') = (toString n).toList := by
  rcases Text.numeral_toString n with ⟨negative, digits, hnumeral, _, _⟩
  have hnone : ∀ c ∈ (toString n).toList, (c != ' ') = true := by
    intro c hc
    rw [bne_iff_ne]
    rintro rfl
    have hblank := hnumeral.isBlank_of_mem hc
    cases hblank
  rw [List.takeWhile_append_of_pos hnone, List.takeWhile_cons_of_neg (by simp), List.append_nil]

/-- A number is known by its text. -/
theorem toString_inj {n m : Int} (h : toString n = toString m) : n = m := by
  rcases Text.numeral_toString n with ⟨negative, digits, hnumeral, hvalue, _⟩
  rcases Text.numeral_toString m with ⟨negative', digits', hnumeral', hvalue', _⟩
  rw [h] at hnumeral
  rcases hnumeral.eq hnumeral' with ⟨rfl, rfl⟩
  exact hvalue.symm.trans hvalue'

/-- No number is written as the empty text. -/
theorem length_toString_pos (n : Int) : 0 < (toString n).length := by
  rcases Text.numeral_toString n with ⟨negative, digits, hnumeral, _, hlength⟩
  -- a number has at least one digit
  have hle := hnumeral.length_le
  have hpos := List.length_pos_iff.mpr (Nat.toDigits_ne_nil (b := 10) (n := n.natAbs))
  rw [String.length_toList] at hle
  omega

/-- Every text is at least as long as that of one digit in the unit. -/
theorem Expression.le_length_text (style : Style) (e : Expression) :
    2 + style.unit.length ≤ (e.text style).length := by
  induction e with
  | payment coefficient acquired =>
      have hpos := length_toString_pos coefficient
      simp only [text, String.length_append]
      have hblank : " ".length = 1 := rfl
      omega
  | observable name acquired e ih =>
      simp only [text, String.length_append]
      omega
  | sum first second ih₁ ih₂ =>
      simp only [text, String.length_append]
      omega

/-- An expression without payments of nothing is not written like one. -/
theorem Expression.text_ne (style : Style) (e : Expression)
    (h : ∀ coefficient ∈ e.coefficients, coefficient ≠ 0) : e.text style ≠ "0 " ++ style.unit := by
  intro heq
  -- the text of an observable or a sum is longer than that of nothing
  cases e with
  | payment coefficient acquired =>
      -- up to the first blank, the number would be written as 0
      have htext : toString coefficient ++ " " ++ style.unit ++ style.suffix acquired =
          toString (0 : Int) ++ " " ++ style.unit := heq
      have hchars := congrArg (fun s : String => s.toList.takeWhile (· != ' ')) htext
      have hblank : " ".toList = [' '] := rfl
      simp only [String.toList_append, List.append_assoc, hblank, List.cons_append,
        takeWhile_toString] at hchars
      exact h coefficient (List.mem_singleton_self _) (toString_inj (String.toList_inj.mp hchars))
  | observable name acquired e =>
      have hlength := congrArg String.length heq
      have hle := e.le_length_text style
      simp only [text, String.length_append] at hlength
      have hblank : " * ".length = 3 := rfl
      have hzero : "0 ".length = 2 := rfl
      omega
  | sum first second =>
      have hlength := congrArg String.length heq
      have hle := first.le_length_text style
      simp only [text, String.length_append] at hlength
      have hopen : "(".length = 1 := rfl
      have hzero : "0 ".length = 2 := rfl
      omega

/-- A payoff that operations have built is read as the term of these operations, forwards or from its
end, and no entry is left over or missing. It is written as what is left of the expression for the
term, and as nothing in the unit just if no payment has a coefficient other than 0. -/
theorem render_eq_text (style : Style) (term : Term)
    (h : ∀ e ∈ term.expression.simplified, e.Writable style) :
    term.payoff.terms? = some [term] ∧
      (∀ term' rest, Pops term.payoff.entries term' rest ↔ term' = term ∧ rest = []) ∧
      term.payoff.render style = .ok (style.text term.expression.simplified) ∧
      (term.payoff.render style = .ok ("0 " ++ style.unit) ↔
        ∀ coefficient ∈ term.expression.coefficients, coefficient = 0) := by
  have hwritten := term.write_eq style [] (Nat.le_of_eq List.length_reverse) 1
    (by rwa [Expression.times_one])
  rw [Expression.times_one, List.append_nil] at hwritten
  -- if nothing is left, the text is that of nothing
  have hrender : term.payoff.render style = .ok (style.text term.expression.simplified) := by
    rw [render, bind_of_eq_ok hwritten]
    cases term.expression.simplified <;> rfl
  refine ⟨term.terms?_payoff, fun _ _ => Term.pops_payoff_iff, hrender, ?_⟩
  rw [hrender, ← Expression.simplified_eq_none]
  cases hleft : term.expression.simplified with
  | none => exact iff_of_true rfl rfl
  | some e =>
      have hne := e.text_ne style (Expression.ne_zero_of_simplified hleft)
      refine iff_of_false ?_ (Option.some_ne_none e)
      intro hsame
      exact hne (Except.ok.inj hsame)

/-- A sum in which one observable has no payment left, with a sum in it that has one term left. -/
def priced : Term :=
  .observable "price" (some (.moment 60))
    (.scale (-2) (.add (.add (.payment 3 none) (.observable "gone" none (.scale 0 (.payment 7 none))))
      (.scale 5 (.payment 1 (some (.onwards 0))))))

/-- Times are shown, and the payment of nothing is left out with its observable. -/
theorem render_eq_text_of_priced :
    let left : Expression := .observable "price" (some (.moment 60))
      (.sum (.payment (-6) none) (.payment (-10) (some (.onwards 0))))
    let text := "price <01/01/1970 00:01:00 +0000> * " ++
      "(-6 Wei + -10 Wei <01/01/1970 00:00:00 +0000 and onwards>)"
    priced.expression.simplified = some left ∧ left.Writable ⟨true, "Wei"⟩ ∧
      left.text ⟨true, "Wei"⟩ = text ∧
      priced.payoff.terms? = some [priced] ∧ Pops priced.payoff.entries priced [] ∧
      priced.payoff.render ⟨true, "Wei"⟩ = .ok text := by
  intro left text
  have hleft : priced.expression.simplified = some left := by rfl
  have htext : left.text ⟨true, "Wei"⟩ = text := by rfl
  have hwritable : left.Writable ⟨true, "Wei"⟩ := by
    constructor
    · intro coefficient hmem
      have hsmall : ∀ coefficient ∈ left.coefficients, coefficient.natAbs < Text.maxDigits := by
        decide
      -- all coefficients have few digits
      have hroom : Text.maxDigits < Nat.pow 10 Text.maxDigits := by
        rw [Nat.pow_eq]
        exact Nat.lt_pow_self (by decide)
      exact Nat.lt_trans (hsmall coefficient hmem) hroom
    · intro _ slice hmem
      rcases List.mem_cons.mp hmem with rfl | hmem
      · exact ⟨_, rfl⟩
      · rw [List.mem_singleton.mp hmem]
        exact ⟨_, rfl⟩
  have hall : ∀ e ∈ priced.expression.simplified, e.Writable ⟨true, "Wei"⟩ := by
    intro e hmem
    rw [hleft] at hmem
    exact Option.some.inj hmem ▸ hwritable
  rcases render_eq_text ⟨true, "Wei"⟩ priced hall with ⟨hterms, hpops, hrender, _⟩
  rw [hleft] at hrender
  exact ⟨hleft, hwritable, htext, hterms, (hpops priced []).mpr ⟨rfl, rfl⟩,
    hrender.trans (congrArg Except.ok htext)⟩

end ContractAlgebra.Payoff
