import ContractAlgebra.Contract.Parse
import Mathlib.Tactic.Common

/-!
# Derivations of a reading

`Tree.Reads` is the descent of the parser as a relation: one rule for each number of sub-contracts.
A parse succeeds exactly where there is a derivation (`Tree.readFrom_eq_ok`), so facts about parsed
contracts are proved by induction on derivations, without the bookkeeping of rejections.
-/

namespace ContractAlgebra

/-- A failure that is changed is still one. -/
theorem mapError_eq_ok {ε ε' α : Type} {f : ε → ε'} {x : Except ε α} {a : α} :
    x.mapError f = .ok a ↔ x = .ok a := by
  cases x <;> simp [Except.mapError]

theorem mapError_eq_error {ε ε' α : Type} {f : ε → ε'} {x : Except ε α} {e' : ε'} :
    x.mapError f = .error e' ↔ ∃ e, x = .error e ∧ e' = f e := by
  cases x <;> simp [Except.mapError, eq_comm]

/-- Two steps succeed if the second does on what the first has found. -/
theorem bind_eq_ok {ε α β : Type} {x : Except ε α} {f : α → Except ε β} {b : β} :
    x >>= f = .ok b ↔ ∃ a, x = .ok a ∧ f a = .ok b := by
  cases x <;> simp [bind, Except.bind]

/-- After a success, the second step is taken. -/
theorem bind_of_eq_ok {ε α β : Type} {x : Except ε α} {f : α → Except ε β} {a : α} (h : x = .ok a) :
    x >>= f = f a := by
  rw [h]
  rfl

/-- They fail where the first does, or the second after it. -/
theorem bind_eq_error {ε α β : Type} {x : Except ε α} {f : α → Except ε β} {e : ε} :
    x >>= f = .error e ↔ x = .error e ∨ ∃ a, x = .ok a ∧ f a = .error e := by
  cases x <;> simp [bind, Except.bind]

/-- After a failure, no step is taken. -/
theorem bind_of_eq_error {ε α β : Type} {x : Except ε α} {f : α → Except ε β} {e : ε}
    (h : x = .error e) : x >>= f = .error e := by
  rw [h]
  rfl

/-- What a date was read from: atoms up to a closing bracket, or a number of seconds. -/
theorem readDate_cases {index : Int} {atoms : List String} {date : UInt32} {count : Nat}
    (h : readDate index atoms = .ok (date, count)) : ∃ atom rest, atoms = atom :: rest ∧
      ((atom.toList.head? = some '<' ∧ closingCount? (atom :: rest) = some count ∧
        ∃ t, readTimestamp (some index) (joinAtoms ((atom :: rest).take count)) = .ok t ∧
          checkDate index (joinAtoms ((atom :: rest).take count)) t = .ok date) ∨
      (¬ atom.toList.head? = some '<' ∧ Text.isIntegerAtom atom.toList = true ∧ count = 1 ∧
        ∃ t, readInt atom.toList = .ok t ∧ checkDate index atom t = .ok date)) := by
  cases atoms with
  | nil => cases h
  | cons atom rest =>
      refine ⟨atom, rest, rfl, ?_⟩
      rw [readDate] at h
      -- what opens with a bracket is read as a timestamp, whatever else it is
      split at h
      · next hopens =>
          left
          split at h
          · cases h
          next count' hcount =>
            rcases bind_eq_ok.mp h with ⟨t, htime, h⟩
            rcases bind_eq_ok.mp h with ⟨date', hdate, h⟩
            cases h
            exact ⟨hopens, hcount, t, htime, hdate⟩
      · next hopens =>
          right
          split at h
          · next hinteger =>
              rcases bind_eq_ok.mp h with ⟨t, ht, h⟩
              rcases bind_eq_ok.mp h with ⟨date', hdate, h⟩
              cases h
              exact ⟨hopens, hinteger, rfl, t, ht, hdate⟩
          · cases h

/-- What a factor was read from: a constant of 64 bits from one atom, an observable from two. -/
theorem readFactor_cases {index : Int} {atoms : List String} {factor : Factor} {count : Nat}
    (h : readFactor index atoms = .ok (factor, count)) :
    (∃ atom rest n, atoms = atom :: rest ∧ Text.isIntegerAtom atom.toList = true ∧
      readInt atom.toList = .ok n ∧ fitsWord n = true ∧ factor = .constant n ∧ count = 1) ∨
    ∃ name arbiter rest address, atoms = name :: arbiter :: rest ∧
      ¬ Text.isIntegerAtom name.toList = true ∧
      readAddress (some (index + 1)) arbiter = .ok address ∧
      factor = .observable ⟨name, address⟩ ∧ count = 2 := by
  cases atoms with
  | nil => cases h
  | cons atom rest =>
      simp only [readFactor] at h
      -- an integer is a constant, and any other atom is a name
      split at h
      · next hinteger =>
          left
          rcases bind_eq_ok.mp h with ⟨n, hn, h⟩
          split at h
          · next hfits =>
              cases h
              exact ⟨atom, rest, n, rfl, hinteger, hn, hfits, rfl, rfl⟩
          · cases h
      · next hname =>
          right
          cases rest with
          | nil => cases h
          | cons arbiter rest =>
              rcases bind_eq_ok.mp h with ⟨address, haddress, h⟩
              cases h
              exact ⟨atom, arbiter, rest, address, rfl, hname, haddress, rfl, rfl⟩

/-- A combinator with its parameters stands at the start of some atoms, of which the first has the
given index. The last two arguments are the index and the atoms after it. -/
inductive HeadAt : Nat → List String → Head → Nat → List String → Prop where
  | intro {index count : Nat} {atom : String} {after : List String} {c : Combinator} {head : Head} :
      Combinator.ofAtom? atom = some c → Head.read (index + 1) after c = .ok (head, count) →
      HeadAt index (atom :: after) head (index + 1 + count) (after.drop count)

namespace Tree

/-- A combinator stands at the start of some atoms and declares no observable a second time. -/
structure Opens (declared : List Observable) (index : Nat) (atoms : List String) (head : Head)
    (declared' : List Observable) (next : Nat) (rest : List String) : Prop where
  stands : HeadAt index atoms head next rest
  declares : declare declared (index + 1) head = .ok declared'

/-- A contract that nests no deeper than `room` stands at the start of some atoms. -/
inductive Reads : Nat → List Observable → Nat → List String → Reading → Prop where
  | leaf {room declared index atoms declared' next rest op} :
      Opens declared index atoms (.leaf op) declared' next rest →
      Reads (room + 1) declared index atoms ⟨.leaf index op, declared', rest⟩
  | unary {room declared index atoms declared' next rest op body} :
      Opens declared index atoms (.unary op) declared' next rest →
      Reads room declared' next rest body →
      Reads (room + 1) declared index atoms { body with tree := .unary index op body.tree }
  | binary {room declared index atoms declared' next rest op first second} :
      Opens declared index atoms (.binary op) declared' next rest →
      Reads room declared' next rest first →
      Reads room first.declared (first.tree.lastLabel + 1) first.rest second →
      Reads (room + 1) declared index atoms
        { second with tree := .binary index op first.tree second.tree }

/-- One level of the descent, once the combinator has been read. -/
theorem readFrom_of_headAt {room index : Nat} {declared : List Observable} {atoms rest : List String}
    {head : Head} {next : Nat} (h : HeadAt index atoms head next rest) :
    readFrom (room + 1) declared index atoms = .mapError (.inside (frame index atoms)) (do
      let declared ← declare declared (index + 1) head
      match head with
      | .leaf op => return ⟨.leaf index op, declared, rest⟩
      | .unary op =>
        let body ← readFrom room declared next rest
        return { body with tree := .unary index op body.tree }
      | .binary op =>
        let first ← readFrom room declared next rest
        let second ← readFrom room first.declared (first.tree.lastLabel + 1) first.rest
        return { second with tree := .binary index op first.tree second.tree }) := by
  cases h with
  | intro hc hread =>
      -- the head is known now, so its combinator need not be looked up
      cases head <;> rw [readFrom] <;> simp only [hc, bind_of_eq_ok hread]

/-- One level of the descent, once the observable has been declared too. -/
theorem readFrom_of_opens {room index : Nat} {declared declared' : List Observable}
    {atoms rest : List String} {head : Head} {next : Nat}
    (h : Opens declared index atoms head declared' next rest) :
    readFrom (room + 1) declared index atoms = .mapError (.inside (frame index atoms)) (
      match head with
      | .leaf op => .ok ⟨.leaf index op, declared', rest⟩
      | .unary op => do
        let body ← readFrom room declared' next rest
        return { body with tree := .unary index op body.tree }
      | .binary op => do
        let first ← readFrom room declared' next rest
        let second ← readFrom room first.declared (first.tree.lastLabel + 1) first.rest
        return { second with tree := .binary index op first.tree second.tree }) := by
  rw [readFrom_of_headAt h.stands, bind_of_eq_ok h.declares]
  cases head <;> rfl

/-- A successful descent has read a combinator first. -/
theorem exists_opens {room index : Nat} {declared : List Observable} {atoms : List String}
    {reading : Reading} (h : readFrom (room + 1) declared index atoms = .ok reading) :
    ∃ head declared' next rest, Opens declared index atoms head declared' next rest := by
  cases atoms with
  | nil => cases h
  | cons atom after =>
      rw [readFrom, mapError_eq_ok] at h
      -- the first atom is the word of a combinator, else the parser had failed
      cases hc : Combinator.ofAtom? atom with
      | none => simp [hc, Failure.rejectAt] at h
      | some c =>
          simp only [hc, bind_eq_ok] at h
          rcases h with ⟨⟨head, count⟩, hread, declared', hdeclare, _⟩
          exact ⟨head, declared', _, _, .intro hc hread, hdeclare⟩

/-- The parser finds just what can be derived. -/
theorem readFrom_eq_ok {room index : Nat} {declared : List Observable} {atoms : List String}
    {reading : Reading} :
    readFrom room declared index atoms = .ok reading ↔ Reads room declared index atoms reading := by
  constructor
  · intro h
    -- on the room for nesting, with one rule for each number of sub-contracts
    induction room generalizing declared index atoms reading with
    | zero => cases h
    | succ room ih =>
        rcases exists_opens h with ⟨head, declared', next, rest, hopens⟩
        rw [readFrom_of_opens hopens, mapError_eq_ok] at h
        cases head with
        | leaf op =>
            cases h
            exact .leaf hopens
        | unary op =>
            simp only [bind_eq_ok] at h
            rcases h with ⟨body, hbody, hreading⟩
            cases hreading
            exact .unary hopens (ih hbody)
        | binary op =>
            simp only [bind_eq_ok] at h
            rcases h with ⟨first, hfirst, second, hsecond, hreading⟩
            cases hreading
            exact .binary hopens (ih hfirst) (ih hsecond)
  · intro h
    -- along the derivation, whose premises are the steps of the parser
    induction h with
    | leaf hopens => rw [readFrom_of_opens hopens]; rfl
    | unary hopens _ ih =>
        rw [readFrom_of_opens hopens]
        simp only [ih]
        rfl
    | binary hopens _ _ ih₁ ih₂ =>
        rw [readFrom_of_opens hopens]
        simp only [ih₁, ih₂, bind, Except.bind]
        rfl

end Tree

/-- What a parse yields, as a derivation. -/
theorem parseAtoms_eq_ok {atoms : List String} {parsed : Parsed} :
    parseAtoms atoms = .ok parsed ↔
      ∃ reading, Tree.Reads (maxDepth + 1) [] 0 atoms reading ∧ parsed = ⟨atoms, reading.tree⟩ := by
  -- without atoms the parser fails, and nothing can be derived either
  cases atoms with
  | nil =>
      constructor
      · intro h
        cases h
      · intro h
        rcases h with ⟨reading, hreads, _⟩
        rw [← Tree.readFrom_eq_ok] at hreads
        cases hreads
  | cons atom after =>
      simp only [parseAtoms, List.isEmpty_cons, Bool.false_eq_true, if_false, bind_eq_ok,
        Tree.readFrom_eq_ok]
      constructor
      · intro h
        rcases h with ⟨reading, hreads, hparsed⟩
        cases hparsed
        exact ⟨reading, hreads, rfl⟩
      · intro h
        rcases h with ⟨reading, hreads, rfl⟩
        exact ⟨reading, hreads, rfl⟩

end ContractAlgebra
