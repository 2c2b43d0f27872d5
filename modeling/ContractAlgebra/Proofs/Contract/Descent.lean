import ContractAlgebra.Proofs.Contract.Prefix

/-!
# The descent to a failure

A contract is read by descent, so wherever the parser is, the combinators around that place wait for
a sub-contract. `Place.Path` lists the place and those that wait, innermost first. The parser fails
just where it stops at the innermost place of such a path (`Place.read_eq_error`), and the trail of a
rejection is this path, up to the first atom of the text (`trail_is_path`).
-/

namespace ContractAlgebra

open ContractAlgebra.Tree

/-! ## Parameters that are not read -/

/-- Why no parameter is read from some atoms, of which the first has the given index: it is refused
at one of them or just after the last, or the first is a number with too many digits. -/
inductive Unreadable (index : Int) : List String → Failure → Prop where
  | refused {atoms : List String} {cause : Cause} {position : Int} :
      index ≤ position → position ≤ index + atoms.length →
      Unreadable index atoms (.rejected ⟨cause, some position, []⟩)
  | overlong {atom : String} {after : List String} : Text.isIntegerAtom atom.toList = true →
      readInt atom.toList = .error .notANumeral → Unreadable index (atom :: after) .notANumeral

namespace Unreadable

variable {index : Int} {atoms : List String} {failure : Failure}

/-- Most parameters are refused at their first atom. -/
theorem first {cause : Cause} : Unreadable index atoms (.rejected ⟨cause, some index, []⟩) :=
  .refused (Int.le_refl _) (by omega)

/-- A number is not read if it has too many digits, and for no other reason. -/
theorem of_readInt {atom : String} {after : List String}
    (hinteger : Text.isIntegerAtom atom.toList = true) (h : readInt atom.toList = .error failure) :
    Unreadable index (atom :: after) failure := by
  have hfailure : failure = .notANumeral := by
    unfold readInt at h
    split at h
    · cases h
    · exact (Except.error.inj h).symm
  rw [hfailure] at h ⊢
  exact .overlong hinteger h

/-- A date out of range is refused where it begins. -/
theorem of_checkDate {text : String} {t : Int} (h : checkDate index text t = .error failure) :
    Unreadable index atoms failure := by
  unfold checkDate at h
  split at h
  · cases h
  · cases h
    exact .first

/-- A timestamp is refused where it begins. -/
theorem of_readTimestamp {text : String} (h : readTimestamp (some index) text = .error failure) :
    Unreadable index atoms failure := by
  unfold readTimestamp at h
  split at h
  · cases h
  · cases h
    exact .first

/-- An address is refused at its own atom, the second one. -/
theorem of_readAddress {text name arbiter : String} {after : List String}
    (h : readAddress (some (index + 1)) text = .error failure) :
    Unreadable index (name :: arbiter :: after) failure := by
  unfold readAddress at h
  split at h
  · cases h
  · cases h
    exact .refused (by omega) (by rw [List.length_cons]; omega)

/-- So is what is no date. -/
theorem of_readDate (h : readDate index atoms = .error failure) : Unreadable index atoms failure := by
  cases atoms with
  | nil =>
      cases h
      exact .first
  | cons atom after =>
      rw [readDate] at h
      -- from an opening bracket on, the closing one is looked for; else there must be a number
      split at h
      · split at h
        · cases h
          exact .first
        · rcases bind_eq_error.mp h with h | ⟨t, _, h⟩
          · exact of_readTimestamp h
          · rcases bind_eq_error.mp h with h | ⟨date, _, h⟩
            · exact of_checkDate h
            · cases h
      · split at h
        · next hinteger =>
            rcases bind_eq_error.mp h with h | ⟨t, _, h⟩
            · exact of_readInt hinteger h
            · rcases bind_eq_error.mp h with h | ⟨date, _, h⟩
              · exact of_checkDate h
              · cases h
        · cases h
          exact .first

/-- A factor is refused at its first atom, or at its second. -/
theorem of_readFactor (h : readFactor index atoms = .error failure) :
    Unreadable index atoms failure := by
  cases atoms with
  | nil =>
      cases h
      exact .first
  | cons atom after =>
      simp only [readFactor] at h
      -- a number may have too many digits, or too many bits
      split at h
      · next hinteger =>
          rcases bind_eq_error.mp h with h | ⟨n, _, h⟩
          · exact of_readInt hinteger h
          · split at h
            · cases h
            · cases h
              exact .first
      · -- the address is the atom after the name, and it may be missing
        cases after with
        | nil =>
            cases h
            exact .refused (by omega) (by rw [List.length_singleton]; omega)
        | cons arbiter after =>
            rcases bind_eq_error.mp h with h | ⟨address, _, h⟩
            · exact of_readAddress h
            · cases h

/-- The parameter of a head is not read for one of these reasons. -/
theorem of_read {c : Combinator} (h : Head.read index atoms c = .error failure) :
    Unreadable index atoms failure := by
  -- the other combinators have no parameter
  cases c with
  | truncate =>
      rcases bind_eq_error.mp h with h | ⟨_, _, h⟩
      · exact of_readDate h
      · cases h
  | scale =>
      rcases bind_eq_error.mp h with h | ⟨_, _, h⟩
      · exact of_readFactor h
      · cases h
  | zero | one | and | or | andThen | give | get | anytime => cases h

end Unreadable

/-! ## Frames -/

/-- A failure with some more frames on its path; other failures have no path. -/
def Failure.along (frames : List Frame) : Failure → Failure
  | rejected rejection => rejected { rejection with trail := rejection.trail ++ frames }
  | failure => failure

/-- Nothing is added. -/
theorem Failure.along_nil (failure : Failure) : failure.along [] = failure := by
  cases failure with
  | rejected rejection => exact congrArg (fun trail => rejected ⟨_, _, trail⟩) (List.append_nil _)
  | _ => rfl

/-- The innermost frame is added first. -/
theorem Failure.along_cons (frame : Frame) (frames : List Frame) (failure : Failure) :
    failure.along (frame :: frames) = (failure.inside frame).along frames := by
  cases failure with
  | rejected rejection =>
      exact congrArg (fun trail => rejected ⟨_, _, trail⟩) (List.append_cons ..)
  | _ => rfl

/-- A frame around all others is added last. -/
theorem Failure.inside_along (frame : Frame) (frames : List Frame) (failure : Failure) :
    (failure.along frames).inside frame = failure.along (frames ++ [frame]) := by
  cases failure with
  | rejected rejection =>
      exact congrArg (fun trail => rejected ⟨_, _, trail⟩) (List.append_assoc ..)
  | _ => rfl

/-! ## Places -/

/-- A place that the parser gets to: how many combinators may still nest there, the observables that
have been declared, and the atoms from there on, with the index of the first. -/
structure Place where
  room : Nat
  declared : List Observable
  index : Nat
  atoms : List String

namespace Place

/-- The place where the parser begins. -/
def start (atoms : List String) : Place :=
  ⟨maxDepth + 1, [], 0, atoms⟩

/-- Reads the contract at a place. -/
def read (place : Place) : Except Failure Reading :=
  readFrom place.room place.declared place.index place.atoms

/-- A place as a step of the path to a failure. -/
def frame (place : Place) : Frame :=
  Tree.frame place.index place.atoms

/-- The parser stops at a place, and not at one inside the contract that begins there. -/
inductive Stops : Place → Failure → Prop where
  | tooDeep {declared index atoms} :
      Stops ⟨0, declared, index, atoms⟩ (.rejected ⟨.contractTooDeep, some index, []⟩)
  | ends {room declared index} : Stops ⟨room + 1, declared, index, []⟩
      (.rejected ⟨.contractEnds .combinator, some index, []⟩)
  | unknown {room declared index atom after} : Combinator.ofAtom? atom = none →
      Stops ⟨room + 1, declared, index, atom :: after⟩
        (.rejected ⟨.notACombinator atom, some index, []⟩)
  | unread {room declared atom after c why} {index : Nat} : Combinator.ofAtom? atom = some c →
      Head.read ((index : Int) + 1) after c = .error why →
      Stops ⟨room + 1, declared, index, atom :: after⟩ why
  | repeated {room declared atoms head next rest o} {index : Nat} : HeadAt index atoms head next rest →
      head.observable? = some o → o ∈ declared → Stops ⟨room + 1, declared, index, atoms⟩
        (.rejected ⟨.declaredTwice o.name o.arbiter.text, some ((index : Int) + 1), []⟩)

/-- For the contract at one place, the parser goes on to a sub-contract of it at another. -/
inductive Enters : Place → Place → Prop where
  | body {room declared index atoms op declared' next rest} :
      Opens declared index atoms (.unary op) declared' next rest →
      Enters ⟨room + 1, declared, index, atoms⟩ ⟨room, declared', next, rest⟩
  | first {room declared index atoms op declared' next rest} :
      Opens declared index atoms (.binary op) declared' next rest →
      Enters ⟨room + 1, declared, index, atoms⟩ ⟨room, declared', next, rest⟩
  | second {room declared index atoms op declared' next rest first} :
      Opens declared index atoms (.binary op) declared' next rest →
      Reads room declared' next rest first →
      Enters ⟨room + 1, declared, index, atoms⟩
        ⟨room, first.declared, first.tree.lastLabel + 1, first.rest⟩

/-- The places from the one where the parser is out to the one where it began: each is where a
sub-contract of the contract at the next begins. -/
inductive Path (origin : Place) : List Place → Prop where
  | here : Path origin [origin]
  | enter {inner outer : Place} {outers : List Place} : Path origin (outer :: outers) →
      outer.Enters inner → Path origin (inner :: outer :: outers)

variable {place inner outer : Place} {why failure : Failure}

/-! ## One step -/

/-- Where the parser stops, it fails. -/
theorem read_of_stops (h : place.Stops why) : place.read = .error (why.inside place.frame) := by
  -- one case for each reason; the parser gets so far and fails
  cases h with
  | tooDeep => rfl
  | ends => rfl
  | unknown hc =>
      unfold read
      rw [readFrom]
      simp only [hc]
      rfl
  | unread hc hread =>
      unfold read
      rw [readFrom]
      simp only [hc, bind_of_eq_error hread]
      rfl
  | @repeated room declared atoms head next rest o index hhead ho hmem =>
      have hdeclare : declare declared (index + 1) head =
          .error (.rejected ⟨.declaredTwice o.name o.arbiter.text, some ((index : Int) + 1), []⟩) := by
        unfold declare
        rw [ho]
        exact if_pos hmem
      unfold read
      rw [readFrom_of_headAt hhead, bind_of_eq_error hdeclare]
      rfl

/-- A failure inside a sub-contract is one of the contract around it. -/
theorem read_of_enters (h : outer.Enters inner) (hread : inner.read = .error why) :
    outer.read = .error (why.inside outer.frame) := by
  unfold read at hread ⊢
  -- what is read before the sub-contract is read, and then it fails
  cases h with
  | body hopens =>
      rw [readFrom_of_opens hopens]
      dsimp only
      rw [bind_of_eq_error hread]
      rfl
  | first hopens =>
      rw [readFrom_of_opens hopens]
      dsimp only
      rw [bind_of_eq_error hread]
      rfl
  | second hopens hfirst =>
      rw [readFrom_of_opens hopens]
      dsimp only
      rw [bind_of_eq_ok (readFrom_eq_ok.mpr hfirst), bind_of_eq_error hread]
      rfl

/-- Past an opened combinator, the parser fails in one of the sub-contracts. -/
theorem exists_enters_of_opens {room index : Nat} {declared declared' : List Observable}
    {atoms rest : List String} {head : Head} {next : Nat}
    (hopens : Opens declared index atoms head declared' next rest)
    (h : readFrom (room + 1) declared index atoms = .error failure) :
    ∃ inner why, Enters ⟨room + 1, declared, index, atoms⟩ inner ∧ inner.read = .error why ∧
      failure = why.inside (Tree.frame index atoms) := by
  rw [readFrom_of_opens hopens] at h
  obtain ⟨why, h, hfailure⟩ := mapError_eq_error.mp h
  -- a leaf does not fail; one of two sub-contracts fails first
  cases head with
  | leaf op => cases h
  | unary op =>
      rcases bind_eq_error.mp h with hbody | ⟨body, _, h⟩
      · exact ⟨_, why, .body hopens, hbody, hfailure⟩
      · cases h
  | binary op =>
      rcases bind_eq_error.mp h with hfirst | ⟨first, hfirst, h⟩
      · exact ⟨_, why, .first hopens, hfirst, hfailure⟩
      · rcases bind_eq_error.mp h with hsecond | ⟨second, _, h⟩
        · exact ⟨_, why, .second hopens (readFrom_eq_ok.mp hfirst), hsecond, hfailure⟩
        · cases h

/-- The parser fails since it stops at a place, or since it fails at one that it enters from there. -/
theorem read_error_cases (h : place.read = .error failure) :
    (∃ why, place.Stops why ∧ failure = why.inside place.frame) ∨
      ∃ inner why, place.Enters inner ∧ inner.read = .error why ∧
        failure = why.inside place.frame := by
  obtain ⟨room, declared, index, atoms⟩ := place
  -- whatever stops the parser here is the failure, as the parser is a function
  have hstops : ∀ why, Stops ⟨room, declared, index, atoms⟩ why → ∃ why,
      Stops ⟨room, declared, index, atoms⟩ why ∧ failure = why.inside (Tree.frame index atoms) := by
    intro why hstops
    exact ⟨why, hstops, Except.error.inj (h.symm.trans (read_of_stops hstops))⟩
  -- in the order in which the parser looks: room, atom, word, parameter, declaration
  cases room with
  | zero => exact Or.inl (hstops _ .tooDeep)
  | succ room =>
      cases atoms with
      | nil => exact Or.inl (hstops _ .ends)
      | cons atom after =>
          cases hc : Combinator.ofAtom? atom with
          | none => exact Or.inl (hstops _ (.unknown hc))
          | some c =>
              cases hread : Head.read ((index : Int) + 1) after c with
              | error why => exact Or.inl (hstops _ (.unread hc hread))
              | ok taken =>
                  obtain ⟨head, count⟩ := taken
                  have hhead := HeadAt.intro hc hread
                  by_cases hrepeat : ∃ o, head.observable? = some o ∧ o ∈ declared
                  · obtain ⟨o, ho, hmem⟩ := hrepeat
                    exact Or.inl (hstops _ (.repeated hhead ho hmem))
                  · have hdeclare : declare declared (index + 1) head =
                        .ok (head.observable?.toList ++ declared) := by
                      unfold declare
                      cases ho : head.observable? with
                      | none => rfl
                      | some o => exact if_neg fun hmem => hrepeat ⟨o, ho, hmem⟩
                    exact Or.inr (exists_enters_of_opens ⟨hhead, hdeclare⟩ h)

/-! ## Whole paths -/

/-- A path from an inner place goes on out to the place around it. -/
theorem Path.of_enters {path : List Place} (h : place.Enters inner) (hpath : Path inner path) :
    Path place (path ++ [place]) := by
  induction hpath with
  | here => exact .enter .here h
  | enter _ henters ih => exact .enter ih henters

/-- What fails at the inner end of a path fails at its outer end. -/
theorem Path.read_eq {outers : List Place} (h : Path place (inner :: outers))
    (hread : inner.read = .error why) : place.read = .error (why.along (outers.map frame)) := by
  generalize hpath : inner :: outers = path at h
  -- along the path, from its outer end in
  induction h generalizing inner outers why with
  | here =>
      cases hpath
      rw [List.map_nil, Failure.along_nil]
      exact hread
  | enter _ henters ih =>
      cases hpath
      rw [List.map_cons, Failure.along_cons]
      exact ih (read_of_enters henters hread) rfl

/-- A sub-contract has less room by one. -/
theorem Enters.room_eq (h : outer.Enters inner) : outer.room = inner.room + 1 := by
  cases h <;> rfl

/-- The parser fails just where it stops at the end of a path, and the failure has the frames of all
places on that path. -/
theorem read_eq_error : place.read = .error failure ↔
    ∃ inner outers why, Path place (inner :: outers) ∧ inner.Stops why ∧
      failure = why.along ((inner :: outers).map frame) := by
  constructor
  · intro h
    -- the deeper a place, the less room there is
    induction hroom : place.room using Nat.strongRecOn generalizing place failure with
    | ind room ih =>
        rcases read_error_cases h with ⟨why, hstops, rfl⟩ | ⟨inner, why, henters, hread, rfl⟩
        · refine ⟨place, [], why, .here, hstops, ?_⟩
          rw [List.map_singleton, Failure.along_cons, Failure.along_nil]
        · have hless : inner.room < room := by
            rw [← hroom, henters.room_eq]
            exact Nat.lt_succ_self _
          obtain ⟨innermost, outers, why, hpath, hstops, rfl⟩ := ih _ hless hread rfl
          refine ⟨innermost, outers ++ [place], why, hpath.of_enters henters, hstops, ?_⟩
          rw [Failure.inside_along, ← List.cons_append, List.map_append]
          rfl
  · intro h
    obtain ⟨inner, outers, why, hpath, hstops, rfl⟩ := h
    rw [List.map_cons, Failure.along_cons]
    exact hpath.read_eq (read_of_stops hstops)

/-! ## Where the places are -/

/-- The atoms of a place are those from its index on. -/
def LiesIn (place : Place) (atoms : List String) : Prop :=
  ∃ before, atoms = before ++ place.atoms ∧ place.index = before.length

/-- A sub-contract begins after some atoms of the contract around it. -/
theorem Enters.exists_taken (h : outer.Enters inner) : ∃ taken, outer.atoms = taken ++ inner.atoms ∧
    inner.index = outer.index + taken.length ∧ outer.index < inner.index := by
  -- the first part begins after the head, and the second after the first part, too
  cases h with
  | body hopens =>
      obtain ⟨taken, hatoms, hlength, _⟩ := hopens.stands.exists_own
      exact ⟨taken, hatoms, hlength.symm, hopens.stands.rest_eq.1⟩
  | first hopens =>
      obtain ⟨taken, hatoms, hlength, _⟩ := hopens.stands.exists_own
      exact ⟨taken, hatoms, hlength.symm, hopens.stands.rest_eq.1⟩
  | second hopens hfirst =>
      obtain ⟨taken, rfl, hlength, _⟩ := hopens.stands.exists_own
      obtain ⟨taken₁, rfl, hlength₁, _⟩ := hfirst.exists_own
      have hnext := hopens.stands.rest_eq.1
      refine ⟨taken ++ taken₁, (List.append_assoc ..).symm, ?_, ?_⟩
      · rw [List.length_append, ← hlength₁, ← hlength, Nat.add_assoc]
      · dsimp only
        omega

variable {atoms : List String}

/-- So a place that is entered lies in the atoms, too. -/
theorem LiesIn.of_enters (h : outer.LiesIn atoms) (henters : outer.Enters inner) :
    inner.LiesIn atoms := by
  obtain ⟨before, hatoms, hindex⟩ := h
  obtain ⟨taken, htaken, hnext, _⟩ := henters.exists_taken
  refine ⟨before ++ taken, ?_, ?_⟩
  · rw [List.append_assoc, ← htaken]
    exact hatoms
  · rw [List.length_append, ← hindex]
    exact hnext

/-- The frame of a place shows the atom at its index, if there is one. -/
theorem LiesIn.frame_eq (h : place.LiesIn atoms) : place.frame = ⟨place.index, atoms[place.index]?⟩ := by
  obtain ⟨before, rfl, hindex⟩ := h
  rw [hindex, List.getElem?_append_right (Nat.le_refl _), Nat.sub_self, ← List.head?_eq_getElem?,
    ← hindex]
  rfl

namespace Path

variable {outers path : List Place}

/-- All places on a path do. -/
theorem liesIn (h : Path (start atoms) path) : ∀ place ∈ path, place.LiesIn atoms := by
  induction h with
  | here => exact List.forall_mem_singleton.mpr ⟨[], rfl, rfl⟩
  | enter _ henters ih =>
      refine List.forall_mem_cons.mpr ⟨?_, ih⟩
      exact (ih _ (List.mem_cons_self ..)).of_enters henters

/-- So their frames show the atoms at their indices. -/
theorem map_frame (h : Path (start atoms) path) :
    path.map frame = path.map fun place => ⟨place.index, atoms[place.index]?⟩ :=
  List.map_congr_left fun place hplace => (h.liesIn place hplace).frame_eq

/-- Going out along a path, the indices descend. -/
theorem pairwise_index (h : Path place path) : (path.map index).Pairwise (· > ·) := by
  induction h with
  | here => exact List.pairwise_singleton ..
  | @enter inner outer outers _ henters ih =>
      obtain ⟨_, _, _, hless⟩ := henters.exists_taken
      obtain ⟨houter, _⟩ := List.pairwise_cons.mp ih
      refine List.pairwise_cons.mpr ⟨?_, ih⟩
      intro k hk
      -- the place that is entered comes after the one around it, and that after all others
      rcases List.mem_cons.mp hk with rfl | hk
      · exact hless
      · exact Nat.lt_trans (houter k hk) hless

/-- A path ends where the parser began. -/
theorem getLast?_eq (h : Path place path) : path.getLast? = some place := by
  induction h with
  | here => rfl
  | enter _ _ ih => exact ih

/-- Each place on a path has used up some room. -/
theorem room_eq (h : Path place (inner :: outers)) : place.room = inner.room + outers.length := by
  generalize hpath : inner :: outers = path at h
  -- along the path; each step takes one combinator
  induction h generalizing inner outers with
  | here =>
      cases hpath
      rfl
  | enter _ henters ih =>
      cases hpath
      have hroom := henters.room_eq
      have houter := ih rfl
      rw [List.length_cons]
      omega

end Path

/-- Where the parser stops, it gives a place in the atoms that are left, or just after them, unless a
number there has too many digits. -/
theorem Stops.cases (h : place.Stops why) : (∃ cause position,
      why = .rejected ⟨cause, some position, []⟩ ∧ (place.index : Int) ≤ position ∧
        position ≤ (place.index : Int) + place.atoms.length) ∨ why = .notANumeral := by
  obtain ⟨room, declared, index, atoms⟩ := place
  dsimp only
  -- a parameter may be refused at any of its atoms, and the others at the first one
  cases h with
  | tooDeep => exact Or.inl ⟨_, _, rfl, by omega, by omega⟩
  | ends => exact Or.inl ⟨_, _, rfl, by omega, by omega⟩
  | unknown _ => exact Or.inl ⟨_, _, rfl, by omega, by omega⟩
  | unread _ hread =>
      cases Unreadable.of_read hread with
      | refused hlow hhigh =>
          rw [List.length_cons]
          exact Or.inl ⟨_, _, rfl, by omega, by omega⟩
      | overlong => exact Or.inr rfl
  | repeated hhead _ _ =>
      cases hhead with
      | intro _ _ =>
          rw [List.length_cons]
          exact Or.inl ⟨_, _, rfl, by omega, by omega⟩

end Place

/-! ## The trail of a rejection -/

/-- A parse fails without atoms, or where the descent does. -/
theorem parseAtoms_eq_error {atoms : List String} {failure : Failure} :
    parseAtoms atoms = .error failure ↔
      (atoms = [] ∧ failure = .rejected ⟨.noContract, none, []⟩) ∨
        atoms ≠ [] ∧ (Place.start atoms).read = .error failure := by
  cases atoms with
  | nil =>
      show Except.error _ = Except.error _ ↔ _
      simp [eq_comm]
  | cons atom after =>
      have hparse : parseAtoms (atom :: after) =
          (Place.start (atom :: after)).read >>= fun reading => .ok ⟨atom :: after, reading.tree⟩ := rfl
      rw [hparse, bind_eq_error]
      simp

/-- The trail of a rejection leads from the innermost place, where the parser stopped, out to the
first of some atoms: one frame for each place on the path, at ever smaller indices. -/
structure Rejection.Traces (rejection : Rejection) (atoms : List String) (innermost : Place)
    (outers : List Place) : Prop where
  path : Place.Path (.start atoms) (innermost :: outers)
  stops : innermost.Stops (.rejected { rejection with trail := [] })
  trail : rejection.trail =
    (innermost :: outers).map fun place => ⟨place.index, atoms[place.index]?⟩
  descends : ((innermost :: outers).map Place.index).Pairwise (· > ·)
  ends : ((innermost :: outers).map Place.index).getLast? = some 0
  position : ∃ k : Nat, rejection.position = some (k : Int) ∧ innermost.index ≤ k ∧ k ≤ atoms.length
  short : rejection.trail.length ≤ 258

/-- A descent that is refused has left its trail. -/
theorem Rejection.exists_traces {atoms : List String} {rejection : Rejection}
    (h : (Place.start atoms).read = .error (.rejected rejection)) :
    ∃ innermost outers, rejection.Traces atoms innermost outers := by
  obtain ⟨innermost, outers, why, hpath, hstops, hwhy⟩ := Place.read_eq_error.mp h
  rcases hstops.cases with ⟨cause, position, rfl, hlow, hhigh⟩ | rfl
  · cases hwhy
    rw [List.nil_append]
    obtain ⟨before, hatoms, hindex⟩ := hpath.liesIn innermost (List.mem_cons_self ..)
    have hlength : atoms.length = innermost.index + innermost.atoms.length := by
      rw [hatoms, List.length_append, hindex]
    -- 256 combinators may nest below the root, so the path is no longer than that
    have hroom : maxDepth + 1 = innermost.room + outers.length := hpath.room_eq
    refine ⟨innermost, outers, hpath, hstops, hpath.map_frame, hpath.pairwise_index, ?_, ?_, ?_⟩
    · rw [List.getLast?_map, hpath.getLast?_eq]
      rfl
    · refine ⟨position.toNat, ?_, by omega, by omega⟩
      rw [Int.toNat_of_nonneg (by omega)]
    · rw [List.length_map, List.length_cons]
      rw [maxDepth] at hroom
      omega
  · cases hwhy

/-- A text that has atoms and is refused is refused with the path to where the parser stopped. -/
theorem trail_is_path {text : String} {rejection : Rejection}
    (h : parse text = .error (.rejected rejection)) (hkind : rejection.cause.kind ≠ .emptyInput) :
    ∃ innermost outers, rejection.Traces (atoms text) innermost outers := by
  rcases parseAtoms_eq_error.mp h with ⟨_, hempty⟩ | ⟨_, hread⟩
  · cases hempty
    exact absurd rfl hkind
  · exact Rejection.exists_traces hread

/-- A contract whose second part scales by something that no arbiter makes known. -/
def strayText : String :=
  "or (one, give (scale rain 0x12 one))"

/-- The address after the name is refused, three combinators deep. -/
theorem trail_is_path_of_strayText :
    let rejection : Rejection := ⟨.notAnAddress "0x12", some 5,
      [⟨3, some "scale"⟩, ⟨2, some "give"⟩, ⟨0, some "or"⟩]⟩
    parse strayText = .error (.rejected rejection) ∧ rejection.cause.kind ≠ .emptyInput ∧
      ∃ innermost outers, rejection.Traces (atoms strayText) innermost outers := by
  intro rejection
  have hparse : parse strayText = .error (.rejected rejection) := by rfl
  have hkind : rejection.cause.kind ≠ .emptyInput := by decide
  exact ⟨hparse, hkind, trail_is_path hparse hkind⟩

end ContractAlgebra
