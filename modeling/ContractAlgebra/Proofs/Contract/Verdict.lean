import ContractAlgebra.Proofs.Contract.Grammar
import ContractAlgebra.Proofs.Text.Runs
import Mathlib.Data.List.Nodup

/-!
# Verdicts on contract text

The text of a contract is accepted if some of its first atoms are a contract by the grammar, and for
no other reason (`verify_isValid_iff`). There is only one way to take a contract off the front of a
row of atoms (`Derives.eq_of_append_eq`), so a verdict can say where it ends.
-/

namespace ContractAlgebra

open Text

/-! ## Trees without labels -/

namespace Tree

variable {ι : Type}

/-- The observables of a tree, in reading order. -/
def declared (tree : Tree ι) : List Observable :=
  tree.heads.filterMap Head.observable?

@[simp] theorem declared_leaf (index : ι) (op : Leaf) : (leaf index op).declared = [] := rfl

@[simp] theorem declared_unary (index : ι) (op : Unary) (body : Tree ι) :
    (unary index op body).declared = (Head.unary op).observable?.toList ++ body.declared := by
  unfold declared
  rw [heads_unary, List.filterMap_cons]
  cases (Head.unary op).observable? <;> rfl

@[simp] theorem declared_binary (index : ι) (op : Binary) (first second : Tree ι) :
    (binary index op first second).declared = first.declared ++ second.declared := by
  unfold declared
  rw [heads_binary, List.filterMap_cons, List.filterMap_append]
  rfl

/-- Its heads are those of the tree. -/
theorem heads_shape (tree : Tree ι) : tree.shape.heads = tree.heads := by
  unfold shape
  induction tree with
  | leaf index op => rfl
  | unary index op body ih => simp [map, ih]
  | binary index op first second ih₁ ih₂ => simp [map, ih₁, ih₂]

/-- So are its observables. -/
theorem declared_shape (tree : Tree ι) : tree.shape.declared = tree.declared := by
  rw [declared, heads_shape, declared]

/-- And it nests as deep. -/
theorem height_shape (tree : Tree ι) : tree.shape.height = tree.height := by
  unfold shape
  induction tree with
  | leaf index op => rfl
  | unary index op body ih => simp [map, height, ih]
  | binary index op first second ih₁ ih₂ => simp [map, height, ih₁, ih₂]

end Tree

/-- Entries of the ledger are of one observable if the observables are the same. -/
theorem isDuplicateOf_ofObservable {o o' : Observable} (ordinal ordinal' : Nat) :
    (Entry.ofObservable o ordinal).isDuplicateOf (.ofObservable o' ordinal') = true ↔ o = o' := by
  obtain ⟨name, arbiter⟩ := o
  obtain ⟨name', arbiter'⟩ := o'
  simp only [Entry.isDuplicateOf, Entry.ofObservable, Address.text, String.toList_ofList,
    Bool.and_eq_true, beq_iff_eq, Observable.mk.injEq]
  constructor
  · intro h
    exact ⟨h.1, Address.eq_of_lower_chars h.2⟩
  · intro h
    exact ⟨h.1, by rw [h.2]⟩

/-- No two entries of a contract are of one observable if it declares none twice. -/
theorem Tree.pairwise_entries_iff {ι : Type} {tree : Tree ι} :
    (tree.entries.Pairwise fun entry entry' => entry.isDuplicateOf entry' = false) ↔
      tree.declared.Nodup := by
  -- the entries are those of the observables, each with its place
  have hdeclared : tree.observables.map Prod.snd = tree.declared := by
    rw [observables, declared, heads, List.filterMap_map, List.map_filterMap]
    congr 1
    funext part
    rw [Option.map_map, Function.comp_def, Option.map_id']
    rfl
  have hplaces : (tree.observables.zipIdx.map Prod.fst).map Prod.snd = tree.declared := by
    rw [List.zipIdx_map_fst, hdeclared]
  have hiff : ∀ a b : (ι × Observable) × Nat,
      (Entry.ofObservable a.1.2 a.2).isDuplicateOf (.ofObservable b.1.2 b.2) = false ↔
        a.1.2 ≠ b.1.2 := by
    intro a b
    rw [Ne, ← isDuplicateOf_ofObservable a.2 b.2, Bool.eq_false_iff]
  rw [← hplaces, List.Nodup, entries, List.pairwise_map, List.map_map, List.pairwise_map]
  constructor
  · intro h
    exact h.imp fun h => (hiff _ _).mp h
  · intro h
    exact h.imp fun h => (hiff _ _).mpr h

/-! ## What is read is derived -/

namespace Tree

/-- An observable is declared if it was not before. -/
theorem declare_eq_ok {declared declared' : List Observable} {index : Int} {head : Head} :
    declare declared index head = .ok declared' ↔
      declared' = head.observable?.toList ++ declared ∧ ∀ o ∈ head.observable?, o ∉ declared := by
  unfold declare
  cases head.observable? with
  | none => simp [eq_comm]
  | some o =>
      dsimp only
      split
      · next hmem => simp [Failure.rejectAt, hmem]
      · next hmem => simp [hmem, eq_comm]

/-- The observables declared since a reading began are those of its tree, and no reading declares
one twice. -/
theorem Reads.declared_eq {room index : Nat} {declared : List Observable} {atoms : List String}
    {reading : Reading} (h : Reads room declared index atoms reading) :
    reading.declared = reading.tree.declared.reverse ++ declared ∧
      (declared.Nodup → reading.declared.Nodup) := by
  -- a head leaves distinct observables distinct
  have hnodup : ∀ {head : Head} {declared declared' : List Observable} {index : Int},
      declare declared index head = .ok declared' → declared.Nodup → declared'.Nodup := by
    intro head declared declared' index hdeclare hdistinct
    obtain ⟨rfl, hfresh⟩ := declare_eq_ok.mp hdeclare
    cases ho : head.observable? with
    | none => exact hdistinct
    | some o => exact List.nodup_cons.mpr ⟨hfresh o ho, hdistinct⟩
  -- along the reading; the last observable is the first in the list
  induction h with
  | leaf hopens =>
      have hdeclare := hopens.declares
      exact ⟨(declare_eq_ok.mp hdeclare).1, hnodup hdeclare⟩
  | unary hopens _ ih =>
      have hdeclare := hopens.declares
      obtain ⟨hdeclared, _⟩ := declare_eq_ok.mp hdeclare
      obtain ⟨hbody, hdistinct⟩ := ih
      refine ⟨?_, fun hnew => hdistinct (hnodup hdeclare hnew)⟩
      simp only [hbody, hdeclared, declared_unary, List.reverse_append, List.append_assoc]
      cases (Head.unary _).observable? <;> rfl
  | binary hopens _ _ ih₁ ih₂ =>
      have hdeclare := hopens.declares
      obtain ⟨hdeclared, _⟩ := declare_eq_ok.mp hdeclare
      obtain ⟨hfirst, hdistinct₁⟩ := ih₁
      obtain ⟨hsecond, hdistinct₂⟩ := ih₂
      refine ⟨?_, fun hnew => hdistinct₂ (hdistinct₁ (hnodup hdeclare hnew))⟩
      simp only [hsecond, hfirst, hdeclared, declared_binary, List.reverse_append, List.append_assoc]
      rfl

/-- What is read is derived from the atoms up to the last label. -/
theorem Reads.derives {room index : Nat} {declared : List Observable} {atoms : List String}
    {reading : Reading} (h : Reads room declared index atoms reading)
    (hlegible : ∀ atom ∈ atoms, Legible atom) :
    ∃ taken, atoms = taken ++ reading.rest ∧ Derives taken reading.tree.shape ∧
      reading.tree.lastLabel + 1 = index + taken.length := by
  -- along the reading, with the atoms that each part takes
  induction h with
  | leaf hopens =>
      obtain ⟨taken, hatoms, hwritten, hnext⟩ := (headAt_iff hlegible).mp hopens.stands
      rw [hopens.stands.next_leaf] at hnext
      exact ⟨taken, hatoms, .leaf hwritten, hnext⟩
  | unary hopens _ ih =>
      obtain ⟨taken, rfl, hwritten, rfl⟩ := (headAt_iff hlegible).mp hopens.stands
      have hrest := (List.forall_mem_append.mp hlegible).2
      obtain ⟨taken', hatoms', hderives, hlast⟩ := ih hrest
      refine ⟨taken ++ taken', ?_, .unary hwritten hderives, ?_⟩
      · rw [List.append_assoc, ← hatoms']
      · simp only [lastLabel, List.length_append]
        omega
  | binary hopens _ _ ih₁ ih₂ =>
      obtain ⟨taken, rfl, hwritten, rfl⟩ := (headAt_iff hlegible).mp hopens.stands
      have hrest := (List.forall_mem_append.mp hlegible).2
      obtain ⟨taken₁, hatoms₁, hderives₁, hlast₁⟩ := ih₁ hrest
      have hrest₁ := (List.forall_mem_append.mp (hatoms₁ ▸ hrest)).2
      obtain ⟨taken₂, hatoms₂, hderives₂, hlast₂⟩ := ih₂ hrest₁
      refine ⟨taken ++ taken₁ ++ taken₂, ?_, .binary hwritten hderives₁ hderives₂, ?_⟩
      · rw [List.append_assoc, List.append_assoc, ← hatoms₂, ← hatoms₁]
      · simp only [lastLabel, List.length_append]
        omega

end Tree

/-! ## What is derived is read -/

namespace Derives

/-- A head stands where it is written, and declares what was not declared before. -/
theorem opens_of_written {before rest : List String} {head : Head} {declared : List Observable}
    (index : Nat) (hlegible : ∀ atom ∈ before ++ rest, Legible atom)
    (hwritten : Written before head) (hnodup : (head.observable?.toList ++ declared).Nodup) :
    Tree.Opens declared index (before ++ rest) head (head.observable?.toList ++ declared)
      (index + before.length) rest where
  stands := (headAt_iff hlegible).mpr ⟨before, rfl, hwritten, rfl⟩
  declares := by
    refine Tree.declare_eq_ok.mpr ⟨rfl, fun o ho => ?_⟩
    rw [Option.mem_def.mp ho] at hnodup
    exact (List.nodup_cons.mp hnodup).1

/-- What is derived is read, whatever follows it, unless it nests too deep or declares an observable
again. -/
theorem exists_reads {taken rest : List String} {tree : Tree Unit} (h : Derives taken tree)
    {room : Nat} (index : Nat) {declared : List Observable}
    (hlegible : ∀ atom ∈ taken ++ rest, Legible atom) (hheight : tree.height ≤ room)
    (hnodup : (tree.declared.reverse ++ declared).Nodup) :
    ∃ labelled, Tree.Reads room declared index (taken ++ rest)
        ⟨labelled, tree.declared.reverse ++ declared, rest⟩ ∧
      labelled.lastLabel + 1 = index + taken.length := by
  -- along the derivation, with what was declared before and what follows
  induction h generalizing room index declared rest with
  | leaf hwritten =>
      obtain ⟨room, rfl⟩ := Tree.exists_room hheight
      have hopens := opens_of_written index hlegible hwritten hnodup
      refine ⟨_, .leaf hopens, ?_⟩
      exact hopens.stands.next_leaf.symm
  | @unary before atoms op body hwritten _ ih =>
      obtain ⟨room, rfl⟩ := Tree.exists_room hheight
      have hdeclared : (Tree.unary () op body).declared.reverse ++ declared =
          body.declared.reverse ++ ((Head.unary op).observable?.toList ++ declared) := by
        rw [Tree.declared_unary, List.reverse_append, List.append_assoc]
        cases (Head.unary op).observable? <;> rfl
      rw [List.append_assoc] at hlegible ⊢
      rw [hdeclared] at hnodup ⊢
      have hopens := opens_of_written index hlegible hwritten hnodup.of_append_right
      have hrest := (List.forall_mem_append.mp hlegible).2
      obtain ⟨labelled, hbody, hlast⟩ :=
        ih (index + before.length) hrest (Nat.le_of_succ_le_succ hheight) hnodup
      refine ⟨_, .unary hopens hbody, ?_⟩
      rw [Tree.lastLabel, hlast, List.length_append, Nat.add_assoc]
  | @binary before atoms₁ atoms₂ op first second hwritten _ _ ih₁ ih₂ =>
      obtain ⟨room, rfl⟩ := Tree.exists_room hheight
      have hheights := Nat.max_le.mp (Nat.le_of_succ_le_succ hheight)
      have hdeclared : (Tree.binary () op first second).declared.reverse ++ declared =
          second.declared.reverse ++ (first.declared.reverse ++ declared) := by
        rw [Tree.declared_binary, List.reverse_append, List.append_assoc]
      rw [List.append_assoc, List.append_assoc] at hlegible ⊢
      rw [hdeclared] at hnodup ⊢
      have hfirst := hnodup.of_append_right
      have hopens := opens_of_written index hlegible hwritten hfirst.of_append_right
      have hrest := (List.forall_mem_append.mp hlegible).2
      obtain ⟨labelled₁, hreads₁, hlast₁⟩ := ih₁ (index + before.length) hrest hheights.1 hfirst
      have hrest₁ := (List.forall_mem_append.mp hrest).2
      obtain ⟨labelled₂, hreads₂, hlast₂⟩ :=
        ih₂ (labelled₁.lastLabel + 1) hrest₁ hheights.2 hnodup
      refine ⟨_, .binary hopens hreads₁ hreads₂, ?_⟩
      rw [Tree.lastLabel, hlast₂, hlast₁, List.length_append, List.length_append]
      omega

end Derives

/-! ## One way only -/

/-- No two heads are at the start of the same atoms. -/
theorem HeadAt.eq {index next next' : Nat} {atoms rest rest' : List String} {head head' : Head}
    (h : HeadAt index atoms head next rest) (h' : HeadAt index atoms head' next' rest') :
    head = head' ∧ next = next' ∧ rest = rest' := by
  cases h with
  | intro hc hread =>
      cases h' with
      | intro hc' hread' =>
          obtain rfl := Option.some.inj (hc.symm.trans hc')
          obtain ⟨rfl, rfl⟩ := Prod.mk.inj (Except.ok.inj (hread.symm.trans hread'))
          exact ⟨rfl, rfl, rfl⟩

/-- Atoms start with the atoms of one head at most. -/
theorem Written.eq_of_append_eq {taken taken' rest rest' : List String} {head head' : Head}
    (h : Written taken head) (h' : Written taken' head')
    (hlegible : ∀ atom ∈ taken ++ rest, Legible atom) (hsame : taken ++ rest = taken' ++ rest') :
    head = head' ∧ taken = taken' ∧ rest = rest' := by
  have hhead : HeadAt 0 (taken ++ rest) head (0 + taken.length) rest :=
    (headAt_iff hlegible).mpr ⟨taken, rfl, h, rfl⟩
  have hhead' : HeadAt 0 (taken ++ rest) head' (0 + taken'.length) rest' :=
    (headAt_iff hlegible).mpr ⟨taken', hsame, h', rfl⟩
  obtain ⟨rfl, _, rfl⟩ := hhead.eq hhead'
  exact ⟨rfl, List.append_cancel_right hsame, rfl⟩

namespace Derives

variable {taken taken' rest rest' : List String} {tree tree' : Tree Unit}

/-- A contract starts with its head. -/
theorem exists_written (h : Derives taken tree) :
    ∃ before after, taken = before ++ after ∧ Written before tree.head := by
  cases h with
  | leaf hwritten => exact ⟨_, [], (List.append_nil _).symm, hwritten⟩
  | unary hwritten _ => exact ⟨_, _, rfl, hwritten⟩
  | binary hwritten _ _ => exact ⟨_, _, List.append_assoc .., hwritten⟩

/-- A contract has an atom at least. -/
theorem length_pos (h : Derives taken tree) : 0 < taken.length := by
  obtain ⟨before, after, rfl, hwritten⟩ := h.exists_written
  cases hwritten
  exact Nat.succ_pos _

/-- Two contracts at the start of the same atoms have the same head. -/
theorem head_eq (h : Derives taken tree) (h' : Derives taken' tree')
    (hlegible : ∀ atom ∈ taken ++ rest, Legible atom) (hsame : taken ++ rest = taken' ++ rest') :
    tree.head = tree'.head := by
  obtain ⟨before, after, rfl, hwritten⟩ := h.exists_written
  obtain ⟨before', after', rfl, hwritten'⟩ := h'.exists_written
  rw [List.append_assoc] at hlegible hsame
  rw [List.append_assoc] at hsame
  exact (hwritten.eq_of_append_eq hwritten' hlegible hsame).1

/-- Atoms start with the atoms of one contract at most, and these derive it alone. -/
theorem eq_of_append_eq (h : Derives taken tree) (h' : Derives taken' tree')
    (hlegible : ∀ atom ∈ taken ++ rest, Legible atom) (hsame : taken ++ rest = taken' ++ rest') :
    tree = tree' ∧ taken = taken' ∧ rest = rest' := by
  -- along the first derivation; the second one has the same head, and so the same rule
  induction h generalizing taken' rest rest' tree' with
  | leaf hwritten =>
      have hhead := (Derives.leaf hwritten).head_eq h' hlegible hsame
      cases h' with
      | leaf hwritten' =>
          obtain ⟨_, rfl, rfl⟩ := hwritten.eq_of_append_eq hwritten' hlegible hsame
          cases hhead
          exact ⟨rfl, rfl, rfl⟩
      | unary => cases hhead
      | binary => cases hhead
  | unary hwritten hbody ih =>
      have hhead := (Derives.unary hwritten hbody).head_eq h' hlegible hsame
      cases h' with
      | leaf => cases hhead
      | unary hwritten' hbody' =>
          cases hhead
          rw [List.append_assoc] at hlegible hsame
          rw [List.append_assoc] at hsame
          obtain ⟨_, rfl, hrest⟩ := hwritten.eq_of_append_eq hwritten' hlegible hsame
          obtain ⟨rfl, rfl, rfl⟩ := ih hbody' (List.forall_mem_append.mp hlegible).2 hrest
          exact ⟨rfl, rfl, rfl⟩
      | binary => cases hhead
  | binary hwritten hfirst hsecond ih₁ ih₂ =>
      have hhead := (Derives.binary hwritten hfirst hsecond).head_eq h' hlegible hsame
      cases h' with
      | leaf => cases hhead
      | unary => cases hhead
      | binary hwritten' hfirst' hsecond' =>
          cases hhead
          simp only [List.append_assoc] at hlegible hsame
          obtain ⟨_, rfl, hrest⟩ := hwritten.eq_of_append_eq hwritten' hlegible hsame
          have hbelow := (List.forall_mem_append.mp hlegible).2
          obtain ⟨rfl, rfl, hrest₁⟩ := ih₁ hfirst' hbelow hrest
          obtain ⟨rfl, rfl, rfl⟩ := ih₂ hsecond' (List.forall_mem_append.mp hbelow).2 hrest₁
          exact ⟨rfl, rfl, rfl⟩

end Derives

/-! ## Verdicts -/

/-- The atoms of a text are legible if none of its numbers has too many digits. -/
theorem legible_of_mem_atoms {text : String}
    (hdigits : ∀ atom ∈ atoms text, ∀ negative digits, Numeral atom.toList negative digits →
      digits.length ≤ 4300) : ∀ atom ∈ atoms text, Legible atom := by
  intro atom hatom
  refine ⟨fun c hc => ?_, hdigits atom hatom⟩
  exact isBlank_of_isDelimiter ((of_mem_atoms hatom).2 c hc)

/-- The verdict on a text that is read is where its contract ends and whether atoms follow. -/
theorem verify_eq_valid_iff_parsed {text : String} {stop : Nat} {extraneous : Bool} :
    verify text = .ok (.valid stop extraneous) ↔ ∃ parsed, parse text = .ok parsed ∧
      parsed.stop = stop ∧ extraneous = !parsed.extraneous.isEmpty := by
  unfold verify
  cases parse text with
  | ok parsed => simp [eq_comm]
  | error failure => cases failure <;> simp

/-- The verdict is that a contract ends at an atom just if the atoms up to there are a contract. -/
theorem verify_eq_valid {text : String} (hlegible : ∀ atom ∈ atoms text, Legible atom) {stop : Nat}
    {extraneous : Bool} : verify text = .ok (.valid stop extraneous) ↔
      ∃ taken rest, atoms text = taken ++ rest ∧ IsContract taken ∧ taken.length = stop + 1 ∧
        extraneous = !rest.isEmpty := by
  rw [verify_eq_valid_iff_parsed]
  constructor
  · intro h
    obtain ⟨parsed, hparse, rfl, rfl⟩ := h
    obtain ⟨reading, hreads, rfl⟩ := parseAtoms_eq_ok.mp hparse
    obtain ⟨taken, hatoms, hderives, hlast⟩ := hreads.derives hlegible
    obtain ⟨hdeclared, hdistinct⟩ := hreads.declared_eq
    refine ⟨taken, reading.rest, hatoms, ⟨_, hderives, ?_, ?_⟩, ?_, ?_⟩
    · rw [Tree.height_shape]
      exact hreads.row.1
    · rw [Tree.pairwise_entries_iff, Tree.declared_shape]
      have hnodup := hdistinct List.nodup_nil
      rw [hdeclared, List.append_nil, List.nodup_reverse] at hnodup
      exact hnodup
    · rw [Nat.zero_add] at hlast
      exact hlast.symm
    · rw [hreads.extraneous]
  · intro h
    obtain ⟨taken, rest, hatoms, ⟨tree, hderives, hheight, hentries⟩, hlength, rfl⟩ := h
    rw [hatoms] at hlegible
    have hnodup : (tree.declared.reverse ++ []).Nodup := by
      rw [List.append_nil, List.nodup_reverse]
      exact Tree.pairwise_entries_iff.mp hentries
    -- what is derived is read, up to its last label
    obtain ⟨labelled, hreads, hlast⟩ := hderives.exists_reads 0 hlegible hheight hnodup
    refine ⟨⟨atoms text, labelled⟩, ?_, ?_, ?_⟩
    · rw [← hatoms] at hreads
      exact parseAtoms_eq_ok.mpr ⟨_, hreads, rfl⟩
    · have hstop : (Parsed.mk (atoms text) labelled).stop = labelled.lastLabel := rfl
      rw [hstop]
      omega
    · rw [hatoms, hreads.extraneous]

/-- A text is accepted just if some of its first atoms are a contract. These are the only ones that
the grammar derives, the verdict ends with them, and it has a warning if others follow. -/
theorem verify_isValid_iff {text : String}
    (hdigits : ∀ atom ∈ atoms text, ∀ negative digits, Numeral atom.toList negative digits →
      digits.length ≤ 4300) :
    ((∃ verdict, verify text = .ok verdict ∧ verdict.isValid = true) ↔
      ∃ taken, taken <+: atoms text ∧ IsContract taken) ∧
    (∀ taken taken' tree tree', taken <+: atoms text → taken' <+: atoms text →
      Derives taken tree → Derives taken' tree' → taken = taken' ∧ tree = tree') ∧
    ∀ taken, taken <+: atoms text → IsContract taken → ∃ verdict stop, verify text = .ok verdict ∧
      verdict.stop? = some stop ∧ stop + 1 = taken.length ∧
        (verdict.warning?.isSome = true ↔ taken ≠ atoms text) := by
  have hlegible := legible_of_mem_atoms hdigits
  -- the verdict on a text that starts with a contract
  have haccepts : ∀ taken rest, atoms text = taken ++ rest → IsContract taken →
      ∃ stop, stop + 1 = taken.length ∧ verify text = .ok (.valid stop !rest.isEmpty) := by
    intro taken rest hatoms hcontract
    have hpositive : 0 < taken.length := by
      obtain ⟨_, hderives, _⟩ := hcontract
      exact hderives.length_pos
    obtain ⟨stop, hstop⟩ := Nat.exists_eq_add_one.mpr hpositive
    exact ⟨stop, hstop.symm,
      (verify_eq_valid hlegible).mpr ⟨taken, rest, hatoms, hcontract, hstop, rfl⟩⟩
  refine ⟨⟨?_, ?_⟩, ?_, ?_⟩
  · intro h
    obtain ⟨verdict, hverify, hvalid⟩ := h
    cases verdict with
    | valid stop extraneous =>
        obtain ⟨taken, rest, hatoms, hcontract, _⟩ := (verify_eq_valid hlegible).mp hverify
        exact ⟨taken, ⟨rest, hatoms.symm⟩, hcontract⟩
    | invalid rejection => cases hvalid
  · intro h
    obtain ⟨taken, ⟨rest, hatoms⟩, hcontract⟩ := h
    obtain ⟨stop, _, hverify⟩ := haccepts taken rest hatoms.symm hcontract
    exact ⟨_, hverify, rfl⟩
  · intro taken taken' tree tree' htaken htaken' hderives hderives'
    obtain ⟨rest, hatoms⟩ := htaken
    obtain ⟨rest', hatoms'⟩ := htaken'
    rw [← hatoms] at hlegible
    obtain ⟨htree, hsame, _⟩ :=
      hderives.eq_of_append_eq hderives' hlegible (hatoms.trans hatoms'.symm)
    exact ⟨hsame, htree⟩
  · intro taken htaken hcontract
    obtain ⟨rest, hatoms⟩ := htaken
    obtain ⟨stop, hstop, hverify⟩ := haccepts taken rest hatoms.symm hcontract
    refine ⟨_, stop, hverify, rfl, hstop, ?_⟩
    rw [← hatoms]
    cases rest with
    | nil => simp [Verdict.warning?]
    | cons atom rest => simp [Verdict.warning?]

/-- A contract that scales by an observable with the word of a combinator for its name, and an atom
after it. -/
def rainText : String :=
  "Scale then <0x00000000000000000000000000000000000000aa> (TRUNCATE <1/1/1970 0:00:05> one), one"

/-- The first seven atoms of that text are a contract. -/
theorem verify_isValid_iff_of_rainText :
    (∀ atom ∈ atoms rainText, ∀ negative digits, Numeral atom.toList negative digits →
      digits.length ≤ 4300) ∧
    verify rainText = .ok (.valid 6 true) ∧
      ∃ taken, taken <+: atoms rainText ∧ IsContract taken ∧ taken.length = 7 := by
  have hshort : ∀ atom ∈ atoms rainText, atom.toList.length ≤ 4300 := by decide
  have hdigits : ∀ atom ∈ atoms rainText, ∀ negative digits, Numeral atom.toList negative digits →
      digits.length ≤ 4300 := by
    intro atom hatom negative digits hnumeral
    exact Nat.le_trans hnumeral.length_le (hshort atom hatom)
  have hverify : verify rainText = .ok (.valid 6 true) := by decide +kernel
  obtain ⟨haccepted, _, hstop⟩ := verify_isValid_iff hdigits
  obtain ⟨taken, htaken, hcontract⟩ := haccepted.mp ⟨_, hverify, rfl⟩
  obtain ⟨verdict, stop, hverdict, hlast, hlength, _⟩ := hstop taken htaken hcontract
  obtain rfl := Except.ok.inj (hverify.symm.trans hverdict)
  obtain rfl := Option.some.inj hlast
  exact ⟨hdigits, hverify, taken, htaken, hcontract, hlength.symm⟩

end ContractAlgebra
