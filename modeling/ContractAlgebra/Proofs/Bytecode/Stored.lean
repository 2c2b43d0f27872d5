import ContractAlgebra.Proofs.Bytecode.RoundTrip
import Mathlib.Data.List.Forall2

/-!
# What bytecode is read from

Whenever the reader succeeds, the words that it has taken are those of the heads that it yields
(`Tree.takes_of_decodeFrom`). The address of an observable is the one place where other words do as
well, since neither its tag nor the bytes that do not count are looked at (`Stores`). Where both are
zero, the words are just the ones that the head is written as (`Stores.eq_words`), and words tell
their heads apart (`heads_of_words`).
-/

namespace ContractAlgebra

/-- The words that a head may be read from. Those of an address are its own, with a tag and with
four bytes that do not count. -/
inductive Stores : List Int → Head → Prop where
  | plain {block head} : head.observable? = none → block = head.words → Stores block head
  | observable {tag a b c name} :
      Stores (Combinator.scale.code :: 0 :: tag :: a :: b :: c :: nameToWords name)
        (.unary (.scale (.observable ⟨name, .ofParts a b c⟩)))

/-- If a head's words hold an address, its tag is zero, and so are the bytes that do not count. -/
def ZeroSection (block : List Int) : Prop :=
  ∀ tag a more, block = Combinator.scale.code :: 0 :: tag :: a :: more → tag = 0 ∧ (2 : Int) ^ 32 ∣ a

/-- Words without such extras are the ones that the head is written as. -/
theorem Stores.eq_words {block : List Int} {head : Head} (h : Stores block head)
    (hfits : ∀ n ∈ block, fitsWord n) (hzero : ZeroSection block) : block = head.words := by
  cases h with
  | plain _ hblock => exact hblock
  | @observable tag a b c name =>
      -- the tag is zero and the first part has no extra bytes, so the parts are the words of the
      -- address
      obtain ⟨rfl, ha⟩ := hzero tag a _ rfl
      simp only [List.forall_mem_cons] at hfits
      obtain ⟨_, _, _, hfits_a, hfits_b, hfits_c, _⟩ := hfits
      have haddress :=
        Address.toWords_ofParts hfits_a hfits_b hfits_c (Address.padding_of_dvd ha)
      show _ = Combinator.scale.code :: 0 :: ((Address.ofParts a b c).toWords ++ nameToWords name)
      rw [haddress]
      rfl

/-- The same goes for the words of a row of heads. -/
theorem flatten_eq_words {blocks : List (List Int)} {heads : List Head}
    (h : List.Forall₂ Stores blocks heads) (hfits : ∀ n ∈ blocks.flatten, fitsWord n)
    (hzero : ∀ block ∈ blocks, ZeroSection block) : blocks.flatten = heads.flatMap Head.words := by
  induction h with
  | nil => rfl
  | cons hblock _ ih =>
      rw [List.flatten_cons, List.forall_mem_append] at hfits
      obtain ⟨hzero, hzero'⟩ := List.forall_mem_cons.mp hzero
      rw [List.flatten_cons, List.flatMap_cons, hblock.eq_words hfits.1 hzero, ih hfits.2 hzero']

/-! ## What is taken off a tape -/

namespace Tape

/-- Some words start with a block of them, and a tape holds the rest. -/
def Takes (position : Int) (words block : List Int) (tape : Tape) : Prop :=
  ∃ rest, words = block ++ rest ∧ tape = ofIntegers (position + block.length) rest

variable {position : Int} {words : List Int} {tape : Tape}

/-- Nothing is taken. -/
theorem takes_nil : Takes position words [] (ofIntegers position words) :=
  ⟨words, rfl, by rw [List.length_nil, Int.natCast_zero, Int.add_zero]⟩

/-- After one block, another one is taken. -/
theorem Takes.append {block rest block' : List Int}
    (h : Takes (position + block.length) rest block' tape) :
    Takes position (block ++ rest) (block ++ block') tape := by
  obtain ⟨rest', rfl, rfl⟩ := h
  have hposition : position + block.length + block'.length =
      position + (block ++ block').length := by
    rw [List.length_append]
    omega
  exact ⟨rest', (List.append_assoc ..).symm, by rw [hposition]⟩

/-- One word is taken. -/
theorem takes_of_next {n : Int} (hwords : ∀ n ∈ words, fitsWord n)
    (h : (ofIntegers position words).next = .ok (n, tape)) : Takes position words [n] tape := by
  cases words with
  | nil => cases h
  | cons first rest =>
      rw [next_ofIntegers _ _ (hwords first (List.mem_cons_self ..))] at h
      cases h
      exact ⟨rest, rfl, rfl⟩

/-- As many are taken as are asked for. -/
theorem takes_of_take {count : Nat} {taken : List Int} (hwords : ∀ n ∈ words, fitsWord n)
    (h : (ofIntegers position words).take count = .ok (taken, tape)) :
    Takes position words taken tape ∧ taken.length = count := by
  unfold take at h
  -- on how many are asked for
  induction count generalizing position words taken with
  | zero =>
      cases h
      exact ⟨takes_nil, rfl⟩
  | succ count ih =>
      cases words with
      | nil => cases h
      | cons n words =>
          obtain ⟨hn, hwords⟩ := List.forall_mem_cons.mp hwords
          simp only [ofIntegers, List.map_cons, takeFrom] at h
          rw [bind_of_eq_ok (Word.signed_integer hn)] at h
          obtain ⟨⟨more, tape'⟩, hmore, h⟩ := bind_eq_ok.mp h
          cases h
          obtain ⟨hmore, hlength⟩ := ih hwords hmore
          have htakes : Takes position ([n] ++ words) ([n] ++ more) tape' := Takes.append hmore
          exact ⟨htakes, congrArg (· + 1) hlength⟩

end Tape

open Tape

/-! ## Parameters -/

variable {position : Int} {words : List Int} {tape : Tape}

/-- A date is read from its word. -/
theorem takes_of_decodeDate {date : UInt32} (hwords : ∀ n ∈ words, fitsWord n)
    (h : decodeDate (ofIntegers position words) = .ok (date, tape)) :
    Takes position words [(date.toNat : Int)] tape := by
  obtain ⟨⟨t, tape'⟩, hnext, h⟩ := bind_eq_ok.mp h
  have hnext := takes_of_next hwords hnext
  dsimp only at h
  -- the word is the date if it fits, and is refused else
  split at h
  · next hfits =>
      cases h
      rw [toNat_of_fitsDate hfits]
      exact hnext
  · cases h

/-- The address in four words is that of the last three. -/
theorem ofWords_eq_ok {address : List Int} {arbiter : Address}
    (hlength : address.length = addressWords) (hwords : ∀ n ∈ address, fitsWord n)
    (h : Address.ofWords (address.map .integer) = .ok arbiter) :
    ∃ tag a b c, address = [tag, a, b, c] ∧ arbiter = .ofParts a b c := by
  -- there are just four words
  match address, hlength with
  | [tag, a, b, c], _ =>
      simp only [List.forall_mem_cons] at hwords
      obtain ⟨_, ha, hb, hc, _⟩ := hwords
      simp only [List.map_cons, List.map_nil, Address.ofWords, Address.part_integer ha,
        Address.part_integer hb, Address.part_integer hc] at h
      cases h
      exact ⟨tag, a, b, c, rfl, rfl⟩

/-- The words of a name are its length and its codes. -/
theorem nameToWords_of_codes {start length : Int} {codes : List Int} {name : List Char}
    (hname : nameOfWords start (codes.map .integer) = .ok name) (hlength : 0 ≤ length)
    (hcodes : codes.length = length.toNat) : nameToWords (String.ofList name) = length :: codes := by
  obtain rfl := codes_of_nameOfWords hname
  rw [List.length_map] at hcodes
  simp only [nameToWords_eq, String.toList_ofList, hcodes]
  rw [Int.toNat_of_nonneg hlength]

/-- An observable is read from the words of an address and of its name. -/
theorem takes_of_decodeObservable {o : Observable} (hwords : ∀ n ∈ words, fitsWord n)
    (h : decodeObservable (ofIntegers position words) = .ok (o, tape)) :
    ∃ tag a b c, o.arbiter = .ofParts a b c ∧
      Takes position words ([tag, a, b, c] ++ nameToWords o.name) tape := by
  obtain ⟨⟨address, tape₁⟩, haddress, h⟩ := bind_eq_ok.mp h
  obtain ⟨⟨words₁, rfl, rfl⟩, hcount⟩ := takes_of_take hwords haddress
  obtain ⟨hwords_address, hwords₁⟩ := List.forall_mem_append.mp hwords
  obtain ⟨⟨length, tape₂⟩, hlength, h⟩ := bind_eq_ok.mp h
  obtain ⟨words₂, rfl, rfl⟩ := takes_of_next hwords₁ hlength
  have hwords₂ := (List.forall_mem_append.mp hwords₁).2
  dsimp only at h
  -- the length is refused if it is negative or goes past the end
  split at h
  · cases h
  · next hnonneg =>
      obtain ⟨⟨codes, tape₃⟩, hcodes, h⟩ := bind_eq_ok.mp h
      obtain ⟨htakes, hcodesLength⟩ := takes_of_take hwords₂ hcodes
      obtain ⟨name, hname, h⟩ := bind_eq_ok.mp h
      obtain ⟨arbiter, harbiter, h⟩ := bind_eq_ok.mp h
      cases h
      obtain ⟨tag, a, b, c, rfl, rfl⟩ := ofWords_eq_ok hcount hwords_address harbiter
      refine ⟨tag, a, b, c, rfl, ?_⟩
      rw [nameToWords_of_codes hname (Int.not_lt.mp hnonneg) hcodesLength]
      exact Takes.append (Takes.append htakes)

/-- A factor is read from its words. -/
theorem takes_of_decodeFactor {factor : Factor} (hwords : ∀ n ∈ words, fitsWord n)
    (h : decodeFactor (ofIntegers position words) = .ok (factor, tape)) :
    ∃ block, Stores (Combinator.scale.code :: block) (.unary (.scale factor)) ∧
      Takes position words block tape := by
  obtain ⟨⟨discriminator, tape₁⟩, hdiscriminator, h⟩ := bind_eq_ok.mp h
  obtain ⟨words₁, rfl, rfl⟩ := takes_of_next hwords hdiscriminator
  have hwords₁ := (List.forall_mem_append.mp hwords).2
  dsimp only at h
  -- the mark says whether a constant or an observable follows
  split at h
  · next hconstant =>
      obtain rfl := hconstant
      obtain ⟨⟨n, tape₂⟩, hn, h⟩ := bind_eq_ok.mp h
      obtain ⟨_, _, h⟩ := bind_eq_ok.mp h
      cases h
      exact ⟨[1, n], .plain rfl rfl, Takes.append (takes_of_next hwords₁ hn)⟩
  · split at h
    · next hobservable =>
        obtain rfl := hobservable
        obtain ⟨⟨o, tape₂⟩, ho, h⟩ := bind_eq_ok.mp h
        cases h
        obtain ⟨tag, a, b, c, harbiter, htakes⟩ := takes_of_decodeObservable hwords₁ ho
        refine ⟨0 :: ([tag, a, b, c] ++ nameToWords o.name), ?_, Takes.append htakes⟩
        obtain ⟨name, arbiter⟩ := o
        obtain rfl := harbiter
        exact .observable
    · cases h

/-! ## Heads -/

/-- A head is read from its words. -/
theorem takes_of_decode {head : Head} (hwords : ∀ n ∈ words, fitsWord n)
    (h : Head.decode (ofIntegers position words) = .ok (head, tape)) :
    ∃ block, Stores block head ∧ Takes position words block tape := by
  obtain ⟨⟨code, tape₁⟩, hcode, h⟩ := bind_eq_ok.mp h
  obtain ⟨words₁, rfl, rfl⟩ := takes_of_next hwords hcode
  have hwords₁ := (List.forall_mem_append.mp hwords).2
  -- what a head takes after its code depends on the code alone
  have hparameters : ∃ block, Stores (code :: block) head ∧ Takes (position + 1) words₁ block tape := by
    cases hc : Combinator.ofCode? code with
    | none =>
        simp only [hc] at h
        cases h
    | some c =>
        simp only [hc] at h
        obtain rfl : c.code = code := by
          unfold Combinator.ofCode? at hc
          have hfound := List.find?_some hc
          exact beq_iff_eq.mp hfound
        -- only a date and a factor take more words
        cases c with
        | zero | one | and | or | andThen | give | get | anytime =>
            cases h
            exact ⟨[], .plain rfl rfl, takes_nil⟩
        | truncate =>
            obtain ⟨⟨date, tape₂⟩, hdate, h⟩ := bind_eq_ok.mp h
            cases h
            exact ⟨[(date.toNat : Int)], .plain rfl rfl, takes_of_decodeDate hwords₁ hdate⟩
        | scale =>
            obtain ⟨⟨factor, tape₂⟩, hfactor, h⟩ := bind_eq_ok.mp h
            cases h
            exact takes_of_decodeFactor hwords₁ hfactor
  obtain ⟨block, hstores, htakes⟩ := hparameters
  exact ⟨[code] ++ block, hstores, Takes.append htakes⟩

/-! ## Contracts -/

/-- A contract is read from the words of its heads, and nests no deeper than allowed. -/
theorem Tree.takes_of_decodeFrom {room : Nat} {tree : Tree Int} (hwords : ∀ n ∈ words, fitsWord n)
    (h : decodeFrom room (ofIntegers position words) = .ok (tree, tape)) :
    tree.height ≤ room ∧ ∃ blocks, List.Forall₂ Stores blocks tree.heads ∧
      Takes position words blocks.flatten tape := by
  -- on the room for nesting; the head is taken first
  induction room generalizing position words tree tape with
  | zero => cases h
  | succ room ih =>
      rw [decodeFrom] at h
      obtain ⟨⟨head, tape₁⟩, hhead, h⟩ := bind_eq_ok.mp h
      obtain ⟨block, hblock, rest₁, rfl, rfl⟩ := takes_of_decode hwords hhead
      have hwords₁ := (List.forall_mem_append.mp hwords).2
      cases head with
      | leaf op =>
          cases h
          refine ⟨Nat.le_add_left 1 _, [block], .cons hblock .nil, ?_⟩
          rw [List.flatten_cons]
          exact Takes.append takes_nil
      | unary op =>
          obtain ⟨⟨body, tape₂⟩, hbody, h⟩ := bind_eq_ok.mp h
          cases h
          obtain ⟨hheight, blocks, hblocks, htakes⟩ := ih hwords₁ hbody
          exact ⟨Nat.succ_le_succ hheight, block :: blocks, .cons hblock hblocks, Takes.append htakes⟩
      | binary op =>
          obtain ⟨⟨first, tape₂⟩, hfirst, h⟩ := bind_eq_ok.mp h
          obtain ⟨⟨second, tape₃⟩, hsecond, h⟩ := bind_eq_ok.mp h
          cases h
          -- the first sub-contract leaves the words of the second and those after it
          obtain ⟨hheight₁, blocks₁, hblocks₁, rest₂, rfl, rfl⟩ := ih hwords₁ hfirst
          have hwords₂ := (List.forall_mem_append.mp hwords₁).2
          obtain ⟨hheight₂, blocks₂, hblocks₂, htakes⟩ := ih hwords₂ hsecond
          have hheight := Nat.succ_le_succ (Nat.max_le.mpr ⟨hheight₁, hheight₂⟩)
          refine ⟨hheight, block :: (blocks₁ ++ blocks₂), ?_, ?_⟩
          · rw [heads_binary]
            exact .cons hblock (List.rel_append hblocks₁ hblocks₂)
          · rw [List.flatten_cons, List.flatten_append]
            exact Takes.append (Takes.append htakes)

/-! ## Words that are told apart -/

/-- A head fits if its words lie in the range of words. -/
theorem Head.fits_of_words {head : Head} (h : ∀ n ∈ head.words, fitsWord n) : head.Fits := by
  intro factor hfactor
  cases head with
  | leaf op => cases hfactor
  | binary op => cases hfactor
  | unary op =>
      -- only a factor has words that may be out of range
      cases op with
      | give | get | anytime | truncate => cases hfactor
      | scale factor =>
          cases hfactor
          cases factor with
          | constant n =>
              simp only [words, Unary.parameterWords, Factor.words, List.forall_mem_cons] at h
              exact h.2.2.1
          | observable o =>
              simp only [words, Unary.parameterWords, Factor.words, nameToWords_eq,
                List.forall_mem_cons, List.forall_mem_append] at h
              exact (fitsWord_iff.mp h.2.2.2.1).2

/-- Words of the range are those of at most one row of heads. -/
theorem heads_of_words {heads heads' : List Head} (hfits : ∀ head ∈ heads, head.Fits)
    (hfits' : ∀ head ∈ heads', head.Fits)
    (h : heads.flatMap Head.words = heads'.flatMap Head.words) : heads = heads' := by
  -- on the heads, each of which is read off the words
  induction heads generalizing heads' with
  | nil =>
      cases heads' with
      | nil => rfl
      | cons head' heads' => cases head' <;> cases h
  | cons head heads ih =>
      cases heads' with
      | nil => cases head <;> cases h
      | cons head' heads' =>
          obtain ⟨hhead, hheads⟩ := List.forall_mem_cons.mp hfits
          obtain ⟨hhead', hheads'⟩ := List.forall_mem_cons.mp hfits'
          rw [List.flatMap_cons, List.flatMap_cons] at h
          -- the reader finds either head at the start of these words
          have hread : Head.decode (ofIntegers 0 (head.words ++ heads.flatMap Head.words)) =
              .ok (head, _) := Head.decode_words hhead
          rw [h, Head.decode_words hhead'] at hread
          obtain rfl : head' = head := congrArg Prod.fst (Except.ok.inj hread)
          rw [ih hheads hheads' (List.append_cancel_left h)]

end ContractAlgebra
