import ContractAlgebra.Proofs.Text.Runs

/-!
# Pieces set out as text

A text sets out pieces with at least one separator between each two of them, and with any number of
separators before the first and after the last (`Spaced`). Every text is set out in this way, and the
pieces can only be its runs (`runs_eq_iff_spaced`). So separators are all that is lost when a text is
cut into runs (`flatten_runs`).
-/

namespace ContractAlgebra.Text

/-- A text that is a single run. -/
structure IsRun (p : Char → Bool) (piece : List Char) : Prop where
  ne_nil : piece ≠ []
  unbroken : ∀ c ∈ piece, p c = false

/-- A text of separators only, which may be empty. -/
def IsGap (p : Char → Bool) (gap : List Char) : Prop :=
  ∀ c ∈ gap, p c = true

/-- Pieces with a gap between each two of them that is not empty. -/
inductive Separated (p : Char → Bool) : List (List Char) → List Char → Prop where
  | nil : Separated p [] []
  | single {piece} : IsRun p piece → Separated p [piece] piece
  | cons {piece gap next pieces rest} : IsRun p piece → IsGap p gap → gap ≠ [] →
      Separated p (next :: pieces) rest →
      Separated p (piece :: next :: pieces) (piece ++ (gap ++ rest))

/-- Pieces set out as text: separated pieces with a gap on either side. -/
inductive Spaced (p : Char → Bool) (pieces : List (List Char)) : List Char → Prop where
  | intro {leading body trailing} : IsGap p leading → Separated p pieces body →
      IsGap p trailing → Spaced p pieces (leading ++ (body ++ trailing))

variable {p : Char → Bool} {c : Char} {piece gap text : List Char} {pieces : List (List Char)}

/-- A character that is no separator is a run. -/
theorem IsRun.singleton (hc : p c = false) : IsRun p [c] :=
  ⟨List.cons_ne_nil c [], List.forall_mem_singleton.mpr hc⟩

/-- A run stays one with such a character in front. -/
theorem IsRun.cons (hc : p c = false) (h : IsRun p piece) : IsRun p (c :: piece) :=
  ⟨List.cons_ne_nil c piece, List.forall_mem_cons.mpr ⟨hc, h.unbroken⟩⟩

/-- A gap may be empty. -/
theorem isGap_nil : IsGap p [] :=
  List.forall_mem_nil _

/-- A gap stays one with a separator in front. -/
theorem IsGap.cons (hc : p c = true) (h : IsGap p gap) : IsGap p (c :: gap) :=
  List.forall_mem_cons.mpr ⟨hc, h⟩

/-- Two gaps make one. -/
theorem IsGap.append {gap' : List Char} (h : IsGap p gap) (h' : IsGap p gap') :
    IsGap p (gap ++ gap') :=
  List.forall_mem_append.mpr ⟨h, h'⟩

/-! ## The runs of pieces that are set out -/

/-- A gap before a text does not show in its runs. -/
theorem runs_gap_append (h : IsGap p gap) (text : List Char) : runs p (gap ++ text) = runs p text := by
  -- each separator ends a run that is empty
  induction gap with
  | nil => rfl
  | cons c gap ih =>
      rcases List.forall_mem_cons.mp h with ⟨hc, hgap⟩
      have hfirst : runs p ([] ++ c :: (gap ++ text)) = runs p [] ++ runs p (gap ++ text) :=
        runs_append_cons hc [] (gap ++ text)
      rw [runs_nil, List.nil_append, List.nil_append, ih hgap] at hfirst
      exact hfirst

/-- A gap that is not empty cuts a text in two. -/
theorem runs_append_gap_append (h : IsGap p gap) (hne : gap ≠ []) (text rest : List Char) :
    runs p (text ++ (gap ++ rest)) = runs p text ++ runs p rest := by
  cases gap with
  | nil => exact absurd rfl hne
  | cons c gap =>
      rcases List.forall_mem_cons.mp h with ⟨hc, hgap⟩
      rw [List.cons_append, runs_append_cons hc, runs_gap_append hgap]

/-- A gap after a text does not show in its runs. -/
theorem runs_append_gap (text : List Char) (h : IsGap p gap) : runs p (text ++ gap) = runs p text := by
  by_cases hne : gap = []
  · rw [hne, List.append_nil]
  · have hcut := runs_append_gap_append h hne text []
    rw [List.append_nil, runs_nil, List.append_nil] at hcut
    exact hcut

/-- Separated pieces are the runs of their text. -/
theorem Separated.runs_eq (h : Separated p pieces text) : runs p text = pieces := by
  -- the gap that follows a piece cuts it off
  induction h with
  | nil => exact runs_nil
  | single hpiece => exact runs_eq_singleton hpiece.ne_nil hpiece.unbroken
  | cons hpiece hgap hne _ ih =>
      rw [runs_append_gap_append hgap hne, ih, runs_eq_singleton hpiece.ne_nil hpiece.unbroken]
      rfl

/-- Pieces that are set out come back as runs. -/
theorem Spaced.runs_eq (h : Spaced p pieces text) : runs p text = pieces := by
  rcases h with ⟨hleading, hbody, htrailing⟩
  rw [runs_gap_append hleading, runs_append_gap _ htrailing]
  exact hbody.runs_eq

/-! ## Every text sets out pieces -/

/-- A separator in front goes to the leading gap. -/
theorem Spaced.cons_separator (hc : p c = true) (h : Spaced p pieces text) :
    Spaced p pieces (c :: text) := by
  rcases h with ⟨hleading, hbody, htrailing⟩
  exact .intro (hleading.cons hc) hbody htrailing

/-- A character in front that is no separator joins the first piece, if there is one. -/
theorem Separated.exists_cons (hc : p c = false) (h : Separated p pieces text) :
    ∃ pieces', Separated p pieces' (c :: text) := by
  cases h with
  | nil => exact ⟨_, .single (.singleton hc)⟩
  | single hpiece => exact ⟨_, .single (hpiece.cons hc)⟩
  | cons hpiece hgap hne hrest => exact ⟨_, .cons (hpiece.cons hc) hgap hne hrest⟩

/-- Before a gap that is not empty, it is a piece of its own. -/
theorem Spaced.cons_piece {body trailing : List Char} (hpiece : IsRun p piece)
    (hgap : IsGap p gap) (hne : gap ≠ []) (hbody : Separated p pieces body)
    (htrailing : IsGap p trailing) :
    Spaced p (piece :: pieces) (piece ++ (gap ++ (body ++ trailing))) := by
  cases pieces with
  | nil =>
      -- without a piece after it, the gap is a trailing one
      cases hbody
      have hspaced := Spaced.intro isGap_nil (.single hpiece) (hgap.append htrailing)
      exact hspaced
  | cons next pieces =>
      have hspaced := Spaced.intro isGap_nil (.cons hpiece hgap hne hbody) htrailing
      rw [List.nil_append, List.append_assoc, List.append_assoc] at hspaced
      exact hspaced

/-- Text that sets out pieces still does so with a character in front that is no separator. -/
theorem Spaced.exists_cons (hc : p c = false) (h : Spaced p pieces text) :
    ∃ pieces', Spaced p pieces' (c :: text) := by
  cases h with
  | @intro leading body trailing hleading hbody htrailing =>
      -- without a leading gap the character joins the first piece, else it is one of its own
      by_cases hne : leading = []
      · subst hne
        rcases hbody.exists_cons hc with ⟨pieces', hbody'⟩
        exact ⟨pieces', .intro isGap_nil hbody' htrailing⟩
      · exact ⟨[c] :: pieces, .cons_piece (.singleton hc) hleading hne hbody htrailing⟩

/-- Every text sets out pieces. -/
theorem exists_spaced (p : Char → Bool) (text : List Char) : ∃ pieces, Spaced p pieces text := by
  -- from the back, one character at a time
  induction text with
  | nil => exact ⟨[], .intro isGap_nil .nil isGap_nil⟩
  | cons c text ih =>
      rcases ih with ⟨pieces, hspaced⟩
      cases hc : p c with
      | true => exact ⟨pieces, hspaced.cons_separator hc⟩
      | false => exact hspaced.exists_cons hc

/-- The pieces that a text sets out are its runs. -/
theorem runs_eq_iff_spaced : runs p text = pieces ↔ Spaced p pieces text := by
  constructor
  · intro h
    -- the pieces that it does set out are its runs, so they are the given ones
    rcases exists_spaced p text with ⟨pieces', hspaced⟩
    rw [← h, hspaced.runs_eq]
    exact hspaced
  · exact Spaced.runs_eq

/-! ## What runs hold -/

/-- Each of the separated pieces is a run. -/
theorem Separated.isRun_of_mem (h : Separated p pieces text) (hmem : piece ∈ pieces) :
    IsRun p piece := by
  induction h with
  | nil => cases hmem
  | single hpiece =>
      rw [List.mem_singleton] at hmem
      rw [hmem]
      exact hpiece
  | cons hpiece _ _ _ ih =>
      rcases List.mem_cons.mp hmem with heq | hmem
      · rw [heq]
        exact hpiece
      · exact ih hmem

/-- No run is empty, and none holds a separator. -/
theorem isRun_of_mem_runs (h : piece ∈ runs p text) : IsRun p piece := by
  have hspaced : Spaced p (runs p text) text := runs_eq_iff_spaced.mp rfl
  rcases hspaced with ⟨_, hbody, _⟩
  exact hbody.isRun_of_mem h

/-- Nothing is left of a gap without its separators. -/
theorem IsGap.filter_eq (h : IsGap p gap) : gap.filter (!p ·) = [] := by
  rw [List.filter_eq_nil_iff]
  intro c hc
  simp [h c hc]

/-- A run has no separators to lose. -/
theorem IsRun.filter_eq (h : IsRun p piece) : piece.filter (!p ·) = piece := by
  rw [List.filter_eq_self]
  intro c hc
  simp [h.unbroken c hc]

/-- Separated pieces hold what is left of their text without its separators. -/
theorem Separated.flatten_eq (h : Separated p pieces text) :
    pieces.flatten = text.filter (!p ·) := by
  induction h with
  | nil => rfl
  | single hpiece => rw [hpiece.filter_eq, List.flatten_singleton]
  | cons hpiece hgap _ _ ih =>
      rw [List.flatten_cons, ih, List.filter_append, List.filter_append, hpiece.filter_eq,
        hgap.filter_eq, List.nil_append]

theorem Spaced.flatten_eq (h : Spaced p pieces text) : pieces.flatten = text.filter (!p ·) := by
  rcases h with ⟨hleading, hbody, htrailing⟩
  rw [List.filter_append, List.filter_append, hleading.filter_eq, htrailing.filter_eq,
    List.nil_append, List.append_nil]
  exact hbody.flatten_eq

/-- The runs of a text are the text without its separators. -/
theorem flatten_runs (p : Char → Bool) (text : List Char) :
    (runs p text).flatten = text.filter (!p ·) :=
  (runs_eq_iff_spaced.mp rfl).flatten_eq

/-- No run is longer than its text. -/
theorem length_le_of_mem_runs (h : piece ∈ runs p text) : piece.length ≤ text.length := by
  -- a run is a part of the text without its separators
  have hpart : piece.Sublist (runs p text).flatten := List.sublist_flatten_of_mem h
  rw [flatten_runs] at hpart
  exact (hpart.trans List.filter_sublist).length_le

end ContractAlgebra.Text
