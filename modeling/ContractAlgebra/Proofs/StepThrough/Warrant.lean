import ContractAlgebra.Proofs.StepThrough.Rewind

/-!
# Decisions of a session are warranted

A choice is kept as it was made, while the replay that it is part of is made anew for each call. It
stays what it was: the value of the decision that is pending once all earlier choices are replayed,
and for an `anytime` one of the slices on offer then (`Session.Answered`). Together with what is known
of the decisions that a walk makes on its own, this tells of every decision that a session has come to
(`Session.Reachable.warrants`).
-/

namespace ContractAlgebra

/-- What lies in a partition of some time lies between the ends of that time. -/
theorem Slices.Partition.within {start : Int} {stop : Time} {ranges : List Slice} {range : Slice}
    (h : Slices.Partition start stop ranges) (hmem : range ∈ ranges) :
    start ≤ range.start ∧ range.stop ≤ stop := by
  have hinside : ∀ t : Int, .instant t ∈ range → start ≤ t ∧ .instant t ≤ stop :=
    fun t ht => (h.holds t).mp ⟨range, hmem, ht⟩
  constructor
  · exact (hinside range.start ⟨le_refl _, range.start_le_stop⟩).1
  · cases hstop : range.stop with
    | instant last =>
        have hlast : Time.instant last ∈ range := ⟨hstop ▸ range.start_le_stop, hstop.ge⟩
        exact (hinside last hlast).2
    | unbounded =>
        cases stop with
        | unbounded => exact le_refl _
        | instant last =>
            -- the range goes on after any instant
            have hlate : Time.instant (max range.start (last + 1)) ∈ range :=
              ⟨le_max_left range.start (last + 1), hstop ▸ Time.le_unbounded _⟩
            have hle := Time.instant_le_instant.mp (hinside _ hlate).2
            omega

namespace Session

variable {session : Session} {compiled : Compiled} {clock : Clock}

/-- Each choice was made for the decision that is pending after the choices before it, and for an
`anytime` it was on offer. -/
def Answered (session : Session) : Prop :=
  ∀ earlier choice later, session.choices = earlier ++ choice :: later →
    ∃ clock decision, { session with choices := earlier }.pending clock none = .ok (some decision) ∧
      choice = decision.chosen choice.value ∧
        (decision.kind = .anytime → choice.value ∈ decision.options)

/-! ## One step after the other -/

namespace Answered

theorem of_nil (h : session.choices = []) : session.Answered := by
  intro earlier choice later hsplit
  rw [h] at hsplit
  simp at hsplit

theorem setContract (h : session.Answered) (text : String) :
    (session.setContract text).2.Answered := by
  unfold Session.setContract
  cases compile text with
  | error failure => exact h
  | ok compiled => exact of_nil rfl

/-- A time that is accepted for an `anytime` is one of the slices on offer. -/
theorem mem_options_of_resolve (hreplays : session.Replays) {decision : Decision} {answer : Answer}
    {now : Int} {value : Choice} (hcompiled : session.compiled = some compiled)
    (hvalue : session.resolve decision answer now = .ok value) (hkind : decision.kind = .anytime) :
    value ∈ decision.options := by
  have hsound := (hreplays.uses compiled hcompiled).1
  rcases exists_timeOptions hcompiled hsound decision now with ⟨times, all, htimes, _, hmem⟩
  have hfits := resolve_fits hvalue
  -- a branch does not fit, and slices besides the options are taken for the acquisition alone
  cases value with
  | branch first =>
      rw [hkind] at hfits
      cases hfits
  | slice s =>
      rcases (hmem s).mp (mem_of_resolve htimes hvalue).1 with hoption | ⟨hacquisition, _⟩
      · exact hoption
      · rw [hkind] at hacquisition
        cases hacquisition

/-- An answer is recorded for the decision that was pending. -/
theorem set (h : session.Answered) (hreplays : session.Replays) (answer : Answer) (clock : Clock) :
    (session.set answer clock).2.Answered := by
  unfold Session.set
  cases hchoose : session.choose answer clock with
  | error failure => exact h
  | ok choice =>
      intro earlier choice' later hsplit
      have hsplit : session.choices ++ [choice] = earlier ++ choice' :: later := hsplit
      -- either the new choice is meant, or an earlier one, which was warranted before
      rcases List.eq_nil_or_concat later with rfl | ⟨later', last, rfl⟩
      · -- the new choice answers what is pending now
        rcases List.append_inj' hsplit rfl with ⟨rfl, hsame⟩
        obtain rfl := List.head_eq_of_cons_eq hsame
        rcases choose_eq_ok hchoose with ⟨replay, decision, value, hreplay, hdecision, _, rfl⟩
        rcases replay_eq_ok.mp hreplay with ⟨compiled, hcompiled, _⟩
        have hpending : session.pending clock none = .ok (some decision) :=
          pending_eq_ok.mpr ⟨replay, hreplay, hdecision⟩
        rcases (choose_eq_ok_iff hpending).mp hchoose with ⟨value', hvalue, hsame⟩
        obtain rfl : value' = value := congrArg Recorded.value hsame
        exact ⟨clock, decision, hpending, rfl, mem_options_of_resolve hreplays hcompiled hvalue⟩
      · have hsplit' : session.choices ++ [choice] = (earlier ++ choice' :: later') ++ [last] := by
          rw [hsplit, List.concat_eq_append, List.append_assoc, List.cons_append]
        exact h earlier choice' later' (List.append_inj' hsplit' rfl).1

/-- The choices that are left after a cut are the first ones. -/
theorem keep (h : session.Answered) {recorded kept : List Recorded}
    (hall : recorded.filter (!·.automatic) = session.choices) (hinitial : kept <+: recorded) :
    (session.keep kept).Answered := by
  intro earlier choice later hsplit
  rcases hinitial.filter (!·.automatic) with ⟨dropped, hdropped⟩
  have hkept : kept.filter (!·.automatic) = earlier ++ choice :: later := hsplit
  rw [hall, hkept, List.append_assoc] at hdropped
  exact h earlier choice (later ++ dropped) hdropped.symm

end Answered

theorem Reachable.answered (h : session.Reachable) : session.Answered :=
  h.induction (fun _ => Answered.of_nil rfl) (fun _ text hanswered => hanswered.setContract text)
    (fun _ answer clock hreplays hanswered => hanswered.set hreplays answer clock)
    fun _ _ _ hanswered => hanswered.keep

/-! ## All decisions -/

variable {now : Int} {includePast : Option Bool} {values : Nat → Option Int} {replay : Replay}
  {before later : List Recorded} {recorded : Recorded}

/-- A choice is warranted by the decision that it was made for. -/
theorem warrants_of_expects (hsound : compiled.Sound) {decision : Decision} {value : Choice}
    (hexpects : compiled.Expects before decision) (hfits : value.Fits decision.kind)
    (hoffered : decision.kind = .anytime → value ∈ decision.options) :
    compiled.Warrants before (decision.chosen value) := by
  refine ⟨hexpects.places, hfits, ?_⟩
  -- a `get` always decides on its own, so only an `anytime` is chosen
  rintro (hkind | hkind)
  · rcases hexpects.anytime hkind with ⟨index, body, earlier, options, hoffers⟩
    have hmem := hoffered hkind
    rw [hoffers.offered] at hmem
    rcases List.mem_map.mp hmem with ⟨acquired, hacquired, rfl⟩
    rcases hoffers.partition.within hacquired with ⟨hstart, hstop⟩
    -- an `anytime` has the horizon of its sub-contract
    have hsame : compiled.horizonAt index = compiled.horizonAt body.label :=
      (hsound.knows _ hoffers.part).horizon.trans
        (hsound.knows _ (Tree.body_mem_subtrees hoffers.part)).horizon.symm
    exact ⟨index, body, earlier, acquired, Or.inl ⟨hkind, hoffers.part⟩, hoffers.node, rfl,
      hoffers.inForce, hstart, hsame ▸ hstop⟩
  · exact absurd hkind hexpects.asked

/-- A choice was made for a decision that is as expected after all that was decided before it. -/
theorem Reachable.expects (h : session.Reachable) (hcompiled : session.compiled = some compiled)
    (hreplay : session.replay now includePast values = .ok replay)
    (hsplit : replay.recorded = before ++ recorded :: later) (hchosen : recorded.automatic = false) :
    ∃ decision value, recorded = decision.chosen value ∧ compiled.Expects before decision ∧
      value.Fits decision.kind ∧ (decision.kind = .anytime → value ∈ decision.options) := by
  have hreplays := h.replays
  have hall := hreplays.recorded hreplay
  have hchoices : session.choices =
      before.filter (!·.automatic) ++ recorded :: later.filter (!·.automatic) := by
    rw [← hall, hsplit, List.filter_append, List.filter_cons_of_pos (by simp [hchosen])]
  rcases h.answered _ _ _ hchoices with ⟨clock, decision, hpending, hvalue, hoffered⟩
  -- cut before the choice, the session waits for the decision that it was made for
  rcases hreplays.replay_keep hreplay hsplit hchosen (clock 0) none noValues with
    ⟨decision', hcut, _⟩
  rcases pending_eq_ok.mp hpending with ⟨replay', hreplay', hdecision⟩
  have hsame : replay' = ⟨before, some decision', none⟩ := Except.ok.inj (hreplay'.symm.trans hcut)
  rw [hsame] at hdecision
  have hinitial : before <+: replay.recorded := ⟨_, hsplit.symm⟩
  have hfollows := (h.orderly.keep hall hinitial).follows (hreplays.keep hall hinitial) hcompiled hcut
  have hfits : recorded.value.Fits recorded.kind := by
    refine (hreplays.fits recorded ?_).value
    rw [hchoices]
    exact List.mem_append_right _ List.mem_cons_self
  rw [hvalue] at hfits
  exact ⟨decision, recorded.value, hvalue, (hfollows.2 decision hdecision).2, hfits, hoffered⟩

/-- All that a session has come to is warranted by what was decided before. -/
theorem Reachable.warrants (h : session.Reachable) (hcompiled : session.compiled = some compiled)
    (hreplay : session.replay now includePast values = .ok replay)
    (hsplit : replay.recorded = before ++ recorded :: later) : compiled.Warrants before recorded := by
  have hreplays := h.replays
  -- the walk warrants what it decides on its own, the session what was chosen
  cases hautomatic : recorded.automatic with
  | true =>
      have hwarranted := (h.orderly.follows hreplays hcompiled hreplay).1.warranted
      rw [hsplit, Compiled.warranted_append] at hwarranted
      exact hwarranted.2.1 hautomatic
  | false =>
      rcases h.expects hcompiled hreplay hsplit hautomatic with
        ⟨decision, value, rfl, hexpects, hfits, hoffered⟩
      exact warrants_of_expects (hreplays.uses compiled hcompiled).1 hexpects hfits hoffered

end Session

end ContractAlgebra
