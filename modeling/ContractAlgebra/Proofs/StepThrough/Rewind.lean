import ContractAlgebra.Proofs.StepThrough.Cut
import ContractAlgebra.Proofs.StepThrough.Order
import ContractAlgebra.Proofs.StepThrough.Refusal

/-!
# Taking decisions back

A session keeps no automatic decisions, so a cut of its choices leaves it to the replay to make those
again. It makes just those that stood before the cut: the decision of a node is taken back, or made
again, by cutting what is recorded before it and replaying (`Session.rewinds`). That no node decides
twice makes the position of its decision a matter of fact (`Session.Orderly.position_eq`).
-/

namespace ContractAlgebra

namespace Session

variable {session next : Session} {clock : Clock} {recorded kept later : List Recorded}
  {choice : Recorded} {now : Int} {includePast : Option Bool} {values : Nat → Option Int}
  {replay : Replay}

/-- Whenever it is asked, a session has come to just some decisions, and waits for one of a kind at
a node. -/
structure WaitsAt (session : Session) (recorded : List Recorded) (kind : DecisionKind) (node : Int) :
    Prop where
  recorded : ∀ clock, session.recorded clock = .ok recorded
  pending : ∀ clock includePast, ∃ decision,
    session.pending clock includePast = .ok (some decision) ∧ decision.kind = kind ∧
      decision.node = node

/-- The decisions of a session are those of its replay. -/
theorem recorded_eq_ok : session.recorded clock = .ok recorded ↔
    ∃ replay, session.replay (clock 0) none noValues = .ok replay ∧ replay.recorded = recorded := by
  unfold Session.recorded
  rw [bind_eq_ok]
  constructor
  · rintro ⟨replay, hreplay, hrecorded⟩
    exact ⟨replay, hreplay, Except.ok.inj hrecorded⟩
  · rintro ⟨replay, hreplay, hrecorded⟩
    exact ⟨replay, hreplay, congrArg Except.ok hrecorded⟩

/-! ## What is recorded -/

/-- What one walk records with the choices of a session is recorded whenever the session is asked. -/
theorem Replays.recorded_of_run (h : session.Replays) {compiled : Compiled}
    (hcompiled : session.compiled = some compiled) {includePast : Bool}
    (hrun : ((compiled.walk now includePast values).run session.choices).recorded? = some recorded)
    (clock : Clock) : session.recorded clock = .ok recorded := by
  obtain ⟨replay, hreplay⟩ := h.exists_replay hcompiled (clock 0) none noValues
  have hcourse := hreplay
  rw [replay_of_compiled hcompiled] at hcourse
  -- the walks at both times are in step, so they record the same
  have hstep := Compiled.walk_inStep (h.uses compiled hcompiled).1 now (clock 0) includePast
    session.settings.includePast values noValues
  have hsame := hstep.recorded?_eq h.fits hrun
  have hrecorded := Course.recorded?_of_replay hcourse
  exact recorded_eq_ok.mpr ⟨replay, hreplay, Option.some.inj (hrecorded.symm.trans hsame)⟩

/-- All replays of a session record the same. -/
theorem Replays.recorded_eq (h : session.Replays) (hrecorded : session.recorded clock = .ok recorded)
    (hreplay : session.replay now includePast values = .ok replay) : replay.recorded = recorded := by
  obtain ⟨compiled, hcompiled, hrun⟩ := replay_eq_ok.mp hreplay
  have hsame := h.recorded_of_run hcompiled (Course.recorded?_of_replay hrun) clock
  exact Except.ok.inj (hsame.symm.trans hrecorded)

/-- Cut before a choice, a session waits for the decision that the choice was made for. -/
theorem Replays.replay_keep (h : session.Replays)
    (hreplay : session.replay now includePast values = .ok replay)
    (hrecorded : replay.recorded = kept ++ choice :: later) (hchosen : choice.automatic = false)
    (now' : Int) (includePast' : Option Bool) (values' : Nat → Option Int) :
    ∃ decision, (session.keep kept).replay now' includePast' values' =
        .ok ⟨kept, some decision, none⟩ ∧ Walk.Answers choice decision := by
  obtain ⟨compiled, hcompiled, hrun⟩ := replay_eq_ok.mp hreplay
  have hstep := Compiled.walk_inStep (h.uses compiled hcompiled).1 now now'
    (includePast.getD session.settings.includePast)
    (includePast'.getD session.settings.includePast) values values'
  have hall := Course.recorded?_of_replay hrun
  rw [hrecorded] at hall
  -- without the choice and what came after it, the walk stops where the choice was made
  obtain ⟨decision, hcut, hanswers⟩ := hstep.run_cut h.fits hall hchosen
  refine ⟨decision, replay_eq_ok.mpr ⟨compiled, hcompiled, ?_⟩, hanswers⟩
  exact congrArg Course.replay hcut

/-- A session that is cut before a choice waits for that decision whenever it is asked. -/
theorem Replays.waitsAt_keep (h : session.Replays)
    (hreplay : session.replay now includePast values = .ok replay)
    (hrecorded : replay.recorded = kept ++ choice :: later) (hchosen : choice.automatic = false) :
    (session.keep kept).WaitsAt kept choice.kind choice.node where
  recorded clock := by
    obtain ⟨decision, hcut, _⟩ := h.replay_keep hreplay hrecorded hchosen (clock 0) none noValues
    exact recorded_eq_ok.mpr ⟨_, hcut, rfl⟩
  pending clock includePast := by
    obtain ⟨decision, hcut, hanswers⟩ :=
      h.replay_keep hreplay hrecorded hchosen (clock 0) includePast noValues
    exact ⟨decision, pending_eq_ok.mpr ⟨_, hcut, rfl⟩, hanswers.1.symm, hanswers.2.symm⟩

/-- An answer that is accepted is recorded after all other decisions, for the one that was pending. -/
theorem Replays.recorded_set (h : session.Replays) {answer : Answer} {more : Bool}
    (hset : session.set answer clock = (.ok more, next)) :
    ∃ replay decision choice, session.replay (clock 0) none noValues = .ok replay ∧
      replay.pending = some decision ∧ Walk.Answers choice decision ∧ choice.automatic = false ∧
        ∀ clock' : Clock, ∃ later, next.recorded clock' = .ok (replay.recorded ++ choice :: later) := by
  obtain ⟨choice, hchoose, _, rfl⟩ := h.choose_of_set hset
  have hafter : (session.record choice).Replays := by
    simpa only [hset] using h.set answer clock
  obtain ⟨replay, decision, value, hreplay, hdecision, hfits, rfl⟩ := choose_eq_ok hchoose
  obtain ⟨compiled, hcompiled, hrun⟩ := replay_eq_ok.mp hreplay
  have hsound := (h.uses compiled hcompiled).1
  have hfit : (decision.chosen value).Fits := ⟨rfl, hfits⟩
  refine ⟨replay, decision, decision.chosen value, hreplay, hdecision, ⟨rfl, rfl⟩, rfl, ?_⟩
  intro clock'
  have hself := Compiled.walk_inStep hsound (clock 0) (clock 0) session.settings.includePast
    session.settings.includePast noValues noValues
  -- the choice answers what was pending, and automatic decisions may follow
  obtain ⟨later, hlater⟩ := hself.recorded?_append h.fits
    (Course.eq_pending_of_replay hrun hdecision) ⟨rfl, rfl⟩ hfit
  exact ⟨later, hafter.recorded_of_run hcompiled hlater clock'⟩

/-! ## Taking a decision back -/

/-- A node whose decision passes the checks made it by choice. -/
theorem beforeNode_eq_ok {node : Int} (h : beforeNode replay node = .ok kept) :
    ∃ choice later, replay.recorded = kept ++ choice :: later ∧ choice.automatic = false ∧
      choice.node = node := by
  unfold beforeNode at h
  split at h
  · cases h
  next decision hfound =>
    split at h
    · cases h
    next hchosen =>
      -- the first decision of the node ends what is kept
      obtain ⟨hnode, front, back, hsplit, hfront⟩ := List.find?_eq_some_iff_append.mp hfound
      have hkept : replay.recorded.takeWhile (·.node != node) = front := by
        rw [hsplit, List.takeWhile_append_of_pos, List.takeWhile_cons_of_neg, List.append_nil]
        · simpa using hnode
        · simpa [bne] using hfront
      have hsame : front = kept := hkept.symm.trans (Except.ok.inj h)
      rw [hsame] at hsplit
      exact ⟨decision, back, hsplit, eq_false_of_ne_true hchosen, beq_iff_eq.mp hnode⟩

/-- A node decides at one position only. -/
theorem Orderly.position_eq (h : session.Orderly) (hreplays : session.Replays)
    (hreplay : session.replay now includePast values = .ok replay)
    (hrecorded : replay.recorded = kept ++ choice :: later) {position : Nat} {other : Recorded}
    (hother : replay.recorded[position]? = some other) (hnode : other.node = choice.node) :
    position = kept.length ∧ other = choice := by
  obtain ⟨compiled, hcompiled, _⟩ := replay_eq_ok.mp hreplay
  -- the decisions are made in the order of their nodes, each of which stands once in the contract
  have hall : (topNode :: compiled.tree.nodes).Nodup :=
    List.nodup_cons.mpr ⟨compiled.tree.topNode_notMem_nodes,
      (h.ascending compiled hcompiled).nodup_nodes⟩
  have hnodup := hall.sublist (h.replay hreplays hcompiled hreplay).1
  have hchoice : replay.recorded[kept.length]? = some choice := by simp [hrecorded]
  have hlength : position < (replay.recorded.map Recorded.node).length := by
    rw [List.length_map]
    exact (List.getElem?_eq_some_iff.mp hother).1
  have hposition : position = kept.length := by
    apply (List.getElem?_inj hlength hnodup).mp
    rw [List.getElem?_map, List.getElem?_map, hother, hchoice, Option.map_some, Option.map_some,
      hnode]
  rw [hposition, hchoice] at hother
  exact ⟨hposition, (Option.some.inj hother).symm⟩

/-- A decision that is taken back is pending again, after those that were made before it. -/
theorem Replays.waitsAt_delete (h : session.Replays) {node : Int}
    (hdelete : session.delete node clock = (.ok (), next)) :
    ∃ replay kept choice later, session.replay (clock 0) none noValues = .ok replay ∧
      replay.recorded = kept ++ choice :: later ∧ choice.node = node ∧
        next.WaitsAt kept choice.kind node := by
  unfold Session.delete at hdelete
  -- the checks fail, or the session is cut before the decision of the node
  split at hdelete
  · cases hdelete
  next kept hbefore =>
    obtain ⟨_, rfl⟩ := Prod.mk.inj hdelete
    obtain ⟨replay, hreplay, hkept⟩ := bind_eq_ok.mp hbefore
    obtain ⟨choice, later, hrecorded, hchosen, rfl⟩ := beforeNode_eq_ok hkept
    exact ⟨replay, kept, choice, later, hreplay, hrecorded, rfl,
      h.waitsAt_keep hreplay hrecorded hchosen⟩

/-! ## Making a decision again -/

/-- A decision that is made again is recorded in the place of the old one, after those that were made
before it. The rest is left to the answer, which is put to the session cut there. -/
theorem Replays.recorded_reset (h : session.Replays) {answer : Answer} {position : Int} {more : Bool}
    (hreset : session.reset answer position clock = (.ok more, next)) :
    ∃ replay kept later, session.replay (clock 0) none noValues = .ok replay ∧
      replay.recorded = kept ++ later ∧ position = kept.length ∧
      (session.keep kept).set answer (fun k => clock (k + 1)) = (.ok more, next) ∧
      ∃ choice, choice.automatic = false ∧
        (∀ old ∈ later.head?, choice.kind = old.kind ∧ choice.node = old.node) ∧
        ∀ clock' : Clock, ∃ later', next.recorded clock' = .ok (kept ++ choice :: later') := by
  unfold Session.reset at hreset
  split at hreset
  · cases hreset
  next kept hbefore =>
    obtain ⟨replay, hreplay, hkept⟩ := bind_eq_ok.mp hbefore
    have hcut := h.keep (h.recorded hreplay) (beforePosition_initial hkept)
    obtain ⟨replay', decision, choice, hreplay', hdecision, hanswers, hchosen, hafter⟩ :=
      hcut.recorded_set hreset
    rcases beforePosition_eq_ok hkept with ⟨rfl, rfl⟩ | ⟨old, later, hrecorded, hold, rfl⟩
    · -- nothing is dropped, so what was pending is answered
      have hsame : replay'.recorded = replay.recorded := by
        rw [h.keep_recorded hreplay] at hreplay'
        exact h.recorded_eq (recorded_eq_ok.mpr ⟨replay, hreplay, rfl⟩) hreplay'
      rw [hsame] at hafter
      exact ⟨replay, replay.recorded, [], hreplay, (List.append_nil _).symm, rfl, hreset, choice,
        hchosen, nofun, hafter⟩
    -- the old choice is dropped, so that its decision is what was answered
    · obtain ⟨decision', hreplay'', hanswers'⟩ :=
        h.replay_keep hreplay hrecorded hold (clock 1) none noValues
      cases hreplay'.symm.trans hreplay''
      cases hdecision
      refine ⟨replay, kept, old :: later, hreplay, hrecorded, rfl, hreset, choice, hchosen, ?_,
        hafter⟩
      intro _ heq
      cases heq
      exact ⟨hanswers.1.trans hanswers'.1.symm, hanswers.2.trans hanswers'.2.symm⟩

/-! ## Both -/

/-- Let a session have come to some decisions. If the decision of a node is taken back, the session
has come to just those before it, and waits for it. If the decision at a position is made again,
those before it are followed by a choice of the same kind and for the same node; and the session is
the one that takes the answer, at the same later readings of the clock, when it has just the choices
before the position. -/
theorem rewinds (hsession : session.Reachable) {clock₀ : Clock}
    (hrecorded : session.recorded clock₀ = .ok recorded) (clock : Clock) :
    (∀ node next, session.delete node clock = (.ok (), next) →
      (∃ (position : Nat) (choice : Recorded),
        recorded[position]? = some choice ∧ choice.node = node) ∧
      ∀ (position : Nat) (choice : Recorded), recorded[position]? = some choice →
        choice.node = node → next.WaitsAt (recorded.take position) choice.kind node) ∧
    ∀ answer (position : Int) more next, session.reset answer position clock = (.ok more, next) →
      ∃ count : Nat, position = count ∧ count ≤ recorded.length ∧
        (∃ choice : Recorded, choice.automatic = false ∧
          (∀ old, recorded[count]? = some old → choice.kind = old.kind ∧ choice.node = old.node) ∧
          ∀ clock', ∃ later, next.recorded clock' = .ok (recorded.take count ++ choice :: later)) ∧
        ∀ other : Session, other.settings = session.settings → other.compiled = session.compiled →
          other.choices = (recorded.take count).filter (!·.automatic) →
            other.set answer (fun k => clock (k + 1)) = (.ok more, next) := by
  have hreplays := hsession.replays
  constructor
  · intro node next hdelete
    obtain ⟨replay, kept, choice, later, hreplay, hsplit, rfl, hwaits⟩ :=
      hreplays.waitsAt_delete hdelete
    obtain rfl : replay.recorded = recorded := hreplays.recorded_eq hrecorded hreplay
    refine ⟨⟨kept.length, choice, by simp [hsplit], rfl⟩, ?_⟩
    intro position other hother hnode
    -- no other position has a decision of this node
    obtain ⟨rfl, rfl⟩ := hsession.orderly.position_eq hreplays hreplay hsplit hother hnode
    rw [hsplit, List.take_left]
    exact hwaits
  · intro answer position more next hreset
    obtain ⟨replay, kept, later, hreplay, hsplit, rfl, hset, choice, hchosen, hold, hafter⟩ :=
      hreplays.recorded_reset hreset
    obtain rfl : replay.recorded = recorded := hreplays.recorded_eq hrecorded hreplay
    refine ⟨kept.length, rfl, by simp [hsplit], ⟨choice, hchosen, ?_, ?_⟩, ?_⟩
    · intro old hget
      rw [hsplit, List.getElem?_append_right (Nat.le_refl _), Nat.sub_self,
        ← List.head?_eq_getElem?] at hget
      exact hold old hget
    · intro clock'
      rw [hsplit, List.take_left]
      exact hafter clock'
    · -- a session with just these choices is the one that was cut
      rintro ⟨settings, compiled, choices⟩ rfl rfl hchoices
      rw [hsplit, List.take_left] at hchoices
      obtain rfl := hchoices
      exact hset

/-- In the session of `someRequests` the second branch of the `or` is chosen. That choice is taken
back, or made again for the first branch, where the `anytime` decides on its own. -/
theorem rewinds_of_someRequests :
    let session := (start .default).afterAll someRequests
    let acquired := acquisition ⟨2, .instant 5, by decide⟩
    let second : Recorded := ⟨.or, .branch false, 0, 0, false⟩
    let first : Recorded := ⟨.or, .branch true, 0, 0, false⟩
    session.Reachable ∧ session.recorded (fun _ => 11) = .ok [acquired, second] ∧
      session.delete 0 (fun _ => 12) = (.ok (), session.keep [acquired]) ∧
      (session.keep [acquired]).WaitsAt [acquired] .or 0 ∧
      session.reset (.branch true) 1 (fun _ => 12) = (.ok false, session.keep [acquired, first]) ∧
      (session.keep [acquired]).set (.branch true) (fun _ => 12) =
        (.ok false, session.keep [acquired, first]) := by
  intro session acquired second first
  have hreachable : session.Reachable := ⟨_, _, rfl⟩
  have hrecorded : session.recorded (fun _ => 11) = .ok [acquired, second] := by rfl
  have hdelete : session.delete 0 (fun _ => 12) = (.ok (), session.keep [acquired]) := by rfl
  have hreset : session.reset (.branch true) 1 (fun _ => 12) =
      (.ok false, session.keep [acquired, first]) := by rfl
  obtain ⟨hdeletes, hresets⟩ := rewinds hreachable hrecorded fun _ => 12
  -- the general statement gives the rest of what was computed
  have hwaits := (hdeletes 0 _ hdelete).2 1 second rfl rfl
  obtain ⟨count, hcount, _, _, hsets⟩ := hresets (.branch true) 1 _ _ hreset
  obtain rfl : count = 1 := by omega
  exact ⟨hreachable, hrecorded, hdelete, hwaits, hreset, hsets _ rfl rfl rfl⟩

end Session

end ContractAlgebra
