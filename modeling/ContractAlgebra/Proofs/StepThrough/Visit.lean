import ContractAlgebra.Proofs.Compiled.Lookup
import ContractAlgebra.Proofs.StepThrough.Walk

/-!
# Visiting a part of a contract

One equation for each combinator says what a visit does, in terms of the contract alone: all that
the walk looks up in compiled data is replaced by what `Compiled.Sound` says of it. In particular no
look-up fails. `Compiled.Sound.visit_induction` puts them together: what holds of all that a visit can
do at a part, if it holds of the visits to its sub-contracts, holds of every visit.
-/

namespace ContractAlgebra

/-- The amount that a leaf pays. -/
def Leaf.amount : Leaf → Int
  | zero => 0
  | one => 1

/-- The decision on the time of an `anytime`: automatic if there is one slice only. -/
def Walk.decideAmong (index ordinal : Int) : List Slice → Walk Slice
  | [only] => record ⟨.anytime, .slice only, index, ordinal, true⟩ (done only)
  | options => decideTime .anytime index ordinal options

/-- The slices at which a sub-contract can still be acquired from an instant on: they tile the time
up to its horizon, with its own boundaries. -/
structure Tree.Offers {ι : Type} (body : Tree ι) (start : Int) (options : List Slice) : Prop where
  tiles : Slices.Tiles body.horizon (max start 0) options
  ends : ∀ b, b ∈ Slices.ends options ↔ body.Boundary b ∧ start ≤ b

namespace Tree.Offers

variable {ι : Type} {body : Tree ι} {start t : Int} {options : List Slice} {option : Slice}

/-- Up to the horizon there is something on offer. -/
theorem ne_nil (h : body.Offers start options) (hlive : .instant start ≤ body.horizon) :
    options ≠ [] := by
  -- without slices the tiling would end where it starts, so the horizon lay before the instant
  rintro rfl
  cases h.tiles with
  | nil hstop =>
      have hzero := body.zero_le_horizon
      rw [hstop, Time.instant_le_instant] at hlive hzero
      omega

/-- What is on offer starts in between. -/
theorem start_within (h : body.Offers start options) (hmem : option ∈ options) :
    start ≤ option.start ∧ 0 ≤ option.start ∧ .instant option.start ≤ body.horizon := by
  rcases h.tiles.within hmem with ⟨hstart, hstop⟩
  exact ⟨le_trans (le_max_left _ _) hstart, le_trans (le_max_right _ _) hstart,
    le_trans option.start_le_stop hstop⟩

/-- Every later instant lies in a slice on offer. -/
theorem exists_mem (h : body.Offers start options) (hstart : start ≤ t) (hzero : 0 ≤ t)
    (ht : .instant t ≤ body.horizon) : ∃ option ∈ options, .instant t ∈ option :=
  h.tiles.exists_mem (max_le hstart hzero) ht

/-- No boundary parts the instants of a slice on offer. -/
theorem alike (h : body.Offers start options) (hmem : option ∈ options)
    (ht : .instant t ∈ option) : body.Alike option.start t := by
  intro b hb
  have hle := Time.instant_le_instant.mp ht.1
  refine ⟨fun hsb => ?_, fun htb => le_trans hle htb⟩
  have hstart := (h.start_within hmem).1
  -- a boundary after the start of the slice is the end of one on offer, so it is not inside
  rcases h.tiles.end_outside hmem ((h.ends b).mpr ⟨hb, le_trans hstart hsb⟩) with hlt | hstop
  · omega
  · exact Time.instant_le_instant.mp (le_trans ht.2 hstop)

end Tree.Offers

/-- What is looked up at an `anytime` for an acquisition from some instant on: its ordinal, and the
slices that its sub-contract offers then. -/
structure Compiled.OffersAt (compiled : Compiled) (index ordinal : Nat) (body : Tree Nat) (start : Int)
    (options : List Slice) : Prop where
  slices : ∃ slices, compiled.anytimeSlices? index = some slices ∧
    slices.validFrom start = .ok options
  counted : compiled.anytimeOrdinal? index = some ordinal
  place : (compiled.tree.labelsOf .anytime)[ordinal]? = some index
  offers : body.Offers start options

namespace Compiled.Sound

variable {compiled : Compiled} {values : Nat → Option Int} {time : Slice} {index : Nat}
  {body first second : Tree Nat}

/-- A node is not passed over up to its horizon. -/
theorem not_late {part : Tree Nat} (h : compiled.Sound) (hpart : part ∈ compiled.tree.subtrees)
    (hlive : .instant time.start ≤ part.horizon) :
    ¬ compiled.horizonAt part.label < .instant time.start := by
  rw [(h.knows part hpart).horizon]
  exact not_lt.mpr hlive

/-- An expired part pays nothing. -/
theorem visit_expired {part : Tree Nat} (h : compiled.Sound) (hpart : part ∈ compiled.tree.subtrees)
    (hlate : part.horizon < .instant time.start) :
    compiled.visit values part time = .done (.payment 0 time) := by
  have hpast : compiled.horizonAt part.label < .instant time.start := by
    rw [(h.knows part hpart).horizon]
    exact hlate
  -- whatever the combinator is, its horizon is looked at first
  cases part with
  | leaf index op => exact if_pos hpast
  | unary index op body => exact if_pos hpast
  | binary index op first second => exact if_pos hpast

/-- A leaf pays its amount at any time. -/
theorem visit_leaf {op : Leaf} (h : compiled.Sound)
    (hpart : .leaf index op ∈ compiled.tree.subtrees) :
    compiled.visit values (.leaf index op) time = .done (.payment op.amount time) := by
  have hnot := h.not_late hpart (Time.le_unbounded (.instant time.start))
  cases op with
  | zero => exact if_neg hnot
  | one => exact if_neg hnot

/-- What is given away is paid by the other side. -/
theorem visit_give (h : compiled.Sound) (hpart : .unary index .give body ∈ compiled.tree.subtrees)
    (hlive : .instant time.start ≤ body.horizon) :
    compiled.visit values (.unary index .give body) time =
      (compiled.visit values body time).bind fun payoff => .done (payoff.scale (-1)) :=
  if_neg (h.not_late hpart hlive)

/-- A truncation has nothing to say before its date. -/
theorem visit_truncate {date : UInt32} (h : compiled.Sound)
    (hpart : .unary index (.truncate date) body ∈ compiled.tree.subtrees)
    (hlive : .instant time.start ≤ (Tree.unary index (.truncate date) body).horizon) :
    compiled.visit values (.unary index (.truncate date) body) time =
      compiled.visit values body time :=
  if_neg (h.not_late hpart hlive)

/-- A constant scales what is paid. -/
theorem visit_constant {n : Int} (h : compiled.Sound)
    (hpart : .unary index (.scale (.constant n)) body ∈ compiled.tree.subtrees)
    (hlive : .instant time.start ≤ body.horizon) :
    compiled.visit values (.unary index (.scale (.constant n)) body) time =
      (compiled.visit values body time).bind fun payoff => .done (payoff.scale n) :=
  if_neg (h.not_late hpart hlive)

/-- A payoff times an observable, if its value is known, else times its name. -/
def scaleKnown (o : Observable) (time : Slice) (value : Option Int) (payoff : Payoff) : Payoff :=
  match value with
  | some value => payoff.scale value
  | none => payoff.scaleBy o.name time

/-- An observable scales what is paid by its value or its name. -/
theorem visit_observable {o : Observable} {ordinal : Nat} (h : compiled.Sound)
    (hpart : .unary index (.scale (.observable o)) body ∈ compiled.tree.subtrees)
    (hordinal : compiled.observableOrdinal? index = some ordinal)
    (hlive : .instant time.start ≤ body.horizon) :
    compiled.visit values (.unary index (.scale (.observable o)) body) time =
      (compiled.visit values body time).bind fun payoff =>
        .done (scaleKnown o time (values ordinal) payoff) := by
  refine (if_neg (h.not_late hpart hlive)).trans ?_
  simp only [hordinal, Walk.find, Walk.bind_eq, Walk.pure_eq, Walk.done_bind]
  congr 1
  funext payoff
  -- the place was found, and now its value is known or not
  cases values ordinal <;> rfl

/-- A `get` of a contract without a horizon pays nothing. -/
theorem visit_get_unbounded (h : compiled.Sound)
    (hpart : .unary index .get body ∈ compiled.tree.subtrees) (hbody : body.horizon = .unbounded) :
    compiled.visit values (.unary index .get body) time = .done (.payment 0 time) := by
  have hhorizon : compiled.horizonAt index = .unbounded := (h.knows _ hpart).horizon.trans hbody
  have hlive : .instant time.start ≤ body.horizon := hbody ▸ Time.le_unbounded _
  refine (if_neg (h.not_late hpart hlive)).trans ?_
  rw [hhorizon]
  rfl

/-- A `get` acquires its sub-contract at the horizon. -/
theorem visit_get_instant {horizon : Int} (h : compiled.Sound)
    (hpart : .unary index .get body ∈ compiled.tree.subtrees)
    (hbody : body.horizon = .instant horizon) (hlive : time.start ≤ horizon) :
    compiled.visit values (.unary index .get body) time =
      .record ⟨.get, .slice (.moment horizon), index, noOrdinal, true⟩
        (compiled.visit values body (.moment horizon)) := by
  have hhorizon : compiled.horizonAt index = .instant horizon :=
    (h.knows _ hpart).horizon.trans hbody
  have hlive : .instant time.start ≤ body.horizon := hbody ▸ Time.instant_le_instant.mpr hlive
  refine (if_neg (h.not_late hpart hlive)).trans ?_
  rw [hhorizon]
  rfl

/-- All that is looked up at an `anytime` is there, and up to the horizon the slices from an instant
on are what its sub-contract offers. -/
theorem exists_offersAt (h : compiled.Sound)
    (hpart : .unary index .anytime body ∈ compiled.tree.subtrees) {start : Int}
    (hlive : .instant start ≤ body.horizon) :
    ∃ ordinal options, compiled.OffersAt index ordinal body start options := by
  rcases (h.knows _ hpart).anytime rfl with
    ⟨slices, ordinal, hslices, hdescribes, hordinal, hplace⟩
  rcases hdescribes.covers.validFrom start with ⟨options, hvalid, hupto, _⟩
  rcases hupto hlive with ⟨htiles, hends⟩
  refine ⟨ordinal, options, ⟨slices, hslices, hvalid⟩, hordinal, hplace, htiles, ?_⟩
  intro b
  exact (hends b).trans (and_congr_left' (hdescribes.boundaries b))

/-- An `anytime` acquires its sub-contract at one of the slices on offer. -/
theorem visit_anytime {ordinal : Nat} {options : List Slice} (h : compiled.Sound)
    (hpart : .unary index .anytime body ∈ compiled.tree.subtrees)
    (hoffers : compiled.OffersAt index ordinal body time.start options)
    (hlive : .instant time.start ≤ body.horizon) :
    compiled.visit values (.unary index .anytime body) time =
      (Walk.decideAmong index ordinal options).bind (compiled.visit values body) := by
  rcases hoffers.slices with ⟨slices, hslices, hvalid⟩
  refine (if_neg (h.not_late hpart hlive)).trans ?_
  simp only [hslices, hoffers.counted, Walk.find, hvalid, ofSlices, Walk.ofExcept, Walk.bind_eq,
    Walk.pure_eq, Walk.done_bind]
  -- without options the walk would keep to the time, but there is always one
  cases options with
  | nil => exact absurd rfl (hoffers.offers.ne_nil hlive)
  | cons option options => cases options <;> rfl

/-- Both parts are paid. -/
theorem visit_and (h : compiled.Sound)
    (hpart : .binary index .and first second ∈ compiled.tree.subtrees)
    (hlive : .instant time.start ≤ max first.horizon second.horizon) :
    compiled.visit values (.binary index .and first second) time =
      (compiled.visit values first time).bind fun payoff =>
        (compiled.visit values second time).bind fun other => .done (payoff.add other) :=
  if_neg (h.not_late hpart hlive)

/-- The second part is acquired if the first has expired. -/
theorem visit_andThen (h : compiled.Sound)
    (hpart : .binary index .andThen first second ∈ compiled.tree.subtrees)
    (hlive : .instant time.start ≤ max first.horizon second.horizon) :
    compiled.visit values (.binary index .andThen first second) time =
      if first.horizon < .instant time.start then compiled.visit values second time
      else compiled.visit values first time := by
  refine (if_neg (h.not_late hpart hlive)).trans ?_
  simp only [(h.knows _ (Tree.first_mem_subtrees hpart)).horizon]

/-- A branch is chosen if none of the two has expired. -/
theorem visit_or {ordinal : Nat} (h : compiled.Sound)
    (hpart : .binary index .or first second ∈ compiled.tree.subtrees)
    (hordinal : compiled.orOrdinal? index = some ordinal)
    (hlive : .instant time.start ≤ max first.horizon second.horizon) :
    compiled.visit values (.binary index .or first second) time =
      if first.horizon < .instant time.start then
        .record ⟨.or, .branch false, index, ordinal, true⟩ (compiled.visit values second time)
      else if second.horizon < .instant time.start then
        .record ⟨.or, .branch true, index, ordinal, true⟩ (compiled.visit values first time)
      else (Walk.decideBranch index ordinal).bind fun chosen =>
        if chosen then compiled.visit values first time else compiled.visit values second time := by
  refine (if_neg (h.not_late hpart hlive)).trans ?_
  -- the walk compares the horizons under the labels of the two parts, which are their own
  simp only [(h.knows _ (Tree.first_mem_subtrees hpart)).horizon,
    (h.knows _ (Tree.second_mem_subtrees hpart)).horizon, hordinal, Walk.find, Walk.bind_eq,
    Walk.pure_eq, Walk.done_bind, Walk.decideAutomatically, Walk.record_bind]

/-! ## All that a visit can do -/

/-- A property of visits holds of all if it holds of those to parts that have expired, and for each
combinator of a part that has not, of what the visit does there, as soon as it holds of visits to the
sub-contracts. The property is one of the part, of the time, and of the walk as the known values have
it. -/
theorem visit_induction (h : compiled.Sound)
    {motive : Tree Nat → Slice → ((Nat → Option Int) → Walk Payoff) → Prop}
    {part : Tree Nat} (hpart : part ∈ compiled.tree.subtrees) (time : Slice)
    (expired : ∀ (part : Tree Nat) (time : Slice), part ∈ compiled.tree.subtrees →
      part.horizon < .instant time.start →
        motive part time fun _ => .done (.payment 0 time))
    (leaf : ∀ (index : Nat) (op : Leaf) (time : Slice), .leaf index op ∈ compiled.tree.subtrees →
      motive (.leaf index op) time fun _ => .done (.payment op.amount time))
    (give : ∀ (index : Nat) (body : Tree Nat) (time : Slice),
      .unary index .give body ∈ compiled.tree.subtrees →
      .instant time.start ≤ body.horizon →
      motive body time (compiled.visit · body time) →
        motive (.unary index .give body) time fun values =>
          (compiled.visit values body time).bind fun payoff => .done (payoff.scale (-1)))
    (truncate : ∀ (index : Nat) (date : UInt32) (body : Tree Nat) (time : Slice),
      .unary index (.truncate date) body ∈ compiled.tree.subtrees →
      .instant time.start ≤ (Tree.unary index (.truncate date) body).horizon →
      motive body time (compiled.visit · body time) →
        motive (.unary index (.truncate date) body) time (compiled.visit · body time))
    (constant : ∀ (index : Nat) (n : Int) (body : Tree Nat) (time : Slice),
      .unary index (.scale (.constant n)) body ∈ compiled.tree.subtrees →
      .instant time.start ≤ body.horizon →
      motive body time (compiled.visit · body time) →
        motive (.unary index (.scale (.constant n)) body) time fun values =>
          (compiled.visit values body time).bind fun payoff => .done (payoff.scale n))
    (observable : ∀ (index : Nat) (o : Observable) (body : Tree Nat) (time : Slice) (ordinal : Nat),
      .unary index (.scale (.observable o)) body ∈ compiled.tree.subtrees →
      compiled.observableOrdinal? index = some ordinal →
      compiled.tree.observables[ordinal]? = some (index, o) →
      .instant time.start ≤ body.horizon →
      motive body time (compiled.visit · body time) →
        motive (.unary index (.scale (.observable o)) body) time fun values =>
          (compiled.visit values body time).bind fun payoff =>
            .done (scaleKnown o time (values ordinal) payoff))
    (never : ∀ (index : Nat) (body : Tree Nat) (time : Slice),
      .unary index .get body ∈ compiled.tree.subtrees →
      body.horizon = .unbounded →
        motive (.unary index .get body) time fun _ => .done (.payment 0 time))
    (get : ∀ (index : Nat) (body : Tree Nat) (time : Slice) (horizon : Int),
      .unary index .get body ∈ compiled.tree.subtrees →
      body.horizon = .instant horizon → time.start ≤ horizon →
      motive body (.moment horizon) (compiled.visit · body (.moment horizon)) →
        motive (.unary index .get body) time fun values =>
          .record ⟨.get, .slice (.moment horizon), index, noOrdinal, true⟩
            (compiled.visit values body (.moment horizon)))
    (anytime : ∀ (index : Nat) (body : Tree Nat) (time : Slice) (ordinal : Nat)
        (options : List Slice), .unary index .anytime body ∈ compiled.tree.subtrees →
      compiled.OffersAt index ordinal body time.start options → .instant time.start ≤ body.horizon →
      (∀ acquired, motive body acquired (compiled.visit · body acquired)) →
        motive (.unary index .anytime body) time fun values =>
          (Walk.decideAmong index ordinal options).bind (compiled.visit values body))
    (and : ∀ (index : Nat) (first second : Tree Nat) (time : Slice),
      .binary index .and first second ∈ compiled.tree.subtrees →
      .instant time.start ≤ max first.horizon second.horizon →
      motive first time (compiled.visit · first time) →
      motive second time (compiled.visit · second time) →
        motive (.binary index .and first second) time fun values =>
          (compiled.visit values first time).bind fun payoff =>
            (compiled.visit values second time).bind fun other => .done (payoff.add other))
    (inTurn : ∀ (index : Nat) (first second : Tree Nat) (time : Slice),
      .binary index .andThen first second ∈ compiled.tree.subtrees →
      .instant time.start ≤ first.horizon →
      motive first time (compiled.visit · first time) →
        motive (.binary index .andThen first second) time (compiled.visit · first time))
    (afterwards : ∀ (index : Nat) (first second : Tree Nat) (time : Slice),
      .binary index .andThen first second ∈ compiled.tree.subtrees →
      first.horizon < .instant time.start → .instant time.start ≤ second.horizon →
      motive second time (compiled.visit · second time) →
        motive (.binary index .andThen first second) time (compiled.visit · second time))
    (orSecond : ∀ (index : Nat) (first second : Tree Nat) (time : Slice) (ordinal : Nat),
      .binary index .or first second ∈ compiled.tree.subtrees →
      compiled.orOrdinal? index = some ordinal →
      (compiled.tree.labelsOf .or)[ordinal]? = some index →
      first.horizon < .instant time.start → .instant time.start ≤ second.horizon →
      motive second time (compiled.visit · second time) →
        motive (.binary index .or first second) time fun values =>
          .record ⟨.or, .branch false, index, ordinal, true⟩ (compiled.visit values second time))
    (orFirst : ∀ (index : Nat) (first second : Tree Nat) (time : Slice) (ordinal : Nat),
      .binary index .or first second ∈ compiled.tree.subtrees →
      compiled.orOrdinal? index = some ordinal →
      (compiled.tree.labelsOf .or)[ordinal]? = some index →
      .instant time.start ≤ first.horizon → second.horizon < .instant time.start →
      motive first time (compiled.visit · first time) →
        motive (.binary index .or first second) time fun values =>
          .record ⟨.or, .branch true, index, ordinal, true⟩ (compiled.visit values first time))
    (or : ∀ (index : Nat) (first second : Tree Nat) (time : Slice) (ordinal : Nat),
      .binary index .or first second ∈ compiled.tree.subtrees →
      compiled.orOrdinal? index = some ordinal →
      (compiled.tree.labelsOf .or)[ordinal]? = some index →
      .instant time.start ≤ first.horizon → .instant time.start ≤ second.horizon →
      motive first time (compiled.visit · first time) →
      motive second time (compiled.visit · second time) →
        motive (.binary index .or first second) time fun values =>
          (Walk.decideBranch index ordinal).bind fun chosen =>
            if chosen then compiled.visit values first time
            else compiled.visit values second time) :
    motive part time (compiled.visit · part time) := by
  -- what holds of the walk that a visit is holds of the visit
  have of_eq : ∀ {part : Tree Nat} {time : Slice} {walk : (Nat → Option Int) → Walk Payoff},
      motive part time walk → (∀ values, compiled.visit values part time = walk values) →
        motive part time (compiled.visit · part time) := by
    intro part time walk hwalk heq
    rwa [show (compiled.visit · part time) = walk from funext heq]
  -- by induction on the part; each case splits into expired and live, and a live one by combinator
  induction part generalizing time with
  | leaf index op => exact of_eq (leaf index op time hpart) fun _ => h.visit_leaf hpart
  | unary index op body ih =>
      have ih := ih (Tree.body_mem_subtrees hpart)
      by_cases hlive : .instant time.start ≤ (Tree.unary index op body).horizon
      · cases op with
        | give =>
            exact of_eq (give index body time hpart hlive (ih time)) fun _ =>
              h.visit_give hpart hlive
        | truncate date =>
            exact of_eq (truncate index date body time hpart hlive (ih time)) fun _ =>
              h.visit_truncate hpart hlive
        | scale factor =>
            cases factor with
            | constant n =>
                exact of_eq (constant index n body time hpart hlive (ih time)) fun _ =>
                  h.visit_constant hpart hlive
            | observable o =>
                rcases (h.knows _ hpart).observable o rfl with ⟨ordinal, hordinal, hplace⟩
                exact of_eq (observable index o body time ordinal hpart hordinal hplace hlive (ih time))
                  fun _ => h.visit_observable hpart hordinal hlive
        | get =>
            -- without a horizon there is no time to get the sub-contract at
            cases hhorizon : body.horizon with
            | unbounded =>
                exact of_eq (never index body time hpart hhorizon) fun _ =>
                  h.visit_get_unbounded hpart hhorizon
            | instant horizon =>
                have hle : Time.instant time.start ≤ .instant horizon := hhorizon ▸ hlive
                have hstart := Time.instant_le_instant.mp hle
                exact of_eq (get index body time horizon hpart hhorizon hstart (ih _)) fun _ =>
                  h.visit_get_instant hpart hhorizon hstart
        | anytime =>
            rcases h.exists_offersAt hpart hlive with ⟨ordinal, options, hoffers⟩
            exact of_eq (anytime index body time ordinal options hpart hoffers hlive ih) fun _ =>
              h.visit_anytime hpart hoffers hlive
      · exact of_eq (expired _ time hpart (not_le.mp hlive)) fun _ =>
          h.visit_expired hpart (not_le.mp hlive)
  | binary index op first second ih₁ ih₂ =>
      have ih₁ := ih₁ (Tree.first_mem_subtrees hpart) time
      have ih₂ := ih₂ (Tree.second_mem_subtrees hpart) time
      by_cases hlive : .instant time.start ≤ (Tree.binary index op first second).horizon
      · -- one of the sub-contracts at least has not expired
        have hsecond : first.horizon < .instant time.start → .instant time.start ≤ second.horizon :=
          fun hlate => (le_max_iff.mp hlive).resolve_left (not_le.mpr hlate)
        cases op with
        | and =>
            exact of_eq (and index first second time hpart hlive ih₁ ih₂) fun _ =>
              h.visit_and hpart hlive
        | andThen =>
            by_cases hlate : first.horizon < .instant time.start
            · refine of_eq (afterwards index first second time hpart hlate (hsecond hlate) ih₂) ?_
              intro values
              rw [h.visit_andThen hpart hlive, if_pos hlate]
            · refine of_eq (inTurn index first second time hpart (not_lt.mp hlate) ih₁) ?_
              intro values
              rw [h.visit_andThen hpart hlive, if_neg hlate]
        | or =>
            -- the first branch is looked at first, and the second only if that has not expired
            rcases (h.knows _ hpart).or rfl with ⟨ordinal, hordinal, hplace⟩
            by_cases hlate : first.horizon < .instant time.start
            · refine of_eq (orSecond index first second time ordinal hpart hordinal hplace hlate
                (hsecond hlate) ih₂) ?_
              intro values
              rw [h.visit_or hpart hordinal hlive, if_pos hlate]
            · by_cases hlate' : second.horizon < .instant time.start
              · refine of_eq (orFirst index first second time ordinal hpart hordinal hplace
                  (not_lt.mp hlate) hlate' ih₁) ?_
                intro values
                rw [h.visit_or hpart hordinal hlive, if_neg hlate, if_pos hlate']
              · refine of_eq (or index first second time ordinal hpart hordinal hplace
                  (not_lt.mp hlate) (not_lt.mp hlate') ih₁ ih₂) ?_
                intro values
                rw [h.visit_or hpart hordinal hlive, if_neg hlate, if_neg hlate']
      · exact of_eq (expired _ time hpart (not_le.mp hlive)) fun _ =>
          h.visit_expired hpart (not_le.mp hlive)

end Compiled.Sound

end ContractAlgebra
