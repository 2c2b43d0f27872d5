import ContractAlgebra.Proofs.StepThrough.Visit
import Mathlib.Data.Set.Defs

/-!
# What a contract can be worth

`Tree.worth` is the meaning of a contract: the set of amounts that it can come to when it is
acquired at some time. An `anytime` ranges over every instant here, not over slices. Between two
times that no boundary parts the worth does not change (`Tree.worth_alike`), which is why a walk
needs to look at the starts of slices only.
-/

namespace ContractAlgebra

/-- The number that a factor stands for. -/
def Factor.value (assigned : Observable → Int) : Factor → Int
  | constant n => n
  | observable o => assigned o

namespace Tree

variable {ι : Type}

/-- The amounts that a contract acquired at some time can come to, if each observable has its
assigned value. -/
def worth (assigned : Observable → Int) (tree : Tree ι) (t : Int) : Set Int :=
  if tree.horizon < .instant t then {0}
  else match tree with
    | leaf _ op => {op.amount}
    | unary _ op body =>
      match op with
      | .give => {x | ∃ y ∈ body.worth assigned t, -y = x}
      | .scale factor => {x | ∃ y ∈ body.worth assigned t, factor.value assigned * y = x}
      | .truncate _ => body.worth assigned t
      | .get =>
        match body.horizon with
        | .instant horizon => body.worth assigned horizon
        | .unbounded => {0}
      | .anytime => {x | ∃ t', t ≤ t' ∧ .instant t' ≤ body.horizon ∧ x ∈ body.worth assigned t'}
    | binary _ op first second =>
      match op with
      | .and => {x | ∃ y ∈ first.worth assigned t, ∃ z ∈ second.worth assigned t, y + z = x}
      | .andThen =>
        if .instant t ≤ first.horizon then first.worth assigned t else second.worth assigned t
      | .or =>
        {x | .instant t ≤ first.horizon ∧ x ∈ first.worth assigned t ∨
          .instant t ≤ second.horizon ∧ x ∈ second.worth assigned t}

variable {assigned : Observable → Int} {t t' : Int}

/-- An expired contract is worth nothing. -/
theorem worth_expired {tree : Tree ι} (h : tree.horizon < .instant t) :
    tree.worth assigned t = {0} := by
  unfold worth
  exact if_pos h

/-! ## The worth of a contract that has not expired -/

section Live

variable {index : ι} {body first second : Tree ι}

/-- A leaf never expires. -/
theorem worth_leaf (op : Leaf) : (leaf index op).worth assigned t = {op.amount} :=
  if_neg (Time.not_unbounded_lt (.instant t))

/-- What is given away counts the other way. -/
theorem worth_give (h : .instant t ≤ (unary index .give body).horizon) :
    (unary index .give body).worth assigned t = {x | ∃ y ∈ body.worth assigned t, -y = x} :=
  if_neg (not_lt.mpr h)

/-- A factor applies to every amount. -/
theorem worth_scale {factor : Factor}
    (h : .instant t ≤ (unary index (.scale factor) body).horizon) :
    (unary index (.scale factor) body).worth assigned t =
      {x | ∃ y ∈ body.worth assigned t, factor.value assigned * y = x} :=
  if_neg (not_lt.mpr h)

/-- A truncation does not change what a live contract is worth. -/
theorem worth_truncate {date : UInt32}
    (h : .instant t ≤ (unary index (.truncate date) body).horizon) :
    (unary index (.truncate date) body).worth assigned t = body.worth assigned t :=
  if_neg (not_lt.mpr h)

/-- What is got at no time is worth nothing. -/
theorem worth_get_unbounded (h : body.horizon = .unbounded) :
    (unary index .get body).worth assigned t = {0} := by
  have hlive : Time.instant t ≤ body.horizon := h ▸ Time.le_unbounded _
  refine (if_neg (not_lt.mpr hlive)).trans ?_
  simp only [h]

/-- What is got is worth what it is at the horizon. -/
theorem worth_get_instant {horizon : Int} (h : body.horizon = .instant horizon) (ht : t ≤ horizon) :
    (unary index .get body).worth assigned t = body.worth assigned horizon := by
  have hlive : Time.instant t ≤ body.horizon := h ▸ Time.instant_le_instant.mpr ht
  refine (if_neg (not_lt.mpr hlive)).trans ?_
  simp only [h]

/-- Any time up to the horizon can be waited for. -/
theorem worth_anytime (h : .instant t ≤ (unary index .anytime body).horizon) :
    (unary index .anytime body).worth assigned t =
      {x | ∃ t', t ≤ t' ∧ .instant t' ≤ body.horizon ∧ x ∈ body.worth assigned t'} :=
  if_neg (not_lt.mpr h)

/-- The amounts of both parts add up in all ways. -/
theorem worth_and (h : .instant t ≤ max first.horizon second.horizon) :
    (binary index .and first second).worth assigned t =
      {x | ∃ y ∈ first.worth assigned t, ∃ z ∈ second.worth assigned t, y + z = x} :=
  if_neg (not_lt.mpr h)

/-- The second part counts once the first has expired. -/
theorem worth_andThen (h : .instant t ≤ max first.horizon second.horizon) :
    (binary index .andThen first second).worth assigned t =
      if .instant t ≤ first.horizon then first.worth assigned t else second.worth assigned t :=
  if_neg (not_lt.mpr h)

/-- Either branch that has not expired can be taken. -/
theorem worth_or (h : .instant t ≤ max first.horizon second.horizon) :
    (binary index .or first second).worth assigned t =
      {x | .instant t ≤ first.horizon ∧ x ∈ first.worth assigned t ∨
        .instant t ≤ second.horizon ∧ x ∈ second.worth assigned t} :=
  if_neg (not_lt.mpr h)

end Live

/-! ## Times that are alike -/

/-- An `anytime` can wait for a time that is like the present one. -/
theorem exists_worth_of_alike {body : Tree ι}
    (ih : ∀ t t', body.Alike t t' → body.worth assigned t = body.worth assigned t')
    (h : body.Alike t t') (hlive : .instant t' ≤ body.horizon) {x : Int}
    (hx : ∃ u, t ≤ u ∧ .instant u ≤ body.horizon ∧ x ∈ body.worth assigned u) :
    ∃ u, t' ≤ u ∧ .instant u ≤ body.horizon ∧ x ∈ body.worth assigned u := by
  rcases hx with ⟨u, htu, hu, hmem⟩
  -- a moment between the two times is like the later one, so that may be taken instead
  by_cases hle : t' ≤ u
  · exact ⟨u, hle, hu, hmem⟩
  · have hbetween := h.between htu (by omega)
    exact ⟨t', le_refl _, hlive, ih u t' hbetween ▸ hmem⟩

/-- A contract is worth the same at times that no boundary parts. -/
theorem worth_alike {tree : Tree ι} (h : tree.Alike t t') :
    tree.worth assigned t = tree.worth assigned t' := by
  -- the horizon is passed at both times or at neither, and each combinator hands the times on
  induction tree generalizing t t' with
  | leaf index op => rw [worth_leaf, worth_leaf]
  | unary index op body ih =>
      by_cases hlive : .instant t ≤ (unary index op body).horizon
      · have hlive' := h.le_horizon.mp hlive
        cases op with
        | give => rw [worth_give hlive, worth_give hlive', ih h]
        | scale factor => rw [worth_scale hlive, worth_scale hlive', ih h]
        | truncate date =>
            rw [worth_truncate hlive, worth_truncate hlive']
            exact ih (h.truncate hlive)
        | get =>
            -- whenever it is acquired, it is worth what it is at the horizon
            cases hhorizon : body.horizon with
            | unbounded => rw [worth_get_unbounded hhorizon, worth_get_unbounded hhorizon]
            | instant horizon =>
                have hle : Time.instant t ≤ .instant horizon := hhorizon ▸ hlive
                have hle' : Time.instant t' ≤ .instant horizon := hhorizon ▸ hlive'
                rw [worth_get_instant hhorizon (Time.instant_le_instant.mp hle),
                  worth_get_instant hhorizon (Time.instant_le_instant.mp hle')]
        | anytime =>
            rw [worth_anytime hlive, worth_anytime hlive']
            ext x
            exact ⟨exists_worth_of_alike (fun _ _ => ih) h hlive',
              exists_worth_of_alike (fun _ _ => ih) h.symm hlive⟩
      · have hlive' := mt h.le_horizon.mpr hlive
        rw [worth_expired (not_le.mp hlive), worth_expired (not_le.mp hlive')]
  | binary index op first second ih₁ ih₂ =>
      by_cases hlive : .instant t ≤ (binary index op first second).horizon
      · have hlive' := h.le_horizon.mp hlive
        cases op with
        | and =>
            rw [worth_and hlive, worth_and hlive', ih₁ h.first, ih₂ (h.second (by simp))]
        | or =>
            rw [worth_or hlive, worth_or hlive', ih₁ h.first, ih₂ (h.second (by simp))]
            simp only [h.first.le_horizon, (h.second (by simp)).le_horizon]
        | andThen =>
            rw [worth_andThen hlive, worth_andThen hlive']
            by_cases hfirst : .instant t ≤ first.horizon
            · rw [if_pos hfirst, if_pos (h.first.le_horizon.mp hfirst), ih₁ h.first]
            · -- the times need to be alike for the second part only now
              rw [if_neg hfirst, if_neg (mt h.first.le_horizon.mpr hfirst),
                ih₂ (h.second_of_lt (not_le.mp hfirst))]
      · have hlive' := mt h.le_horizon.mpr hlive
        rw [worth_expired (not_le.mp hlive), worth_expired (not_le.mp hlive')]

end Tree

end ContractAlgebra
