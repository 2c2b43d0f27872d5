import ContractAlgebra.Time.Basic
import Mathlib.Order.Lattice
import Mathlib.Tactic.Common

/-!
# The order of times

Times are linearly ordered, with the unbounded time on top. The instance makes the lemmas on `min`,
`max` and chains of inequalities apply to times.
-/

namespace ContractAlgebra.Time

protected theorem le_refl (s : Time) : s ≤ s := by
  cases s with
  | instant a => exact Int.le_refl a
  | unbounded => exact trivial

protected theorem le_trans {s t u : Time} (h : s ≤ t) (h' : t ≤ u) : s ≤ u := by
  cases u with
  | unbounded => simp
  | instant c =>
      cases t with
      | unbounded => exact absurd h' not_unbounded_le
      | instant b =>
          cases s with
          | unbounded => exact absurd h not_unbounded_le
          | instant a => exact Int.le_trans h h'

protected theorem le_antisymm {s t : Time} (h : s ≤ t) (h' : t ≤ s) : s = t := by
  cases s with
  | unbounded =>
      cases t with
      | unbounded => rfl
      | instant b => exact absurd h not_unbounded_le
  | instant a =>
      cases t with
      | unbounded => exact absurd h' not_unbounded_le
      | instant b => exact congrArg instant (Int.le_antisymm h h')

protected theorem le_total (s t : Time) : s ≤ t ∨ t ≤ s := by
  cases s with
  | unbounded => exact Or.inr (by simp)
  | instant a =>
      cases t with
      | unbounded => exact Or.inl (by simp)
      | instant b => exact Int.le_total a b

instance : LinearOrder Time where
  le_refl := Time.le_refl
  le_trans _ _ _ := Time.le_trans
  le_antisymm _ _ := Time.le_antisymm
  le_total := Time.le_total
  lt_iff_le_not_ge s t :=
    ⟨fun h => ⟨(Time.le_total s t).resolve_right h, h⟩, fun h => h.2⟩
  toDecidableLE := decidableLE
  toDecidableLT := decidableLT

/-- No time is after the unbounded one. -/
theorem not_unbounded_lt (t : Time) : ¬ unbounded < t := not_lt.mpr (le_unbounded t)

/-- Between two neighbouring instants there is no time. -/
theorem instant_lt_iff {t : Int} {s : Time} : instant t < s ↔ instant (t + 1) ≤ s := by
  cases s with
  | unbounded => simp [lt_iff_not_le]
  | instant a =>
      simp only [instant_lt_instant, instant_le_instant]
      omega

end ContractAlgebra.Time
