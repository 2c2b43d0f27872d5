import ContractAlgebra.Text.Numeral

/-!
# Points in time

Times are counted in whole seconds from the start of 1970. Beyond all of them lies one unbounded
time, so times are linearly ordered with a greatest element and no least one.
-/

namespace ContractAlgebra

/-- A point in time: an instant, given by its seconds since the start of 1970, or the unbounded
time that is later than every instant. -/
inductive Time where
  | instant (seconds : Int)
  | unbounded
  deriving DecidableEq, Repr

namespace Time

/-- No instant is later than the unbounded time. -/
protected def le : Time → Time → Prop
  | _, unbounded => True
  | unbounded, instant _ => False
  | instant s, instant t => s ≤ t

instance : LE Time := ⟨Time.le⟩

instance : LT Time := ⟨fun s t => ¬ t ≤ s⟩

instance decidableLE : (s t : Time) → Decidable (s ≤ t)
  | _, unbounded => .isTrue trivial
  | unbounded, instant _ => .isFalse id
  | instant s, instant t => inferInstanceAs (Decidable (s ≤ t))

instance decidableLT (s t : Time) : Decidable (s < t) :=
  inferInstanceAs (Decidable (¬ t ≤ s))

instance : Min Time := ⟨fun s t => if s ≤ t then s else t⟩

instance : Max Time := ⟨fun s t => if s ≤ t then t else s⟩

/-- How the first of two times lies to the second. -/
protected def compare (s t : Time) : Ordering :=
  if s < t then .lt else if t < s then .gt else .eq

/-- Whether a time is short enough to be written. -/
def isShort : Time → Bool
  | instant s => Text.isShort s
  | unbounded => true

/-- The seconds of an instant, or `inf`. -/
def text? : Time → Option String
  | instant s => Text.decimal? s
  | unbounded => some "inf"

/-- The seconds of an instant, or `None`. -/
def shown? : Time → Option String
  | instant s => Text.decimal? s
  | unbounded => some "None"

/-! ## Order -/

@[simp] theorem le_unbounded (t : Time) : t ≤ unbounded := by
  cases t <;> exact trivial

@[simp] theorem instant_le_instant {s t : Int} : instant s ≤ instant t ↔ s ≤ t := Iff.rfl

@[simp] theorem not_unbounded_le {t : Int} : ¬ unbounded ≤ instant t := id

theorem lt_iff_not_le {s t : Time} : s < t ↔ ¬ t ≤ s := Iff.rfl

@[simp] theorem instant_lt_instant {s t : Int} : instant s < instant t ↔ s < t := by
  simp [lt_iff_not_le]

/-- A time that an instant does not reach is at least one second later. -/
theorem instant_succ_le {t : Int} {stop : Time} (reach : instant t ≤ stop)
    (differ : stop ≠ instant t) : instant (t + 1) ≤ stop := by
  cases stop with
  | unbounded => simp
  | instant s =>
    have : s ≠ t := fun same => differ (congrArg instant same)
    simp only [instant_le_instant] at reach ⊢
    omega

end Time

end ContractAlgebra
