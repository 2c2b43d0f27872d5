import ContractAlgebra.Proofs.StepThrough.Brevity
import ContractAlgebra.Proofs.StepThrough.Clock
import ContractAlgebra.Proofs.StepThrough.Partition

/-!
# Instants as answers

An instant in place of a slice stands for the first slice on offer that holds it. The slices on offer
follow one another without a gap, so an instant is refused only outside the time that they cover
(`Session.instant_taken_iff`). For the acquisition of the whole contract this is the time before 0, as
the slices of the past are accepted there in any case; they come last, so that an instant that is not
past stands for a slice that is not past either. For an `anytime` it is the time before the
acquisition in force there and after the horizon of its sub-contract.

An instant that is not refused is recorded, but the call fails if the slice that it stands for cannot
be logged. That is one that starts now, when the clock shows a number that is too long.
-/

namespace ContractAlgebra.Session

open Slices

variable {session : Session} {compiled : Compiled} {clock : Clock} {decision : Decision} {t : Int}
  {times : List Slice}

/-- Where the clock shows a time that is too long, this time is not before 0, but the call fails. -/
example : (oneFresh.set (.time Text.tooLong) fun _ => Text.tooLong).1 = .error .numberTooLong := by
  decide +kernel

end ContractAlgebra.Session
