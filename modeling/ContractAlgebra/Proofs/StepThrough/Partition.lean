import ContractAlgebra.Proofs.StepThrough.Order

/-!
# Times on offer are a partition

Where a time is to be decided, the slices on offer follow one another without a gap. For the whole
contract they reach from the present, or from time 0, on without end; for an `anytime` they reach
from the acquisition in force there up to the horizon of its sub-contract, and then there are at
least two (`Session.options_partition_time`).
-/

namespace ContractAlgebra.Session

/-- A contract that is read compiles. At any time the slices for its acquisition partition all time
from the present on, or from 0 with the past, and each lies in one of the contract's own slices or
after the horizon. In every session with this contract, the options of a pending `anytime` partition
the time from the acquisition in force there up to the horizon of the sub-contract. -/
theorem options_partition_time {text : String} {parsed : Parsed} (hparse : parse text = .ok parsed) :
    ∃ compiled, compile text = .ok compiled ∧ compiled.parsed = parsed ∧
      (∀ now includePast, ∃ options, compiled.topOptions now includePast = .ok options ∧
        Slices.Partition (if includePast then 0 else max now 0) .unbounded options ∧
        ∀ option ∈ options, (∃ range ∈ compiled.slices.ranges, option.Within range) ∨
          compiled.horizon < .instant option.start) ∧
      ∀ session : Session, session.Reachable → session.compiled = some compiled →
        ∀ now includePast values replay decision,
          session.replay now includePast values = .ok replay → replay.pending = some decision →
            decision.kind = .anytime → ∃ index body acquired options,
              compiled.OffersAnytime replay.recorded decision index body acquired options := by
  obtain ⟨compiled, hcompile, rfl, hsound⟩ := Compiled.sound_of_parse hparse
  refine ⟨compiled, hcompile, rfl, ?_, ?_⟩
  · intro now includePast
    obtain ⟨current, later, hoptions, htiles, hcurrent, hlater⟩ :=
      Compiled.exists_topOptions_eq hsound now includePast
    refine ⟨current ++ later, hoptions, htiles.partition, ?_⟩
    intro option hoption
    rcases List.mem_append.mp hoption with hoption | hoption
    · exact Or.inl (hcurrent option hoption)
    · exact Or.inr (hlater option hoption)
  · intro session hreachable hcompiled now includePast values replay decision hreplay hpending
    -- what is pending was expected, and a pending `anytime` offers a partition
    have horder := hreachable.orderly.replay hreachable.replays hcompiled hreplay
    exact (horder.2 decision hpending).2.anytime

/-- A contract with an `anytime` that can be acquired in two slices. -/
def twoSlicesText : String :=
  "anytime or truncate 5 one one"

/-- What is read from that text. -/
def twoSlices : Parsed where
  atoms := ["anytime", "or", "truncate", "5", "one", "one"]
  tree := .unary 0 .anytime (.binary 1 .or (.unary 2 (.truncate 5) (.leaf 4 .one)) (.leaf 5 .one))

/-- That contract, acquired in the first of them, waits for the time of the `anytime`. -/
def twoSlicesAcquired : Session :=
  (start .default).afterAll [(fun _ => 0, .setContract twoSlicesText), (fun _ => 2, .set (.time 3))]

/-- It was acquired from 2 to 5, and at 7 it still offers both slices. -/
theorem options_partition_time_of_twoSlices :
    let early : Slice := ⟨2, .instant 5, by decide⟩
    let decision : Decision := ⟨.anytime, [.slice early, .slice (.onwards 6)], 0, 0⟩
    parse twoSlicesText = .ok twoSlices ∧ twoSlicesAcquired.Reachable ∧
      twoSlicesAcquired.replay 7 none noValues =
        .ok ⟨[acquisition early], some decision, none⟩ ∧
      ∃ compiled, compile twoSlicesText = .ok compiled ∧
        twoSlicesAcquired.compiled = some compiled ∧ ∃ index body acquired options,
          compiled.OffersAnytime [acquisition early] decision index body acquired options := by
  intro early decision
  have hparse : parse twoSlicesText = .ok twoSlices := by rfl
  have hreachable : twoSlicesAcquired.Reachable := ⟨_, _, rfl⟩
  have hreplay : twoSlicesAcquired.replay 7 none noValues =
      .ok ⟨[acquisition early], some decision, none⟩ := by rfl
  obtain ⟨compiled, hcompile, _, _, hsessions⟩ := options_partition_time hparse
  have hcompiled : twoSlicesAcquired.compiled = some compiled := by
    have hsome : (compile twoSlicesText).toOption = twoSlicesAcquired.compiled := by rfl
    rw [← hsome, hcompile]
    rfl
  have hoffers := hsessions _ hreachable hcompiled 7 none noValues _ decision hreplay rfl rfl
  exact ⟨hparse, hreachable, hreplay, compiled, hcompile, hcompiled, hoffers⟩

end ContractAlgebra.Session
