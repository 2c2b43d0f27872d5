import ContractAlgebra.CommandLine.Program
import ContractAlgebra.Contract.Arena
import ContractAlgebra.Ledger.Offer
import ContractAlgebra.Ledger.Slot
import ContractAlgebra.Ledger.Snapshot
import ContractAlgebra.Main
import ContractAlgebra.Proofs.Address.Packing
import ContractAlgebra.Proofs.Bytecode.Extraneous
import ContractAlgebra.Proofs.Bytecode.Locality
import ContractAlgebra.Proofs.Bytecode.Outcome
import ContractAlgebra.Proofs.Bytecode.Respelling
import ContractAlgebra.Proofs.Bytecode.Sections
import ContractAlgebra.Proofs.Bytecode.Surrogates
import ContractAlgebra.Proofs.Bytecode.WriteBack
import ContractAlgebra.Proofs.Compiled.Dates
import ContractAlgebra.Proofs.Compiled.Ordinals
import ContractAlgebra.Proofs.Compiled.Parts
import ContractAlgebra.Proofs.Compiled.Renumbering
import ContractAlgebra.Proofs.Contract.Arena
import ContractAlgebra.Proofs.Contract.Dates
import ContractAlgebra.Proofs.Contract.Descent
import ContractAlgebra.Proofs.Contract.NormalForm
import ContractAlgebra.Proofs.Contract.Spacing
import ContractAlgebra.Proofs.Contract.Unanswered
import ContractAlgebra.Proofs.Contract.Verdict
import ContractAlgebra.Proofs.Ledger.Agreement
import ContractAlgebra.Proofs.Ledger.Branches
import ContractAlgebra.Proofs.Ledger.Delimiting
import ContractAlgebra.Proofs.Ledger.Offer
import ContractAlgebra.Proofs.Settings
import ContractAlgebra.Proofs.StepThrough.Choices
import ContractAlgebra.Proofs.StepThrough.Clock
import ContractAlgebra.Proofs.StepThrough.Constancy
import ContractAlgebra.Proofs.StepThrough.InTime
import ContractAlgebra.Proofs.StepThrough.Instant
import ContractAlgebra.Proofs.StepThrough.Offer
import ContractAlgebra.Proofs.StepThrough.Partition
import ContractAlgebra.Proofs.StepThrough.Refusal
import ContractAlgebra.Proofs.StepThrough.Renumbering
import ContractAlgebra.Proofs.StepThrough.Rewind
import ContractAlgebra.Proofs.StepThrough.Safety
import ContractAlgebra.Proofs.StepThrough.Session
import ContractAlgebra.Proofs.StepThrough.Stored
import ContractAlgebra.Proofs.SuccessorMap
import ContractAlgebra.Proofs.Time.Boundaries
import ContractAlgebra.Proofs.Time.Gregorian
import ContractAlgebra.Proofs.Valuation.Rendering
import ContractAlgebra.Proofs.Valuation.Replays
import ContractAlgebra.Proofs.Valuation.Substitution
