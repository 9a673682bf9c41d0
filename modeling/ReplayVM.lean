import ReplayVM.Codec.Execution
import ReplayVM.Codec.Program
import ReplayVM.Codec.Witness
import ReplayVM.Digest.Blake3
import ReplayVM.Elf.Builder
import ReplayVM.Isa.Assembler
import ReplayVM.Isa.Decode
import ReplayVM.Isa.Disassembly
import ReplayVM.Isa.Listing
import ReplayVM.Json.Edit
import ReplayVM.Json.Printer
import ReplayVM.Json.Summary
import ReplayVM.Program.Load
import ReplayVM.Proofs.Bracketings
import ReplayVM.Proofs.BudgetConservation
import ReplayVM.Proofs.BuiltFiles
import ReplayVM.Proofs.BusDiscipline
import ReplayVM.Proofs.ByteMemory
import ReplayVM.Proofs.CheckedLoading
import ReplayVM.Proofs.CheckedReductions
import ReplayVM.Proofs.ClaimBinding
import ReplayVM.Proofs.Commitments
import ReplayVM.Proofs.CycleBudget
import ReplayVM.Proofs.DecodedValues
import ReplayVM.Proofs.ExactFormats
import ReplayVM.Proofs.FlatMemory
import ReplayVM.Proofs.HostReplies
import ReplayVM.Proofs.InstructionWords
import ReplayVM.Proofs.IntegerArithmetic
import ReplayVM.Proofs.JournalChain
import ReplayVM.Proofs.LoadedConstants
import ReplayVM.Proofs.LoadedPrograms
import ReplayVM.Proofs.MadeReceipts
import ReplayVM.Proofs.PaddedRoots
import ReplayVM.Proofs.PagingBudget
import ReplayVM.Proofs.PathAuthentication
import ReplayVM.Proofs.PlanHistories
import ReplayVM.Proofs.ProgramConstruction
import ReplayVM.Proofs.ProgramIdentity
import ReplayVM.Proofs.ProvingSoundness
import ReplayVM.Proofs.ReachableStates
import ReplayVM.Proofs.ScheduleIndependence
import ReplayVM.Proofs.SealBinding
import ReplayVM.Proofs.SealSizes
import ReplayVM.Proofs.SealTampering
import ReplayVM.Proofs.SessionIsolation
import ReplayVM.Proofs.SessionSoundness
import ReplayVM.Proofs.StepFrames
import ReplayVM.Proofs.StoredNodes
import ReplayVM.Proofs.UnreadInput
import ReplayVM.Receipt.Reduce
import ReplayVM.Schedule.Session
import ReplayVM.Step.Log
import ReplayVM.Step.WordMap
