import ReplayVM.Codec.Memory
import ReplayVM.Execution.Session

/-!
# Formats of execution

The binary forms of options, segments and sessions: their fields in a row, counted lists for
journals and answers of the host.
-/

namespace ReplayVM

open Format

/-- The five options. -/
def ExecutionOptions.format : Format ExecutionOptions :=
  (uint32.pair (uint64.pair (uint32.pair (uint64.pair bool)))).iso
    (fun (limit, cycles, pages, input, log) => ⟨limit, cycles, pages, input, log⟩)
    (fun o => (o.segmentLimit, o.maxCycles, o.maxSegmentPages, o.maxInputSize, o.logStep))

/-- The machine at the start of a segment, and the answers of the host. -/
def Trace.format : Format Trace :=
  (Cpu.format.pair (Memory.format.pair (Output.format.pair (list HostReply.format)))).iso
    (fun (cpu, memory, output, replies) => ⟨cpu, memory, output, replies⟩)
    (fun t => (t.startCpu, t.startMemory, t.startOutput, t.hostReplies))

/-- What a segment states, then its trace. -/
def Segment.format : Format Segment :=
  (uint32.pair (Digest.format.pair (Digest.format.pair (uint32.pair (ExitCode.format.pair
    (Digest.format.pair (Params.format.pair (Digest.format.pair Trace.format)))))))).iso
    (fun (index, start, stop, count, exit, output, params, config, trace) =>
      ⟨index, start, stop, count, exit, output, params, config, trace⟩)
    (fun s => (s.index, s.startCommitment, s.endCommitment, s.instructionCount, s.exitCode,
      s.outputDigest, s.params, s.configDigest, s.trace))

/-- The fields of a summary. -/
def SessionInfo.format : Format SessionInfo :=
  (ExitCode.format.pair (Digest.format.pair (bytes.pair (uint32.pair uint64)))).iso
    (fun (exit, output, journal, count, cycles) => ⟨exit, output, journal, count, cycles⟩)
    (fun i => (i.exitCode, i.outputDigest, i.journal, i.segmentCount, i.totalCycles))

/-- The fields of a paused machine. -/
def Continuation.format : Format Continuation :=
  (Params.format.pair (Cpu.format.pair (Memory.format.pair (Output.format.pair
    (bytes.pair uint32))))).iso
    (fun (params, cpu, memory, output, journal, next) =>
      ⟨params, cpu, memory, output, journal, next⟩)
    (fun c => (c.params, c.cpu, c.memory, c.output, c.journal, c.nextSegmentIndex))

end ReplayVM
