import ReplayVM.Execution.Session
import ReplayVM.Json.Program

/-!
# JSON forms of execution

The forms of options, segments and sessions. Options that are left out have their defaults.
-/

namespace ReplayVM

open Form

/-- The five options, by name. -/
def ExecutionOptions.form : Form ExecutionOptions :=
  let base : ExecutionOptions := {}
  ((Fields.oneD "segment_limit" word base.segmentLimit).and
    ((Fields.oneD "max_cycles" long base.maxCycles).and
    ((Fields.oneD "max_segment_pages" word base.maxSegmentPages).and
    ((Fields.oneD "max_input_size" long base.maxInputSize).and
    (Fields.oneD "log_step" bool base.logStep))))).form
    (fun (limit, cycles, pages, input, log) => ⟨limit, cycles, pages, input, log⟩)
    (fun o => (o.segmentLimit, o.maxCycles, o.maxSegmentPages, o.maxInputSize, o.logStep))

/-- The machine at the start of a segment, and the answers of the host. -/
def Trace.form (bytes : Form Bytes) : Form Trace :=
  ((Fields.one "start_cpu" Cpu.form).and ((Fields.one "start_memory" (Memory.form bytes)).and
    ((Fields.one "start_output" Output.form).and
    (Fields.one "host_replies" (list HostReply.form))))).form
    (fun (cpu, memory, output, replies) => ⟨cpu, memory, output, replies⟩)
    (fun t => (t.startCpu, t.startMemory, t.startOutput, t.hostReplies))

/-- What a segment states, and its trace. -/
def Segment.form (bytes : Form Bytes) : Form Segment :=
  ((Fields.one "index" word).and ((Fields.one "start_commitment" Digest.form).and
    ((Fields.one "end_commitment" Digest.form).and ((Fields.one "instruction_count" word).and
    ((Fields.one "exit_code" ExitCode.form).and ((Fields.one "output_digest" Digest.form).and
    ((Fields.one "params" Params.form).and ((Fields.one "config_digest" Digest.form).and
    (Fields.one "trace" (Trace.form bytes)))))))))).form
    (fun (index, start, stop, count, exit, output, params, config, trace) =>
      ⟨index, start, stop, count, exit, output, params, config, trace⟩)
    (fun s => (s.index, s.startCommitment, s.endCommitment, s.instructionCount, s.exitCode,
      s.outputDigest, s.params, s.configDigest, s.trace))

/-- The fields of a summary. -/
def SessionInfo.form (bytes : Form Bytes) : Form SessionInfo :=
  ((Fields.one "exit_code" ExitCode.form).and ((Fields.one "output_digest" Digest.form).and
    ((Fields.one "journal" bytes).and ((Fields.one "segment_count" word).and
    (Fields.one "total_cycles" long))))).form
    (fun (exit, output, journal, count, cycles) => ⟨exit, output, journal, count, cycles⟩)
    (fun i => (i.exitCode, i.outputDigest, i.journal, i.segmentCount, i.totalCycles))

/-- The fields of a paused machine. -/
def Continuation.form (bytes : Form Bytes) : Form Continuation :=
  ((Fields.one "params" Params.form).and ((Fields.one "cpu" Cpu.form).and
    ((Fields.one "memory" (Memory.form bytes)).and ((Fields.one "output" Output.form).and
    ((Fields.one "journal" bytes).and (Fields.one "next_segment_index" word)))))).form
    (fun (params, cpu, memory, output, journal, next) =>
      ⟨params, cpu, memory, output, journal, next⟩)
    (fun c => (c.params, c.cpu, c.memory, c.output, c.journal, c.nextSegmentIndex))

end ReplayVM
