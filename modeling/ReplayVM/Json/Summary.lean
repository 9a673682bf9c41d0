import ReplayVM.Codec.Program
import ReplayVM.Json.Execution
import ReplayVM.Json.Failure
import ReplayVM.Json.Receipt
import ReplayVM.Receipt.Prove
import ReplayVM.Witness.Root

/-!
# JSON summaries

What is shown of programs, sessions and receipts where their full forms would be too long: digests
stand for memories and seals.

## Main definitions

* `Program.summary`, `Segment.summary`, `Session.summary`, `Continuation.summary`.
* `Row.summary`, `SegmentReceipt.summary`, `SuccinctReceipt.summary`.
-/

namespace ReplayVM

open Form

/-- `"ok"`, or the JSON of an error. -/
def Failure.verdict {ε : Type} [Failure ε] : Except ε Unit → Json
  | .ok () => .str "ok"
  | .error e => Failure.toJson e

/-- The registers at some indices, by index. -/
def summaryOfRegs (regs : Vector UInt32 32) (indices : List (Fin 32)) : Json :=
  .obj (indices.map fun i => (toString i.val, word.write regs[i]))

/-! ### Programs and sessions -/

/-- A program, with the commitments to its initial state and its encoding. -/
def Program.summary (p : Program) : Json :=
  let encoded := Program.format.encode p
  .obj [("entry_pc", word.write p.entry), ("entry_state", Digest.form.write p.entryState),
    ("config_digest", Digest.form.write p.configDigest),
    ("root", Digest.form.write p.memory.root), ("resident", size.write p.memory.residentBytes),
    ("metadata", ProgramInfo.form.write p.info),
    ("initial_commitment", Digest.form.write p.initialState.commitment),
    ("sp", word.write (p.initialMachine.cpu.reg .sp)),
    ("integrity", Failure.verdict p.checkIntegrity), ("encoded_len", size.write encoded.length),
    ("encoded_sha256", Digest.form.write (Digest.hash encoded))]

/-- A segment, with the start of its trace, if the space of its witness fits its word. -/
def Segment.summary (s : Segment) : Option Json := do
  let estimate ← s.witnessEstimate
  return .obj [("index", word.write s.index), ("start", Digest.form.write s.startCommitment),
    ("end", Digest.form.write s.endCommitment), ("count", word.write s.instructionCount),
    ("exit", ExitCode.form.write s.exitCode),
    ("output_digest", Digest.form.write s.outputDigest),
    ("start_pc", word.write s.trace.startCpu.pc),
    ("start_root", Digest.form.write s.trace.startMemory.root),
    ("start_output_len", word.write s.trace.startOutput.len),
    ("replies", (list HostReply.pairForm).write s.trace.hostReplies),
    ("resident", size.write s.trace.residentBytes), ("estimate", long.write estimate)]

/-- A paused machine. -/
def Continuation.summary (c : Continuation) : Json :=
  .obj [("next_index", word.write c.nextSegmentIndex),
    ("commitment", Digest.form.write c.commitment), ("pc", word.write c.cpu.pc),
    ("output_len", word.write c.output.len), ("memory_bits", word.write c.memory.memoryBits)]

/-- A session with its segments. -/
def Session.summary (s : Session) : Option Json := do
  let segments ← s.segments.mapM Segment.summary
  return .obj [("segments", .list segments),
    ("exit", ExitCode.form.write s.info.exitCode), ("exit_text", .str s.info.exitCode.message),
    ("output_digest", Digest.form.write s.info.outputDigest),
    ("journal", bytes.write s.info.journal), ("segment_count", word.write s.info.segmentCount),
    ("total_cycles", long.write s.info.totalCycles),
    ("check_exit", Failure.verdict s.checkExit),
    ("continuation", (s.continuation.map Continuation.summary).getD .null)]

/-! ### Receipts -/

/-- A word that was read, with the length of its path. -/
def FetchWitness.summary (f : FetchWitness) : Json :=
  .list [word.write f.addr, word.write f.value, size.write f.path.siblings.length]

/-- A word that was loaded or replaced, with the length of its path. -/
def DataWitness.summary (d : DataWitness) : Json :=
  .list [word.write d.addr, word.write d.old, word.write d.new,
    size.write d.path.siblings.length]

/-- A row, with the registers that are not zero and the two commitments to it. -/
def Row.summary (r : Row) : Json :=
  let used := (List.finRange 32).filter fun i => r.state.regs[i] ≠ 0
  .obj [("pc", word.write r.state.pc), ("regs", summaryOfRegs r.state.regs used),
    ("memory_root", Digest.form.write r.state.memoryRoot),
    ("output_len", word.write r.state.outputLen),
    ("output_digest", Digest.form.write r.state.outputDigest),
    ("fetch", (r.fetch.map FetchWitness.summary).getD .null),
    ("data", (r.data.map DataWitness.summary).getD .null),
    ("host", (option HostReply.pairForm).write r.host),
    ("digest", Digest.form.write r.digest),
    ("commitment", Digest.form.write r.state.commitment)]

/-- The commitments to the rows of a seal, or why there are none. -/
def SegmentReceipt.sealSummary (r : SegmentReceipt) : List (String × Json) :=
  match r.openSeal with
  | .error e => [("seal_error", Failure.toJson e)]
  | .ok s =>
    [("trace_root", Digest.form.write s.traceRoot), ("rows", size.write s.rows.length),
      ("row_digests_sha256", Digest.form.write
        (Digest.hash (s.rows.flatMap fun row => row.digest.toBytes)))]

/-- The receipt of a segment. -/
def SegmentReceipt.summary (r : SegmentReceipt) : Json :=
  .obj ([("claim", SegmentClaim.form.write r.claim),
    ("claim_digest", Digest.form.write r.claim.digest),
    ("seal_len", size.write r.sealBytes.length),
    ("seal_digest", Digest.form.write r.sealDigest)] ++ r.sealSummary)

/-- A succinct receipt. -/
def SuccinctReceipt.summary (r : SuccinctReceipt) : Json :=
  .obj [("claim", SuccinctClaim.form.write r.claim),
    ("claim_digest", Digest.form.write r.claim.digest), ("seal", bytes.write r.sealBytes),
    ("depth", word.write r.depth), ("control_id", Digest.form.write r.controlId),
    ("span", SegmentSpan.form.write r.span), ("span_end", size.write r.span.stop)]

end ReplayVM
