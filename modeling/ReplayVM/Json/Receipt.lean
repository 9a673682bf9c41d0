import ReplayVM.Json.Program
import ReplayVM.Receipt.Verifier

/-!
# JSON forms of witnesses and receipts

The fields of a row stand beside those of its state. A seal inside a receipt is shown as the bytes
that it is; where it decodes, it has a form of its own.
-/

namespace ReplayVM

open Form

/-! ### Witnesses -/

/-- An instruction word with its path. -/
def FetchWitness.form : Form FetchWitness :=
  ((Fields.one "addr" word).and ((Fields.one "value" word).and
    (Fields.one "path" MerklePath.form))).form
    (fun (addr, value, path) => ⟨addr, value, path⟩) (fun f => (f.addr, f.value, f.path))

/-- A data word with its path, before and after the instruction. -/
def DataWitness.form : Form DataWitness :=
  ((Fields.one "addr" word).and ((Fields.one "old" word).and ((Fields.one "new" word).and
    (Fields.one "path" MerklePath.form)))).form
    (fun (addr, old, new, path) => ⟨addr, old, new, path⟩)
    (fun d => (d.addr, d.old, d.new, d.path))

/-- The fields of the state, and what was asked of the bus. -/
def Row.form : Form Row :=
  (SystemState.named.and ((Fields.one "fetch" (option FetchWitness.form)).and
    ((Fields.one "data" (option DataWitness.form)).and
    (Fields.one "host" (option HostReply.form))))).form
    (fun (state, fetch, data, host) => ⟨state, fetch, data, host⟩)
    (fun r => (r.state, r.fetch, r.data, r.host))

/-! ### Segment receipts -/

/-- The fields of a claim. -/
def SegmentClaim.form : Form SegmentClaim :=
  ((Fields.one "config_digest" Digest.form).and ((Fields.one "index" word).and
    ((Fields.one "start_commitment" Digest.form).and
    ((Fields.one "end_commitment" Digest.form).and ((Fields.one "instruction_count" word).and
    ((Fields.one "exit_code" ExitCode.form).and
    (Fields.one "output_digest" Digest.form))))))).form
    (fun (config, index, start, stop, count, exit, output) =>
      ⟨config, index, start, stop, count, exit, output⟩)
    (fun c => (c.configDigest, c.index, c.startCommitment, c.endCommitment, c.instructionCount,
      c.exitCode, c.outputDigest))

/-- Parameters, root and rows. -/
def SegmentSeal.form : Form SegmentSeal :=
  ((Fields.one "params" Params.form).and ((Fields.one "trace_root" Digest.form).and
    (Fields.one "rows" (list Row.form)))).form
    (fun (params, root, rows) => ⟨params, root, rows⟩) (fun s => (s.params, s.traceRoot, s.rows))

/-- The name of a proof system. -/
def ProofSystem.form : Form ProofSystem := names (fun | .traceReplay => "TraceReplayV1")
  [.traceReplay]

/-- Claim, seal and proof system. -/
def SegmentReceipt.form (bytes : Form Bytes) : Form SegmentReceipt :=
  ((Fields.one "claim" SegmentClaim.form).and ((Fields.one "seal" bytes).and
    (Fields.one "proof_system_tag" ProofSystem.form))).form
    (fun (claim, bytes, system) => ⟨claim, bytes, system⟩)
    (fun r => (r.claim, r.sealBytes, r.proofSystem))

/-! ### Succinct receipts -/

/-- An exit and the hash of the journal. -/
def ExitSummary.form : Form ExitSummary :=
  ((Fields.one "exit_code" ExitCode.form).and (Fields.one "output_digest" Digest.form)).form
    (fun (exit, output) => ⟨exit, output⟩) (fun e => (e.exitCode, e.outputDigest))

/-- The fields of a claim. -/
def SuccinctClaim.form : Form SuccinctClaim :=
  ((Fields.one "config_digest" Digest.form).and
    ((Fields.one "start_commitment" Digest.form).and
    ((Fields.one "end_commitment" Digest.form).and (Fields.one "exit" ExitSummary.form)))).form
    (fun (config, start, stop, exit) => ⟨config, start, stop, exit⟩)
    (fun c => (c.configDigest, c.startCommitment, c.endCommitment, c.exit))

/-- The three numbers of a span. -/
def SegmentSpan.form : Form SegmentSpan :=
  ((Fields.one "first" word).and ((Fields.one "count" word).and
    (Fields.one "cycles" long))).form
    (fun (first, count, cycles) => ⟨first, count, cycles⟩) (fun s => (s.first, s.count, s.cycles))

/-- The name of a backend. -/
def RecursionBackend.form : Form RecursionBackend := names (fun | .development => "DevMode")
  [.development]

/-- The fields of a seal. -/
def RecursionSeal.form : Form RecursionSeal :=
  ((Fields.one "backend" RecursionBackend.form).and ((Fields.one "control_id" Digest.form).and
    ((Fields.one "claim_digest" Digest.form).and ((Fields.one "inputs_digest" Digest.form).and
    (Fields.one "binding" Digest.form))))).form
    (fun (backend, control, claim, inputs, binding) => ⟨backend, control, claim, inputs, binding⟩)
    (fun s => (s.backend, s.controlId, s.claimDigest, s.inputsDigest, s.binding))

/-- Claim, seal, depth, control id and span. -/
def SuccinctReceipt.form (bytes : Form Bytes) : Form SuccinctReceipt :=
  ((Fields.one "claim" SuccinctClaim.form).and ((Fields.one "seal" bytes).and
    ((Fields.one "recursion_depth" word).and ((Fields.one "control_id" Digest.form).and
    (Fields.one "span" SegmentSpan.form))))).form
    (fun (claim, bytes, depth, control, span) => ⟨claim, bytes, depth, control, span⟩)
    (fun r => (r.claim, r.sealBytes, r.depth, r.controlId, r.span))

/-- A receipt behind the name of its kind. -/
def Receipt.form (bytes : Form Bytes) : Form Receipt where
  write
    | .segment r => .obj [("Segment", (SegmentReceipt.form bytes).write r)]
    | .succinct r => .obj [("Succinct", (SuccinctReceipt.form bytes).write r)]
  read
    | .object [(some "Segment", j)] => .segment <$> (SegmentReceipt.form bytes).read j
    | .object [(some "Succinct", j)] => .succinct <$> (SuccinctReceipt.form bytes).read j
    | _ => .error .malformed

end ReplayVM
