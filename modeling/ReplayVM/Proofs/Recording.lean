import ReplayVM.Execution.Live
import ReplayVM.Proofs.RowReplay

/-!
# Recorded rows

A machine that is executed again has a recorder behind the bus, which gives the recorded answers of
the host and notes every word with its path. It steps as the running machine did. What it notes is
exactly what the instruction asked for, and the words it notes are in memory, so the noted row is
accepted when it is replayed and leads to the state after the step.

## Main results

* `Playback.step_of_world`: a machine that is executed again steps as the running machine did.
* `Playback.replay_row`: a recorded row is replayed to the state after it.
-/

namespace ReplayVM

namespace Playback

variable {params : Params}

/-- A machine that is executed again steps as the running machine did, when it is given the answers
that the host gave then. -/
theorem step_of_world (params : Params) (m : Machine) (w : World) :
    ∃ new : List HostReply, new.length ≤ 1 ∧
      (m.step World.bus params w).bus.replies = w.replies ++ new.toArray ∧
      (∀ reason, (m.step World.bus params w).result = .error reason → new = []) ∧
      ∀ rest, let r := step params ⟨m, w.memory, new ++ rest⟩
        r.result = (m.step World.bus params w).result ∧
        r.machine = (m.step World.bus params w).machine ∧
        r.bus.memory = (m.step World.bus params w).bus.memory ∧
        r.bus.replies = rest ∧ r.bus.exhausted = false := by
  cases hf : Machine.canFetch params m.cpu.pc with
  | false =>
    refine ⟨[], Nat.zero_le _, by simp [Machine.step_of_not_canFetch hf], fun _ _ => rfl,
      fun rest => ?_⟩
    simp [step, Machine.step_of_not_canFetch hf]
  | true =>
    cases hp : m.plan params (w.memory.loadWord m.cpu.pc) with
    | error reason =>
      have hworld : m.step World.bus params w =
          ⟨.error reason, m, (World.bus.fetch w m.cpu.pc).2⟩ := Machine.step_of_plan_error hf hp
      have hrecord (replies : List HostReply) : step params ⟨m, w.memory, replies⟩ =
          ⟨.error reason, m, (Recorder.fetchWord { memory := w.memory, replies } m.cpu.pc).2⟩ :=
        Machine.step_of_plan_error hf hp
      refine ⟨[], Nat.zero_le _, ?_, fun _ _ => rfl, fun rest => ?_⟩
      · rw [hworld]
        simp [World.bus]
      · rw [hworld, hrecord]
        exact ⟨rfl, rfl, rfl, rfl, rfl⟩
    | ok effect =>
      have hworld : m.step World.bus params w =
          effect.run World.bus (World.bus.fetch w m.cpu.pc).2 := Machine.step_of_plan_ok hf hp
      have hrecord (replies : List HostReply) : step params ⟨m, w.memory, replies⟩ =
          effect.run Recorder.bus (Recorder.fetchWord { memory := w.memory, replies } m.cpu.pc).2 :=
        Machine.step_of_plan_ok hf hp
      rw [hworld]
      simp only [hrecord]
      cases effect with
      | finish outcome next =>
        exact ⟨[], Nat.zero_le _, by simp [Effect.run, World.bus], fun _ _ => rfl,
          fun rest => ⟨rfl, rfl, rfl, rfl, rfl⟩⟩
      | load addr next =>
        exact ⟨[], Nat.zero_le _, by simp [Effect.run, World.bus], fun _ _ => rfl,
          fun rest => ⟨rfl, rfl, rfl, rfl, rfl⟩⟩
      | store addr merge next =>
        exact ⟨[], Nat.zero_le _, by simp [Effect.run, World.bus], fun _ _ => rfl,
          fun rest => ⟨rfl, rfl, rfl, rfl, rfl⟩⟩
      | call request next =>
        exact ⟨[(w.input.answer request).1], Nat.le_refl _, by simp [Effect.run, World.bus],
          fun _ h => by simp [Effect.run] at h, fun rest => ⟨rfl, rfl, rfl, rfl, rfl⟩⟩

/-- A recorded row is replayed to what its instruction gave and to the state after it. -/
theorem replay_row {p : Playback} (hm : p.memory.WellFormedFor params)
    (hanswered : (p.step params).bus.exhausted = false) :
    (p.row (p.step params).bus).replay params =
        .ok ((p.step params).result, .of (p.step params).machine (p.step params).bus.memory.root) ∧
      (p.step params).bus.memory.WellFormedFor params := by
  obtain ⟨m, memory, replies⟩ := p
  cases hf : Machine.canFetch params m.cpu.pc with
  | false =>
    have hstep : step params ⟨m, memory, replies⟩ =
        ⟨.error (.instructionFault m.cpu.pc), m, { memory, replies }⟩ :=
      Machine.step_of_not_canFetch hf
    rw [hstep]
    exact ⟨Row.replay_eq_ok_iff.mpr ⟨rfl, rfl, m, false, memory.root, .outside hf, rfl, rfl⟩, hm⟩
  | true =>
    have hpc := hm.toFits.isWordAddr_of_canFetch hm.toHasLayout hf
    have hfetch := hm.authenticates hpc
    cases hp : m.plan params (memory.loadWord m.cpu.pc) with
    | error reason =>
      have hstep : step params ⟨m, memory, replies⟩ =
          ⟨.error reason, m, (Recorder.fetchWord { memory, replies } m.cpu.pc).2⟩ :=
        Machine.step_of_plan_error hf hp
      rw [hstep]
      exact ⟨Row.replay_eq_ok_iff.mpr
        ⟨hfetch, rfl, m, false, memory.root, .faults hf rfl hp, rfl, rfl⟩, hm⟩
    | ok effect =>
      have hstep : step params ⟨m, memory, replies⟩ =
          effect.run Recorder.bus (Recorder.fetchWord { memory, replies } m.cpu.pc).2 :=
        Machine.step_of_plan_ok hf hp
      rw [hstep] at hanswered ⊢
      cases Machine.proper_of_plan hp with
      | @finish outcome next _ | @write _ next _ _ _ =>
        exact ⟨Row.replay_eq_ok_iff.mpr
          ⟨hfetch, rfl, next, false, memory.root, .finish hf rfl hp, rfl, rfl⟩, hm⟩
      | @load data next hvalid _ =>
        have haddr := hm.toFits.isWordAddr_of_isValidAddr hm.toHasLayout hvalid
        have hdata := hm.authenticates haddr
        refine ⟨Row.replay_eq_ok_iff.mpr ⟨hfetch, hdata, next (memory.loadWord (alignDown data)),
          false, memory.root, ?_, ?_, rfl⟩, hm⟩
        · exact .load (d := ⟨alignDown data, _, _, memory.path (alignDown data)⟩) hf rfl hp
        · exact if_neg (not_not.mpr rfl)
      | @store data merge next hvalid _ =>
        have haddr := hm.toFits.isWordAddr_of_isValidAddr hm.toHasLayout hvalid
        have hdata := hm.authenticates haddr
        have hrow : row ⟨m, memory, replies⟩ ((Effect.store (alignDown data) merge next).run
            Recorder.bus (Recorder.fetchWord { memory, replies } m.cpu.pc).2).bus =
            ⟨state ⟨m, memory, replies⟩,
              some ⟨m.cpu.pc, memory.loadWord m.cpu.pc, memory.path m.cpu.pc⟩,
              some ⟨alignDown data, memory.loadWord (alignDown data),
                merge (memory.loadWord (alignDown data)), memory.path (alignDown data)⟩, none⟩ := by
          simp [row, Effect.run, Recorder.bus, Recorder.fetchWord, Recorder.loadWord,
            Recorder.storeWord]
        have hroot := hm.rootForWord_path haddr (merge (memory.loadWord (alignDown data)))
        rw [hrow]
        refine ⟨Row.replay_eq_ok_iff.mpr ⟨hfetch, hdata, next, true, _, .store hf rfl hp rfl,
          congrArg Except.ok hroot, rfl⟩, hm.storeWord haddr _⟩
      | @call request next _ =>
        cases replies with
        | nil => simp [Effect.run, Recorder.bus, Recorder.reply, Recorder.fetchWord] at hanswered
        | cons a replies =>
          exact ⟨Row.replay_eq_ok_iff.mpr
            ⟨hfetch, rfl, next a, false, memory.root, .call hf rfl hp, rfl, rfl⟩, hm⟩

end Playback

end ReplayVM
