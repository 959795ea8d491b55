/-
# The operations on the recording

Starting and finishing a recording take several lock-protected sections with
waiting in between. The first section checks the phase and takes what the
operation works on out of the shared state; the last one puts it back. What an
operation holds in between is its task.
-/

import SocketTrail.Program.App

namespace SocketTrail.Program

open SocketTrail.Foundation SocketTrail.Net SocketTrail.State SocketTrail.Recording

/-! ## Starting -/

/-- How far a start has come behind its first section. -/
inductive StartPc
  | entered
  /-- The capture process `p` was spawned at `started`. -/
  | spawned (p started : ℕ)
  /-- The last section is left. -/
  | last (result : Except String Unit)

/-- A start between its first and its last section. -/
structure StartTask where
  filtered : Bool
  dump : Dump
  iface : String
  name : String
  process : Option ProcInfo
  pids : Finset ℤ
  instances : List Identity
  droppedAtStart : ℕ
  path : String
  pc : StartPc

namespace App

/-- The selected process, if the list still has it. -/
def selectedProcess (g : App) : Option ProcInfo :=
  g.selected.bind fun pid =>
    g.procs.find? fun p => p.pid = pid && some p.identity = g.selectedInstance

/-- Why a recording cannot start now. -/
def startRefusal (g : App) (lang : Lang) (filtered : Bool) : Option String :=
  if g.dumpPhase ≠ .idle then
    some (tr lang "A recording is already running or being finalized"
      "Запись уже идет или еще завершается")
  else if !g.captureOn then
    some (tr lang "Packet capture is unavailable" "Пакетный захват недоступен")
  else if filtered && g.selectedProcess.all (fun p => p.started = 0) then
    some (tr lang "Select a running process before recording its traffic"
      "Перед записью трафика выберите работающий процесс")
  else if g.group.length > maxDumpProcs then
    some (tr lang "The process group exceeds the recording metadata limit"
      "Группа процессов превышает лимит метаданных записи")
  else none

/-- What a start takes along; `path` is the path of the new file. -/
def startTask (g : App) (filtered : Bool) (path : String) : StartTask where
  filtered := filtered
  dump := g.dump
  iface := g.iface
  name := (g.selectedProcess.map ProcInfo.name).getD "host"
  process := g.selectedProcess
  pids := g.group.toFinset
  instances :=
    ((g.procs.filter fun p => p.pid ∈ g.group && p.started ≠ 0).map ProcInfo.identity).dedup
  droppedAtStart := g.dropped
  path := path
  pc := .entered

/-- The first section of a start. -/
def startEnter (g : App) (lang : Lang) (filtered : Bool) (path : String) :
    Except String (App × StartTask) :=
  match g.startRefusal lang filtered with
  | some error => .error error
  | none => .ok ({ g with dumpPhase := .starting, dump := {} }, g.startTask filtered path)

end App

/-- How the launch of a capture process goes. -/
inductive Launch
  | dirFails (e : String)
  | spawnFails (e : String)
  | spawns (now : ℕ)

/-- Launch the capture process; `fresh` is its number. -/
def StartTask.launch (t : StartTask) (lang : Lang) (fresh : ℕ) (l : Launch) : StartTask :=
  match l, t.dump.arm lang with
  | .dirFails e, _ => { t with pc := .last (.error e) }
  | _, .error e => { t with pc := .last (.error e) }
  | .spawnFails e, .ok dump => { t with dump := dump, pc := .last (.error e) }
  | .spawns now, .ok dump => { t with dump := dump, pc := .spawned fresh now }

/-- The capture process is ready, or it is killed. -/
def StartTask.ready (t : StartTask) (p started : ℕ) (result : Except String Unit) : StartTask :=
  match result with
  | .ok () => { t with dump := t.dump.attach t.path p started, pc := .last (.ok ()) }
  | .error e => { t with pc := .last (.error e) }

/-- The metadata of a recording that begins. -/
def StartTask.dumpMeta (t : StartTask) (now : ℕ) : DumpMeta where
  process := t.process
  onlyGroup := t.filtered
  pids := t.pids
  instances := t.instances
  limitReached := false
  droppedAtStart := t.droppedAtStart
  started := t.dump.startedMs.getD now
  lastAlive := t.dump.startedMs.getD now
  conns := ∅

namespace App

/-- The last section of a start, and what it answers. -/
def startLast (g : App) (t : StartTask) (result : Except String Unit) (now : ℕ)
    (order : HashOrder ConnKey) : App × Json :=
  match result with
  | .error e =>
      ({ g with dump := t.dump, dumpPhase := .idle, dumpOutcome := some (.failed e) },
        .obj [("ok", .bool false), ("error", .str e)])
  | .ok () =>
      ({ g with
          dump := t.dump
          dumpMeta := some (t.dumpMeta now)
          dumpPhase := .recording
          dumpOutcome := none
          autoStopped := none }.recordDump order,
        .obj [("ok", .bool true), ("path", .str t.path),
          ("only", Json.ofOption Json.str (if t.filtered then some t.name else none))])

/-! ## Finishing -/

/-- A recording ends by itself when its capture failed, when its group is long
gone, and at the limits of its metadata. -/
def autoStops (g : App) (check : Except String Unit) (now : ℕ) : Bool :=
  (g.dump.pollError check).2.isSome ||
    g.dumpMeta.any (fun m => m.onlyGroup && now - m.lastAlive > dumpIdleMs) ||
    g.dumpMeta.any DumpMeta.limitReached

/-- The first section of a finish: what it answers if there is nothing to do, or
what it takes along. -/
def finishEnter (g : App) (lang : Lang) (automatic : Bool) (check : Except String Unit) (now : ℕ)
    (order : HashOrder ConnKey) : App × Except DumpOutcome (Dump × Option DumpMeta) :=
  if g.dumpPhase ≠ .recording then
    (g, .error (if automatic then {} else
      .failed (tr lang "No recording is running, or another operation is in progress"
        "Запись не идет или другая операция еще выполняется")))
  else
    let polled := if automatic then { g with dump := (g.dump.pollError check).1 } else g
    if automatic && !g.autoStops check now then (polled, .error {})
    else
      let g := { polled with dumpPhase := .finishing }.recordDump order
      ({ g with dump := { path := g.dump.path }, dumpMeta := none }, .ok (g.dump, g.dumpMeta))

/-- The last section of a finish. -/
def finishLast (g : App) (automatic : Bool) (dump : Dump) (outcome : DumpOutcome) : App :=
  { g with
    dump := dump
    dumpPhase := .idle
    autoStopped := if automatic then dump.path else g.autoStopped
    dumpOutcome := some outcome }

/-! ## What the sections do -/

theorem startEnter_cases (g : App) (lang : Lang) (filtered : Bool) (path : String) :
    (∃ e, g.startRefusal lang filtered = some e ∧ g.startEnter lang filtered path = .error e) ∨
    (g.dumpPhase = .idle ∧ g.startRefusal lang filtered = none ∧
      g.startEnter lang filtered path =
        .ok ({ g with dumpPhase := .starting, dump := {} }, g.startTask filtered path)) := by
  unfold startEnter
  cases hrefusal : g.startRefusal lang filtered with
  | some e => exact .inl ⟨e, rfl, rfl⟩
  | none =>
      right
      refine ⟨?_, rfl, rfl⟩
      by_contra hphase
      rw [startRefusal, if_pos hphase] at hrefusal
      contradiction

/-- A finish does nothing to the program, or it takes the recording. An automatic
one may have looked after the capture process before, and only an automatic one
finds nothing to do while a recording runs. -/
theorem finishEnter_cases (g : App) (lang : Lang) (automatic : Bool) (check : Except String Unit)
    (now : ℕ) (order : HashOrder ConnKey) :
    ((automatic = true ∨ g.dumpPhase ≠ .recording) ∧
      ∃ outcome, g.finishEnter lang automatic check now order = (g, .error outcome)) ∨
    (g.dumpPhase = .recording ∧ ∃ dump m,
      dump.process = g.dump.process ∧ dump.path = g.dump.path ∧
        m = g.dumpMeta.map (fun m => rememberAll order m g.store.conns) ∧
        g.finishEnter lang automatic check now order =
          ({ g with dumpPhase := .finishing, dump := { path := g.dump.path }, dumpMeta := none },
            .ok (dump, m))) := by
  unfold finishEnter
  by_cases hphase : g.dumpPhase = .recording
  · rw [if_neg (not_not_intro hphase)]
    dsimp only
    split
    · rename_i hidle
      left
      obtain ⟨hautomatic, hdue⟩ := Bool.and_eq_true_iff.mp hidle
      simp only [autoStops, Bool.not_eq_true', Bool.or_eq_false_iff] at hdue
      rw [if_pos hautomatic, Dump.pollError_eq_self hdue.1.1]
      exact ⟨.inl hautomatic, _, rfl⟩
    · right
      refine ⟨hphase, ?_⟩
      cases automatic with
      | true => exact ⟨_, _, Dump.pollError_process check g.dump, Dump.pollError_path check g.dump,
          rfl, by simp [recordDump]⟩
      | false => exact ⟨_, _, rfl, rfl, rfl, rfl⟩
  · rw [if_pos hphase]
    exact .inl ⟨.inr hphase, _, rfl⟩

end App

end SocketTrail.Program
