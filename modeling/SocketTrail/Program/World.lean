/-
# The program as a system

The shared state, the operations on the recording that are under way, and the
shutdown, each advancing by one section at a time in any order. A call that its
first section turns away never becomes a task, so any number of calls may be
waiting at any time.

The `Ledger` counts what happens to the capture processes. No section reads it.
-/

import SocketTrail.Foundation.Execution
import SocketTrail.Program.Operations

namespace SocketTrail.Program

open SocketTrail.Foundation SocketTrail.Net SocketTrail.State SocketTrail.Recording
  SocketTrail.Annotate

/-! ## Tasks -/

/-- Who finishes a recording. -/
inductive Caller
  | request | poll | shutdown
  deriving DecidableEq, Repr

/-- How far a finish has come behind its first section. -/
inductive FinishPc
  | entered
  /-- The capture process of `handle` is being stopped. -/
  | stopping (handle : Dump)
  | stopped (result : Except String (Option String))
  /-- Waiting until so many packets are processed. -/
  | accounting (result : Except String (Option String)) (target : ℕ)
  | accounted (result : Except String (Option String)) (inTime : Bool)
  | remembered (result : Except String (Option String)) (inTime : Bool)
  | checked (errors : List String)
  | planned (errors : List String) (made : Option Planned)
  /-- The last section is left. -/
  | last (outcome : DumpOutcome)

/-- A finish between its first and its last section. -/
structure FinishTask where
  caller : Caller
  /-- The capture process of the recording, as the ledger names it. -/
  recording : Option ℕ
  dump : Dump
  dumpMeta : Option DumpMeta
  pc : FinishPc

/-- An operation on the recording that is under way. -/
inductive Task
  | start (t : StartTask)
  | finish (t : FinishTask)

/-- How far the shutdown has come. -/
inductive Shutdown
  | ahead
  /-- A recording was seen, and its finish is to be called. -/
  | seen
  | finishing
  /-- The cache is saved. -/
  | saving
  /-- The program runs on until the live capture has ended too. -/
  | returned
  deriving DecidableEq, Repr

/-! ## The ledger -/

/-- What happened to the capture processes, by the number of their launch. -/
structure Ledger where
  launches : ℕ := 0
  /-- The capture processes that run. -/
  running : Finset ℕ := ∅
  /-- The captures that got under way. -/
  started : List ℕ := []
  /-- The recordings that reached their phase. -/
  recorded : List ℕ := []
  /-- The recordings that were stopped, once for every time. -/
  stops : List ℕ := []
  /-- The recordings that ended, with their reports. -/
  finished : List (ℕ × DumpOutcome) := []

namespace Ledger

def exits (l : Ledger) (p : ℕ) : Ledger := { l with running := l.running.erase p }

/-- A launch, with the process that it spawned. -/
def launched (l : Ledger) (spawned : Option ℕ) : Ledger :=
  { l with launches := l.launches + 1, running := l.running ∪ spawned.toFinset }

/-- A capture process became ready, or it was killed. -/
def becameReady (l : Ledger) (p : ℕ) (ready : Bool) : Ledger :=
  if ready then { l with started := l.started ++ [p] } else l.exits p

def reached (l : Ledger) (p : Option ℕ) : Ledger := { l with recorded := l.recorded ++ p.toList }

def stopsNow (l : Ledger) (p : Option ℕ) : Ledger := { l with stops := l.stops ++ p.toList }

def ended (l : Ledger) (p : Option ℕ) : Ledger := { l with running := l.running \ p.toFinset }

def reports (l : Ledger) (p : Option ℕ) (outcome : DumpOutcome) : Ledger :=
  { l with finished := l.finished ++ p.toList.map fun p => (p, outcome) }

end Ledger

structure World where
  app : App
  tasks : List Task
  shutdown : Shutdown
  fs : Fs
  ledger : Ledger

/-- The program at its start. -/
def World.initial (g : App) (fs : Fs) : World where
  app := g
  tasks := []
  shutdown := .ahead
  fs := fs
  ledger := {}

/-! ## Steps -/

/-- One step of the program or of what surrounds it. A step of a task names the
task by its place. -/
inductive Step
  | background (b : App.Background)
  /-- A capture process ends by itself. -/
  | exits (p : ℕ)
  /-- The capture and other programs write files. -/
  | files (fs : Fs)
  | startEnter (lang : Lang) (filtered : Bool) (path : String)
  | launch (i : ℕ) (lang : Lang) (l : Launch)
  | ready (i : ℕ) (result : Except String Unit)
  | startLast (i : ℕ) (now : ℕ) (order : HashOrder ConnKey)
  | finishEnter (caller : Caller) (lang : Lang) (check : Except String Unit) (now : ℕ)
      (order : HashOrder ConnKey)
  | stop (i : ℕ)
  | stopped (i : ℕ) (ended : Except String Unit)
  | target (i : ℕ)
  /-- The accounting ends, in time or at its deadline. -/
  | accounted (i : ℕ) (inTime : Bool)
  | remember (i : ℕ) (order : HashOrder ConnKey)
  | check (i : ℕ) (lang : Lang)
  | plan (i : ℕ) (lang : Lang) (tzOffset : ℤ) (now : ℕ) (order : HashOrder ConnKey)
  | process (i : ℕ) (lang : Lang) (processing : Processing) (sizeKnown : Bool)
  | finishLast (i : ℕ)
  /-- The shutdown looks whether a recording runs. -/
  | shutdown
  /-- The cache is saved and the shutdown returns. -/
  | returns

namespace World

/-- The start at a place. -/
def startAt (w : World) (i : ℕ) : Option StartTask :=
  match w.tasks[i]? with
  | some (.start t) => some t
  | _ => none

/-- The finish at a place. -/
def finishAt (w : World) (i : ℕ) : Option FinishTask :=
  match w.tasks[i]? with
  | some (.finish t) => some t
  | _ => none

def setStart (w : World) (i : ℕ) (t : StartTask) : World :=
  { w with tasks := w.tasks.set i (.start t) }

def setFinish (w : World) (i : ℕ) (t : FinishTask) : World :=
  { w with tasks := w.tasks.set i (.finish t) }

end World

/-- The process that a start is waiting for. -/
def StartTask.spawned (t : StartTask) : Option ℕ :=
  match t.pc with
  | .spawned p _ => some p
  | _ => none

namespace World

/-- A section of a start behind its first. -/
def stepStart (w : World) (i : ℕ) (t : StartTask) : Step → Option World
  | .launch _ lang l =>
      match t.pc with
      | .entered =>
          let t := t.launch lang w.ledger.launches l
          some { w.setStart i t with ledger := w.ledger.launched t.spawned }
      | _ => none
  | .ready _ result =>
      match t.pc with
      | .spawned p started =>
          some
            { w.setStart i (t.ready p started result) with
              ledger := w.ledger.becameReady p result.toBool }
      | _ => none
  | .startLast _ now order =>
      match t.pc with
      | .last result =>
          some
            { w with
              app := (w.app.startLast t result now order).1
              tasks := w.tasks.eraseIdx i
              ledger := if result.toBool then w.ledger.reached t.dump.process else w.ledger }
      | _ => none
  | _ => none

/-- A section of a finish behind its first. -/
def stepFinish (w : World) (i : ℕ) (t : FinishTask) : Step → Option World
  | .stop _ =>
      match t.pc with
      | .entered =>
          some
            { w.setFinish i { t with dump := t.dump.release, pc := .stopping t.dump } with
              ledger := w.ledger.stopsNow t.dump.process }
      | _ => none
  | .stopped _ ended =>
      match t.pc with
      | .stopping handle =>
          some
            { w.setFinish i { t with pc := .stopped (handle.stopped ended) } with
              ledger := w.ledger.ended handle.process }
      | _ => none
  | .target _ =>
      match t.pc with
      | .stopped result => some (w.setFinish i { t with pc := .accounting result w.app.accepted })
      | _ => none
  | .accounted _ inTime =>
      match t.pc with
      | .accounting result target =>
          if inTime && w.app.processed < target then none
          else some (w.setFinish i { t with pc := .accounted result inTime })
      | _ => none
  | .remember _ order =>
      match t.pc with
      | .accounted result inTime =>
          some (w.setFinish i
            { t with
              dumpMeta := t.dumpMeta.map fun m => rememberAll order m w.app.store.conns
              pc := .remembered result inTime })
      | _ => none
  | .check _ lang =>
      match t.pc with
      | .remembered result inTime =>
          some (w.setFinish i
            { t with pc := .checked (captureErrors lang inTime t.dumpMeta w.app.dropped result) })
      | _ => none
  | .plan _ lang tzOffset now order =>
      match t.pc with
      | .checked errors =>
          let input : PlanInput :=
            { conns := w.app.store.conns
              selfPids := w.app.selfPids
              lang := lang
              tzOffset := tzOffset
              now := now
              order := order }
          some (w.setFinish i
            { t with pc := .planned errors (planRecording input t.dump.path t.dumpMeta) })
      | _ => none
  | .process _ lang processing sizeKnown =>
      match t.pc with
      | .planned errors made =>
          let (fs, processed) := processRecording lang processing made w.fs errors
          some
            { w.setFinish i
                { t with pc := .last (dumpOutcome sizeKnown fs t.dump.path processed) } with
              fs := fs }
      | _ => none
  | .finishLast _ =>
      match t.pc with
      | .last outcome =>
          some
            { w with
              app := w.app.finishLast (t.caller = .poll) t.dump outcome
              tasks := w.tasks.eraseIdx i
              shutdown := if t.caller = .shutdown then .saving else w.shutdown
              ledger := w.ledger.reports t.recording outcome }
      | _ => none
  | _ => none

/-- The first section of a finish. The shutdown finishes what it has seen, and
goes on when there is nothing to finish. -/
def stepFinishEnter (w : World) (caller : Caller) (lang : Lang) (check : Except String Unit)
    (now : ℕ) (order : HashOrder ConnKey) : Option World :=
  if caller = .shutdown ∧ w.shutdown ≠ .seen then none
  else
    match w.app.finishEnter lang (caller = .poll) check now order with
    | (g, .error _) =>
        some
          { w with
            app := g
            shutdown := if caller = .shutdown then .saving else w.shutdown }
    | (g, .ok (dump, m)) =>
        some
          { w with
            app := g
            tasks := w.tasks ++
              [.finish
                { caller := caller
                  recording := dump.process
                  dump := dump
                  dumpMeta := m
                  pc := .entered }]
            shutdown := if caller = .shutdown then .finishing else w.shutdown }

/-- One step; `none` when it cannot be taken. -/
def step (w : World) (e : Step) : Option World :=
  match e with
  | .background b => some { w with app := w.app.background b }
  | .exits p => some { w with ledger := w.ledger.exits p }
  | .files fs => some { w with fs := fs }
  | .startEnter lang filtered path =>
      match w.app.startEnter lang filtered path with
      | .error _ => some w
      | .ok (g, t) => some { w with app := g, tasks := w.tasks ++ [.start t] }
  | .launch i _ _ | .ready i _ | .startLast i _ _ => (w.startAt i).bind fun t => w.stepStart i t e
  | .finishEnter caller lang check now order => w.stepFinishEnter caller lang check now order
  | .stop i | .stopped i _ | .target i | .accounted i _ | .remember i _ | .check i _
  | .plan i _ _ _ _ | .process i _ _ _ | .finishLast i =>
      (w.finishAt i).bind fun t => w.stepFinish i t e
  | .shutdown =>
      if w.shutdown = .ahead then
        some { w with shutdown := if w.app.dumpPhase = .recording then .seen else .saving }
      else none
  | .returns => if w.shutdown = .saving then some { w with shutdown := .returned } else none

def system : System World Step where
  step := step

/-! ## What a section can do -/

/-- What a section of a start behind its first does. -/
inductive StartStep (w : World) (i : ℕ) (t : StartTask) : World → Prop
  | launch (lang : Lang) (l : Launch) (hpc : t.pc = .entered) :
      StartStep w i t
        { w.setStart i (t.launch lang w.ledger.launches l) with
          ledger := w.ledger.launched (t.launch lang w.ledger.launches l).spawned }
  | ready (p started : ℕ) (result : Except String Unit) (hpc : t.pc = .spawned p started) :
      StartStep w i t
        { w.setStart i (t.ready p started result) with
          ledger := w.ledger.becameReady p result.toBool }
  | last (result : Except String Unit) (now : ℕ) (order : HashOrder ConnKey)
      (hpc : t.pc = .last result) :
      StartStep w i t
        { w with
          app := (w.app.startLast t result now order).1
          tasks := w.tasks.eraseIdx i
          ledger := if result.toBool then w.ledger.reached t.dump.process else w.ledger }

theorem startStep {w w' : World} {i : ℕ} {t : StartTask} {e : Step}
    (fires : w.stepStart i t e = some w') : StartStep w i t w' := by
  unfold stepStart at fires
  cases e with
  | launch _ lang l =>
      dsimp only at fires
      split at fires
      · rename_i hpc
        exact Option.some.inj fires ▸ .launch lang l hpc
      · contradiction
  | ready _ result =>
      dsimp only at fires
      split at fires
      · rename_i p started hpc
        exact Option.some.inj fires ▸ .ready p started result hpc
      · contradiction
  | startLast _ now order =>
      dsimp only at fires
      split at fires
      · rename_i result hpc
        exact Option.some.inj fires ▸ .last result now order hpc
      · contradiction
  | _ => contradiction

end World

/-- The capture process of the recording is out of the hands of the finish. -/
def FinishPc.Ended : FinishPc → Prop
  | .entered | .stopping _ => False
  | _ => True

namespace World

/-- What a section of a finish behind its first does: it stops the capture, it
moves on behind the stop, or it ends the recording. -/
inductive FinishStep (w : World) (i : ℕ) (t : FinishTask) : World → Prop
  | stop (hpc : t.pc = .entered) :
      FinishStep w i t
        { w.setFinish i { t with dump := t.dump.release, pc := .stopping t.dump } with
          ledger := w.ledger.stopsNow t.dump.process }
  | stopped (handle : Dump) (ended : Except String Unit) (hpc : t.pc = .stopping handle) :
      FinishStep w i t
        { w.setFinish i { t with pc := .stopped (handle.stopped ended) } with
          ledger := w.ledger.ended handle.process }
  | move (pc : FinishPc) (m : Option DumpMeta) (fs : Fs) (hpc : t.pc.Ended) (hended : pc.Ended) :
      FinishStep w i t { w.setFinish i { t with dumpMeta := m, pc := pc } with fs := fs }
  | last (outcome : DumpOutcome) (hpc : t.pc = .last outcome) :
      FinishStep w i t
        { w with
          app := w.app.finishLast (t.caller = .poll) t.dump outcome
          tasks := w.tasks.eraseIdx i
          shutdown := if t.caller = .shutdown then .saving else w.shutdown
          ledger := w.ledger.reports t.recording outcome }

theorem finishStep {w w' : World} {i : ℕ} {t : FinishTask} {e : Step}
    (fires : w.stepFinish i t e = some w') : FinishStep w i t w' := by
  have hmove (pc : FinishPc) (m : Option DumpMeta) (fs : Fs) (hpc : t.pc.Ended)
      (hw : some { w.setFinish i { t with dumpMeta := m, pc := pc } with fs := fs } = some w')
      (hended : pc.Ended) : FinishStep w i t w' :=
    Option.some.inj hw ▸ .move pc m fs hpc hended
  unfold stepFinish at fires
  cases e with
  | stop _ =>
      dsimp only at fires
      split at fires
      · rename_i hpc
        exact Option.some.inj fires ▸ .stop hpc
      · contradiction
  | stopped _ ended =>
      dsimp only at fires
      split at fires
      · rename_i handle hpc
        exact Option.some.inj fires ▸ .stopped handle ended hpc
      · contradiction
  | accounted _ inTime =>
      dsimp only at fires
      split at fires
      · rename_i hpc
        obtain ⟨-, fires⟩ := Option.ite_none_left_eq_some.mp fires
        exact hmove _ _ _ (hpc ▸ trivial) fires trivial
      · contradiction
  | finishLast _ =>
      dsimp only at fires
      split at fires
      · rename_i outcome hpc
        exact Option.some.inj fires ▸ .last outcome hpc
      · contradiction
  | target _ | remember _ _ | check _ _ | plan _ _ _ _ _ | process _ _ _ _ =>
      dsimp only at fires
      split at fires
      · rename_i hpc
        exact hmove _ _ _ (hpc ▸ trivial) fires trivial
      · contradiction
  | _ => contradiction

end World

/-- The two states differ in the recording and the operation on it at most. -/
def App.OnlyOperation (g g' : App) : Prop :=
  ∃ dump phase outcome m stopped,
    g' =
      { g with
        dump := dump
        dumpPhase := phase
        dumpOutcome := outcome
        dumpMeta := m
        autoStopped := stopped }

theorem App.OnlyOperation.refl (g : App) : g.OnlyOperation g := ⟨_, _, _, _, _, rfl⟩

namespace World

/-- What a step of the program does, apart from the shutdown. -/
inductive Stepped (w : World) (e : Step) : World → Prop
  | background (b : App.Background) (he : e = .background b) :
      Stepped w e { w with app := w.app.background b }
  | start (lang : Lang) (filtered : Bool) (path : String) (g : App) (t : StartTask)
      (he : e = .startEnter lang filtered path)
      (henter : w.app.startEnter lang filtered path = .ok (g, t)) (hg : w.app.OnlyOperation g) :
      Stepped w e { w with app := g, tasks := w.tasks ++ [.start t] }
  | startStep (i : ℕ) (t : StartTask) (w' : World) (hat : w.startAt i = some t)
      (hsection : w.StartStep i t w') (he : ∀ b, e ≠ .background b) : Stepped w e w'
  | finish (t : FinishTask) (w' : World) (hg : w.app.OnlyOperation w'.app)
      (htasks : w'.tasks = w.tasks ++ [.finish t]) (he : ∀ b, e ≠ .background b) : Stepped w e w'
  | finishStep (i : ℕ) (t : FinishTask) (w' : World) (hat : w.finishAt i = some t)
      (hsection : w.FinishStep i t w') (he : ∀ b, e ≠ .background b) : Stepped w e w'
  | other (w' : World) (hg : w'.app = w.app) (htasks : w'.tasks = w.tasks)
      (he : ∀ b, e ≠ .background b) : Stepped w e w'

theorem step_cases {w w' : World} {e : Step} (fires : w.step e = some w') : Stepped w e w' := by
  cases e with
  | background b => exact Option.some.inj fires ▸ .background b rfl
  | startEnter lang filtered path =>
      dsimp only [World.step] at fires
      obtain ⟨e, -, heq⟩ | ⟨-, -, heq⟩ := w.app.startEnter_cases lang filtered path
      · rw [heq, Option.some.injEq] at fires
        exact .other w' (by rw [fires]) (by rw [fires]) (by simp)
      · have henter := heq
        rw [heq, Option.some.injEq] at fires
        exact fires ▸ .start lang filtered path _ _ rfl henter ⟨_, _, _, _, _, rfl⟩
  | finishEnter caller lang check now order =>
      obtain ⟨-, hnext⟩ := Option.ite_none_left_eq_some.mp fires
      obtain ⟨-, outcome, heq⟩ | ⟨-, dump, m, -, -, -, heq⟩ :=
        w.app.finishEnter_cases lang (caller = .poll) check now order
      · rw [heq, Option.some.injEq] at hnext
        subst hnext
        exact .other _ rfl rfl (by simp)
      · rw [heq, Option.some.injEq] at hnext
        subst hnext
        exact .finish _ _ ⟨_, _, _, _, _, rfl⟩ rfl (by simp)
  | launch i _ _ | ready i _ | startLast i _ _ =>
      obtain ⟨t, hat, hsection⟩ := Option.bind_eq_some_iff.mp fires
      exact .startStep i t w' hat (startStep hsection) (by simp)
  | stop i | stopped i _ | target i | accounted i _ | remember i _ | check i _
  | plan i _ _ _ _ | process i _ _ _ | finishLast i =>
      obtain ⟨t, hat, hsection⟩ := Option.bind_eq_some_iff.mp fires
      exact .finishStep i t w' hat (finishStep hsection) (by simp)
  | exits p => exact Option.some.inj fires ▸ .other _ rfl rfl (by simp)
  | files fs => exact Option.some.inj fires ▸ .other _ rfl rfl (by simp)
  | shutdown =>
      obtain ⟨-, hnext⟩ := Option.ite_none_right_eq_some.mp fires
      exact Option.some.inj hnext ▸ .other _ rfl rfl (by simp)
  | returns =>
      obtain ⟨-, hnext⟩ := Option.ite_none_right_eq_some.mp fires
      exact Option.some.inj hnext ▸ .other _ rfl rfl (by simp)

theorem startLast_onlyOperation (g : App) (t : StartTask) (result : Except String Unit) (now : ℕ)
    (order : HashOrder ConnKey) : g.OnlyOperation (g.startLast t result now order).1 := by
  cases result <;> exact ⟨_, _, _, _, _, rfl⟩

/-- Besides the sections that belong to no operation on the recording, a step
changes the recording and the operation on it only. -/
theorem step_app {w w' : World} {e : Step} (fires : w.step e = some w') :
    (∃ b, e = .background b ∧ w'.app = w.app.background b) ∨
      ((∀ b, e ≠ .background b) ∧ w.app.OnlyOperation w'.app) := by
  cases step_cases fires with
  | background b he => exact .inl ⟨b, he, rfl⟩
  | start lang filtered path g t he henter hg => exact .inr ⟨by simp [he], hg⟩
  | startStep i t _ hat hsection he =>
      refine .inr ⟨he, ?_⟩
      cases hsection with
      | launch | ready => exact .refl w.app
      | last result now order hpc => exact startLast_onlyOperation ..
  | finish t _ hg htasks he => exact .inr ⟨he, hg⟩
  | finishStep i t _ hat hsection he =>
      refine .inr ⟨he, ?_⟩
      cases hsection with
      | stop | stopped | move => exact .refl w.app
      | last outcome hpc => exact ⟨_, _, _, _, _, rfl⟩
  | other _ hg htasks he => exact .inr ⟨he, hg ▸ .refl w.app⟩

end World

end SocketTrail.Program
