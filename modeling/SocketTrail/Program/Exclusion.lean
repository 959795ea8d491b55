/-
# One operation on the recording at a time

However the sections of the program interleave, it is in one of four stages: no
recording and no operation, a start, a recording, a finish. `Stage` says what is
where in each of them, `Books` what the ledger of the capture processes shows
while at most one process is held and at most one recording is open. Every step
leads from a stage to a stage.
-/

import SocketTrail.Program.World

namespace SocketTrail.Program

open SocketTrail.Foundation SocketTrail.Net SocketTrail.State SocketTrail.Recording

/-! ## The books -/

/-- The ledger while `held` is the capture process that a handle owns, and
`opened` the capture that got under way and has no report yet. -/
structure Books (l : Ledger) (held opened : Option ℕ) : Prop where
  running : ∀ p ∈ l.running, held = some p
  started : ∀ p ∈ l.started, opened = some p ∨ ∃ outcome, (p, outcome) ∈ l.finished
  recorded_lt : ∀ p ∈ l.recorded, p < l.launches
  recorded_nodup : l.recorded.Nodup
  stops_recorded : ∀ p ∈ l.stops, p ∈ l.recorded
  stops_nodup : l.stops.Nodup

/-- The process is launched, and no recording yet. -/
def Fresh (l : Ledger) (p : ℕ) : Prop := p < l.launches ∧ p ∉ l.recorded

/-- The process writes a recording, and was not stopped. -/
def Unstopped (l : Ledger) (p : ℕ) : Prop := p ∈ l.recorded ∧ p ∉ l.stops

namespace Books

variable {l : Ledger} {held opened : Option ℕ} {p : ℕ}

theorem initial : Books {} none none where
  running p hp := absurd hp (Finset.notMem_empty p)
  started _ hp := absurd hp List.not_mem_nil
  recorded_lt _ hp := absurd hp List.not_mem_nil
  recorded_nodup := List.nodup_nil
  stops_recorded _ hp := absurd hp List.not_mem_nil
  stops_nodup := List.nodup_nil

theorem exits (h : Books l held opened) (p : ℕ) : Books (l.exits p) held opened where
  running q hq := h.running q (Finset.mem_of_mem_erase hq)
  started := h.started
  recorded_lt := h.recorded_lt
  recorded_nodup := h.recorded_nodup
  stops_recorded := h.stops_recorded
  stops_nodup := h.stops_nodup

/-- A process that was held and ended is held no more. -/
theorem release (h : Books l (some p) opened) : Books (l.exits p) none opened where
  running q hq := by
    obtain ⟨hne, hrunning⟩ := Finset.mem_erase.mp hq
    exact absurd (Option.some.inj (h.running q hrunning)).symm hne
  started := h.started
  recorded_lt := h.recorded_lt
  recorded_nodup := h.recorded_nodup
  stops_recorded := h.stops_recorded
  stops_nodup := h.stops_nodup

theorem launched (h : Books l none opened) (spawned : Option ℕ) :
    Books (l.launched spawned) spawned opened where
  running q hq := by
    rcases Finset.mem_union.mp hq with hq | hq
    · exact absurd (h.running q hq) (by simp)
    · exact Option.mem_toFinset.mp hq
  started := h.started
  recorded_lt q hq := Nat.lt_succ_of_lt (h.recorded_lt q hq)
  recorded_nodup := h.recorded_nodup
  stops_recorded := h.stops_recorded
  stops_nodup := h.stops_nodup

theorem fresh_launched (h : Books l none opened) (spawned : Option ℕ) :
    Fresh (l.launched spawned) l.launches :=
  ⟨Nat.lt_succ_self _, fun hrecorded => Nat.lt_irrefl _ (h.recorded_lt _ hrecorded)⟩

theorem becameReady (h : Books l (some p) none) :
    Books (l.becameReady p true) (some p) (some p) where
  running := h.running
  started q hq := by
    rcases List.mem_append.mp hq with hq | hq
    · obtain hopened | hfinished := h.started q hq
      · contradiction
      · exact .inr hfinished
    · rw [List.mem_singleton.mp hq]
      exact .inl rfl
  recorded_lt := h.recorded_lt
  recorded_nodup := h.recorded_nodup
  stops_recorded := h.stops_recorded
  stops_nodup := h.stops_nodup

theorem reached (h : Books l held opened) (hfresh : Fresh l p) :
    Books (l.reached (some p)) held opened where
  running := h.running
  started := h.started
  recorded_lt q hq := by
    rcases List.mem_append.mp hq with hq | hq
    · exact h.recorded_lt q hq
    · rw [List.mem_singleton.mp hq]
      exact hfresh.1
  recorded_nodup := by
    refine List.nodup_append.mpr ⟨h.recorded_nodup, List.nodup_singleton p, ?_⟩
    rintro q hq r hr rfl
    exact hfresh.2 (List.mem_singleton.mp hr ▸ hq)
  stops_recorded q hq := List.mem_append_left _ (h.stops_recorded q hq)
  stops_nodup := h.stops_nodup

theorem unstopped_reached (h : Books l held opened) (hfresh : Fresh l p) :
    Unstopped (l.reached (some p)) p :=
  ⟨List.mem_append_right _ (List.mem_singleton_self p),
    fun hstopped => hfresh.2 (h.stops_recorded p hstopped)⟩

theorem stopsNow (h : Books l held opened) (hunstopped : Unstopped l p) :
    Books (l.stopsNow (some p)) held opened where
  running := h.running
  started := h.started
  recorded_lt := h.recorded_lt
  recorded_nodup := h.recorded_nodup
  stops_recorded q hq := by
    rcases List.mem_append.mp hq with hq | hq
    · exact h.stops_recorded q hq
    · rw [List.mem_singleton.mp hq]
      exact hunstopped.1
  stops_nodup := by
    refine List.nodup_append.mpr ⟨h.stops_nodup, List.nodup_singleton p, ?_⟩
    rintro q hq r hr rfl
    exact hunstopped.2 (List.mem_singleton.mp hr ▸ hq)

theorem ended (h : Books l held opened) : Books (l.ended held) none opened where
  running q hq := by
    obtain ⟨hrunning, hother⟩ := Finset.mem_sdiff.mp hq
    exact absurd (Option.mem_toFinset.mpr (h.running q hrunning)) hother
  started := h.started
  recorded_lt := h.recorded_lt
  recorded_nodup := h.recorded_nodup
  stops_recorded := h.stops_recorded
  stops_nodup := h.stops_nodup

theorem reports (h : Books l held opened) (outcome : DumpOutcome) :
    Books (l.reports opened outcome) held none where
  running := h.running
  started q hq := by
    right
    obtain hopened | ⟨o, hfinished⟩ := h.started q hq
    · refine ⟨outcome, List.mem_append_right _ ?_⟩
      rw [hopened]
      exact List.mem_singleton_self _
    · exact ⟨o, List.mem_append_left _ hfinished⟩
  recorded_lt := h.recorded_lt
  recorded_nodup := h.recorded_nodup
  stops_recorded := h.stops_recorded
  stops_nodup := h.stops_nodup

end Books

/-! ## The stages -/

/-- What a start holds. -/
inductive StartHolds (l : Ledger) (t : StartTask) : Prop
  | entered (pc : t.pc = .entered) (free : t.dump.process = none) (books : Books l none none)
  | spawned (p started : ℕ) (pc : t.pc = .spawned p started) (free : t.dump.process = none)
      (fresh : Fresh l p) (books : Books l (some p) none)
  | began (p : ℕ) (pc : t.pc = .last (.ok ())) (owns : t.dump.process = some p)
      (fresh : Fresh l p) (books : Books l (some p) (some p))
  | failed (e : String) (pc : t.pc = .last (.error e)) (free : t.dump.process = none)
      (books : Books l none none)

/-- What a finish holds. -/
inductive FinishHolds (l : Ledger) (t : FinishTask) (p : ℕ) : Prop
  | entered (pc : t.pc = .entered) (owns : t.dump.process = some p) (unstopped : Unstopped l p)
      (books : Books l (some p) (some p))
  | stopping (handle : Dump) (pc : t.pc = .stopping handle) (owns : handle.process = some p)
      (free : t.dump.process = none) (books : Books l (some p) (some p))
  | ended (pc : t.pc.Ended) (free : t.dump.process = none) (books : Books l none (some p))

theorem StartHolds.exits {l : Ledger} {t : StartTask} (h : StartHolds l t) (p : ℕ) :
    StartHolds (l.exits p) t := by
  cases h with
  | entered pc free books => exact .entered pc free (books.exits p)
  | spawned q started pc free fresh books => exact .spawned q started pc free fresh (books.exits p)
  | began q pc owns fresh books => exact .began q pc owns fresh (books.exits p)
  | failed e pc free books => exact .failed e pc free (books.exits p)

/-- The launch of a capture process by a start that holds none. -/
theorem StartHolds.launch {l : Ledger} {t : StartTask} (h : StartHolds l t)
    (hpc : t.pc = .entered) (lang : Lang) (a : Launch) :
    StartHolds (l.launched (t.launch lang l.launches a).spawned) (t.launch lang l.launches a) := by
  cases h with
  | spawned p started pc => rw [hpc] at pc; contradiction
  | began p pc => rw [hpc] at pc; contradiction
  | failed e pc => rw [hpc] at pc; contradiction
  | entered _ free books =>
      have harm : t.dump.arm lang = .ok { t.dump with error := none } := by simp [Dump.arm, free]
      unfold StartTask.launch
      rw [harm]
      cases a with
      | dirFails e => exact .failed e rfl free (books.launched none)
      | spawnFails e => exact .failed e rfl free (books.launched none)
      | spawns now =>
          exact .spawned l.launches now rfl free (books.fresh_launched _) (books.launched _)

/-- The wait of a start for its capture process. -/
theorem StartHolds.ready {l : Ledger} {t : StartTask} {p started : ℕ} (h : StartHolds l t)
    (hpc : t.pc = .spawned p started) (result : Except String Unit) :
    StartHolds (l.becameReady p result.toBool) (t.ready p started result) := by
  cases h with
  | entered pc => rw [hpc] at pc; contradiction
  | began p pc => rw [hpc] at pc; contradiction
  | failed e pc => rw [hpc] at pc; contradiction
  | spawned q started' pc free fresh books =>
      rw [hpc, StartPc.spawned.injEq] at pc
      obtain ⟨rfl, rfl⟩ := pc
      cases result with
      | ok _ => exact .began p rfl rfl fresh books.becameReady
      | error e => exact .failed e rfl free books.release

theorem FinishHolds.exits {l : Ledger} {t : FinishTask} {q : ℕ} (h : FinishHolds l t q) (p : ℕ) :
    FinishHolds (l.exits p) t q := by
  cases h with
  | entered pc owns unstopped books => exact .entered pc owns unstopped (books.exits p)
  | stopping handle pc owns free books => exact .stopping handle pc owns free (books.exits p)
  | ended pc free books => exact .ended pc free (books.exits p)

theorem FinishHolds.of_ended {l : Ledger} {t : FinishTask} {p : ℕ} (h : FinishHolds l t p)
    (hended : t.pc.Ended) : t.dump.process = none ∧ Books l none (some p) := by
  cases h with
  | entered pc => rw [pc] at hended; exact hended.elim
  | stopping handle pc => rw [pc] at hended; exact hended.elim
  | ended _ free books => exact ⟨free, books⟩

/-- The four stages of the program. -/
inductive Stage (w : World) : Prop
  | idle (phase : w.app.dumpPhase = .idle) (tasks : w.tasks = [])
      (noMeta : w.app.dumpMeta.isSome = false) (free : w.app.dump.process = none)
      (books : Books w.ledger none none)
  | starting (t : StartTask) (phase : w.app.dumpPhase = .starting) (tasks : w.tasks = [.start t])
      (noMeta : w.app.dumpMeta.isSome = false) (free : w.app.dump.process = none)
      (holds : StartHolds w.ledger t)
  | recording (p : ℕ) (phase : w.app.dumpPhase = .recording) (tasks : w.tasks = [])
      (hasMeta : w.app.dumpMeta.isSome = true) (owns : w.app.dump.process = some p)
      (unstopped : Unstopped w.ledger p) (books : Books w.ledger (some p) (some p))
  | finishing (t : FinishTask) (p : ℕ) (phase : w.app.dumpPhase = .finishing)
      (tasks : w.tasks = [.finish t]) (noMeta : w.app.dumpMeta.isSome = false)
      (free : w.app.dump.process = none) (recording : t.recording = some p)
      (holds : FinishHolds w.ledger t p)

namespace Stage

variable {w w' : World}

theorem initial (store : Store) (iface : String) (whois : IpAddr → Option Whois) (self : ℤ)
    (fs : Annotate.Fs) : Stage (.initial (.initial store iface whois self) fs) :=
  .idle rfl rfl rfl rfl .initial

/-- A stage is a matter of the recording, the tasks and the ledger. -/
theorem congr (h : Stage w) (happ : App.SameOperation w.app w'.app) (htasks : w'.tasks = w.tasks)
    (hledger : w'.ledger = w.ledger) : Stage w' := by
  obtain ⟨hdump, hphase, -, hmeta, -⟩ := happ
  cases h with
  | idle phase tasks noMeta free books =>
      exact .idle (hphase.trans phase) (htasks.trans tasks) (hmeta.trans noMeta) (hdump ▸ free)
        (hledger ▸ books)
  | starting t phase tasks noMeta free holds =>
      exact .starting t (hphase.trans phase) (htasks.trans tasks) (hmeta.trans noMeta)
        (hdump ▸ free) (hledger ▸ holds)
  | recording p phase tasks hasMeta owns unstopped books =>
      exact .recording p (hphase.trans phase) (htasks.trans tasks) (hmeta.trans hasMeta)
        (hdump ▸ owns) (hledger ▸ unstopped) (hledger ▸ books)
  | finishing t p phase tasks noMeta free recording holds =>
      exact .finishing t p (hphase.trans phase) (htasks.trans tasks) (hmeta.trans noMeta)
        (hdump ▸ free) recording (hledger ▸ holds)

/-- A start that takes a section is the only task. -/
theorem of_startAt (h : Stage w) {i : ℕ} {t : StartTask} (hat : w.startAt i = some t) :
    i = 0 ∧ w.tasks = [.start t] ∧ w.app.dumpPhase = .starting ∧
      w.app.dumpMeta.isSome = false ∧ w.app.dump.process = none ∧ StartHolds w.ledger t := by
  unfold World.startAt at hat
  cases h with
  | idle _ tasks _ _ _ => simp [tasks] at hat
  | recording _ _ tasks _ _ _ _ => simp [tasks] at hat
  | finishing t' _ _ tasks _ _ _ _ =>
      cases i with
      | zero => simp [tasks] at hat
      | succ i => simp [tasks] at hat
  | starting t' phase tasks noMeta free holds =>
      cases i with
      | zero =>
          simp only [tasks, List.getElem?_cons_zero, Option.some.injEq] at hat
          subst hat
          exact ⟨rfl, tasks, phase, noMeta, free, holds⟩
      | succ i => simp [tasks] at hat

/-- A finish that takes a section is the only task. -/
theorem of_finishAt (h : Stage w) {i : ℕ} {t : FinishTask} (hat : w.finishAt i = some t) :
    i = 0 ∧ w.tasks = [.finish t] ∧ w.app.dumpPhase = .finishing ∧
      w.app.dumpMeta.isSome = false ∧ w.app.dump.process = none ∧
      ∃ p, t.recording = some p ∧ FinishHolds w.ledger t p := by
  unfold World.finishAt at hat
  cases h with
  | idle _ tasks _ _ _ => simp [tasks] at hat
  | recording _ _ tasks _ _ _ _ => simp [tasks] at hat
  | starting t' _ tasks _ _ _ =>
      cases i with
      | zero => simp [tasks] at hat
      | succ i => simp [tasks] at hat
  | finishing t' p phase tasks noMeta free recording holds =>
      cases i with
      | zero =>
          simp only [tasks, List.getElem?_cons_zero, Option.some.injEq] at hat
          subst hat
          exact ⟨rfl, tasks, phase, noMeta, free, p, recording, holds⟩
      | succ i => simp [tasks] at hat

/-! ## Every step leads to a stage -/

theorem exits (h : Stage w) (p : ℕ) : Stage { w with ledger := w.ledger.exits p } := by
  cases h with
  | idle phase tasks noMeta free books => exact .idle phase tasks noMeta free (books.exits p)
  | recording q phase tasks hasMeta owns unstopped books =>
      exact .recording q phase tasks hasMeta owns unstopped (books.exits p)
  | starting t phase tasks noMeta free holds =>
      exact .starting t phase tasks noMeta free (holds.exits p)
  | finishing t q phase tasks noMeta free recording holds =>
      exact .finishing t q phase tasks noMeta free recording (holds.exits p)

/-- The first section of a start is turned away, or it is the only operation. -/
theorem startEnter (h : Stage w) {lang : Lang} {filtered : Bool} {path : String}
    (fires : w.step (.startEnter lang filtered path) = some w') : Stage w' := by
  simp only [World.step] at fires
  obtain ⟨e, -, heq⟩ | ⟨hidle, -, heq⟩ := w.app.startEnter_cases lang filtered path
  · rw [heq, Option.some.injEq] at fires
    exact fires ▸ h
  · rw [heq, Option.some.injEq] at fires
    subst fires
    cases h with
    | idle phase tasks noMeta free books =>
        refine .starting (w.app.startTask filtered path) rfl ?_ noMeta rfl (.entered rfl free books)
        rw [tasks]
        rfl
    | starting t phase => rw [phase] at hidle; contradiction
    | recording p phase => rw [phase] at hidle; contradiction
    | finishing t p phase => rw [phase] at hidle; contradiction

/-- A section of a start behind its first. -/
theorem stepStart (h : Stage w) {i : ℕ} {t : StartTask} (hat : w.startAt i = some t) {e : Step}
    (fires : w.stepStart i t e = some w') : Stage w' := by
  obtain ⟨rfl, tasks, phase, noMeta, free, holds⟩ := h.of_startAt hat
  have hset (t' : StartTask) : (w.setStart 0 t').tasks = [.start t'] := by
    rw [World.setStart, tasks]
    rfl
  cases World.startStep fires with
  | launch lang l hpc =>
      exact .starting _ phase (hset _) noMeta free (holds.launch hpc lang l)
  | ready p started result hpc =>
      exact .starting _ phase (hset _) noMeta free (holds.ready hpc result)
  | last result now order hpc =>
      have htasks : w.tasks.eraseIdx 0 = [] := by rw [tasks]; rfl
      cases holds with
      | entered pc => rw [hpc] at pc; contradiction
      | spawned p started pc => rw [hpc] at pc; contradiction
      | began p pc owns fresh books =>
          rw [hpc, StartPc.last.injEq] at pc
          subst pc
          rw [owns]
          exact .recording p rfl htasks rfl owns (books.unstopped_reached fresh)
            (books.reached fresh)
      | failed e pc free books =>
          rw [hpc, StartPc.last.injEq] at pc
          subst pc
          exact .idle rfl htasks noMeta free books

/-- The first section of a finish has nothing to do, or it is the only operation. -/
theorem finishEnter (h : Stage w) {caller : Caller} {lang : Lang} {check : Except String Unit}
    {now : ℕ} {order : HashOrder ConnKey}
    (fires : w.stepFinishEnter caller lang check now order = some w') : Stage w' := by
  unfold World.stepFinishEnter at fires
  split at fires
  · contradiction
  · obtain ⟨-, outcome, heq⟩ | ⟨hrecording, dump, m, hprocess, -, -, heq⟩ :=
      w.app.finishEnter_cases lang (caller = .poll) check now order
    · rw [heq, Option.some.injEq] at fires
      subst fires
      exact h.congr (.refl w.app) rfl rfl
    · rw [heq, Option.some.injEq] at fires
      subst fires
      cases h with
      | idle phase => rw [phase] at hrecording; contradiction
      | starting t phase => rw [phase] at hrecording; contradiction
      | finishing t p phase => rw [phase] at hrecording; contradiction
      | recording p phase tasks hasMeta owns unstopped books =>
          let t : FinishTask :=
            { caller := caller, recording := dump.process, dump := dump, dumpMeta := m,
              pc := .entered }
          have htasks : w.tasks ++ [.finish t] = [.finish t] := by rw [tasks]; rfl
          have hheld := hprocess.trans owns
          exact .finishing t p rfl htasks rfl rfl hheld (.entered rfl hheld unstopped books)

/-- A section of a finish behind its first. -/
theorem stepFinish (h : Stage w) {i : ℕ} {t : FinishTask} (hat : w.finishAt i = some t) {e : Step}
    (fires : w.stepFinish i t e = some w') : Stage w' := by
  obtain ⟨rfl, tasks, phase, noMeta, free, p, recording, holds⟩ := h.of_finishAt hat
  have hset (t' : FinishTask) : (w.setFinish 0 t').tasks = [.finish t'] := by
    rw [World.setFinish, tasks]
    rfl
  cases World.finishStep fires with
  | stop hpc =>
      cases holds with
      | stopping handle pc => rw [hpc] at pc; contradiction
      | ended pc => rw [hpc] at pc; exact pc.elim
      | entered _ owns unstopped books =>
          rw [owns]
          exact .finishing _ p phase (hset _) noMeta free recording
            (.stopping t.dump rfl owns t.dump.release_process (books.stopsNow unstopped))
  | stopped handle ended hpc =>
      cases holds with
      | entered pc => rw [hpc] at pc; contradiction
      | ended pc => rw [hpc] at pc; exact pc.elim
      | stopping handle' pc owns hfree books =>
          rw [hpc, FinishPc.stopping.injEq] at pc
          subst pc
          rw [owns]
          exact .finishing _ p phase (hset _) noMeta free recording
            (.ended trivial hfree books.ended)
  | move pc m fs hpc hended =>
      obtain ⟨hfree, books⟩ := holds.of_ended hpc
      exact .finishing _ p phase (hset _) noMeta free recording (.ended hended hfree books)
  | last outcome hpc =>
      have htasks : w.tasks.eraseIdx 0 = [] := by rw [tasks]; rfl
      obtain ⟨hfree, books⟩ := holds.of_ended (hpc ▸ trivial)
      rw [recording]
      exact .idle rfl htasks noMeta hfree (books.reports outcome)

/-- Every step leads from a stage to a stage. -/
theorem step (h : Stage w) {e : Step} (fires : w.step e = some w') : Stage w' := by
  cases e with
  | background b =>
      obtain rfl := Option.some.inj fires
      exact h.congr (w.app.background_same b) rfl rfl
  | exits p =>
      obtain rfl := Option.some.inj fires
      exact h.exits p
  | files fs =>
      obtain rfl := Option.some.inj fires
      exact h.congr (.refl w.app) rfl rfl
  | startEnter lang filtered path => exact h.startEnter fires
  | finishEnter caller lang check now order => exact h.finishEnter fires
  | shutdown =>
      obtain ⟨-, hnext⟩ := Option.ite_none_right_eq_some.mp fires
      obtain rfl := Option.some.inj hnext
      exact h.congr (.refl w.app) rfl rfl
  | returns =>
      obtain ⟨-, hnext⟩ := Option.ite_none_right_eq_some.mp fires
      obtain rfl := Option.some.inj hnext
      exact h.congr (.refl w.app) rfl rfl
  | launch _ _ _ | ready _ _ | startLast _ _ _ =>
      obtain ⟨t, hat, hnext⟩ := Option.bind_eq_some_iff.mp fires
      exact h.stepStart hat hnext
  | stop _ | stopped _ _ | target _ | accounted _ _ | remember _ _ | check _ _ | plan _ _ _ _ _
  | process _ _ _ _ | finishLast _ =>
      obtain ⟨t, hat, hnext⟩ := Option.bind_eq_some_iff.mp fires
      exact h.stepFinish hat hnext

/-- The program is in a stage throughout. -/
theorem run {store : Store} {iface : String} {whois : IpAddr → Option Whois} {self : ℤ}
    {fs : Annotate.Fs} {hist : History World Step}
    (run : Run World.system (.initial (.initial store iface whois self) fs) hist w) : Stage w :=
  run.invariant (P := Stage) (initial store iface whois self fs) fun _ _ _ h fires => h.step fires

end Stage

/-! ## Mutual exclusion -/

/-- The capture process in the hands of an operation. -/
def Task.process : Task → Option ℕ
  | .start t =>
      match t.pc with
      | .spawned p _ => some p
      | _ => t.dump.process
  | .finish t =>
      match t.pc with
      | .stopping handle => handle.process
      | _ => t.dump.process

theorem StartHolds.running {l : Ledger} {t : StartTask} (h : StartHolds l t) :
    ∀ p ∈ l.running, (Task.start t).process = some p := by
  intro p hp
  cases h with
  | entered pc free books => exact absurd (books.running p hp) (by simp)
  | spawned q started pc free fresh books =>
      simp only [Task.process, pc]
      exact books.running p hp
  | began q pc owns fresh books =>
      simp only [Task.process, pc, owns]
      exact books.running p hp
  | failed e pc free books => exact absurd (books.running p hp) (by simp)

theorem FinishHolds.running {l : Ledger} {t : FinishTask} {q : ℕ} (h : FinishHolds l t q) :
    ∀ p ∈ l.running, (Task.finish t).process = some p := by
  intro p hp
  cases h with
  | entered pc owns unstopped books =>
      simp only [Task.process, pc, owns]
      exact books.running p hp
  | stopping handle pc owns free books =>
      simp only [Task.process, pc, owns]
      exact books.running p hp
  | ended pc free books => exact absurd (books.running p hp) (by simp)

/-- At most one operation works on the recording, and everything that belongs to
the recording is in one place. -/
structure Exclusive (w : World) : Prop where
  one : w.tasks.length ≤ 1
  starting : w.app.dumpPhase = .starting ↔ ∃ t, .start t ∈ w.tasks
  finishing : w.app.dumpPhase = .finishing ↔ ∃ t, .finish t ∈ w.tasks
  hasMeta : w.app.dumpMeta.isSome = true ↔ w.app.dumpPhase = .recording
  /-- A capture process that runs is in the hands of the program while it records,
  or in those of the one operation, and not of both. -/
  held : ∀ p ∈ w.ledger.running,
    (w.app.dumpPhase = .recording ∧ w.app.dump.process = some p ∧ w.tasks = []) ∨
      (w.app.dump.process = none ∧ ∃ t, w.tasks = [t] ∧ t.process = some p)
  recorded : w.app.dumpPhase = .recording →
    ∃ p ∈ w.ledger.recorded, w.app.dump.process = some p
  stopped : ∀ p ∈ w.ledger.recorded, w.ledger.stops.count p ≤ 1

/-- Whoever holds the capture process, the books are kept. -/
theorem Stage.books {w : World} (h : Stage w) : ∃ held opened, Books w.ledger held opened := by
  cases h with
  | idle _ _ _ _ books => exact ⟨_, _, books⟩
  | starting t _ _ _ _ holds => cases holds <;> exact ⟨_, _, by assumption⟩
  | recording p _ _ _ _ _ books => exact ⟨_, _, books⟩
  | finishing t p _ _ _ _ _ holds => cases holds <;> exact ⟨_, _, by assumption⟩

/-- No recording is stopped twice. -/
theorem Stage.stopped {w : World} (h : Stage w) (p : ℕ) : w.ledger.stops.count p ≤ 1 := by
  obtain ⟨held, opened, books⟩ := h.books
  exact List.nodup_iff_count_le_one.mp books.stops_nodup p

theorem Stage.exclusive {w : World} (h : Stage w) : Exclusive w := by
  have hstopped : ∀ p ∈ w.ledger.recorded, w.ledger.stops.count p ≤ 1 := fun p _ => h.stopped p
  cases h with
  | idle phase tasks noMeta free books =>
      exact
        { one := by simp [tasks]
          starting := by simp [phase, tasks]
          finishing := by simp [phase, tasks]
          hasMeta := by simp [phase, noMeta]
          held := fun p hp => absurd (books.running p hp) (by simp)
          recorded := by simp [phase]
          stopped := hstopped }
  | starting t phase tasks noMeta free holds =>
      exact
        { one := by simp [tasks]
          starting := by simp [phase, tasks]
          finishing := by simp [phase, tasks]
          hasMeta := by simp [phase, noMeta]
          held := fun p hp => .inr ⟨free, _, tasks, holds.running p hp⟩
          recorded := by simp [phase]
          stopped := hstopped }
  | recording p phase tasks hasMeta owns unstopped books =>
      exact
        { one := by simp [tasks]
          starting := by simp [phase, tasks]
          finishing := by simp [phase, tasks]
          hasMeta := by simp [phase, hasMeta]
          held := fun q hq => .inl ⟨phase, owns.trans (books.running q hq), tasks⟩
          recorded := fun _ => ⟨p, unstopped.1, owns⟩
          stopped := hstopped }
  | finishing t p phase tasks noMeta free recording holds =>
      exact
        { one := by simp [tasks]
          starting := by simp [phase, tasks]
          finishing := by simp [phase, tasks]
          hasMeta := by simp [phase, noMeta]
          held := fun q hq => .inr ⟨free, _, tasks, holds.running q hq⟩
          recorded := by simp [phase]
          stopped := hstopped }

/-- The phase turns the operation away. -/
def Step.Rejected (w : World) : Step → Prop
  | .startEnter _ _ _ => w.app.dumpPhase ≠ .idle
  | .finishEnter _ _ _ _ _ => w.app.dumpPhase ≠ .recording
  | _ => False

/-- An operation that the phase turns away leaves the program as it is. -/
theorem rejected_unchanged {w w' : World} {e : Step} (hrejected : e.Rejected w)
    (fires : w.step e = some w') : w'.app = w.app := by
  cases e with
  | startEnter lang filtered path =>
      have herror : ∃ e, w.app.startEnter lang filtered path = .error e := by
        obtain ⟨e, -, heq⟩ | ⟨hidle, -⟩ := w.app.startEnter_cases lang filtered path
        · exact ⟨e, heq⟩
        · exact absurd hidle hrejected
      obtain ⟨e, heq⟩ := herror
      simp only [World.step, heq, Option.some.injEq] at fires
      rw [fires]
  | finishEnter caller lang check now order =>
      obtain ⟨-, hnext⟩ := Option.ite_none_left_eq_some.mp fires
      obtain ⟨-, outcome, heq⟩ | ⟨hrecording, -⟩ :=
        w.app.finishEnter_cases lang (caller = .poll) check now order
      · rw [heq, Option.some.injEq] at hnext
        rw [← hnext]
      · exact absurd hrecording hrejected
  | _ => exact hrejected.elim

/-- **Operations on the recording exclude each other.** Whatever the order of the
sections of any number of starts, stops, automatic stops, polls, packets and
requests: at most one operation is under way, the phase says which, the metadata
exist exactly while a recording runs, a running capture process is in one pair
of hands, no recording is stopped twice, and an operation that the phase turns
away changes nothing. -/
theorem recording_exclusive {store : Store} {iface : String} {whois : IpAddr → Option Whois}
    {self : ℤ} {fs : Annotate.Fs} {hist : History World Step} {w : World}
    (run : Run World.system (.initial (.initial store iface whois self) fs) hist w) :
    Exclusive w ∧ ∀ e w', e.Rejected w → World.system.step w e = some w' →
      w'.app.dumpPhase = w.app.dumpPhase ∧ w'.app.dump = w.app.dump ∧
        w'.app.dumpMeta = w.app.dumpMeta ∧ w'.app.dumpOutcome = w.app.dumpOutcome := by
  refine ⟨(Stage.run run).exclusive, ?_⟩
  intro e w' hrejected fires
  rw [rejected_unchanged hrejected fires]
  exact ⟨rfl, rfl, rfl, rfl⟩

/-- The program on a host without files, connections or known names. -/
def sampleWorld : World := .initial (.initial (.empty 0) "any" (fun _ => none) 1) fun _ => none

/-- The live capture begins, and a recording of the whole host starts. -/
def sampleStart : List Step :=
  [.background (.live none true), .startEnter .en false "dump.pcapng", .launch 0 .en (.spawns 5),
    .ready 0 (.ok ()), .startLast 0 10 .stored]

/-- A recording that was started is the only one: another start is turned away. -/
theorem recording_exclusive_sample :
    let started := (World.system.play [] sampleWorld sampleStart).2
    let again : Step := .startEnter .en false "other.pcapng"
    started.app.dumpPhase = .recording ∧ Exclusive started ∧ again.Rejected started ∧
      ∃ w', World.system.step started again = some w' ∧ w'.app.dumpPhase = .recording ∧
        w'.app.dump = started.app.dump ∧ w'.app.dumpMeta = started.app.dumpMeta := by
  intro started again
  have run : Run World.system _ _ started := Run.start.play sampleStart
  obtain ⟨hexclusive, hrejects⟩ := recording_exclusive run
  have hrejected : again.Rejected started := by
    change started.app.dumpPhase ≠ .idle
    decide
  have hfires : World.system.step started again = some _ := rfl
  obtain ⟨hphase, hdump, hmeta, -⟩ := hrejects again _ hrejected hfires
  exact ⟨rfl, hexclusive, hrejected, _, hfires, hphase.trans rfl, hdump, hmeta⟩

end SocketTrail.Program
