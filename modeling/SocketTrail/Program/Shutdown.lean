/-
# The shutdown

Before the program exits, the shutdown looks at the phase once and finishes a
recording that it sees. Nothing makes it wait for an operation that is under way
at that moment: then it returns while the file of the recording is still being
filtered, and as soon as the live capture has ended the process exits under the
operation. When the shutdown meets the recording settled, it leaves none unfinished.
-/

import SocketTrail.Program.Exclusion

namespace SocketTrail.Program

open SocketTrail.Foundation SocketTrail.Net SocketTrail.State SocketTrail.Recording

/-- No operation on the recording is under way, and every capture that got under
way has its report. -/
def Finalized (w : World) : Prop :=
  w.app.dumpPhase = .idle ∧ ∀ p ∈ w.ledger.started, ∃ outcome, (p, outcome) ∈ w.ledger.finished

/-- No operation on the recording is between its first and its last section. -/
def World.Settled (w : World) : Prop :=
  w.app.dumpPhase = .idle ∨ w.app.dumpPhase = .recording

/-- The step meets the recording settled where the shutdown relies on it: at its
look at the phase, at the first section of its own finish, and in that no start
is let in from that look on. -/
def Step.Settled (w : World) : Step → Prop
  | .shutdown => w.Settled
  | .finishEnter .shutdown _ _ _ _ => w.Settled
  | .startEnter lang filtered _ =>
      w.shutdown = .ahead ∨ (w.app.startRefusal lang filtered).isSome = true
  | _ => True

instance (w : World) : Decidable w.Settled := by
  unfold World.Settled
  infer_instance

instance (w : World) (e : Step) : Decidable (e.Settled w) := by
  unfold Step.Settled
  split <;> infer_instance

/-- How far the shutdown of a settled run has come. -/
inductive ShutdownStage (w : World) : Prop
  | ahead (h : w.shutdown = .ahead)
  | seen (h : w.shutdown = .seen) (phase : w.app.dumpPhase ≠ .starting)
  | finishing (h : w.shutdown = .finishing) (t : FinishTask) (tasks : w.tasks = [.finish t])
      (caller : t.caller = .shutdown)
  | past (h : w.shutdown = .saving ∨ w.shutdown = .returned) (phase : w.app.dumpPhase = .idle)

namespace ShutdownStage

variable {w w' : World}

theorem congr (h : ShutdownStage w) (hphase : w'.app.dumpPhase = w.app.dumpPhase)
    (htasks : w'.tasks = w.tasks) (hshutdown : w'.shutdown = w.shutdown) : ShutdownStage w' := by
  cases h with
  | ahead h => exact .ahead (hshutdown.trans h)
  | seen h phase => exact .seen (hshutdown.trans h) (hphase ▸ phase)
  | finishing h t tasks caller =>
      exact .finishing (hshutdown.trans h) t (htasks.trans tasks) caller
  | past h phase => exact .past (hshutdown ▸ h) (hphase.trans phase)

/-- A start that takes a section was let in before the shutdown. -/
theorem ahead_of_starting (h : ShutdownStage w) {t : StartTask} (tasks : w.tasks = [.start t])
    (phase : w.app.dumpPhase = .starting) : w.shutdown = .ahead := by
  cases h with
  | ahead h => exact h
  | seen _ hphase => exact absurd phase hphase
  | finishing _ t' tasks' _ => rw [tasks] at tasks'; simp at tasks'
  | past _ hphase => rw [phase] at hphase; contradiction

theorem stepStart (h : ShutdownStage w) (stage : Stage w) {i : ℕ} {t : StartTask}
    (hat : w.startAt i = some t) {e : Step} (fires : w.stepStart i t e = some w') :
    ShutdownStage w' := by
  obtain ⟨-, tasks, phase, -, -, -⟩ := stage.of_startAt hat
  have hahead := h.ahead_of_starting tasks phase
  cases World.startStep fires with
  | launch lang l hpc => exact .ahead hahead
  | ready p started result hpc => exact .ahead hahead
  | last result now order hpc => exact .ahead hahead

theorem stepFinish (h : ShutdownStage w) (stage : Stage w) {i : ℕ} {t : FinishTask}
    (hat : w.finishAt i = some t) {e : Step} (fires : w.stepFinish i t e = some w') :
    ShutdownStage w' := by
  obtain ⟨rfl, tasks, phase, -, -, -⟩ := stage.of_finishAt hat
  -- Until the last section the finish goes on as the same caller's.
  have hgoes (t' : FinishTask) (fs : Annotate.Fs) (l : Ledger) (hcaller : t'.caller = t.caller) :
      ShutdownStage { w.setFinish 0 t' with fs := fs, ledger := l } := by
    cases h with
    | ahead h => exact .ahead h
    | seen h hphase => exact .seen h hphase
    | finishing h t₀ tasks₀ caller =>
        rw [tasks, List.cons.injEq, Task.finish.injEq] at tasks₀
        refine .finishing h t' ?_ (hcaller.trans (tasks₀.1 ▸ caller))
        rw [World.setFinish, tasks]
        rfl
    | past _ hphase => rw [phase] at hphase; contradiction
  cases World.finishStep fires with
  | stop hpc => exact hgoes _ w.fs _ rfl
  | stopped handle ended hpc => exact hgoes _ w.fs _ rfl
  | move pc m fs hpc hended => exact hgoes { t with dumpMeta := m, pc := pc } fs w.ledger rfl
  | last outcome hpc =>
      by_cases hcaller : t.caller = .shutdown
      · exact .past (.inl (if_pos hcaller)) rfl
      · cases h with
        | ahead h => exact .ahead ((if_neg hcaller).trans h)
        | seen h _ => exact .seen ((if_neg hcaller).trans h) (by simp [App.finishLast])
        | finishing h t₀ tasks₀ caller =>
            rw [tasks, List.cons.injEq, Task.finish.injEq] at tasks₀
            exact absurd (tasks₀.1 ▸ caller) hcaller
        | past _ hphase => rw [phase] at hphase; contradiction

theorem startEnter (h : ShutdownStage w) {lang : Lang} {filtered : Bool} {path : String}
    (hsettled : (Step.startEnter lang filtered path).Settled w)
    (fires : w.step (.startEnter lang filtered path) = some w') : ShutdownStage w' := by
  simp only [World.step] at fires
  obtain ⟨e, -, heq⟩ | ⟨-, hletIn, heq⟩ := w.app.startEnter_cases lang filtered path
  · rw [heq, Option.some.injEq] at fires
    exact fires ▸ h
  · rw [heq, Option.some.injEq] at fires
    subst fires
    rcases hsettled with hahead | hrefused
    · exact .ahead hahead
    · rw [hletIn] at hrefused
      contradiction

theorem finishEnter (h : ShutdownStage w) (stage : Stage w) {caller : Caller} {lang : Lang}
    {check : Except String Unit} {now : ℕ} {order : HashOrder ConnKey}
    (hsettled : (Step.finishEnter caller lang check now order).Settled w)
    (fires : w.stepFinishEnter caller lang check now order = some w') : ShutdownStage w' := by
  obtain ⟨hseen, fires⟩ := Option.ite_none_left_eq_some.mp fires
  obtain ⟨hwhy, outcome, heq⟩ | ⟨hrecording, dump, m, -, -, -, heq⟩ :=
    w.app.finishEnter_cases lang (caller = .poll) check now order
  · rw [heq, Option.some.injEq] at fires
    subst fires
    by_cases hcaller : caller = .shutdown
    · subst hcaller
      have hphase : w.app.dumpPhase = .idle := by
        rcases hsettled with hidle | hrecording
        · exact hidle
        · rcases hwhy with hautomatic | hnot
          · simp at hautomatic
          · exact absurd hrecording hnot
      exact .past (.inl rfl) hphase
    · exact h.congr rfl rfl (if_neg hcaller)
  · rw [heq, Option.some.injEq] at fires
    subst fires
    have htasks : w.tasks = [] := by
      cases stage with
      | recording p phase tasks => exact tasks
      | idle phase => rw [phase] at hrecording; contradiction
      | starting t phase => rw [phase] at hrecording; contradiction
      | finishing t p phase => rw [phase] at hrecording; contradiction
    by_cases hcaller : caller = .shutdown
    · refine .finishing (if_pos hcaller)
        { caller := caller, recording := dump.process, dump := dump, dumpMeta := m, pc := .entered }
        ?_ hcaller
      rw [htasks]
      rfl
    · cases h with
      | ahead h => exact .ahead ((if_neg hcaller).trans h)
      | seen h _ => exact .seen ((if_neg hcaller).trans h) (by simp)
      | finishing _ t tasks _ => rw [htasks] at tasks; simp at tasks
      | past _ hphase => rw [hrecording] at hphase; contradiction

theorem step (h : ShutdownStage w) (stage : Stage w) {e : Step} (hsettled : e.Settled w)
    (fires : w.step e = some w') : ShutdownStage w' := by
  cases e with
  | background b =>
      obtain rfl := Option.some.inj fires
      exact h.congr (w.app.background_same b).dumpPhase rfl rfl
  | exits p =>
      obtain rfl := Option.some.inj fires
      exact h.congr rfl rfl rfl
  | files fs =>
      obtain rfl := Option.some.inj fires
      exact h.congr rfl rfl rfl
  | startEnter lang filtered path => exact h.startEnter hsettled fires
  | finishEnter caller lang check now order => exact h.finishEnter stage hsettled fires
  | shutdown =>
      obtain ⟨-, hnext⟩ := Option.ite_none_right_eq_some.mp fires
      obtain rfl := Option.some.inj hnext
      rcases hsettled with hidle | hrecording
      · exact .past (.inl (if_neg (by simp [hidle]))) hidle
      · exact .seen (if_pos hrecording) (by simp [hrecording])
  | returns =>
      obtain ⟨hsaving, hnext⟩ := Option.ite_none_right_eq_some.mp fires
      obtain rfl := Option.some.inj hnext
      cases h with
      | past _ hphase => exact .past (.inr rfl) hphase
      | ahead h => rw [h] at hsaving; contradiction
      | seen h => rw [h] at hsaving; contradiction
      | finishing h => rw [h] at hsaving; contradiction
  | launch _ _ _ | ready _ _ | startLast _ _ _ =>
      obtain ⟨t, hat, hnext⟩ := Option.bind_eq_some_iff.mp fires
      exact h.stepStart stage hat hnext
  | stop _ | stopped _ _ | target _ | accounted _ _ | remember _ _ | check _ _ | plan _ _ _ _ _
  | process _ _ _ _ | finishLast _ =>
      obtain ⟨t, hat, hnext⟩ := Option.bind_eq_some_iff.mp fires
      exact h.stepFinish stage hat hnext

end ShutdownStage

/-! ## What the shutdown leaves behind -/

/-- In the first stage every capture that got under way has its report. -/
theorem Stage.finalized {w : World} (h : Stage w) (hidle : w.app.dumpPhase = .idle) :
    Finalized w := by
  cases h with
  | idle phase tasks noMeta free books =>
      refine ⟨phase, fun p hp => ?_⟩
      obtain hopened | hfinished := books.started p hp
      · contradiction
      · exact hfinished
  | starting t phase => rw [phase] at hidle; contradiction
  | recording p phase => rw [phase] at hidle; contradiction
  | finishing t p phase => rw [phase] at hidle; contradiction

/-- **A shutdown that meets the recording settled leaves none unfinished.** In
every run in which no operation on the recording is under way when the shutdown
looks at the phase and when its own finish begins, and no start is let in from
that look on, every capture that got under way is finalized once the shutdown
has returned. -/
theorem finalized_of_settled {store : Store} {iface : String} {whois : IpAddr → Option Whois}
    {self : ℤ} {fs : Annotate.Fs} {hist : History World Step} {w : World}
    (run : Run World.system (.initial (.initial store iface whois self) fs) hist w)
    (hsettled : ∀ entry ∈ hist, entry.2.Settled entry.1) (hreturned : w.shutdown = .returned) :
    Finalized w := by
  have hboth : Stage w ∧ ShutdownStage w := by
    refine run.invariant_of_guard (P := fun w => Stage w ∧ ShutdownStage w)
      (G := fun w e => e.Settled w) ⟨.initial store iface whois self fs, .ahead rfl⟩ ?_ hsettled
    intro s e s' h hnow fires
    exact ⟨h.1.step fires, h.2.step h.1 hnow fires⟩
  obtain ⟨stage, shutdown⟩ := hboth
  cases shutdown with
  | past _ hphase => exact stage.finalized hphase
  | ahead h => rw [h] at hreturned; contradiction
  | seen h => rw [h] at hreturned; contradiction
  | finishing h => rw [h] at hreturned; contradiction

/-- A shutdown that looks at the phase while an operation is under way returns
without it, whatever the operation is about to do. -/
theorem returns_unfinalized {w : World} (hahead : w.shutdown = .ahead) (hunsettled : ¬ w.Settled) :
    ∃ hist w', Run World.system w hist w' ∧ w'.shutdown = .returned ∧ ¬ Finalized w' := by
  obtain ⟨hidle, hrecording⟩ := not_or.mp hunsettled
  have hlook : World.system.step w .shutdown = some { w with shutdown := .saving } := by
    simp [World.system, World.step, hahead, hrecording]
  have hreturn : World.system.step { w with shutdown := .saving } .returns =
      some { w with shutdown := .returned } := rfl
  exact ⟨_, _, (Run.start.next hlook).next hreturn, rfl, fun h => hidle h.1⟩

/-- The capture process of the recording dies, the next poll finishes the recording
by itself, and the program is closed meanwhile. -/
def sampleClosing : List Step :=
  sampleStart ++
    [.exits 0, .finishEnter .poll .en (.error "dumpcap stopped unexpectedly. ") 20 .stored, .stop 0,
      .shutdown, .returns]

/-- A shutdown that looks at the phase while a recording is finished by itself
returns before the recording has its report. -/
theorem closed_while_finishing :
    ¬ ∀ hist w, Run World.system sampleWorld hist w → w.shutdown = .returned → Finalized w := by
  intro h
  have hfinalized := h _ _ (Run.start.play sampleClosing) rfl
  have hphase : (World.system.play [] sampleWorld sampleClosing).2.app.dumpPhase = .finishing := rfl
  rw [Finalized, hphase] at hfinalized
  exact absurd hfinalized.1 (by decide)

/-- The program is closed while it records. -/
def sampleClosed : List Step :=
  sampleStart ++
    [.shutdown, .finishEnter .shutdown .en (.ok ()) 20 .stored, .stop 0, .stopped 0 (.ok ()),
      .target 0, .accounted 0 true, .remember 0 .stored, .check 0 .en, .plan 0 .en 0 30 .stored,
      .process 0 .en (.panics "disk failure" fun _ => none) false, .finishLast 0, .returns]

/-- A program that is closed while it records finalizes the recording. -/
theorem finalized_of_settled_sample :
    Finalized (World.system.play [] sampleWorld sampleClosed).2 :=
  finalized_of_settled (Run.start.play sampleClosed) (by decide) rfl

end SocketTrail.Program
