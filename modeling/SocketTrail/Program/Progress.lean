/-
# No operation on the recording is stuck

Whatever else the program does meanwhile, an operation on the recording that is under
way can always take its next section, and it is over after three sections of a start
or nine of a finish. So from every state that the program can reach, the recording can
be brought to its end. The states behind the return of the shutdown are among them: the
program still runs there, but it waits for the live capture only.
-/

import SocketTrail.Foundation.Progress
import SocketTrail.Program.Shutdown

namespace SocketTrail.Program

open SocketTrail.Foundation SocketTrail.Net SocketTrail.State SocketTrail.Recording
  SocketTrail.Annotate

/-! ## What is left of an operation -/

/-- The sections that are left of a start. -/
def StartPc.left : StartPc → ℕ
  | .entered => 3
  | .spawned _ _ => 2
  | .last _ => 1

/-- The sections that are left of a finish. -/
def FinishPc.left : FinishPc → ℕ
  | .entered => 9
  | .stopping _ => 8
  | .stopped _ => 7
  | .accounting _ _ => 6
  | .accounted _ _ => 5
  | .remembered _ _ => 4
  | .checked _ => 3
  | .planned _ _ => 2
  | .last _ => 1

def Task.left : Task → ℕ
  | .start t => t.pc.left
  | .finish t => t.pc.left

/-- The sections that are left of the operations under way. -/
def World.left (w : World) : ℕ := (w.tasks.map Task.left).sum

/-- The event is a section of an operation behind its first. -/
def Step.isSection : Step → Bool
  | .launch .. | .ready .. | .startLast .. | .stop .. | .stopped .. | .target .. | .accounted ..
  | .remember .. | .check .. | .plan .. | .process .. | .finishLast .. => true
  | _ => false

theorem StartTask.left_launch (t : StartTask) (lang : Lang) (fresh : ℕ) (l : Launch) :
    (t.launch lang fresh l).pc.left ≤ 2 := by
  unfold StartTask.launch
  split <;> simp [StartPc.left]

theorem StartTask.left_ready (t : StartTask) (p started : ℕ) (result : Except String Unit) :
    (t.ready p started result).pc.left = 1 := by
  cases result <;> rfl

namespace World

variable {w w' : World} {e : Step}

theorem left_start {t : StartTask} (htasks : w.tasks = [.start t]) : w.left = t.pc.left := by
  unfold left
  rw [htasks]
  rfl

theorem left_finish {t : FinishTask} (htasks : w.tasks = [.finish t]) : w.left = t.pc.left := by
  unfold left
  rw [htasks]
  rfl

theorem left_nil (htasks : w.tasks = []) : w.left = 0 := by
  unfold left
  rw [htasks]
  rfl

/-- A section of a start behind its first leaves fewer. -/
theorem left_stepStart (stage : Stage w) {i : ℕ} {t : StartTask} (hat : w.startAt i = some t)
    (fires : w.stepStart i t e = some w') : w'.left < w.left := by
  obtain ⟨rfl, tasks, -⟩ := stage.of_startAt hat
  have hset {w'' : World} {t' : StartTask} (h : w''.tasks = (w.setStart 0 t').tasks) :
      w''.left = t'.pc.left := by
    refine left_start (h.trans ?_)
    rw [setStart, tasks]
    rfl
  rw [left_start tasks]
  cases startStep fires with
  | launch lang l hpc =>
      refine lt_of_eq_of_lt (hset rfl) ?_
      rw [hpc]
      exact Nat.lt_succ_of_le (t.left_launch lang w.ledger.launches l)
  | ready p started result hpc =>
      refine lt_of_eq_of_lt (hset rfl) ?_
      rw [hpc, t.left_ready]
      exact Nat.one_lt_two
  | last result now order hpc =>
      rw [left_nil (by rw [tasks]; rfl), hpc]
      exact Nat.one_pos

/-- A section of a finish behind its first leaves fewer. -/
theorem left_stepFinish (stage : Stage w) {i : ℕ} {t : FinishTask} (hat : w.finishAt i = some t)
    (fires : w.stepFinish i t e = some w') : w'.left < w.left := by
  obtain ⟨rfl, tasks, -⟩ := stage.of_finishAt hat
  have hset {w'' : World} {t' : FinishTask} (h : w''.tasks = (w.setFinish 0 t').tasks) :
      w''.left = t'.pc.left := by
    refine left_finish (h.trans ?_)
    rw [setFinish, tasks]
    rfl
  rw [left_finish tasks]
  unfold stepFinish at fires
  cases e with
  | finishLast _ =>
      dsimp only at fires
      split at fires
      · rename_i outcome hpc
        obtain rfl := Option.some.inj fires
        rw [left_nil (by rw [tasks]; rfl), hpc]
        exact Nat.one_pos
      · contradiction
  | accounted _ inTime =>
      dsimp only at fires
      split at fires
      · rename_i hpc
        obtain ⟨-, fires⟩ := Option.ite_none_left_eq_some.mp fires
        obtain rfl := Option.some.inj fires
        refine lt_of_eq_of_lt (hset rfl) ?_
        rw [hpc]
        exact Nat.lt_succ_self _
      · contradiction
  | stop _ | stopped _ _ | target _ | remember _ _ | check _ _ | plan _ _ _ _ _ | process _ _ _ _ =>
      dsimp only at fires
      split at fires
      · rename_i hpc
        obtain rfl := Option.some.inj fires
        refine lt_of_eq_of_lt (hset rfl) ?_
        rw [hpc]
        exact Nat.lt_succ_self _
      · contradiction
  | _ => contradiction

/-- While an operation is under way, nothing but its sections counts. -/
theorem tasks_of_not_section (hunsettled : ¬ w.Settled) (hsection : e.isSection = false)
    (fires : w.step e = some w') : w'.tasks = w.tasks := by
  obtain ⟨hidle, hrecording⟩ := not_or.mp hunsettled
  cases e with
  | background b | exits p | files fs =>
      obtain rfl := Option.some.inj fires
      rfl
  | startEnter lang filtered path =>
      simp only [World.step] at fires
      obtain ⟨e, -, heq⟩ | ⟨hphase, -⟩ := w.app.startEnter_cases lang filtered path
      · rw [heq, Option.some.injEq] at fires
        rw [fires]
      · exact absurd hphase hidle
  | finishEnter caller lang check now order =>
      obtain ⟨-, fires⟩ := Option.ite_none_left_eq_some.mp fires
      obtain ⟨-, outcome, heq⟩ | ⟨hphase, -⟩ :=
        w.app.finishEnter_cases lang (caller = .poll) check now order
      · rw [heq, Option.some.injEq] at fires
        subst fires
        rfl
      · exact absurd hphase hrecording
  | shutdown | returns =>
      obtain ⟨-, hnext⟩ := Option.ite_none_right_eq_some.mp fires
      obtain rfl := Option.some.inj hnext
      rfl
  | _ => contradiction

/-- A start that is under way can take its next section. -/
theorem can_start {t : StartTask} (tasks : w.tasks = [.start t]) :
    ∃ e w', e.isSection = true ∧ w.step e = some w' := by
  have hat : w.startAt 0 = some t := by
    unfold startAt
    rw [tasks]
    rfl
  have hstep (e : Step) (hsection : e.isSection = true)
      (hstart : w.step e = (w.startAt 0).bind fun t => w.stepStart 0 t e)
      (fires : (w.stepStart 0 t e).isSome = true) :
      ∃ e w', e.isSection = true ∧ w.step e = some w' := by
    obtain ⟨w', fires⟩ := Option.isSome_iff_exists.mp fires
    refine ⟨e, w', hsection, ?_⟩
    rw [hstart, hat]
    exact fires
  cases hpc : t.pc with
  | entered =>
      refine hstep (.launch 0 .en (.spawns 0)) rfl rfl ?_
      simp only [stepStart, hpc, Option.isSome_some]
  | spawned p started =>
      refine hstep (.ready 0 (.ok ())) rfl rfl ?_
      simp only [stepStart, hpc, Option.isSome_some]
  | last result =>
      refine hstep (.startLast 0 0 .stored) rfl rfl ?_
      simp only [stepStart, hpc, Option.isSome_some]

/-- A finish that is under way can take its next section; it waits for the accounting
until the deadline at the longest. -/
theorem can_finish {t : FinishTask} (tasks : w.tasks = [.finish t]) :
    ∃ e w', e.isSection = true ∧ w.step e = some w' := by
  have hat : w.finishAt 0 = some t := by
    unfold finishAt
    rw [tasks]
    rfl
  have hstep (e : Step) (hsection : e.isSection = true)
      (hfinish : w.step e = (w.finishAt 0).bind fun t => w.stepFinish 0 t e)
      (fires : (w.stepFinish 0 t e).isSome = true) :
      ∃ e w', e.isSection = true ∧ w.step e = some w' := by
    obtain ⟨w', fires⟩ := Option.isSome_iff_exists.mp fires
    refine ⟨e, w', hsection, ?_⟩
    rw [hfinish, hat]
    exact fires
  cases hpc : t.pc with
  | entered =>
      refine hstep (.stop 0) rfl rfl ?_
      simp only [stepFinish, hpc, Option.isSome_some]
  | stopping handle =>
      refine hstep (.stopped 0 (.ok ())) rfl rfl ?_
      simp only [stepFinish, hpc, Option.isSome_some]
  | stopped result =>
      refine hstep (.target 0) rfl rfl ?_
      simp only [stepFinish, hpc, Option.isSome_some]
  | accounting result target =>
      refine hstep (.accounted 0 false) rfl rfl ?_
      simp only [stepFinish, hpc, Bool.false_and, Bool.false_eq_true, if_false, Option.isSome_some]
  | accounted result inTime =>
      refine hstep (.remember 0 .stored) rfl rfl ?_
      simp only [stepFinish, hpc, Option.isSome_some]
  | remembered result inTime =>
      refine hstep (.check 0 .en) rfl rfl ?_
      simp only [stepFinish, hpc, Option.isSome_some]
  | checked errors =>
      refine hstep (.plan 0 .en 0 0 .stored) rfl rfl ?_
      simp only [stepFinish, hpc, Option.isSome_some]
  | planned errors made =>
      refine hstep (.process 0 .en (.panics "" w.fs) false) rfl rfl ?_
      simp only [stepFinish, hpc, Option.isSome_some]
  | last outcome =>
      refine hstep (.finishLast 0) rfl rfl ?_
      simp only [stepFinish, hpc, Option.isSome_some]

theorem left_section (stage : Stage w) (hsection : e.isSection = true)
    (fires : w.step e = some w') : w'.left < w.left := by
  cases e with
  | launch _ _ _ | ready _ _ | startLast _ _ _ =>
      obtain ⟨t, hat, hnext⟩ := Option.bind_eq_some_iff.mp fires
      exact left_stepStart stage hat hnext
  | stop _ | stopped _ _ | target _ | accounted _ _ | remember _ _ | check _ _ | plan _ _ _ _ _
  | process _ _ _ _ | finishLast _ =>
      obtain ⟨t, hat, hnext⟩ := Option.bind_eq_some_iff.mp fires
      exact left_stepFinish stage hat hnext
  | _ => contradiction

/-- The sections of the operation under way are work towards its end. -/
theorem progresses : Progresses system Stage Settled Step.isSection left where
  keeps stage fires := stage.step fires
  works stage _ hsection fires := left_section stage hsection fires
  waits _ hunsettled hsection fires := by
    unfold left
    rw [tasks_of_not_section hunsettled hsection fires]
  can stage hunsettled := by
    cases stage with
    | idle phase => exact absurd (.inl phase) hunsettled
    | recording p phase => exact absurd (.inr phase) hunsettled
    | starting t _ tasks => exact can_start tasks
    | finishing t p _ tasks => exact can_finish tasks

theorem left_le (stage : Stage w) : w.left ≤ 9 := by
  cases stage with
  | idle _ tasks | recording _ _ tasks =>
      rw [left_nil tasks]
      exact Nat.zero_le 9
  | starting t _ tasks =>
      rw [left_start tasks]
      cases t.pc <;> simp [StartPc.left]
  | finishing t p _ tasks =>
      rw [left_finish tasks]
      cases t.pc <;> simp [FinishPc.left]

end World

/-! ## Every operation ends -/

section Ends

variable {store : Store} {iface : String} {whois : IpAddr → Option Whois} {self : ℤ}
  {fs : Annotate.Fs} {hist later : History World Step} {w w' : World}

/-- **An operation on the recording is never stuck.** From any state the program can
reach, and whatever it does then, nine sections later the recording has been settled;
and while it is not, the next section can be taken. -/
theorem operation_ends
    (run : Run World.system (.initial (.initial store iface whois self) fs) hist w)
    (run' : Run World.system w later w') :
    (9 ≤ workDone Step.isSection later →
      (∃ entry ∈ later, entry.1.Settled) ∨ w'.Settled) ∧
    (¬ w'.Settled → ∃ e w'', e.isSection = true ∧ World.system.step w' e = some w'') := by
  have stage := Stage.run run
  constructor
  · intro hdone
    exact World.progresses.goal_of_workDone stage run' ((World.left_le stage).trans hdone)
  · intro hunsettled
    exact World.progresses.can (World.progresses.inv_run stage run') hunsettled

/-- The finish that the shutdown calls ends behind its nine sections. -/
theorem operation_ends_sample :
    let begun := (World.system.play [] sampleWorld (sampleClosed.take 7)).2
    let ended := World.system.play [] begun (sampleClosed.drop 7)
    ¬ begun.Settled ∧ ((∃ entry ∈ ended.1, entry.1.Settled) ∨ ended.2.Settled) :=
  ⟨by decide, (operation_ends (Run.start.play (sampleClosed.take 7))
    (Run.start.play (sampleClosed.drop 7))).1 (by decide)⟩

/-- A request finishes a recording that runs. -/
theorem World.finishEnter_recording (hrecording : w.app.dumpPhase = .recording) :
    ∃ w', World.system.step w (.finishEnter .request .en (.ok ()) 0 .stored) = some w' ∧
      w'.app.dumpPhase = .finishing := by
  have hfires : World.system.step w (.finishEnter .request .en (.ok ()) 0 .stored) =
      w.stepFinishEnter .request .en (.ok ()) 0 .stored := rfl
  rw [hfires]
  unfold World.stepFinishEnter
  rw [if_neg (fun h => by simp at h)]
  obtain ⟨hwhy, -⟩ | ⟨-, dump, m, -, -, -, heq⟩ :=
    w.app.finishEnter_cases .en (Caller.request = .poll) (.ok ()) 0 .stored
  · rcases hwhy with hautomatic | hnot
    · simp at hautomatic
    · exact absurd hrecording hnot
  · rw [heq]
    exact ⟨_, rfl, rfl⟩

/-- A finish that is under way goes on to the end of its recording. -/
theorem World.finishing_or_idle {e : Step} (stage : Stage w)
    (h : w.app.dumpPhase = .finishing ∨ w.app.dumpPhase = .idle) (hsection : e.isSection = true)
    (fires : World.system.step w e = some w') :
    w'.app.dumpPhase = .finishing ∨ w'.app.dumpPhase = .idle := by
  cases e with
  | launch _ _ _ | ready _ _ | startLast _ _ _ =>
      obtain ⟨t, hat, hnext⟩ := Option.bind_eq_some_iff.mp fires
      obtain ⟨-, -, hphase, -⟩ := stage.of_startAt hat
      rcases h with h | h <;> rw [hphase] at h <;> contradiction
  | stop _ | stopped _ _ | target _ | accounted _ _ | remember _ _ | check _ _ | plan _ _ _ _ _
  | process _ _ _ _ | finishLast _ =>
      obtain ⟨t, hat, hnext⟩ := Option.bind_eq_some_iff.mp fires
      cases World.finishStep hnext with
      | last outcome hpc => exact .inr rfl
      | _ => exact h
  | _ => contradiction

/-- From every state that the program can reach, every capture that got under way can
be brought to its report. -/
theorem finalized_reachable
    (run : Run World.system (.initial (.initial store iface whois self) fs) hist w) :
    ∃ later w', Run World.system w later w' ∧ later.length ≤ 19 ∧ Finalized w' := by
  obtain ⟨later, w₁, run₁, hsettled, hlength, -⟩ := World.progresses.exists_run (Stage.run run)
  have hnine := hlength.trans (World.left_le (Stage.run run))
  have stage₁ := Stage.run (run.append run₁)
  rcases hsettled with hidle | hrecording
  · exact ⟨later, w₁, run₁, by omega, stage₁.finalized hidle⟩
  · obtain ⟨w₂, fires, hfinishing⟩ := World.finishEnter_recording hrecording
    have stage₂ := World.progresses.keeps stage₁ fires
    obtain ⟨later', w₃, run₃, hsettled₃, hlength₃, hsections⟩ := World.progresses.exists_run stage₂
    have hnine₃ := hlength₃.trans (World.left_le stage₂)
    obtain ⟨stage₃, hphase⟩ := run₃.invariant_of_guard
      (P := fun w => Stage w ∧ (w.app.dumpPhase = .finishing ∨ w.app.dumpPhase = .idle))
      (G := fun _ e => e.isSection = true) ⟨stage₂, .inl hfinishing⟩
      (fun s e s' h hsection fires =>
        ⟨h.1.step fires, World.finishing_or_idle h.1 h.2 hsection fires⟩) hsections
    have hidle : w₃.app.dumpPhase = .idle := by
      rcases hphase with hfinishing | hidle
      · rcases hsettled₃ with h | h <;> rw [hfinishing] at h <;> contradiction
      · exact hidle
    refine ⟨later' ++ (w₁, _) :: later, w₃, Run.append (run₁.next fires) run₃, ?_,
      stage₃.finalized hidle⟩
    rw [List.length_append, List.length_cons]
    omega

/-- A recording whose finish has just been called can be brought to its report. -/
theorem finalized_reachable_sample :
    ∃ later w', Run World.system (World.system.play [] sampleWorld (sampleClosed.take 7)).2 later w' ∧
      later.length ≤ 19 ∧ Finalized w' :=
  finalized_reachable (Run.start.play (sampleClosed.take 7))

end Ends

end SocketTrail.Program
