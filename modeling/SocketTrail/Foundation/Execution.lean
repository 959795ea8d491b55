/-
# Executions that remember their history

A `System` is a guarded step function. A `Run` records, newest entry first,
every state the system was in together with the event that fired there, so a
statement about the past of a state is a statement about its history and needs
no instrumentation of the system itself.

`Run.invariant` is the induction principle for properties of a single state,
`Run.invariant_of_guard` the one for properties that only steps of a certain
kind preserve, and `Run.historyInvariant` the one for properties that tie a
state to its history. `System.timed` runs a system under a clock that never
steps back.

An observer sees a part of the state, as a relation that says which states look
alike. `alike_mattering` leaves out of a run the events that do not matter to the
observer: it sees the same at the end.
-/

import Mathlib.Data.List.Infix
import Mathlib.Order.Monotone.Basic
import Mathlib.Tactic.Cases

namespace SocketTrail.Foundation

universe u v

/-- A guarded step function: `none` when the event cannot fire. -/
structure System (S : Type u) (E : Type v) where
  step : S → E → Option S

namespace System

variable {S : Type u} {E : Type v}

/-- A system whose events can always fire. -/
def ofFun (step : S → E → S) : System S E where
  step s e := some (step s e)

@[simp]
theorem ofFun_step (step : S → E → S) (s : S) (e : E) :
    (ofFun step).step s e = some (step s e) := rfl

end System

/-- A history: the states passed and the events fired there, newest first. -/
abbrev History (S : Type u) (E : Type v) : Type (max u v) := List (S × E)

/-- `Run sys s₀ hist s`: starting at `s₀`, the events of `hist` lead to `s`. -/
inductive Run {S : Type u} {E : Type v} (sys : System S E) (s₀ : S) :
    History S E → S → Prop
  | start : Run sys s₀ [] s₀
  | next {hist : History S E} {s s' : S} {e : E} (prior : Run sys s₀ hist s)
      (fires : sys.step s e = some s') : Run sys s₀ ((s, e) :: hist) s'

namespace Run

variable {S : Type u} {E : Type v} {sys : System S E} {s₀ s₁ s : S}
  {hist earlier later : History S E}

/-- Runs compose, the later history in front of the earlier one. -/
theorem append (first : Run sys s₀ earlier s₁) (second : Run sys s₁ later s) :
    Run sys s₀ (later ++ earlier) s := by
  induction second with
  | start => exact first
  | next _ fires ih => exact ih.next fires

/-- A run passes through the state at which any part of its history ended. -/
theorem split (run : Run sys s₀ (later ++ earlier) s) :
    ∃ middle, Run sys s₀ earlier middle ∧ Run sys middle later s := by
  induction later generalizing s with
  | nil => exact ⟨s, run, .start⟩
  | cons entry later ih =>
      cases run with
      | next prior fires =>
          obtain ⟨middle, hbefore, hafter⟩ := ih prior
          exact ⟨middle, hbefore, hafter.next fires⟩

/-- A property of single states that every step preserves. -/
theorem invariant {P : S → Prop} (hstart : P s₀)
    (hstep : ∀ s e s', P s → sys.step s e = some s' → P s')
    (run : Run sys s₀ hist s) : P s := by
  induction run with
  | start => exact hstart
  | next _ fires ih => exact hstep _ _ _ ih fires

/-- A property that the steps of one kind preserve, along a run all of whose
steps are of that kind. -/
theorem invariant_of_guard {P : S → Prop} {G : S → E → Prop} (hstart : P s₀)
    (hstep : ∀ s e s', P s → G s e → sys.step s e = some s' → P s')
    (run : Run sys s₀ hist s) (hguard : ∀ entry ∈ hist, G entry.1 entry.2) : P s := by
  induction run with
  | start => exact hstart
  | next _ fires ih =>
      have hnow := hguard _ (List.mem_cons_self ..)
      have hpast := ih fun entry hentry => hguard entry (List.mem_cons_of_mem _ hentry)
      exact hstep _ _ _ hpast hnow fires

/-- A property of a state together with the history that led to it. -/
theorem historyInvariant {P : History S E → S → Prop} (hstart : P [] s₀)
    (hstep : ∀ hist s e s', Run sys s₀ hist s → P hist s → sys.step s e = some s' →
      P ((s, e) :: hist) s')
    (run : Run sys s₀ hist s) : P hist s := by
  induction run with
  | start => exact hstart
  | next prior fires ih => exact hstep _ _ _ _ prior ih fires

end Run

/-- Every state of a run has the property: those it passed and the one it
reached. -/
def Throughout {S : Type u} {E : Type v} (P : S → Prop) (hist : History S E) (s : S) : Prop :=
  (∀ entry ∈ hist, P entry.1) ∧ P s

/-- If a step keeps the property exactly under a condition, then every state of a
run has it if and only if every step meets the condition. The steps may be of one
kind throughout. -/
theorem Run.throughout_iff_of_guard {S : Type u} {E : Type v} {sys : System S E} {s₀ s : S}
    {hist : History S E} {P : S → Prop} {G H : S → E → Prop} (hstart : P s₀)
    (hstep : ∀ hist s e s', Run sys s₀ hist s → (∀ entry ∈ hist, H entry.1 entry.2) → H s e →
      P s → sys.step s e = some s' → (P s' ↔ G s e))
    (run : Run sys s₀ hist s) (hguard : ∀ entry ∈ hist, H entry.1 entry.2) :
    Throughout P hist s ↔ ∀ entry ∈ hist, G entry.1 entry.2 := by
  induction run with
  | start => exact iff_of_true ⟨by simp, hstart⟩ (by simp)
  | next prior fires ih =>
      obtain ⟨hkind, hkinds⟩ := List.forall_mem_cons.mp hguard
      rw [List.forall_mem_cons, ← ih hkinds]
      constructor
      · rintro ⟨hpast, hnow⟩
        rw [List.forall_mem_cons] at hpast
        have hmeets := (hstep _ _ _ _ prior hkinds hkind hpast.1 fires).mp hnow
        exact ⟨hmeets, hpast.2, hpast.1⟩
      · rintro ⟨hmeets, hpast, hbefore⟩
        refine ⟨?_, (hstep _ _ _ _ prior hkinds hkind hbefore fires).mpr hmeets⟩
        exact List.forall_mem_cons.mpr ⟨hbefore, hpast⟩

theorem Run.throughout_iff {S : Type u} {E : Type v} {sys : System S E} {s₀ s : S}
    {hist : History S E} {P : S → Prop} {G : S → E → Prop} (hstart : P s₀)
    (hstep : ∀ hist s e s', Run sys s₀ hist s → P s → sys.step s e = some s' → (P s' ↔ G s e))
    (run : Run sys s₀ hist s) : Throughout P hist s ↔ ∀ entry ∈ hist, G entry.1 entry.2 :=
  run.throughout_iff_of_guard (H := fun _ _ => True) hstart
    (fun hist s e s' prior _ _ => hstep hist s e s' prior) (fun _ _ => trivial)

/-! ## Playing events -/

/-- Fire events one after another and remember the history; an event that
cannot fire is passed over. -/
def System.play {S : Type u} {E : Type v} (sys : System S E) (hist : History S E) (s : S) :
    List E → History S E × S
  | [] => (hist, s)
  | e :: rest =>
      match sys.step s e with
      | none => sys.play hist s rest
      | some s' => sys.play ((s, e) :: hist) s' rest

/-- What is played after a run continues the run. -/
theorem Run.play {S : Type u} {E : Type v} {sys : System S E} {s₀ s : S} {hist : History S E}
    (run : Run sys s₀ hist s) (events : List E) :
    Run sys s₀ (sys.play hist s events).1 (sys.play hist s events).2 := by
  induction events generalizing hist s with
  | nil => exact run
  | cons e rest ih =>
      rw [System.play]
      split
      · exact ih run
      · rename_i s' fires
        exact ih (run.next fires)

/-- What is played is remembered, and nothing else. -/
theorem System.mem_play {S : Type u} {E : Type v} {sys : System S E} {hist : History S E} {s : S}
    {events : List E} {entry : S × E} (h : entry ∈ (sys.play hist s events).1) :
    entry ∈ hist ∨ entry.2 ∈ events := by
  induction events generalizing hist s with
  | nil => exact .inl h
  | cons e rest ih =>
      rw [System.play] at h
      split at h
      · exact (ih h).imp id (List.mem_cons_of_mem e)
      · rcases ih h with hpast | hrest
        · rcases List.mem_cons.mp hpast with rfl | hpast
          · exact .inr (List.mem_cons_self ..)
          · exact .inl hpast
        · exact .inr (List.mem_cons_of_mem e hrest)

/-! ## What an observer depends on -/

section Unwinding

variable {S : Type u} {E : Type v}

/-- The state after the events, one after another. -/
abbrev after (step : S → E → S) (s : S) (events : List E) : S := events.foldl step s

/-- The events without those that do not matter where they happen. -/
def mattering (step : S → E → S) (matters : S → E → Bool) : S → List E → List E
  | _, [] => []
  | s, e :: rest =>
      if matters s e then e :: mattering step matters (step s e) rest
      else mattering step matters (step s e) rest

/-- Every event of a run happens in a state in which it is allowed to. -/
def Along (step : S → E → S) (allowed : S → E → Prop) : S → List E → Prop
  | _, [] => True
  | s, e :: rest => allowed s e ∧ Along step allowed (step s e) rest

/-- **Unwinding.** What does not matter can be left out. -/
theorem alike_mattering {step : S → E → S} {matters : S → E → Bool} {allowed : S → E → Prop}
    {Alike : S → S → Prop}
    (hboth : ∀ s s' e, Alike s s' → allowed s e → matters s e = true →
      Alike (step s e) (step s' e))
    (halone : ∀ s s' e, Alike s s' → allowed s e → matters s e = false → Alike (step s e) s')
    {s s' : S} (h : Alike s s') {events : List E} (hallowed : Along step allowed s events) :
    Alike (after step s events) (after step s' (mattering step matters s events)) := by
  induction events generalizing s s' with
  | nil => exact h
  | cons e rest ih =>
      obtain ⟨hnow, hlater⟩ := hallowed
      rw [mattering]
      cases hmatters : matters s e with
      | true =>
          rw [if_pos rfl]
          exact ih (hboth s s' e h hnow hmatters) hlater
      | false =>
          rw [if_neg Bool.false_ne_true]
          exact ih (halone s s' e h hnow hmatters) hlater

end Unwinding

/-! ## Clocks -/

/-- The readings of a clock during one step, in the order in which the step
takes them. A clock never steps back, and the step ends at some instant. -/
structure Clock where
  read : ℕ → ℕ
  mono : Monotone read
  finish : ℕ
  read_le_finish : ∀ i, read i ≤ finish

namespace Clock

/-- A clock that stands still during the step. -/
def still (t : ℕ) : Clock where
  read _ := t
  mono _ _ _ := le_rfl
  finish := t
  read_le_finish _ := le_rfl

@[simp]
theorem still_read (t i : ℕ) : (still t).read i = t := rfl

/-- The instant at which the step begins. -/
def start (c : Clock) : ℕ := c.read 0

theorem start_le_read (c : Clock) (i : ℕ) : c.start ≤ c.read i :=
  c.mono (Nat.zero_le i)

theorem start_le_finish (c : Clock) : c.start ≤ c.finish :=
  c.read_le_finish 0

end Clock

/-- The system under a clock that never steps back: the second component of a
state is the end of the last step, and no step begins before it. -/
def System.timed {S : Type u} {E : Type v} (sys : System S E) (clock : E → Clock) :
    System (S × ℕ) E where
  step s e :=
    if s.2 ≤ (clock e).start then (sys.step s.1 e).map fun s' => (s', (clock e).finish) else none

theorem System.timed_step_eq_some {S : Type u} {E : Type v} {sys : System S E} {clock : E → Clock}
    {s s' : S × ℕ} {e : E} (h : (sys.timed clock).step s e = some s') :
    s.2 ≤ (clock e).start ∧ sys.step s.1 e = some s'.1 ∧ s'.2 = (clock e).finish := by
  simp only [System.timed, Option.ite_none_right_eq_some, Option.map_eq_some_iff] at h
  obtain ⟨hle, next, hnext, rfl⟩ := h
  exact ⟨hle, hnext, rfl⟩

end SocketTrail.Foundation
