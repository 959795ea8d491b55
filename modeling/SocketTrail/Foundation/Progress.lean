/-
# Work that gets done

Some of the events of a system are work towards a goal. `Progresses` says by a rank
that this work cannot go on for ever, that nothing else makes more of it, and that
until the goal is met some work can be done. Then no run does more work than the rank
of its first state without meeting the goal, and the goal can be met from every state.
-/

import SocketTrail.Foundation.Execution

namespace SocketTrail.Foundation

universe u v

variable {S : Type u} {E : Type v}

/-- How often a run did work. -/
def workDone (work : E → Bool) (hist : History S E) : ℕ := hist.countP fun entry => work entry.2

/-- While the invariant holds and the goal is not met, work lowers the rank and
nothing raises it. -/
structure Progresses (sys : System S E) (inv goal : S → Prop) (work : E → Bool) (rank : S → ℕ) :
    Prop where
  keeps : ∀ {s e s'}, inv s → sys.step s e = some s' → inv s'
  works : ∀ {s e s'}, inv s → ¬ goal s → work e = true → sys.step s e = some s' → rank s' < rank s
  waits : ∀ {s e s'}, inv s → ¬ goal s → work e = false → sys.step s e = some s' →
    rank s' ≤ rank s
  can : ∀ {s}, inv s → ¬ goal s → ∃ e s', work e = true ∧ sys.step s e = some s'

namespace Progresses

variable {sys : System S E} {inv goal : S → Prop} {work : E → Bool} {rank : S → ℕ} {s₀ s : S}
  {hist : History S E}

theorem inv_run (h : Progresses sys inv goal work rank) (hinv : inv s₀) (run : Run sys s₀ hist s) :
    inv s :=
  run.invariant hinv fun _ _ _ => h.keeps

/-- Short of the goal, the work done and the rank that is left are no more than the
rank at first. -/
theorem workDone_add_rank_le (h : Progresses sys inv goal work rank) (hinv : inv s₀)
    (run : Run sys s₀ hist s) (hshort : ∀ entry ∈ hist, ¬ goal entry.1) :
    workDone work hist + rank s ≤ rank s₀ := by
  induction run with
  | start => exact Nat.le_of_eq (Nat.zero_add _)
  | @next hist s s' e prior fires ih =>
      obtain ⟨hnow, hpast⟩ := List.forall_mem_cons.mp hshort
      have hbefore := ih hpast
      have hs := h.inv_run hinv prior
      unfold workDone at hbefore ⊢
      rw [List.countP_cons]
      by_cases hwork : work e = true
      · have hless := h.works hs hnow hwork fires
        rw [if_pos hwork]
        omega
      · have hsame := h.waits hs hnow (Bool.not_eq_true _ ▸ hwork) fires
        rw [if_neg hwork]
        omega

/-- A run that has done as much work as the rank of its first state has met the goal. -/
theorem goal_of_workDone (h : Progresses sys inv goal work rank) (hinv : inv s₀)
    (run : Run sys s₀ hist s) (hdone : rank s₀ ≤ workDone work hist) :
    (∃ entry ∈ hist, goal entry.1) ∨ goal s := by
  by_contra hnever
  obtain ⟨hpast, hnow⟩ := not_or.mp hnever
  have hshort : ∀ entry ∈ hist, ¬ goal entry.1 := by
    intro entry hentry hgoal
    exact hpast ⟨entry, hentry, hgoal⟩
  have hle := h.workDone_add_rank_le hinv run hshort
  obtain ⟨e, s', hwork, fires⟩ := h.can (h.inv_run hinv run) hnow
  have hless := h.works (h.inv_run hinv run) hnow hwork fires
  omega

/-- The goal can be met by work alone, and by no more of it than the rank. -/
theorem exists_run (h : Progresses sys inv goal work rank) (hinv : inv s) :
    ∃ hist s', Run sys s hist s' ∧ goal s' ∧ hist.length ≤ rank s ∧
      ∀ entry ∈ hist, work entry.2 = true := by
  induction hrank : rank s using Nat.strong_induction_on generalizing s with
  | _ n ih =>
      by_cases hgoal : goal s
      · exact ⟨[], s, .start, hgoal, Nat.zero_le _, fun _ hmem => by contradiction⟩
      · obtain ⟨e, s₁, hwork, fires⟩ := h.can hinv hgoal
        have hless := h.works hinv hgoal hwork fires
        obtain ⟨hist, s', run, hmet, hlength, hall⟩ :=
          ih (rank s₁) (hrank ▸ hless) (h.keeps hinv fires) rfl
        refine ⟨hist ++ [(s, e)], s', (Run.start.next fires).append run, hmet, ?_, ?_⟩
        · rw [List.length_append, List.length_singleton]
          omega
        · intro entry hentry
          rcases List.mem_append.mp hentry with hlater | hfirst
          · exact hall entry hlater
          · rw [List.mem_singleton.mp hfirst]
            exact hwork

end Progresses

end SocketTrail.Foundation
