/-
# Merging the versions of a row

A recording remembers a row by merging its versions one after another. A merge
compares neighbours only: the newest version with what was remembered. `Doubtful`
is the doubt over a whole sequence of versions, also between distant ones, and a
doubt that has arisen once is never lost again.
-/

import Mathlib.Data.List.Chain
import Mathlib.Data.List.Induction
import SocketTrail.State.Conn

namespace SocketTrail.State

namespace Conn

/-- The first version as it is remembered, and the later ones merged into it. -/
def mergeAll (first : Conn) (rest : List Conn) : Conn :=
  rest.foldl updateRecording first

/-- The earlier version knows an owner or a socket that the later one does not
have. -/
def LosesOwner (old new : Conn) : Prop :=
  (old.pid.isSome = true ∧ new.pid ≠ old.pid) ∨
  (old.ownerStarted.isSome = true ∧ new.ownerStarted ≠ old.ownerStarted) ∨
  (old.udpGeneration.isSome = true ∧ new.udpGeneration ≠ old.udpGeneration)

/-- The versions begin at different instants and share no known UDP socket. -/
def BeginsAnew (old new : Conn) : Prop :=
  old.firstSeen ≠ new.firstSeen ∧
    ¬(old.udpGeneration.isSome = true ∧ old.udpGeneration = new.udpGeneration)

/-- A version is disputed, a known owner or socket is lost at a later version, or
neighbours begin anew. -/
def Doubtful (versions : List Conn) : Prop :=
  (∃ v ∈ versions, v.ownerAmbiguous = true) ∨
  (∃ u v, [u, v].Sublist versions ∧ LosesOwner u v) ∨
  ∃ u v, [u, v] <:+: versions ∧ BeginsAnew u v

/-- No owner is left in a disputed row. -/
def Disputed (c : Conn) : Prop :=
  c.ownerAmbiguous = true ∧ c.pid = none ∧ c.ownerStarted = none ∧ c.pname = none

/-- Two neighbours disagree exactly if one of them is disputed, the owner is lost
or the row begins anew. -/
theorem versionsDisagree_iff {old new : Conn} :
    old.versionsDisagree new = true ↔ old.ownerAmbiguous = true ∨ new.ownerAmbiguous = true ∨
      LosesOwner old new ∨ BeginsAnew old new := by
  simp only [versionsDisagree, sameUdpSocket, LosesOwner, BeginsAnew, Bool.or_eq_true,
    Bool.and_eq_true, bne_iff_ne, Bool.not_and, beq_eq_false_iff_ne, ne_eq,
    eq_comm (a := new.pid), eq_comm (a := new.ownerStarted), eq_comm (a := new.udpGeneration),
    Bool.not_eq_eq_eq_not, Bool.not_true, not_and_or, Bool.not_eq_true]
  tauto

/-! ## Sequences without a doubt -/

/-- No doubt in the sequence. -/
structure Continuous (versions : List Conn) : Prop where
  clear : ∀ v ∈ versions, v.ownerAmbiguous = false
  keeps : versions.Pairwise fun u v => ¬LosesOwner u v
  joined : versions.IsChain fun u v => ¬BeginsAnew u v

theorem not_doubtful_iff {versions : List Conn} : ¬Doubtful versions ↔ Continuous versions := by
  constructor
  · intro h
    refine ⟨fun v hv => ?_, ?_, ?_⟩
    · by_contra hambiguous
      exact h (.inl ⟨v, hv, Bool.eq_true_of_not_eq_false hambiguous⟩)
    · refine List.pairwise_iff_forall_sublist.mpr fun hsub hloses => ?_
      exact h (.inr (.inl ⟨_, _, hsub, hloses⟩))
    · refine List.isChain_iff_forall_rel_of_append_cons_cons.mpr fun u v front back heq hanew => ?_
      exact h (.inr (.inr ⟨u, v, ⟨front, back, by simp [heq]⟩, hanew⟩))
  · rintro ⟨hclear, hkeeps, hjoined⟩ (⟨v, hv, hambiguous⟩ | ⟨u, v, hsub, hloses⟩ |
      ⟨u, v, hadjacent, hanew⟩)
    · simp [hclear v hv] at hambiguous
    · exact List.pairwise_iff_forall_sublist.mp hkeeps hsub hloses
    · have hlink := List.IsChain.infix hjoined hadjacent
      exact hlink.rel hanew

/-- A loss over a distance is a loss at the next step or was one before. -/
theorem losesOwner_trans {u v w : Conn} (h : LosesOwner u w) (hkept : ¬LosesOwner u v) :
    LosesOwner v w := by
  unfold LosesOwner at *
  grind

/-- A sequence goes on without a doubt exactly if its last version and the next
one do not disagree. -/
theorem continuous_concat {versions : List Conn} {last next : Conn}
    (h : Continuous (versions ++ [last])) :
    Continuous (versions ++ [last] ++ [next]) ↔ last.versionsDisagree next = false := by
  have hlast : last.ownerAmbiguous = false := h.clear last (by simp)
  rw [← Bool.not_eq_true, versionsDisagree_iff, not_or, not_or, not_or]
  constructor
  · intro hall
    refine ⟨by simp [hlast], by simp [hall.clear next (by simp)], ?_, ?_⟩
    · exact (List.pairwise_append.mp hall.keeps).2.2 last (by simp) next (by simp)
    · exact (List.isChain_append.mp hall.joined).2.2 last (by simp) next (by simp)
  · rintro ⟨-, hnext, hkeeps, hjoined⟩
    refine ⟨fun v hv => ?_, ?_, ?_⟩
    · rcases List.mem_append.mp hv with hv | hv
      · exact h.clear v hv
      · rw [List.mem_singleton.mp hv]
        exact Bool.eq_false_of_not_eq_true hnext
    · refine List.pairwise_append.mpr ⟨h.keeps, List.pairwise_singleton .., fun v hv w hw => ?_⟩
      rw [List.mem_singleton.mp hw]
      rcases List.mem_append.mp hv with hv | hv
      · have hbetween : ¬LosesOwner v last :=
          (List.pairwise_append.mp h.keeps).2.2 v hv last (by simp)
        exact fun hloses => hkeeps (losesOwner_trans hloses hbetween)
      · rw [List.mem_singleton.mp hv]
        exact hkeeps
    · refine List.isChain_append.mpr ⟨h.joined, List.isChain_singleton _, fun v hv w hw => ?_⟩
      obtain rfl : last = v := by simpa using hv
      obtain rfl : next = w := by simpa using hw
      exact hjoined

theorem Continuous.of_append {versions later : List Conn} (h : Continuous (versions ++ later)) :
    Continuous versions where
  clear v hv := h.clear v (List.mem_append_left _ hv)
  keeps := (List.pairwise_append.mp h.keeps).1
  joined := (List.isChain_append.mp h.joined).1

/-! ## Merging -/

theorem mergeAll_concat (first : Conn) (rest : List Conn) (v : Conn) :
    mergeAll first (rest ++ [v]) = (mergeAll first rest).updateRecording v := by
  rw [mergeAll, List.foldl_append]
  rfl

/-- A merge that leaves a dispute leaves no owner. -/
theorem disputed_of_updateRecording {old current : Conn}
    (h : (old.updateRecording current).ownerAmbiguous = true) :
    Disputed (old.updateRecording current) := by
  unfold updateRecording at h ⊢
  split
  · exact ⟨rfl, rfl, rfl, rfl⟩
  · rename_i hagree
    rw [if_neg hagree] at h
    exact absurd (versionsDisagree_iff.mpr (.inr (.inl h))) hagree

/-- What a sequence merges to: its last version if there is no doubt in it, else
a disputed row. -/
theorem mergeAll_cases (first : Conn) (rest : List Conn) :
    (Continuous (first :: rest) ∧ mergeAll first rest = rest.getLastD first) ∨
      (¬Continuous (first :: rest) ∧ (mergeAll first rest).ownerAmbiguous = true) := by
  induction rest using List.reverseRecOn with
  | nil =>
      cases hfirst : first.ownerAmbiguous with
      | false => exact .inl ⟨⟨by simp [hfirst], by simp, by simp⟩, rfl⟩
      | true =>
          refine .inr ⟨fun h => ?_, hfirst⟩
          simp [h.clear first (by simp)] at hfirst
  | append_singleton rest v ih =>
      rw [mergeAll_concat, ← List.cons_append, List.getLastD_concat]
      rcases ih with ⟨hcontinuous, hmerged⟩ | ⟨hdoubt, hambiguous⟩
      · generalize hlast : rest.getLastD first = last at hmerged
        have hend : (first :: rest).getLast (by simp) = last :=
          (List.getLast_eq_getLastD _).trans hlast
        obtain ⟨before, hversions⟩ : ∃ before, first :: rest = before ++ [last] :=
          ⟨_, hend ▸ (List.dropLast_concat_getLast (by simp)).symm⟩
        rw [hversions] at hcontinuous ⊢
        have hiff : Continuous (before ++ [last] ++ [v]) ↔ last.versionsDisagree v = false :=
          continuous_concat hcontinuous
        rw [hmerged, updateRecording]
        cases hdisagree : last.versionsDisagree v with
        | false => exact .inl ⟨hiff.mpr hdisagree, by simp⟩
        | true =>
            refine .inr ⟨fun h => ?_, rfl⟩
            simp [hiff.mp h] at hdisagree
      · refine .inr ⟨fun h => hdoubt h.of_append, ?_⟩
        rw [updateRecording, if_pos (versionsDisagree_iff.mpr (.inl hambiguous))]
        rfl

/-- Disputes are absorbing. Once there is a doubt in the versions merged so far,
every row that any later versions merge to is disputed and has no owner, from the
first merge on; without a doubt the owner is that of the last version. -/
theorem mergeAll_absorbs (first : Conn) (rest : List Conn) :
    (Doubtful (first :: rest) → ∀ later : List Conn,
      (mergeAll first (rest ++ later)).ownerAmbiguous = true ∧
      (rest ++ later ≠ [] → Disputed (mergeAll first (rest ++ later)))) ∧
    (¬Doubtful (first :: rest) →
      mergeAll first rest = rest.getLastD first) := by
  constructor
  · intro hdoubt later
    have hambiguous : (mergeAll first (rest ++ later)).ownerAmbiguous = true := by
      rcases mergeAll_cases first (rest ++ later) with ⟨h, -⟩ | ⟨-, h⟩
      · rw [← List.cons_append] at h
        exact absurd hdoubt (not_doubtful_iff.mpr h.of_append)
      · exact h
    refine ⟨hambiguous, fun hmerged => ?_⟩
    rw [← List.dropLast_concat_getLast hmerged, mergeAll_concat] at hambiguous ⊢
    exact disputed_of_updateRecording hambiguous
  · intro hclear
    rcases mergeAll_cases first rest with ⟨-, h⟩ | ⟨h, -⟩
    · exact h
    · exact absurd (not_doubtful_iff.mp hclear) h

end Conn

end SocketTrail.State
