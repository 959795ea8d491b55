/-
# Lists in another order

A set that remembers the order of arrival is a list that an element joins at its
end, unless it is there already. Joining one element after another leaves the
distinct elements in the order of their first occurrence: `foldl_join`.

Searching a list for its only match, and taking that match out, does not depend
on the order of the list. Numbering the elements of a list does, and `renumbering`
is the permutation that leads from the numbers of one order to those of another.
-/

import Mathlib.Data.List.Nodup
import Mathlib.Data.List.Perm.Basic
import Mathlib.Data.Nat.Notation
import Mathlib.Logic.Equiv.Defs

namespace SocketTrail.Foundation

/-! ## Lists without repetitions -/

section Join

variable {α : Type*} [DecidableEq α] {l : List α} {a b : α}

/-- Joining a list once keeps it free of repetitions. -/
theorem nodup_join (h : l.Nodup) (a : α) : (if a ∈ l then l else l ++ [a]).Nodup := by
  split
  · exact h
  · rename_i ha
    rw [← List.concat_eq_append]
    exact List.Nodup.concat ha h

theorem mem_join : b ∈ (if a ∈ l then l else l ++ [a]) ↔ b ∈ l ∨ b = a := by
  split
  · rename_i ha
    exact ⟨.inl, fun h => h.elim id fun heq => heq ▸ ha⟩
  · rw [List.mem_append, List.mem_singleton]

theorem nodup_foldl_join (h : l.Nodup) (more : List α) :
    (more.foldl (fun l a => if a ∈ l then l else l ++ [a]) l).Nodup := by
  induction more generalizing l with
  | nil => exact h
  | cons a rest ih => exact ih (nodup_join h a)

/-- Elements that join one after another stand behind the others, each at its first
occurrence. -/
theorem foldl_join (l more : List α) :
    more.foldl (fun l a => if a ∈ l then l else l ++ [a]) l =
      l ++ (more.filter fun a => a ∉ l).eraseDups := by
  induction more generalizing l with
  | nil => simp
  | cons a rest ih =>
      rw [List.foldl_cons, ih]
      by_cases ha : a ∈ l
      · simp [ha]
      · have hrest : (rest.filter fun b => b ∉ l ++ [a]) =
            (rest.filter fun b => b ∉ l).filter fun b => !b == a := by
          rw [List.filter_filter]
          congr 1
          funext b
          simp only [List.mem_append, List.mem_singleton, not_or, Bool.decide_and, decide_not,
            beq_eq_decide, Bool.and_comm]
        simp only [ha, if_false, not_false_eq_true, decide_true, List.filter_cons_of_pos,
          List.eraseDups_cons, hrest, List.append_assoc, List.singleton_append]

theorem nodup_eraseDups (more : List α) : more.eraseDups.Nodup := by
  have hjoin := foldl_join [] more
  have hall : (more.filter fun a => a ∉ ([] : List α)) = more := by simp
  rw [hall, List.nil_append] at hjoin
  rw [← hjoin]
  exact nodup_foldl_join List.nodup_nil more

end Join

/-! ## The only match -/

/-- At most one element of the list satisfies `p`. -/
def AtMostOne {α : Type*} (p : α → Bool) (l : List α) : Prop :=
  l.Pairwise fun a b => ¬ (p a = true ∧ p b = true)

namespace AtMostOne

variable {α : Type*} {p : α → Bool} {l l' : List α}

theorem filter (h : AtMostOne p l) (q : α → Bool) : AtMostOne p (l.filter q) :=
  List.Pairwise.filter q h

theorem perm (h : AtMostOne p l) (hperm : l.Perm l') : AtMostOne p l' :=
  hperm.pairwise h fun hab hba => hab hba.symm

/-- Behind the match there is no other. -/
theorem of_cons {a : α} (h : AtMostOne p (a :: l)) (ha : p a = true) :
    ∀ b ∈ l, p b = false := by
  intro b hb
  rw [← Bool.not_eq_true]
  exact fun hpb => (List.pairwise_cons.mp h).1 b hb ⟨ha, hpb⟩

/-- Taking the match out leaves the elements that do not match. -/
theorem eraseP_eq_filter (h : AtMostOne p l) : l.eraseP p = l.filter fun a => !p a := by
  induction l with
  | nil => rfl
  | cons a rest ih =>
      by_cases ha : p a = true
      · have hrest : (rest.filter fun b => !p b) = rest :=
          List.filter_eq_self.mpr fun b hb => by rw [h.of_cons ha b hb, Bool.not_false]
        rw [List.eraseP_cons_of_pos ha, List.filter_cons_of_neg (by simp [ha]), hrest]
      · rw [List.eraseP_cons_of_neg ha, List.filter_cons_of_pos (by simpa using ha),
          ih (List.pairwise_cons.mp h).2]

/-- The match is found in any order. -/
theorem find?_eq (h : AtMostOne p l) (hperm : l.Perm l') : l'.find? p = l.find? p := by
  induction hperm with
  | nil => rfl
  | cons a _ ih =>
      rw [List.find?_cons, List.find?_cons, ih (List.pairwise_cons.mp h).2]
  | swap a b rest =>
      by_cases ha : p a = true
      · have hb : p b = false := by
          rw [← Bool.not_eq_true]
          exact fun hb => (List.pairwise_cons.mp h).1 a (List.mem_cons_self ..) ⟨hb, ha⟩
        rw [List.find?_cons_of_pos ha, List.find?_cons_of_neg (by simp [hb]),
          List.find?_cons_of_pos ha]
      · rw [List.find?_cons_of_neg ha, List.find?_cons, List.find?_cons,
          List.find?_cons_of_neg ha]
  | trans hfirst _ ihfirst ihsecond => rw [ihsecond (h.perm hfirst), ihfirst h]

end AtMostOne

/-! ## Numbers in the order of a list -/

section Number

variable {α : Type*} [DecidableEq α]

/-- The number of an element when those of `l` are numbered from `base + 1` on. -/
def numberOf (base : ℕ) (l : List α) (a : α) : ℕ := base + 1 + l.idxOf a

/-- The number in the order `l'` of the element that has the number `n` in the
order `l`. Other numbers stay as they are. -/
def renumber (base : ℕ) (l l' : List α) (n : ℕ) : ℕ :=
  if n ≤ base then n
  else
    match l[n - (base + 1)]? with
    | some a => numberOf base l' a
    | none => n

variable {base n : ℕ} {l l' : List α} {a : α}

theorem renumber_of_le (l l' : List α) (h : n ≤ base) : renumber base l l' n = n :=
  if_pos h

theorem renumber_of_gt (l' : List α) (h : base + l.length < n) : renumber base l l' n = n := by
  have hnone : l[n - (base + 1)]? = none := List.getElem?_eq_none (by omega)
  rw [renumber, if_neg (by omega), hnone]

/-- An element goes by its number in the one order and in the other. -/
theorem renumber_numberOf (l' : List α) (ha : a ∈ l) :
    renumber base l l' (numberOf base l a) = numberOf base l' a := by
  have hindex : numberOf base l a - (base + 1) = l.idxOf a := Nat.add_sub_cancel_left ..
  have hbeyond : ¬ numberOf base l a ≤ base := by
    unfold numberOf
    omega
  rw [renumber, if_neg hbeyond, hindex, List.getElem?_idxOf ha]

/-- Renumbering there and back changes no number. -/
theorem renumber_renumber (hnodup : l.Nodup) (hperm : l.Perm l') (n : ℕ) :
    renumber base l' l (renumber base l l' n) = n := by
  by_cases hle : n ≤ base
  · rw [renumber_of_le l l' hle, renumber_of_le l' l hle]
  · by_cases hgt : base + l.length < n
    · rw [renumber_of_gt l' hgt, renumber_of_gt l (by rwa [← hperm.length_eq])]
    · have hindex : n - (base + 1) < l.length := by omega
      have hnumber : n = numberOf base l l[n - (base + 1)] := by
        rw [numberOf, hnodup.idxOf_getElem]
        omega
      have hmem : l[n - (base + 1)] ∈ l := List.getElem_mem hindex
      generalize l[n - (base + 1)] = b at hnumber hmem
      rw [hnumber, renumber_numberOf l' hmem, renumber_numberOf l (hperm.subset hmem)]

/-- The permutation that leads from the numbers of one order to those of the
other. -/
def renumbering (base : ℕ) {l l' : List α} (hnodup : l.Nodup) (hperm : l.Perm l') :
    Equiv.Perm ℕ where
  toFun := renumber base l l'
  invFun := renumber base l' l
  left_inv := renumber_renumber hnodup hperm
  right_inv := renumber_renumber (hperm.nodup_iff.mp hnodup) hperm.symm

end Number

end SocketTrail.Foundation
