/-
# Sorting with ties

Elements that a sorting order does not tell apart keep the order they had before.
`rank` counts the elements strictly ahead of one: an element without ties stands at its
rank whatever the order before was, and of tied elements the one that came first stands
there. So the beginning of a sorted list depends on the order before just if ties reach
into it.
-/

import Mathlib.Data.List.Nodup
import Mathlib.Data.List.Perm.Basic
import Mathlib.Data.Nat.Notation

namespace SocketTrail.Foundation

variable {α : Type*} (le : α → α → Bool)

/-- The order puts `a` before `b` and not the other way. -/
def ahead (a b : α) : Bool := le a b && !le b a

/-- The order does not tell `a` from `b`. -/
def Ties (a b : α) : Prop := le a b = true ∧ le b a = true

/-- How many elements of a list are strictly ahead of `a`. -/
def rank (l : List α) (a : α) : ℕ := l.countP fun x => ahead le x a

section Rank

variable {le} {l l' front back : List α} {a b : α}

theorem rank_perm (h : l.Perm l') (a : α) : rank le l a = rank le l' a := h.countP_eq _

/-- Only elements in front of `a` in a sorted list are ahead of it. -/
theorem rank_split (hsorted : (front ++ a :: back).Pairwise fun x y => le x y = true) :
    rank le (front ++ a :: back) a = front.countP fun x => ahead le x a := by
  obtain ⟨-, hrest, -⟩ := List.pairwise_append.mp hsorted
  have hback : (a :: back).countP (fun x => ahead le x a) = 0 := by
    rw [List.countP_eq_zero]
    intro x hx
    rcases List.mem_cons.mp hx with rfl | hx
    · simp [ahead]
    · simp [ahead, (List.pairwise_cons.mp hrest).1 x hx]
  rw [rank, List.countP_append, hback, Nat.add_zero]

/-- An element stands at its rank if what is in front of it is ahead of it. -/
theorem rank_eq_length (hsorted : (front ++ a :: back).Pairwise fun x y => le x y = true)
    (h : ∀ x ∈ front, ¬ Ties le x a) : rank le (front ++ a :: back) a = front.length := by
  rw [rank_split hsorted, List.countP_eq_length]
  intro x hx
  have hle : le x a = true := (List.pairwise_append.mp hsorted).2.2 x hx a List.mem_cons_self
  have hnot : le a x = false := by
    rw [← Bool.not_eq_true]
    exact fun hback => h x hx ⟨hle, hback⟩
  simp [ahead, hle, hnot]

/-- An element without ties stands at its rank. -/
theorem rank_eq_length_of_nodup (hnodup : (front ++ a :: back).Nodup)
    (hsorted : (front ++ a :: back).Pairwise fun x y => le x y = true)
    (h : ∀ x ∈ front ++ a :: back, x ≠ a → ¬ Ties le x a) :
    rank le (front ++ a :: back) a = front.length := by
  refine rank_eq_length hsorted fun x hx => h x (List.mem_append_left _ hx) ?_
  rintro rfl
  exact (List.disjoint_of_nodup_append hnodup) hx List.mem_cons_self

/-- The beginning of a sorted list does not depend on the order before if no ties
reach into it. -/
theorem take_eq_of_ties {k : ℕ} (hperm : l.Perm l') (hnodup : l.Nodup)
    (hsorted : l.Pairwise fun x y => le x y = true)
    (hsorted' : l'.Pairwise fun x y => le x y = true)
    (h : ∀ x ∈ l, ∀ a ∈ l, x ≠ a → Ties le x a → k ≤ rank le l a) : l.take k = l'.take k := by
  refine List.ext_getElem? fun i => ?_
  rw [List.getElem?_take, List.getElem?_take]
  split_ifs with hi
  · cases ha : l[i]? with
    | none =>
        rw [List.getElem?_eq_none_iff, hperm.length_eq] at ha
        exact (List.getElem?_eq_none ha).symm
    | some a =>
        obtain ⟨hinside, rfl⟩ := List.getElem?_eq_some_iff.mp ha
        have hmem : l[i] ∈ l := List.getElem_mem hinside
        have hsplit : l = l.take i ++ l[i] :: l.drop (i + 1) := by
          rw [← List.drop_eq_getElem_cons hinside, List.take_append_drop]
        have hlength : (l.take i).length = i := List.length_take_of_le (Nat.le_of_lt hinside)
        generalize l[i] = a at hmem hsplit
        -- at most `i` elements are ahead of `a`, so it has no ties
        have hfew : rank le l a ≤ i := by
          rw [hsplit] at hsorted ⊢
          rw [rank_split hsorted]
          exact Nat.le_trans List.countP_le_length (Nat.le_of_eq hlength)
        have huntied : ∀ x ∈ l, x ≠ a → ¬ Ties le x a := fun x hx hne hties => by
          have := h x hx a hmem hne hties
          omega
        have hrank : rank le l a = i := by
          rw [hsplit] at hnodup hsorted huntied ⊢
          rw [rank_eq_length_of_nodup hnodup hsorted huntied, hlength]
        obtain ⟨front, back, rfl⟩ := List.append_of_mem (hperm.mem_iff.mp hmem)
        have hrank' := rank_eq_length_of_nodup (hperm.nodup_iff.mp hnodup) hsorted'
          fun x hx => huntied x (hperm.mem_iff.mpr hx)
        rw [← rank_perm hperm, hrank] at hrank'
        subst hrank'
        simp
  · rfl

/-- Tied elements have the same rank. -/
theorem rank_eq_of_ties (trans : ∀ a b c, le a b = true → le b c = true → le a c = true)
    (h : Ties le a b) : rank le l a = rank le l b := by
  have hsame (x : α) : ahead le x a = ahead le x b := by
    have hto : le x a = le x b :=
      Bool.eq_iff_iff.mpr ⟨fun hx => trans x a b hx h.1, fun hx => trans x b a hx h.2⟩
    have hfrom : le a x = le b x :=
      Bool.eq_iff_iff.mpr ⟨fun hx => trans b a x h.2 hx, fun hx => trans a b x h.1 hx⟩
    rw [ahead, ahead, hto, hfrom]
  rw [rank, rank]
  exact List.countP_congr fun x _ => by rw [hsame x]

/-- The first element of a list stands at its rank when the list is sorted. -/
theorem getElem?_mergeSort_cons
    (trans : ∀ a b c, le a b = true → le b c = true → le a c = true)
    (total : ∀ a b, (le a b || le b a) = true) (a : α) (l : List α) :
    ((a :: l).mergeSort le)[rank le (a :: l) a]? = some a := by
  obtain ⟨front, back, hsplit, -, hahead⟩ := List.mergeSort_cons trans total a l
  have hsorted := List.pairwise_mergeSort trans total (a :: l)
  have hrank : rank le ((a :: l).mergeSort le) a = rank le (a :: l) a :=
    rank_perm (List.mergeSort_perm _ _) a
  rw [hsplit] at hsorted hrank ⊢
  have hfront : ∀ x ∈ front, ¬ Ties le x a := by
    intro x hx hties
    have hnot := hahead x hx
    rw [hties.2] at hnot
    contradiction
  rw [← hrank, rank_eq_length hsorted hfront]
  simp

/-- Without ties the order before leaves no trace. -/
theorem mergeSort_eq_of_untied
    (trans : ∀ a b c, le a b = true → le b c = true → le a c = true)
    (total : ∀ a b, (le a b || le b a) = true) (hperm : l.Perm l')
    (h : ∀ a ∈ l, ∀ b ∈ l, Ties le a b → a = b) : l.mergeSort le = l'.mergeSort le := by
  have hsame : (l.mergeSort le).Perm (l'.mergeSort le) :=
    (List.mergeSort_perm l le).trans (hperm.trans (List.mergeSort_perm l' le).symm)
  refine List.Perm.eq_of_pairwise (fun a b ha hb hab hba => ?_)
    (List.pairwise_mergeSort trans total l) (List.pairwise_mergeSort trans total l') hsame
  exact h a (List.mem_mergeSort.mp ha) b (hperm.mem_iff.mpr (List.mem_mergeSort.mp hb)) ⟨hab, hba⟩

/-- Two elements stand in one order only. -/
theorem not_both_orders (hnodup : l.Nodup) (hab : [a, b].Sublist l) : ¬ [b, a].Sublist l := by
  intro hba
  obtain ⟨front, back, hsplit, ha, hrest⟩ := List.cons_sublist_iff.mp hab
  obtain ⟨front', back', hsplit', hb, hrest'⟩ := List.cons_sublist_iff.mp hba
  have hb' : b ∈ back := List.singleton_sublist.mp hrest
  have ha' : a ∈ back' := List.singleton_sublist.mp hrest'
  have hapart : List.Disjoint front back := List.disjoint_of_nodup_append (hsplit ▸ hnodup)
  have hapart' : List.Disjoint front' back' := List.disjoint_of_nodup_append (hsplit' ▸ hnodup)
  rcases List.append_eq_append_iff.mp (hsplit.symm.trans hsplit') with
    ⟨middle, hfront, -⟩ | ⟨middle, hfront, -⟩
  · exact hapart' (hfront ▸ List.mem_append_left _ ha) ha'
  · exact hapart (hfront ▸ List.mem_append_left _ hb) hb'

theorem either_order (hne : a ≠ b) (ha : a ∈ l) (hb : b ∈ l) :
    [a, b].Sublist l ∨ [b, a].Sublist l := by
  obtain ⟨front, back, rfl⟩ := List.append_of_mem ha
  rcases List.mem_append.mp hb with hfront | hrest
  · right
    exact (List.singleton_sublist.mpr hfront).append (List.singleton_sublist.mpr List.mem_cons_self)
  · left
    have hback : b ∈ back := (List.mem_cons.mp hrest).resolve_left hne.symm
    exact List.sublist_append_of_sublist_right
      (List.cons_sublist_cons.mpr (List.singleton_sublist.mpr hback))

/-- Sorting leaves elements that it does not tell apart in the order they had before. -/
theorem pairwise_mergeSort_stable {R : α → α → Prop}
    (trans : ∀ a b c, le a b = true → le b c = true → le a c = true)
    (total : ∀ a b, (le a b || le b a) = true) (hnodup : l.Nodup) (h : l.Pairwise R) :
    (l.mergeSort le).Pairwise fun a b => ahead le a b = true ∨ (Ties le a b ∧ R a b) := by
  have hnodup' : (l.mergeSort le).Nodup := (List.mergeSort_perm l le).nodup_iff.mpr hnodup
  rw [List.pairwise_iff_forall_sublist]
  intro a b hab
  have hle : le a b = true :=
    List.pairwise_iff_forall_sublist.mp (List.pairwise_mergeSort trans total l) hab
  by_cases hback : le b a = true
  · refine .inr ⟨⟨hle, hback⟩, ?_⟩
    have hne : a ≠ b := List.pairwise_iff_forall_sublist.mp hnodup' hab
    have ha : a ∈ l := List.mem_mergeSort.mp (hab.subset List.mem_cons_self)
    have hb : b ∈ l :=
      List.mem_mergeSort.mp (hab.subset (List.mem_cons_of_mem _ List.mem_cons_self))
    -- the other order would have been kept
    have hbefore : [a, b].Sublist l := (either_order hne ha hb).resolve_right fun hba =>
      not_both_orders hnodup' hab (List.pair_sublist_mergeSort trans total hback hba)
    exact List.pairwise_iff_forall_sublist.mp h hbefore
  · exact .inl (by simp [ahead, hle, hback])

end Rank

end SocketTrail.Foundation
