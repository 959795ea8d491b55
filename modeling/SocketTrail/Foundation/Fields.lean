/-
# Fields with one run left out

Fields that are joined by a separator can be told apart again, as long as the separator
stands in none of them. An empty field in the middle may stand for one run of equal
fields: where the number of fields is known, a reader can fill in the run.
-/

import Mathlib.Data.List.Basic
import Mathlib.Data.List.TakeWhile

namespace SocketTrail.Foundation.Fields

variable {α : Type*}

/-- The fields of what may have none: at least an empty one. -/
def orBlank (fields : List (List α)) : List (List α) := if fields = [] then [[]] else fields

/-- The fields with an empty one in place of what is left out between them. -/
def gapped (left right : List (List α)) : List (List α) := orBlank left ++ [] :: orBlank right

/-- Put `n` fields for the empty ones. -/
def filled (n : ℕ) (field : List α) (fields : List (List α)) : List (List α) :=
  let left := fields.takeWhile fun f => !f.isEmpty
  let right := (fields.dropWhile fun f => !f.isEmpty).filter fun f => !f.isEmpty
  left ++ List.replicate (n - left.length - right.length) field ++ right

/-! ## Joining -/

theorem mem_orBlank {fields : List (List α)} {f : List α} (h : f ∈ orBlank fields) :
    f ∈ fields ∨ f = [] := by
  unfold orBlank at h
  split at h
  · exact .inr (List.mem_singleton.mp h)
  · exact .inl h

theorem mem_gapped {left right : List (List α)} {f : List α} (h : f ∈ gapped left right) :
    f ∈ left ∨ f ∈ right ∨ f = [] := by
  rcases List.mem_append.mp h with hleft | hright
  · exact (mem_orBlank hleft).imp_right .inr
  · rcases List.mem_cons.mp hright with rfl | hright
    · exact .inr (.inr rfl)
    · exact .inr (mem_orBlank hright)

theorem orBlank_ne_nil (fields : List (List α)) : orBlank fields ≠ [] := by
  unfold orBlank
  split
  · exact List.cons_ne_nil _ _
  · assumption

theorem intercalate_orBlank (sep : List α) (fields : List (List α)) :
    sep.intercalate (orBlank fields) = sep.intercalate fields := by
  unfold orBlank
  split
  · rename_i hnil
    rw [hnil, List.intercalate_singleton, List.intercalate_nil]
  · rfl

theorem intercalate_append {sep : List α} {first second : List (List α)} (hfirst : first ≠ [])
    (hsecond : second ≠ []) :
    sep.intercalate (first ++ second) =
      sep.intercalate first ++ sep ++ sep.intercalate second := by
  induction first with
  | nil => exact absurd rfl hfirst
  | cons f first ih =>
      cases first with
      | nil =>
          rw [List.singleton_append, List.intercalate_cons_of_ne_nil hsecond,
            List.intercalate_singleton]
      | cons f' first =>
          have hrest : f' :: first ++ second ≠ [] := List.cons_ne_nil _ _
          have hcons : sep.intercalate (f :: f' :: first) =
              f ++ sep ++ sep.intercalate (f' :: first) := List.intercalate_cons_cons
          rw [List.cons_append, List.intercalate_cons_of_ne_nil hrest, hcons,
            ih (List.cons_ne_nil _ _)]
          simp only [List.append_assoc]

/-- What is left out is written as two separators. -/
theorem intercalate_gapped (sep : List α) (left right : List (List α)) :
    sep.intercalate (gapped left right) =
      sep.intercalate left ++ (sep ++ sep) ++ sep.intercalate right := by
  rw [gapped, intercalate_append (orBlank_ne_nil left) (List.cons_ne_nil _ _),
    List.intercalate_cons_of_ne_nil (orBlank_ne_nil right), intercalate_orBlank, intercalate_orBlank]
  simp only [List.append_assoc, List.nil_append]

/-! ## Filling in -/

variable {n : ℕ} {field : List α} {left right : List (List α)}

theorem filled_of_full {fields : List (List α)} (h : ∀ f ∈ fields, f ≠ [])
    (hlength : fields.length = n) : filled n field fields = fields := by
  have htake : (fields.takeWhile fun f => !f.isEmpty) = fields :=
    List.takeWhile_eq_self_iff.mpr fun f hf => by simpa using h f hf
  have hdrop : (fields.dropWhile fun f => !f.isEmpty) = [] :=
    List.dropWhile_eq_nil_iff.mpr fun f hf => by simpa using h f hf
  unfold filled
  simp [htake, hdrop, hlength]

/-- The fields in front of the run are those up to the first empty one. -/
theorem takeWhile_gapped (hleft : ∀ f ∈ left, f ≠ []) :
    (gapped left right).takeWhile (fun f => !f.isEmpty) = left := by
  unfold gapped orBlank
  split
  · rename_i hnil
    rw [hnil]
    rfl
  · rw [List.takeWhile_append_of_pos fun f hf => by simpa using hleft f hf]
    simp

theorem filter_dropWhile_gapped (hleft : ∀ f ∈ left, f ≠ []) (hright : ∀ f ∈ right, f ≠ []) :
    ((gapped left right).dropWhile fun f => !f.isEmpty).filter (fun f => !f.isEmpty) = right := by
  have hfilter : (orBlank right).filter (fun f => !f.isEmpty) = right := by
    unfold orBlank
    split
    · rename_i hnil
      rw [hnil]
      rfl
    · exact List.filter_eq_self.mpr fun f hf => by simpa using hright f hf
  unfold gapped
  rw [orBlank.eq_1 left]
  split
  · simp [hfilter]
  · rw [List.dropWhile_append_of_pos fun f hf => by simpa using hleft f hf]
    simp [hfilter]

/-- A run of fields that is left out is filled in. -/
theorem filled_gapped {len : ℕ} (hleft : ∀ f ∈ left, f ≠ []) (hright : ∀ f ∈ right, f ≠ [])
    (hlength : left.length + len + right.length = n) :
    filled n field (gapped left right) = left ++ List.replicate len field ++ right := by
  have hrun : n - left.length - right.length = len := by omega
  simp only [filled, takeWhile_gapped hleft, filter_dropWhile_gapped hleft hright, hrun]

end SocketTrail.Foundation.Fields
