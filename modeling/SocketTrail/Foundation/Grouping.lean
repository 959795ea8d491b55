/-
# Grouping rows by a key

Rows are gathered in a map, each into the value under its key. However the rows of
different keys follow each other, the value of a key is what its own rows give in
their order, and a sum over all rows is the sum of the sums over the groups.
-/

import Mathlib.Algebra.BigOperators.Group.List.Basic
import SocketTrail.Foundation.KeyedMap

namespace SocketTrail.Foundation

universe u v w

variable {ρ : Type u} {κ : Type v} {β : Type w} [DecidableEq κ]

/-- Gather the rows; `update` puts a row into the value of its key, if there is one
already. -/
def gather (keyOf : ρ → κ) (update : Option β → ρ → β) (rows : List ρ) (map : KeyedMap κ β) :
    KeyedMap κ β :=
  rows.foldl (fun map row =>
    map.insert (keyOf row) (update (map.lookup (keyOf row)) row)) map

/-- The rows of one key, in their order. -/
def groupOf (keyOf : ρ → κ) (rows : List ρ) (key : κ) : List ρ :=
  rows.filter fun row => keyOf row = key

theorem mem_groupOf {keyOf : ρ → κ} {rows : List ρ} {key : κ} {row : ρ} :
    row ∈ groupOf keyOf rows key ↔ row ∈ rows ∧ keyOf row = key := by
  simp [groupOf]

/-- The value of a key is gathered from its own rows. -/
theorem lookup_gather (keyOf : ρ → κ) (update : Option β → ρ → β) (rows : List ρ)
    (map : KeyedMap κ β) (key : κ) :
    (gather keyOf update rows map).lookup key =
      (groupOf keyOf rows key).foldl (fun value row => some (update value row))
        (map.lookup key) := by
  induction rows generalizing map with
  | nil => rfl
  | cons row rest ih =>
      have hstep : (gather keyOf update (row :: rest) map).lookup key =
          (groupOf keyOf rest key).foldl (fun value row => some (update value row))
            ((map.insert (keyOf row) (update (map.lookup (keyOf row)) row)).lookup key) :=
        ih _
      rw [hstep]
      by_cases hkey : keyOf row = key
      · subst hkey
        rw [AList.lookup_insert, groupOf, groupOf, List.filter_cons_of_pos (by simp)]
        rfl
      · rw [AList.lookup_insert_ne (Ne.symm hkey), groupOf, groupOf,
          List.filter_cons_of_neg (by simpa using hkey)]

theorem foldl_some_eq_none {update : Option β → ρ → β} {group : List ρ} :
    group.foldl (fun value row => some (update value row)) none = none ↔ group = [] := by
  cases group using List.reverseRecOn with
  | nil => simp
  | append_singleton group row => simp

/-- A property of the value of a key together with its rows, if the first row
brings it about and every later one keeps it. -/
theorem gather_induction {keyOf : ρ → κ} {update : Option β → ρ → β} {rows : List ρ} {key : κ}
    {P : List ρ → β → Prop} (hfirst : ∀ row, keyOf row = key → P [row] (update none row))
    (hnext : ∀ group value row, P group value → keyOf row = key →
      P (group ++ [row]) (update (some value) row))
    {value : β} (h : (gather keyOf update rows ∅).lookup key = some value) :
    P (groupOf keyOf rows key) value := by
  rw [lookup_gather, AList.lookup_empty] at h
  have hkeys : ∀ row ∈ groupOf keyOf rows key, keyOf row = key :=
    fun row hrow => (mem_groupOf.mp hrow).2
  generalize groupOf keyOf rows key = group at h hkeys
  induction group using List.reverseRecOn generalizing value with
  | nil => contradiction
  | append_singleton group row ih =>
      rw [List.forall_mem_append] at hkeys
      have hrow : keyOf row = key := hkeys.2 row (List.mem_singleton_self row)
      rw [List.foldl_append, List.foldl_cons, List.foldl_nil, Option.some.injEq] at h
      subst h
      cases hvalue : group.foldl (fun value row => some (update value row)) none with
      | none =>
          obtain rfl := foldl_some_eq_none.mp hvalue
          exact hfirst row hrow
      | some value => exact hnext group value row (ih hvalue hkeys.1) hrow

/-- A key has a value exactly if it occurs. -/
theorem mem_gather {keyOf : ρ → κ} {update : Option β → ρ → β} {rows : List ρ} {key : κ} :
    key ∈ gather keyOf update rows ∅ ↔ ∃ row ∈ rows, keyOf row = key := by
  rw [← not_iff_not, ← AList.lookup_eq_none, lookup_gather, AList.lookup_empty, foldl_some_eq_none,
    groupOf, List.filter_eq_nil_iff]
  simp

/-- A sum over all rows is the sum of the sums over the groups. -/
theorem sum_groupOf (keyOf : ρ → κ) (n : ρ → ℕ) {keys : List κ} (hnodup : keys.Nodup)
    {rows : List ρ} (hall : ∀ row ∈ rows, keyOf row ∈ keys) :
    (keys.map fun key => ((groupOf keyOf rows key).map n).sum).sum = (rows.map n).sum := by
  induction rows with
  | nil => simp [groupOf]
  | cons row rest ih =>
      obtain ⟨hrow, hrest⟩ := List.forall_mem_cons.mp hall
      have hsplit : ∀ key, ((groupOf keyOf (row :: rest) key).map n).sum =
          (if key = keyOf row then n row else 0) + ((groupOf keyOf rest key).map n).sum := by
        intro key
        unfold groupOf
        rw [List.filter_cons]
        by_cases hkey : keyOf row = key
        · simp [hkey]
        · simp [hkey, Ne.symm hkey]
      have hone : (keys.map fun key => if key = keyOf row then n row else 0).sum = n row := by
        rw [List.sum_map_eq_nsmul_single (keyOf row) _ fun key hne _ => if_neg hne,
          List.count_eq_one_of_mem hnodup hrow, if_pos rfl, one_nsmul]
      simp only [hsplit]
      rw [List.sum_map_add, hone, ih hrest, List.map_cons, List.sum_cons]

/-- Counting is a sum, so groups can be counted as they are summed up. -/
theorem countP_eq_sum (p : ρ → Bool) (rows : List ρ) :
    rows.countP p = (rows.map fun row => if p row then 1 else 0).sum := by
  induction rows with
  | nil => rfl
  | cons row rest ih =>
      rw [List.countP_cons, ih, List.map_cons, List.sum_cons, Nat.add_comm]

end SocketTrail.Foundation
