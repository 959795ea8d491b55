/-
# Streams put together from slices

A receiver of slices keeps the elements that it has, which of them it has, and
how far they reach without a gap. `Gathered` relates the three to the stream that
the slices are cut from and to the positions received so far; `Gathered.insert`
is the one step, and needs no order, no bound on overlaps and no bound on
repetitions.
-/

import Mathlib.Data.List.Basic
import Mathlib.Data.List.Infix
import Mathlib.Data.List.TakeWhile
import Mathlib.Tactic.Cases

namespace SocketTrail.Foundation

universe u

variable {α : Type u}

/-- The list lengthened to `n` with copies of `x`; a longer list stays. -/
def grow (l : List α) (n : ℕ) (x : α) : List α := l ++ List.replicate (n - l.length) x

/-- Write elements from a position on, as far as the list reaches. -/
def overwrite : List α → ℕ → List α → List α
  | l, _, [] => l
  | l, o, x :: xs => overwrite (l.set o x) (o + 1) xs

/-- The first position from `ready` on whose flag is not set. -/
def advance (filled : List Bool) (ready : ℕ) : ℕ :=
  ready + ((filled.drop ready).takeWhile id).length

theorem length_grow (l : List α) (n : ℕ) (x : α) : (grow l n x).length = max l.length n := by
  rw [grow, List.length_append, List.length_replicate]
  omega

theorem grow_of_le {l : List α} {n : ℕ} (h : n ≤ l.length) (x : α) : grow l n x = l := by
  rw [grow, Nat.sub_eq_zero_of_le h, List.replicate_zero, List.append_nil]

theorem getElem?_grow (l : List α) (n : ℕ) (x : α) (i : ℕ) :
    (grow l n x)[i]? = if i < l.length then l[i]? else if i < n then some x else none := by
  unfold grow
  by_cases hi : i < l.length
  · rw [if_pos hi, List.getElem?_append_left hi]
  · rw [if_neg hi, List.getElem?_append_right (by omega), List.getElem?_replicate]
    by_cases hn : i < n
    · rw [if_pos hn, if_pos (by omega)]
    · rw [if_neg hn, if_neg (by omega)]

@[simp]
theorem length_overwrite (l : List α) (o : ℕ) (xs : List α) :
    (overwrite l o xs).length = l.length := by
  induction xs generalizing l o with
  | nil => rfl
  | cons x xs ih => rw [overwrite, ih, List.length_set]

theorem overwrite_append (front old rest new : List α) (h : new.length = old.length) :
    overwrite (front ++ (old ++ rest)) front.length new = front ++ (new ++ rest) := by
  induction new generalizing front old with
  | nil =>
      obtain rfl := List.length_eq_zero_iff.mp h.symm
      rfl
  | cons x new ih =>
      obtain ⟨y, old, rfl⟩ := List.exists_cons_of_length_eq_add_one h.symm
      have hnext := ih (front ++ [x]) old (Nat.succ.inj h)
      rw [List.length_append, List.length_singleton] at hnext
      simp only [List.append_assoc, List.singleton_append] at hnext
      rw [overwrite, List.cons_append, List.set_append_right _ _ le_rfl, Nat.sub_self,
        List.set_cons_zero]
      exact hnext

theorem getElem?_overwrite (l : List α) (o : ℕ) (xs : List α) (i : ℕ) :
    (overwrite l o xs)[i]? =
      if o ≤ i ∧ i < o + xs.length ∧ i < l.length then xs[i - o]? else l[i]? := by
  induction xs generalizing l o with
  | nil =>
      rw [if_neg (by simp; omega)]
      rfl
  | cons x xs ih =>
      rw [overwrite, ih, List.length_set, List.length_cons]
      by_cases hself : i = o
      · subst hself
        rw [if_neg (by omega)]
        by_cases hlen : i < l.length
        · rw [if_pos ⟨le_rfl, by omega, hlen⟩, List.getElem?_set_self hlen, Nat.sub_self]
          rfl
        · rw [if_neg (by omega), List.getElem?_eq_none (by rw [List.length_set]; omega),
            List.getElem?_eq_none (by omega)]
      · rw [List.getElem?_set_ne (Ne.symm hself)]
        by_cases hin : o + 1 ≤ i ∧ i < o + 1 + xs.length ∧ i < l.length
        · rw [if_pos hin, if_pos (by omega)]
          have hshift : i - o = i - (o + 1) + 1 := by omega
          rw [hshift, List.getElem?_cons_succ]
        · rw [if_neg hin, if_neg (by omega)]

theorem getElem?_of_front {xs ys : List α} (h : xs <+: ys) {i : ℕ} (hi : i < xs.length) :
    ys[i]? = xs[i]? := by
  obtain ⟨rest, rfl⟩ := h
  exact List.getElem?_append_left hi

theorem getElem?_front_eq_some {xs ys : List α} (h : xs <+: ys) {i : ℕ} {x : α}
    (hx : xs[i]? = some x) : ys[i]? = some x := by
  rw [getElem?_of_front h (List.getElem?_eq_some_iff.mp hx).1, hx]

theorem le_advance (filled : List Bool) (ready : ℕ) : ready ≤ advance filled ready :=
  Nat.le_add_right _ _

/-- All flags in front of the position reached are set. -/
theorem filled_of_lt_advance {filled : List Bool} {ready i : ℕ} (hle : ready ≤ i)
    (hlt : i < advance filled ready) : filled[i]? = some true := by
  unfold advance at hlt
  have hfront := List.takeWhile_prefix id (l := filled.drop ready)
  have hi : i - ready < ((filled.drop ready).takeWhile id).length := by omega
  have hflag : ((filled.drop ready).takeWhile id)[i - ready] = true := by
    have hall := List.mem_takeWhile_imp (List.getElem_mem hi)
    exact hall
  have hdrop : (filled.drop ready)[i - ready]? = some true := by
    rw [getElem?_of_front hfront hi, List.getElem?_eq_getElem hi, hflag]
  rwa [List.getElem?_drop, Nat.add_sub_cancel' hle] at hdrop

/-- The flag at the position reached is not set. -/
theorem not_filled_advance (filled : List Bool) (ready : ℕ) :
    filled[advance filled ready]? ≠ some true := by
  unfold advance
  rw [← List.getElem?_drop]
  generalize filled.drop ready = rest
  induction rest with
  | nil => simp
  | cons flag rest ih => cases flag <;> simp_all

/-! ## Streams without a gap in front -/

/-- Every position in front of `ready` has its flag set. -/
structure Solid (filled : List Bool) (ready : ℕ) : Prop where
  le_length : ready ≤ filled.length
  below : ∀ i < ready, filled[i]? = some true

theorem solid_zero (filled : List Bool) : Solid filled 0 :=
  ⟨Nat.zero_le _, fun i hi => absurd hi (by omega)⟩

/-- Flags that are set have a place in the list. -/
theorem solid_of_below {filled : List Bool} {ready : ℕ}
    (h : ∀ i < ready, filled[i]? = some true) : Solid filled ready := by
  refine ⟨?_, h⟩
  by_contra hlt
  have hlast := h filled.length (by omega)
  rw [List.getElem?_eq_none le_rfl] at hlast
  contradiction

/-- Flags are only ever added. -/
theorem Solid.mono {filled filled' : List Bool} {ready : ℕ} (h : Solid filled ready)
    (hkeep : ∀ i : ℕ, filled[i]? = some true → filled'[i]? = some true) : Solid filled' ready :=
  solid_of_below fun i hi => hkeep i (h.below i hi)

theorem Solid.advance {filled : List Bool} {ready : ℕ} (h : Solid filled ready) :
    Solid filled (advance filled ready) := by
  apply solid_of_below
  intro i hi
  by_cases hold : i < ready
  · exact h.below i hold
  · exact filled_of_lt_advance (by omega) hi

/-- Growing the flags sets none and takes none away. -/
theorem getElem?_grow_of_true {filled : List Bool} {i : ℕ} (h : filled[i]? = some true) (n : ℕ) :
    (grow filled n false)[i]? = some true := by
  have hi : i < filled.length := (List.getElem?_eq_some_iff.mp h).1
  rw [getElem?_grow, if_pos hi, h]

/-- The flags that are set once `n` positions are received from `offset` on. -/
theorem flag_overwrite_iff (filled : List Bool) (offset n i : ℕ) :
    (overwrite (grow filled (offset + n) false) offset (List.replicate n true))[i]? = some true ↔
      filled[i]? = some true ∨ (offset ≤ i ∧ i < offset + n) := by
  rw [getElem?_overwrite, length_grow, List.length_replicate, getElem?_grow,
    List.getElem?_replicate]
  by_cases hin : offset ≤ i ∧ i < offset + n
  · rw [if_pos (by omega), if_pos (by omega)]
    simp [hin]
  · rw [if_neg (by omega)]
    by_cases hi : i < filled.length
    · rw [if_pos hi]
      simp [hin]
    · rw [if_neg hi, List.getElem?_eq_none (by omega)]
      simp [hin]

/-- The elements that are there once `data` is received from `offset` on. -/
theorem getElem?_received (buf : List α) (offset : ℕ) (data : List α) (pad : α) (i : ℕ) :
    (overwrite (grow buf (offset + data.length) pad) offset data)[i]? =
      if offset ≤ i ∧ i < offset + data.length then data[i - offset]?
      else (grow buf (offset + data.length) pad)[i]? := by
  rw [getElem?_overwrite, length_grow]
  by_cases hin : offset ≤ i ∧ i < offset + data.length
  · rw [if_pos (by omega), if_pos hin]
  · rw [if_neg (by omega), if_neg hin]

/-! ## What has been received -/

/-- The positions `got` of the stream have been received, and no others: the
buffer has their elements, the flags say which they are, and `ready` is the first
position that is missing. -/
structure Gathered (stream : List α) (got : ℕ → Prop) (buf : List α) (filled : List Bool)
    (ready : ℕ) : Prop where
  length : buf.length = filled.length
  filled : ∀ i, filled[i]? = some true ↔ got i
  value : ∀ i, got i → buf[i]? = stream[i]?
  below : ∀ i < ready, got i
  gap : ¬ got ready

/-- What is received now reaches to `stop`, and it did not before. -/
def Completes (stop : ℕ) (got got' : ℕ → Prop) : Prop :=
  (∀ i < stop, got' i) ∧ ¬ ∀ i < stop, got i

/-- What is complete already is not completed again. -/
theorem not_completes_of_all {stop : ℕ} {got got' : ℕ → Prop} (h : ∀ i < stop, got i) :
    ¬ Completes stop got got' := fun hnow => hnow.2 h

/-- Receiving nothing completes nothing. -/
theorem not_completes_of_same {stop : ℕ} {got got' : ℕ → Prop} (h : ∀ i, got' i ↔ got i) :
    ¬ Completes stop got got' := fun hnow => hnow.2 fun i hi => (h i).mp (hnow.1 i hi)

namespace Gathered

variable {stream buf : List α} {got : ℕ → Prop} {filled : List Bool} {ready : ℕ}

theorem empty (stream : List α) : Gathered stream (fun _ => False) [] [] 0 where
  length := rfl
  filled i := by simp
  value i h := h.elim
  below i h := by omega
  gap := not_false

theorem congr (h : Gathered stream got buf filled ready) {got' : ℕ → Prop}
    (hsame : ∀ i, got' i ↔ got i) : Gathered stream got' buf filled ready := by
  have heq : got' = got := by
    funext i
    exact propext (hsame i)
  rw [heq]
  exact h

/-- A position received lies in the buffer. -/
theorem lt_length (h : Gathered stream got buf filled ready) {i : ℕ} (hi : got i) :
    i < buf.length := by
  rw [h.length]
  exact (List.getElem?_eq_some_iff.mp ((h.filled i).mpr hi)).1

/-- The buffer reaches without a gap exactly as far as everything in front is
received. -/
theorem le_ready_iff (h : Gathered stream got buf filled ready) {n : ℕ} :
    n ≤ ready ↔ ∀ i < n, got i := by
  constructor
  · intro hle i hi
    exact h.below i (by omega)
  · intro hall
    by_contra hlt
    exact h.gap (hall ready (by omega))

/-- Nothing that is received stands at the first gap. -/
theorem advance_eq (h : Gathered stream got buf filled ready) : advance filled ready = ready := by
  by_contra hne
  have hlt : ready < advance filled ready := by
    have hle := le_advance filled ready
    omega
  exact h.gap ((h.filled ready).mp (filled_of_lt_advance le_rfl hlt))

/-- In front of the first gap the buffer is the stream. -/
theorem getElem?_eq (h : Gathered stream got buf filled ready) {i : ℕ} (hi : i < ready) :
    buf[i]? = stream[i]? :=
  h.value i (h.below i hi)

theorem slice_eq (h : Gathered stream got buf filled ready) {o n : ℕ} (hle : o + n ≤ ready) :
    (buf.drop o).take n = (stream.drop o).take n := by
  apply List.ext_getElem?
  intro i
  rw [List.getElem?_take, List.getElem?_take, List.getElem?_drop, List.getElem?_drop]
  by_cases hi : i < n
  · rw [if_pos hi, if_pos hi, h.getElem?_eq (by omega)]
  · rw [if_neg hi, if_neg hi]

/-- What is received again is what is there. -/
theorem agrees (h : Gathered stream got buf filled ready) {offset : ℕ} {data : List α}
    (hslice : data <+: stream.drop offset) {i : ℕ} (hi : i < data.length)
    (hfilled : filled[offset + i]? = some true) : buf[offset + i]? = data[i]? := by
  rw [h.value _ ((h.filled _).mp hfilled), ← getElem?_of_front hslice hi, List.getElem?_drop]

/-- Receiving a slice adds its positions. -/
theorem insert (h : Gathered stream got buf filled ready) {offset : ℕ} {data : List α}
    (hslice : data <+: stream.drop offset) (pad : α) :
    Gathered stream (fun i => got i ∨ (offset ≤ i ∧ i < offset + data.length))
      (overwrite (grow buf (offset + data.length) pad) offset data)
      (overwrite (grow filled (offset + data.length) false) offset
        (List.replicate data.length true))
      (advance (overwrite (grow filled (offset + data.length) false) offset
        (List.replicate data.length true)) ready) := by
  have hflags (i : ℕ) :
      (overwrite (grow filled (offset + data.length) false) offset
        (List.replicate data.length true))[i]? = some true ↔
      got i ∨ (offset ≤ i ∧ i < offset + data.length) := by
    rw [flag_overwrite_iff, h.filled]
  constructor
  · rw [length_overwrite, length_overwrite, length_grow, length_grow, h.length]
  · exact hflags
  · intro i hi
    rw [getElem?_received]
    by_cases hin : offset ≤ i ∧ i < offset + data.length
    · have hdata : i - offset < data.length := by omega
      rw [if_pos hin, ← getElem?_of_front hslice hdata, List.getElem?_drop,
        Nat.add_sub_cancel' hin.1]
    · have hgot : got i := hi.resolve_right hin
      rw [if_neg hin, getElem?_grow, if_pos (h.lt_length hgot), h.value i hgot]
  · intro i hi
    apply (hflags i).mp
    by_cases hold : i < ready
    · exact (hflags i).mpr (.inl (h.below i hold))
    · exact filled_of_lt_advance (by omega) hi
  · intro hgot
    exact not_filled_advance _ _ ((hflags _).mpr hgot)

end Gathered

end SocketTrail.Foundation
