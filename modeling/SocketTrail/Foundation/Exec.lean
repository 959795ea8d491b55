/-
# Executions that may panic

`Exec` is a function body with its ways out made visible: a value, the early return
of `None` that `?` stands for, and the panic of an index out of bounds, of a
conversion that fails or of arithmetic that overflows. A loop that does not end in
time panics as well. A body that never panics is a function to `Option`, which
`Exec.of` turns into a body again.
-/

import SocketTrail.Foundation.Bytes
import SocketTrail.Foundation.Reassembly

namespace SocketTrail.Foundation

/-- The run of a function body. -/
inductive Exec (α : Type)
  | value (a : α)
  | early
  | panic
  deriving DecidableEq, Repr

namespace Exec

variable {α β : Type}

instance : Monad Exec where
  pure := value
  bind x f :=
    match x with
    | value a => f a
    | early => early
    | panic => panic

@[simp]
theorem value_bind (a : α) (f : α → Exec β) : value a >>= f = f a := rfl

@[simp]
theorem early_bind (f : α → Exec β) : early >>= f = early := rfl

/-- Leave early when there is nothing. -/
def of : Option α → Exec α
  | some a => value a
  | none => early

/-- Panic when there is nothing. -/
def unwrap : Option α → Exec α
  | some a => value a
  | none => panic

/-- Run a closure: its early return is caught. -/
def attempt : Exec α → Exec (Option α)
  | value a => value (some a)
  | early => value none
  | panic => panic

@[simp]
theorem of_some (a : α) : of (some a) = value a := rfl

@[simp]
theorem of_none : of (none : Option α) = early := rfl

@[simp]
theorem attempt_of (o : Option α) : attempt (of o) = value o := by
  cases o <;> rfl

/-- A body that goes on like a function does not panic. -/
theorem bind_of {o : Option α} {f : α → Exec β} {g : α → Option β}
    (h : ∀ a, o = some a → f a = of (g a)) : of o >>= f = of (o.bind g) := by
  cases o with
  | none => rfl
  | some a => exact h a rfl

/-- A case distinction that a function makes as well. -/
theorem ite_of {P : Prop} [Decidable P] {x y : Exec α} {o o' : Option α} (hpos : P → x = of o)
    (hneg : ¬ P → y = of o') : (if P then x else y) = of (if P then o else o') := by
  split
  · rename_i h
    exact hpos h
  · rename_i h
    exact hneg h

/-- An early return that a function makes as well. -/
theorem early_ite_of {P : Prop} [Decidable P] {y : Exec α} {o : Option α}
    (h : ¬ P → y = of o) : (if P then early else y) = of (if P then none else o) :=
  ite_of (fun _ => rfl) h

/-! ## What may panic -/

/-- A sum of unsigned numbers of `w` bits. -/
def add (w a b : ℕ) : Exec ℕ := if a + b < 2 ^ w then value (a + b) else panic

def mul (w a b : ℕ) : Exec ℕ := if a * b < 2 ^ w then value (a * b) else panic

/-- A difference of unsigned numbers. -/
def sub (a b : ℕ) : Exec ℕ := if b ≤ a then value (a - b) else panic

/-- A number of `w` bits shifted to the left; bits that do not fit are lost. -/
def shl (w a bits : ℕ) : Exec ℕ := if bits < w then value (a * 2 ^ bits % 2 ^ w) else panic

/-- The element at position `i`. -/
def index (l : List α) (i : ℕ) : Exec α := unwrap l[i]?

/-- Replace the element at position `i`. -/
def put (l : List α) (i : ℕ) (a : α) : Exec (List α) :=
  if i < l.length then value (l.set i a) else panic

/-- The sum of unsigned numbers of `w` bits, added one after another to `n`. -/
def sum (w : ℕ) : ℕ → List ℕ → Exec ℕ
  | n, [] => value n
  | n, x :: rest => do
      let n ← add w n x
      sum w n rest

/-- The elements from position `p` up to `q`. -/
def slice (l : List α) (p q : ℕ) : Exec (List α) :=
  if p ≤ q ∧ q ≤ l.length then value ((l.drop p).take (q - p)) else panic

/-- The elements from position `p` up to `q` replaced by others of that number. -/
def copy (l : List α) (p q : ℕ) (new : List α) : Exec (List α) :=
  if p ≤ q ∧ q ≤ l.length ∧ new.length = q - p then value (l.take p ++ (new ++ l.drop q))
  else panic

/-- A sum that fits is passed on. -/
theorem add_bind {w a b : ℕ} (h : a + b < 2 ^ w) (f : ℕ → Exec β) :
    add w a b >>= f = f (a + b) := by
  rw [add, if_pos h, value_bind]

theorem add_eq {w a b : ℕ} (h : a + b < 2 ^ w) : add w a b = value (a + b) := if_pos h

theorem mul_eq {w a b : ℕ} (h : a * b < 2 ^ w) : mul w a b = value (a * b) := if_pos h

theorem sub_eq {a b : ℕ} (h : b ≤ a) : sub a b = value (a - b) := if_pos h

theorem one_shl {w bits : ℕ} (h : bits < w) : shl w 1 bits = value (2 ^ bits) := by
  rw [shl, if_pos h, Nat.one_mul, Nat.mod_eq_of_lt (Nat.pow_lt_pow_right (by decide) h)]

/-- An element that is there is read, whatever stands for those that are not. -/
theorem index_eq {l : List α} {i : ℕ} (h : i < l.length) (a : α) :
    index l i = value (l.getD i a) := by
  rw [index, List.getD_eq_getElem?_getD, List.getElem?_eq_getElem h]
  rfl

/-- The loop that moves `ready` on, for `fuel` rounds at most. -/
def advance (filled : List Bool) : ℕ → ℕ → Exec ℕ
  | 0, _ => panic
  | fuel + 1, ready =>
      if filled[ready]? = some true then do
        let ready ← add 64 ready 1
        advance filled fuel ready
      else value ready

theorem index_getElem {l : List α} {i : ℕ} (h : i < l.length) : index l i = value l[i] := by
  rw [index, List.getElem?_eq_getElem h]
  rfl

theorem put_eq {l : List α} {i : ℕ} (h : i < l.length) (a : α) : put l i a = value (l.set i a) :=
  if_pos h

/-- No part of a sum is larger than the whole. -/
theorem sum_eq {w n : ℕ} {l : List ℕ} (h : n + l.sum < 2 ^ w) : sum w n l = value (n + l.sum) := by
  induction l generalizing n with
  | nil => rfl
  | cons x rest ih =>
      rw [List.sum_cons, ← Nat.add_assoc] at h
      rw [sum, add_bind (by omega), ih h, List.sum_cons, Nat.add_assoc]

theorem slice_zero {l : List α} {q : ℕ} (hq : q ≤ l.length) : slice l 0 q = value (l.take q) :=
  if_pos ⟨Nat.zero_le _, hq⟩

theorem slice_end {l : List α} {p : ℕ} (hp : p ≤ l.length) :
    slice l p l.length = value (l.drop p) := by
  rw [slice, if_pos ⟨hp, le_rfl⟩, List.take_of_length_le]
  rw [List.length_drop]

theorem slice_eq {l : List α} {p q : ℕ} (h : p ≤ q) (hq : q ≤ l.length) :
    slice l p q = value ((l.drop p).take (q - p)) := if_pos ⟨h, hq⟩

theorem copy_eq {l new : List α} {p q : ℕ} (h : p + new.length = q) (hq : q ≤ l.length) :
    copy l p q new = value (overwrite l p new) := by
  have hfront : (l.take p).length = p := List.length_take_of_le (by omega)
  have hold : new.length = ((l.drop p).take new.length).length := by
    rw [List.length_take, List.length_drop]
    omega
  have hwhole : l.take p ++ ((l.drop p).take new.length ++ l.drop q) = l := by
    rw [← h, ← List.drop_drop, List.take_append_drop, List.take_append_drop]
  have hplaced := overwrite_append (l.take p) _ (l.drop q) new hold
  rw [hwhole, hfront] at hplaced
  rw [copy, if_pos ⟨by omega, hq, by omega⟩, hplaced]

/-- The loop ends behind the last flag at the latest. -/
theorem advance_eq {filled : List Bool} (hlength : filled.length < 2 ^ 63) {fuel ready : ℕ}
    (hfuel : filled.length ≤ ready + fuel) :
    advance filled (fuel + 1) ready = value (Foundation.advance filled ready) := by
  induction fuel generalizing ready with
  | zero =>
      have hnone : filled.drop ready = [] := List.drop_eq_nil_of_le (by omega)
      have hflag : filled[ready]? ≠ some true := by
        rw [List.getElem?_eq_none (by omega)]
        simp
      rw [advance, if_neg hflag, Foundation.advance, hnone]
      rfl
  | succ fuel ih =>
      rw [advance, Foundation.advance]
      by_cases hflag : filled[ready]? = some true
      · obtain ⟨hinside, hvalue⟩ := List.getElem?_eq_some_iff.mp hflag
        rw [if_pos hflag, add_bind (by omega), ih (by omega), Foundation.advance,
          List.drop_eq_getElem_cons hinside, hvalue, List.takeWhile_cons_of_pos rfl,
          List.length_cons]
        congr 1
        omega
      · rw [if_neg hflag]
        have hstop : (filled.drop ready).takeWhile id = [] := by
          rw [List.takeWhile_eq_nil_iff]
          intro hsome hfirst
          rw [id, List.get_eq_getElem, List.getElem_drop] at hfirst
          exact hflag (List.getElem?_eq_some_iff.mpr ⟨_, hfirst⟩)
        rw [hstop]
        rfl

end Exec

/-! ## What does not panic -/

/-- The elements from position `p` up to `q`, if there are such. -/
def getRange {α : Type} (l : List α) (p q : ℕ) : Option (List α) :=
  if p ≤ q ∧ q ≤ l.length then some ((l.drop p).take (q - p)) else none

/-- A slice as an array of `n` elements. -/
def toArray {α : Type} (n : ℕ) (l : List α) : Option (List α) :=
  if l.length = n then some l else none

/-- A number as one of `w` bits. -/
def narrow (w n : ℕ) : Option ℕ := if n < 2 ^ w then some n else none

/-- A sum, if it has no more than `w` bits. -/
def checkedAdd (w a b : ℕ) : Option ℕ := if a + b < 2 ^ w then some (a + b) else none

def checkedSub (a b : ℕ) : Option ℕ := if b ≤ a then some (a - b) else none

/-- A slice is given by its length as well. -/
theorem getRange_add (b : Bytes) (o n : ℕ) : getRange b o (o + n) = getSlice b o n := by
  rw [getRange, getSlice, Nat.add_sub_cancel_left]
  exact if_congr (and_iff_right (Nat.le_add_right _ _)) rfl rfl

theorem getRange_zero (b : Bytes) (n : ℕ) : getRange b 0 n = getSlice b 0 n := by
  rw [← getRange_add, Nat.zero_add]

theorem toArray_eq {α : Type} {n : ℕ} {l : List α} (h : l.length = n) : toArray n l = some l :=
  if_pos h

theorem narrow_eq {w n : ℕ} (h : n < 2 ^ w) : narrow w n = some n := if_pos h

theorem checkedAdd_eq {w a b : ℕ} (h : a + b < 2 ^ w) : checkedAdd w a b = some (a + b) := if_pos h

end SocketTrail.Foundation
