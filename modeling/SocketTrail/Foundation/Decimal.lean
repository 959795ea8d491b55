/-
# Decimals of a fixed width

A number that fits into a width is written as its `lastDigits` once zeros fill the
width, and such numbers are ordered like their texts.
-/

import Mathlib.Algebra.Group.Nat.Defs
import Mathlib.Data.Nat.Notation

namespace SocketTrail.Foundation

/-- The last `w` digits of a number. -/
def lastDigits : ℕ → ℕ → List Char
  | 0, _ => []
  | w + 1, n => lastDigits w (n / 10) ++ [Nat.digitChar (n % 10)]

theorem length_lastDigits (w n : ℕ) : (lastDigits w n).length = w := by
  induction w generalizing n with
  | zero => rfl
  | succ w ih => rw [lastDigits, List.length_append, ih, List.length_singleton]

theorem lastDigits_zero (w : ℕ) : lastDigits w 0 = List.replicate w '0' := by
  induction w with
  | zero => rfl
  | succ w ih => rw [lastDigits, ih, List.replicate_succ']; rfl

/-- A number that fits is filled up to its last digits. -/
theorem replicate_append_toDigits {w n : ℕ} (h : n < 10 ^ (w + 1)) :
    List.replicate (w + 1 - (Nat.toDigits 10 n).length) '0' ++ Nat.toDigits 10 n =
      lastDigits (w + 1) n := by
  induction w generalizing n with
  | zero =>
      have hdigit : n < 10 := by simpa using h
      rw [Nat.toDigits_of_lt_base hdigit, lastDigits, Nat.mod_eq_of_lt hdigit]
      rfl
  | succ w ih =>
      by_cases hsmall : n < 10
      · rw [Nat.toDigits_of_lt_base hsmall, lastDigits, Nat.mod_eq_of_lt hsmall,
          Nat.div_eq_of_lt hsmall, lastDigits_zero]
        rfl
      · have hfits : n / 10 < 10 ^ (w + 1) := by
          rw [Nat.pow_succ] at h
          exact Nat.div_lt_of_lt_mul (by omega)
        rw [lastDigits, ← ih hfits, Nat.toDigits_of_base_le (by decide) (by omega),
          List.length_append, List.length_singleton, Nat.add_sub_add_right, List.append_assoc]

/-! ## Order -/

theorem append_lt_append {l l' : List Char} (h : l < l') (hlength : l.length = l'.length)
    (a b : List Char) : l ++ a < l' ++ b := by
  induction l generalizing l' with
  | nil =>
      obtain rfl := List.eq_nil_of_length_eq_zero hlength.symm
      exact absurd h (List.not_lt_nil [])
  | cons x l ih =>
      obtain ⟨y, l', rfl⟩ := List.exists_cons_of_ne_nil
        (List.ne_nil_of_length_pos (by rw [← hlength]; exact Nat.succ_pos _))
      rw [List.cons_append, List.cons_append, List.cons_lt_cons_iff]
      rcases List.cons_lt_cons_iff.mp h with hxy | ⟨rfl, hrest⟩
      · exact .inl hxy
      · exact .inr ⟨rfl, ih hrest (Nat.succ.inj hlength)⟩

theorem digitChar_lt {a b : ℕ} (h : a < b) (hb : b < 10) : Nat.digitChar a < Nat.digitChar b := by
  have hall : ∀ b : Fin 10, ∀ a : Fin b.val, Nat.digitChar a < Nat.digitChar b := by decide
  exact hall ⟨b, hb⟩ ⟨a, h⟩

/-- The greater number has the greater digits. -/
theorem lastDigits_lt {w a b : ℕ} (h : a < b) (hb : b < 10 ^ w) :
    lastDigits w a < lastDigits w b := by
  induction w generalizing a b with
  | zero => omega
  | succ w ih =>
      rw [Nat.pow_succ] at hb
      rw [lastDigits, lastDigits]
      rcases Nat.lt_or_eq_of_le (Nat.div_le_div_right (c := 10) (Nat.le_of_lt h)) with hlt | heq
      · refine append_lt_append (ih hlt (Nat.div_lt_of_lt_mul (by omega))) ?_ _ _
        rw [length_lastDigits, length_lastDigits]
      · rw [heq]
        have hdigit := digitChar_lt (by omega : a % 10 < b % 10) (Nat.mod_lt b (by decide))
        exact List.append_left_lt (List.cons_lt_cons_iff.mpr (.inl hdigit))

/-- Texts are ordered by what follows an equal beginning. -/
theorem append_left_lt {s t : String} (u : String) (h : s < t) : u ++ s < u ++ t := by
  rw [String.lt_iff, String.toList_append, String.toList_append]
  exact List.append_left_lt (String.lt_iff.mp h)

end SocketTrail.Foundation
