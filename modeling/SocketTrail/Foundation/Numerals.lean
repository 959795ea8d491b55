/-
# Numbers inside texts

A decimal numeral can be read off a text in which it stands: it ends at the first
character that is no digit. So texts that differ in one of their numbers only are
different texts.
-/

import Mathlib.Algebra.Group.Nat.Defs
import Mathlib.Data.List.Basic

namespace SocketTrail.Foundation

/-- The number that a numeral stands for. -/
def numeralValue (text : List Char) : ℕ :=
  text.foldl (fun n c => n * 10 + (c.toNat - '0'.toNat)) 0

theorem numeralValue_digitChar {d : ℕ} (h : d < 10) :
    (Nat.digitChar d).toNat - '0'.toNat = d := by
  have hall : ∀ d : Fin 10, (Nat.digitChar d).toNat - '0'.toNat = d := by decide
  exact hall ⟨d, h⟩

theorem numeralValue_toDigits (n : ℕ) : numeralValue (Nat.toDigits 10 n) = n := by
  induction n using Nat.strongRecOn with
  | ind n ih =>
      by_cases hsmall : n < 10
      · rw [Nat.toDigits_of_lt_base hsmall]
        simp only [numeralValue, List.foldl_cons, List.foldl_nil, Nat.zero_mul, Nat.zero_add]
        exact numeralValue_digitChar hsmall
      · have hfirst := ih (n / 10) (by omega)
        unfold numeralValue at hfirst ⊢
        rw [Nat.toDigits_of_base_le (by decide) (by omega), List.foldl_append, hfirst,
          List.foldl_cons, List.foldl_nil, numeralValue_digitChar (Nat.mod_lt n (by decide))]
        omega

theorem toDigits_injective {a b : ℕ} (h : Nat.toDigits 10 a = Nat.toDigits 10 b) : a = b := by
  rw [← numeralValue_toDigits a, h, numeralValue_toDigits]

theorem isDigit_toDigits {n : ℕ} {c : Char} (h : c ∈ Nat.toDigits 10 n) : c.isDigit = true :=
  Nat.isDigit_of_mem_toDigits (by decide) (by decide) h

/-- A numeral ends at the first character that is no digit. -/
theorem takeWhile_toDigits (n : ℕ) {c : Char} (hc : c.isDigit = false) (rest : List Char) :
    (Nat.toDigits 10 n ++ c :: rest).takeWhile Char.isDigit = Nat.toDigits 10 n := by
  rw [List.takeWhile_append_of_pos fun d hd => isDigit_toDigits hd,
    List.takeWhile_cons_of_neg (by simp [hc]), List.append_nil]

/-- Two texts with a numeral in front are equal only if the numbers are. -/
theorem toDigits_append_inj {a b : ℕ} {c d : Char} {rest rest' : List Char}
    (hc : c.isDigit = false) (hd : d.isDigit = false)
    (h : Nat.toDigits 10 a ++ c :: rest = Nat.toDigits 10 b ++ d :: rest') :
    a = b ∧ c = d ∧ rest = rest' := by
  have hnumerals := congrArg (List.takeWhile Char.isDigit) h
  rw [takeWhile_toDigits a hc, takeWhile_toDigits b hd] at hnumerals
  have htails := List.append_inj_right h (congrArg List.length hnumerals)
  obtain ⟨hchar, hrest⟩ := List.cons.inj htails
  exact ⟨toDigits_injective hnumerals, hchar, hrest⟩

/-- The text of a number. -/
theorem toList_toString_nat (n : ℕ) : (toString n).toList = Nat.toDigits 10 n := by
  change (Nat.repr n).toList = _
  rw [Nat.repr_eq_ofList_toDigits, String.toList_ofList]

/-! ## Other bases -/

theorem mem_toDigits {b : ℕ} (hb : 1 < b) {n : ℕ} {c : Char} (h : c ∈ Nat.toDigits b n) :
    ∃ d < b, c = Nat.digitChar d := by
  induction n using Nat.strongRecOn with
  | ind n ih =>
      by_cases hsmall : n < b
      · rw [Nat.toDigits_of_lt_base hsmall] at h
        exact ⟨n, hsmall, List.mem_singleton.mp h⟩
      · have hbase : b ≤ n := Nat.le_of_not_lt hsmall
        rw [Nat.toDigits_of_base_le hb hbase, List.mem_append] at h
        rcases h with hfirst | hlast
        · exact ih (n / b) (Nat.div_lt_self (by omega) hb) hfirst
        · exact ⟨n % b, Nat.mod_lt n (by omega), List.mem_singleton.mp hlast⟩

theorem digitChar_injective {d e : ℕ} (hd : d < 16) (he : e < 16)
    (h : Nat.digitChar d = Nat.digitChar e) : d = e := by
  have hall : ∀ d e : Fin 16, Nat.digitChar d = Nat.digitChar e → d = e := by decide
  exact congrArg Fin.val (hall ⟨d, hd⟩ ⟨e, he⟩ h)

/-- A number is told by its digits, in any base up to sixteen. -/
theorem toDigits_base_injective {b : ℕ} (hb : 1 < b) (hsixteen : b ≤ 16) {m n : ℕ}
    (h : Nat.toDigits b m = Nat.toDigits b n) : m = n := by
  induction m using Nat.strongRecOn generalizing n with
  | ind m ih =>
      have hlast (k : ℕ) : k % b < 16 := Nat.lt_of_lt_of_le (Nat.mod_lt k (by omega)) hsixteen
      rw [Nat.toDigits_eq_if hb, Nat.toDigits_eq_if hb (n := n)] at h
      split_ifs at h with hm hn hn
      · exact digitChar_injective (by omega) (by omega) (List.singleton_inj.mp h)
      · have hlength := congrArg List.length h
        have hpos : 0 < (Nat.toDigits b (n / b)).length := Nat.length_toDigits_pos
        simp only [List.length_append, List.length_singleton] at hlength
        omega
      · have hlength := congrArg List.length h
        have hpos : 0 < (Nat.toDigits b (m / b)).length := Nat.length_toDigits_pos
        simp only [List.length_append, List.length_singleton] at hlength
        omega
      · obtain ⟨hfirst, hrest⟩ := List.append_inj' h rfl
        have hquotient : m / b = n / b := ih (m / b) (Nat.div_lt_self (by omega) hb) hfirst
        have hremainder : m % b = n % b :=
          digitChar_injective (hlast m) (hlast n) (List.singleton_inj.mp hrest)
        rw [← Nat.div_add_mod m b, ← Nat.div_add_mod n b, hquotient, hremainder]

end SocketTrail.Foundation
