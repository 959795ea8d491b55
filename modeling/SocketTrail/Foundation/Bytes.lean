/-
# Byte strings and fixed-width numbers

Files and packets are lists of bytes. A number stored in `w` bytes, the least
significant first, is written with `leBytes` and read with `leNat`; the two are
inverse to each other on numbers that fit. Readers take a position: `le16` and
`le32` of a byte string whose length the caller has checked, `be16` of one whose
end the caller has not looked at.
-/

import Mathlib.Tactic.Ring

namespace SocketTrail.Foundation

/-- A byte string. -/
abbrev Bytes : Type := List UInt8

/-- A byte string of a fixed length. -/
abbrev FixedBytes (n : ℕ) : Type := { b : Bytes // b.length = n }

/-- The number whose bytes these are, least significant first. -/
def leNat : Bytes → ℕ
  | [] => 0
  | b :: rest => b.toNat + 256 * leNat rest

/-- The lowest `w` bytes of a number, least significant first. -/
def leBytes : ℕ → ℕ → Bytes
  | 0, _ => []
  | w + 1, n => UInt8.ofNat n :: leBytes w (n / 256)

@[simp]
theorem length_leBytes (w n : ℕ) : (leBytes w n).length = w := by
  induction w generalizing n with
  | zero => rfl
  | succ w ih => rw [leBytes, List.length_cons, ih]

theorem leNat_lt (b : Bytes) : leNat b < 256 ^ b.length := by
  induction b with
  | nil => exact Nat.one_pos
  | cons first rest ih =>
      have hfirst : first.toNat < 256 := first.toNat_lt
      rw [leNat, List.length_cons, pow_succ]
      omega

theorem leNat_leBytes (w n : ℕ) : leNat (leBytes w n) = n % 256 ^ w := by
  induction w generalizing n with
  | zero => simp [leBytes, leNat, Nat.mod_one]
  | succ w ih =>
      rw [leBytes, leNat, ih, pow_succ', Nat.mod_mul]
      simp

/-- A number that fits is read back as it was written. -/
theorem leNat_leBytes_of_lt {w n : ℕ} (h : n < 256 ^ w) : leNat (leBytes w n) = n := by
  rw [leNat_leBytes, Nat.mod_eq_of_lt h]

/-- Bytes that are read are written back as they were. -/
theorem leBytes_leNat (b : Bytes) : leBytes b.length (leNat b) = b := by
  induction b with
  | nil => rfl
  | cons first rest ih =>
      have hfirst : first.toNat < 256 := first.toNat_lt
      have hdiv : (first.toNat + 256 * leNat rest) / 256 = leNat rest := by omega
      rw [List.length_cons, leNat, leBytes, hdiv, ih]
      congr 1
      apply UInt8.toNat_inj.mp
      simp

/-- The number in the `w` bytes at position `o`. -/
def leAt (w : ℕ) (b : Bytes) (o : ℕ) : ℕ := leNat ((b.drop o).take w)

abbrev le16 (b : Bytes) (o : ℕ) : ℕ := leAt 2 b o

abbrev le32 (b : Bytes) (o : ℕ) : ℕ := leAt 4 b o

/-- What was written at a position is read there. -/
theorem leAt_append {w n : ℕ} (before rest : Bytes) (h : n < 256 ^ w) :
    leAt w (before ++ (leBytes w n ++ rest)) before.length = n := by
  unfold leAt
  rw [List.drop_left, List.take_left' (length_leBytes w n), leNat_leBytes_of_lt h]

/-- What is read within a string does not depend on what follows. -/
theorem leAt_append_left {w o : ℕ} {b : Bytes} (rest : Bytes) (h : o + w ≤ b.length) :
    leAt w (b ++ rest) o = leAt w b o := by
  unfold leAt
  rw [List.drop_append_of_le_length (by omega), List.take_append_of_le_length]
  rw [List.length_drop]
  omega

/-- What is read at a position stands there. -/
theorem leBytes_leAt {w : ℕ} {b : Bytes} {o : ℕ} (h : o + w ≤ b.length) :
    leBytes w (leAt w b o) = (b.drop o).take w := by
  have hlength : ((b.drop o).take w).length = w := by
    rw [List.length_take, List.length_drop]
    omega
  have hback := leBytes_leNat ((b.drop o).take w)
  rwa [hlength] at hback

theorem leAt_lt (w : ℕ) (b : Bytes) (o : ℕ) : leAt w b o < 256 ^ w := by
  have hlength : ((b.drop o).take w).length ≤ w := by
    rw [List.length_take]
    exact min_le_left _ _
  exact (leNat_lt _).trans_le (Nat.pow_le_pow_right (by decide) hlength)

/-- A string from a position on, cut at a later one. -/
theorem take_append_drop_add (b : Bytes) (o n : ℕ) :
    (b.drop o).take n ++ b.drop (o + n) = b.drop o := by
  rw [← List.drop_drop]
  exact List.take_append_drop n _

/-- The big-endian 16-bit number at position `o`, if the string reaches there. -/
def be16 (b : Bytes) (o : ℕ) : Option ℕ :=
  match b[o]?, b[o + 1]? with
  | some hi, some lo => some (hi.toNat * 256 + lo.toNat)
  | _, _ => none

/-- Only what the string reaches is read. -/
theorem length_of_be16 {b : Bytes} {o n : ℕ} (h : be16 b o = some n) : o + 2 ≤ b.length := by
  unfold be16 at h
  split at h
  · rename_i hlo
    have hlast := (List.getElem?_eq_some_iff.mp hlo).1
    omega
  · contradiction

/-- What is read within a string does not depend on what follows. -/
theorem be16_append_left {o : ℕ} {b : Bytes} (rest : Bytes) (h : o + 2 ≤ b.length) :
    be16 (b ++ rest) o = be16 b o := by
  unfold be16
  rw [List.getElem?_append_left (by omega), List.getElem?_append_left (by omega)]

/-- The string from position `o` on, if it reaches there. -/
def getFrom (b : Bytes) (o : ℕ) : Option Bytes :=
  if o ≤ b.length then some (b.drop o) else none

/-- The `n` bytes from position `o` on, if the string reaches there. -/
def getSlice (b : Bytes) (o n : ℕ) : Option Bytes :=
  if o + n ≤ b.length then some ((b.drop o).take n) else none

/-- The number whose bytes these are, most significant first. -/
def beNat (b : Bytes) : ℕ := b.foldl (fun n b => n * 256 + b.toNat) 0

/-- A number in `w` bytes, most significant first. -/
def beBytes (w n : ℕ) : Bytes := (leBytes w n).reverse

@[simp]
theorem length_beBytes (w n : ℕ) : (beBytes w n).length = w := by
  rw [beBytes, List.length_reverse, length_leBytes]

/-- Reading goes on behind what was read. -/
theorem foldl_beNat (b : Bytes) (n : ℕ) :
    b.foldl (fun n b => n * 256 + b.toNat) n = n * 256 ^ b.length + beNat b := by
  unfold beNat
  induction b generalizing n with
  | nil => simp
  | cons x rest ih =>
      rw [List.foldl_cons, List.foldl_cons, ih, ih (0 * 256 + x.toNat), List.length_cons, pow_succ]
      ring

theorem beNat_cons (x : UInt8) (b : Bytes) :
    beNat (x :: b) = x.toNat * 256 ^ b.length + beNat b := by
  have hread := foldl_beNat b (0 * 256 + x.toNat)
  rw [Nat.zero_mul, Nat.zero_add] at hread
  rw [beNat, List.foldl_cons, Nat.zero_mul, Nat.zero_add]
  exact hread

theorem beNat_reverse (b : Bytes) : beNat b.reverse = leNat b := by
  induction b with
  | nil => rfl
  | cons x rest ih =>
      unfold beNat at ih ⊢
      rw [List.reverse_cons, List.foldl_append, ih, leNat]
      simp only [List.foldl_cons, List.foldl_nil]
      ring

/-- A number that fits is read back as it was written. -/
theorem beNat_beBytes_of_lt {w n : ℕ} (h : n < 256 ^ w) : beNat (beBytes w n) = n := by
  rw [beBytes, beNat_reverse, leNat_leBytes_of_lt h]

/-- A 16-bit number, most significant byte first. -/
theorem beBytes_two (n : ℕ) : beBytes 2 n = [UInt8.ofNat (n / 256), UInt8.ofNat n] := rfl

/-- A 16-bit number is read back from its two bytes. -/
theorem two_bytes {n : ℕ} (h : n < 65536) :
    (UInt8.ofNat (n / 256)).toNat * 256 + (UInt8.ofNat n).toNat = n := by
  rw [UInt8.toNat_ofNat', UInt8.toNat_ofNat']
  omega

theorem beNat_lt (b : Bytes) : beNat b < 256 ^ b.length := by
  have hlt := leNat_lt b.reverse
  rwa [← beNat_reverse, List.reverse_reverse, List.length_reverse] at hlt

/-- Bytes that are read are written back as they were. -/
theorem beBytes_beNat (b : Bytes) : beBytes b.length (beNat b) = b := by
  have hback := leBytes_leNat b.reverse
  rw [← beNat_reverse, List.reverse_reverse, List.length_reverse] at hback
  rw [beBytes, hback, List.reverse_reverse]

/-- A length rounded up to whole groups of four bytes. -/
def padTo4 (n : ℕ) : ℕ := (n + 3) / 4 * 4

theorem le_padTo4 (n : ℕ) : n ≤ padTo4 n := by
  unfold padTo4
  omega

theorem four_dvd_padTo4 (n : ℕ) : 4 ∣ padTo4 n := Dvd.intro_left _ rfl

/-! ## What was read -/

section Read

variable {b x : Bytes} {o n : ℕ}

theorem drop_of_getElem? {first : UInt8} (h : b[o]? = some first) :
    b.drop o = first :: b.drop (o + 1) := by
  obtain ⟨hlt, hfirst⟩ := List.getElem?_eq_some_iff.mp h
  rw [List.drop_eq_getElem_cons hlt, hfirst]

/-- A 16-bit number that is read stands there. -/
theorem drop_of_be16 (h : be16 b o = some n) :
    n < 65536 ∧ b.drop o = beBytes 2 n ++ b.drop (o + 2) := by
  unfold be16 at h
  split at h
  · rename_i hi lo hhi hlo
    obtain rfl := Option.some.inj h
    have hhigh := hi.toNat_lt
    have hlow := lo.toNat_lt
    have hdiv : (hi.toNat * 256 + lo.toNat) / 256 = hi.toNat := by omega
    have hmod : UInt8.ofNat (hi.toNat * 256 + lo.toNat) = lo := by
      apply UInt8.toNat_inj.mp
      rw [UInt8.toNat_ofNat']
      omega
    refine ⟨by omega, ?_⟩
    rw [drop_of_getElem? hhi, drop_of_getElem? hlo, beBytes_two, hdiv, UInt8.ofNat_toNat, hmod]
    rfl
  · contradiction

/-- A slice that is read ends inside the string. -/
theorem le_of_getSlice (h : getSlice b o n = some x) : o + n ≤ b.length :=
  (Option.ite_none_right_eq_some.mp h).1

/-- What is read from a position on is no longer than the whole. -/
theorem length_of_getFrom (h : getFrom b o = some x) : x.length ≤ b.length := by
  obtain ⟨-, h⟩ := Option.ite_none_right_eq_some.mp h
  obtain rfl := Option.some.inj h
  rw [List.length_drop]
  omega

/-- A slice that is read stands there. -/
theorem drop_of_getSlice (h : getSlice b o n = some x) :
    x.length = n ∧ b.drop o = x ++ b.drop (o + n) := by
  have hle := le_of_getSlice h
  rw [getSlice, if_pos hle] at h
  obtain rfl := Option.some.inj h
  refine ⟨?_, (take_append_drop_add b o n).symm⟩
  rw [List.length_take, List.length_drop]
  omega

end Read

/-! ## Reading along a string -/

/-- From position `p` on, and no earlier than at its end, the string is `x`. -/
def Stands (d : Bytes) (p : ℕ) (x : Bytes) : Prop := p ≤ d.length ∧ d.drop p = x

namespace Stands

variable {d x rest : Bytes} {p : ℕ}

theorem start (d : Bytes) : Stands d 0 d := ⟨Nat.zero_le _, rfl⟩

theorem length (h : Stands d p x) : d.length = p + x.length := by
  rw [← h.2, List.length_drop]
  have hp := h.1
  omega

/-- What is read is passed over. -/
theorem skip (h : Stands d p (x ++ rest)) : Stands d (p + x.length) rest := by
  have hlength := h.length
  rw [List.length_append] at hlength
  refine ⟨by omega, ?_⟩
  rw [← List.drop_drop, h.2, List.drop_left]

theorem tail {b : UInt8} (h : Stands d p (b :: rest)) : Stands d (p + 1) rest :=
  h.skip (x := [b])

theorem getElem? {b : UInt8} (h : Stands d p (b :: rest)) : d[p]? = some b := by
  have hhead : (d.drop p)[0]? = d[p]? := List.getElem?_drop
  rw [h.2] at hhead
  exact hhead.symm

theorem getSlice (h : Stands d p (x ++ rest)) : getSlice d p x.length = some x := by
  have hlength := h.length
  rw [List.length_append] at hlength
  rw [Foundation.getSlice, if_pos (by omega), h.2, List.take_left]

theorem append (before rest : Bytes) : Stands (before ++ rest) before.length rest := by
  refine ⟨?_, List.drop_left⟩
  rw [List.length_append]
  exact Nat.le_add_right _ _

theorem getFrom (h : Stands d p x) : getFrom d p = some x := by
  rw [Foundation.getFrom, if_pos h.1, h.2]

theorem be16_eq (h : Stands d p x) : be16 d p = be16 x 0 := by
  unfold Foundation.be16
  rw [← h.2, List.getElem?_drop, List.getElem?_drop]
  rfl

/-- A 16-bit number is read where it stands. -/
theorem be16 {n : ℕ} (h : Stands d p (beBytes 2 n ++ rest)) (hn : n < 65536) :
    be16 d p = some n := by
  rw [beBytes_two] at h
  unfold Foundation.be16
  rw [h.getElem?, h.tail.getElem?]
  dsimp only
  rw [two_bytes hn]

theorem leAt (h : Stands d p x) (w o : ℕ) : leAt w d (p + o) = leAt w x o := by
  rw [Foundation.leAt, Foundation.leAt, ← List.drop_drop, h.2]

end Stands

end SocketTrail.Foundation
