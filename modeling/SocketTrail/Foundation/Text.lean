/-
# Text out of bytes

Comparison and lowering of ASCII letters, and the reading of bytes as UTF-8 that
puts U+FFFD for what is not: one for every longest part of a character that its
continuation breaks off.
-/

import SocketTrail.Foundation.Bytes

namespace SocketTrail.Foundation

/-- The texts are equal when ASCII letters are compared without case. -/
def eqIgnoreAsciiCase (a b : String) : Bool :=
  a.toList.map Char.toLower = b.toList.map Char.toLower

/-- The text with its ASCII letters in lower case. -/
def toAsciiLowercase (s : String) : String := String.ofList (s.toList.map Char.toLower)

/-! ## The size of a text -/

theorem utf8Size_of_ascii {c : Char} (h : c.val.toNat ≤ 0x7f) : c.utf8Size = 1 := by
  unfold Char.utf8Size
  exact if_pos (UInt32.le_iff_toNat_le.mpr h)

/-- A letter takes as many bytes in lower case as in upper case. -/
theorem utf8Size_toLower (c : Char) : c.toLower.utf8Size = c.utf8Size := by
  unfold Char.toLower
  split
  · rename_i h
    have hup : c.val.toNat ≤ 90 := UInt32.le_iff_toNat_le.mp h.2
    have hlow : (c.val + ('a'.val - 'A'.val)).toNat ≤ 0x7f := by
      have hshift : ('a'.val - 'A'.val).toNat = 32 := by decide
      rw [UInt32.toNat_add]
      omega
    have hold : c.val.toNat ≤ 0x7f := hup.trans (by decide)
    rw [utf8Size_of_ascii hlow, utf8Size_of_ascii hold]
  · rfl

theorem utf8ByteSize_ofList_map {f : Char → Char} (hf : ∀ c, (f c).utf8Size = c.utf8Size)
    (l : List Char) : (String.ofList (l.map f)).utf8ByteSize = (String.ofList l).utf8ByteSize := by
  induction l with
  | nil => rfl
  | cons c l ih =>
      rw [List.map_cons, String.ofList_cons, String.ofList_cons, String.utf8ByteSize_append,
        String.utf8ByteSize_append, ih, String.utf8ByteSize_singleton,
        String.utf8ByteSize_singleton, hf]

theorem utf8ByteSize_toLower (s : String) : s.toLower.utf8ByteSize = s.utf8ByteSize := by
  have hlist : s.toLower = String.ofList (s.toList.map Char.toLower) := by
    rw [← String.toList_inj, String.toList_ofList]
    exact String.toList_map
  rw [hlist, utf8ByteSize_ofList_map utf8Size_toLower, String.ofList_toList]

/-! ## Bytes as UTF-8 -/

/-- What the first byte of a longer character says: how many bytes follow, the
range of the first of them, and the bits that the byte itself carries. -/
def utf8Lead (b : UInt8) : Option (ℕ × UInt8 × UInt8 × ℕ) :=
  if 0xC2 ≤ b ∧ b ≤ 0xDF then some (1, 0x80, 0xBF, b.toNat % 32)
  else if b = 0xE0 then some (2, 0xA0, 0xBF, 0)
  else if b = 0xED then some (2, 0x80, 0x9F, 13)
  else if 0xE1 ≤ b ∧ b ≤ 0xEF then some (2, 0x80, 0xBF, b.toNat % 16)
  else if b = 0xF0 then some (3, 0x90, 0xBF, 0)
  else if 0xF1 ≤ b ∧ b ≤ 0xF3 then some (3, 0x80, 0xBF, b.toNat % 8)
  else if b = 0xF4 then some (3, 0x80, 0x8F, 4)
  else none

/-- Read `n` more bytes of a character, the first of them between `lo` and `hi`:
its number, unless the bytes break off, and how many bytes belong to it. -/
def utf8Tail : ℕ → UInt8 → UInt8 → ℕ → Bytes → Option ℕ × ℕ
  | 0, _, _, value, _ => (some value, 0)
  | _ + 1, _, _, _, [] => (none, 0)
  | n + 1, lo, hi, value, b :: rest =>
      if lo ≤ b ∧ b ≤ hi then
        let tail := utf8Tail n 0x80 0xBF (value * 64 + b.toNat % 64) rest
        (tail.1, tail.2 + 1)
      else (none, 0)

/-- The character that begins with `b`, and how many of the bytes behind it
belong to it. -/
def utf8Char (b : UInt8) (rest : Bytes) : Char × ℕ :=
  if b < 0x80 then (Char.ofNat b.toNat, 0)
  else
    match utf8Lead b with
    | none => (Char.ofNat 0xFFFD, 0)
    | some (n, lo, hi, value) =>
        let tail := utf8Tail n lo hi value rest
        (Char.ofNat (tail.1.getD 0xFFFD), tail.2)

/-- The characters of a byte string once `skip` bytes are passed over. -/
def utf8Chars : ℕ → Bytes → List Char
  | _, [] => []
  | skip + 1, _ :: rest => utf8Chars skip rest
  | 0, b :: rest => (utf8Char b rest).1 :: utf8Chars (utf8Char b rest).2 rest

def fromUtf8Lossy (b : Bytes) : String := String.ofList (utf8Chars 0 b)

example : fromUtf8Lossy [0x66, 0xC3, 0xBC, 0xE2, 0x82, 0x72, 0xFF] = "fü\uFFFDr\uFFFD" := by
  decide

end SocketTrail.Foundation
