/-
# Text read from bytes

Strict reading of UTF-8 and the blanks of Unicode, as the standard library of the
program has them. Every character of ASCII is one byte below 128 and every other
character has only bytes from 128 on, so a byte of ASCII is a boundary of the text
wherever it stands: `utf8_split` divides a text there.
-/

import SocketTrail.Foundation.Bytes

namespace SocketTrail.Foundation

/-- The characters with the property `White_Space`. -/
def isWhiteSpace (c : Char) : Bool :=
  let n := c.toNat
  (0x09 ≤ n ∧ n ≤ 0x0D) ∨ n = 0x20 ∨ n = 0x85 ∨ n = 0xA0 ∨ n = 0x1680 ∨
    (0x2000 ≤ n ∧ n ≤ 0x200A) ∨ n = 0x2028 ∨ n = 0x2029 ∨ n = 0x202F ∨ n = 0x205F ∨ n = 0x3000

/-- The text without its blanks at the end. -/
def trimEnd (text : List Char) : List Char :=
  (text.reverse.dropWhile isWhiteSpace).reverse

/-- The text without its blanks at both ends. -/
def trim (text : List Char) : List Char :=
  trimEnd (text.dropWhile isWhiteSpace)

/-- The pieces of a text between blanks. -/
def splitWhiteSpace (text : List Char) : List (List Char) :=
  (text.splitOnP isWhiteSpace).filter (· ≠ [])

/-- The bytes of a text. -/
def utf8 (text : List Char) : Bytes := text.flatMap String.utf8EncodeChar

/-- The text that the bytes spell, if they are valid. -/
def fromUtf8 (bytes : Bytes) : Option (List Char) :=
  (String.fromUTF8? bytes.toByteArray).map String.toList

/-! ## Strict reading -/

@[simp]
theorem utf8_nil : utf8 [] = [] := rfl

theorem utf8_cons (c : Char) (text : List Char) :
    utf8 (c :: text) = String.utf8EncodeChar c ++ utf8 text := List.flatMap_cons

theorem utf8_append (first second : List Char) :
    utf8 (first ++ second) = utf8 first ++ utf8 second := List.flatMap_append

/-- The bytes that can be read are those of a text, and that text is read. -/
theorem fromUtf8_eq_some {bytes : Bytes} {text : List Char} :
    fromUtf8 bytes = some text ↔ utf8 text = bytes := by
  unfold fromUtf8 String.fromUTF8?
  constructor
  · intro h
    obtain ⟨s, hs, rfl⟩ := Option.map_eq_some_iff.mp h
    split at hs
    · rename_i hvalid
      obtain rfl := Option.some.inj hs
      have hbytes : (String.fromUTF8 bytes.toByteArray hvalid).toList.utf8Encode =
          bytes.toByteArray := String.utf8Encode_toList
      exact List.toByteArray_inj.mp hbytes
    · contradiction
  · rintro rfl
    have hvalid : ByteArray.IsValidUTF8 (utf8 text).toByteArray :=
      ByteArray.isValidUTF8_utf8Encode (l := text)
    rw [dif_pos hvalid, Option.map_some, Option.some.injEq]
    have hs : String.fromUTF8 (utf8 text).toByteArray hvalid = String.ofList text :=
      String.toByteArray_inj.mp rfl
    rw [hs, String.toList_ofList]

theorem fromUtf8_utf8 (text : List Char) : fromUtf8 (utf8 text) = some text :=
  fromUtf8_eq_some.mpr rfl

/-! ## Boundaries -/

/-- The bytes of a character are one byte of ASCII, or all from 128 on. -/
theorem utf8EncodeChar_cases (c : Char) :
    (c.toNat < 128 ∧ String.utf8EncodeChar c = [UInt8.ofNat c.toNat]) ∨
      ∀ b ∈ String.utf8EncodeChar c, 128 ≤ b.toNat := by
  have hval : c.val.toNat = c.toNat := rfl
  unfold String.utf8EncodeChar
  dsimp only
  rw [hval]
  split
  · exact .inl ⟨by omega, rfl⟩
  · right
    split
    · simp only [List.forall_mem_cons, UInt8.toNat_ofNat', List.not_mem_nil, false_implies,
        implies_true, and_true]
      omega
    · split
      · simp only [List.forall_mem_cons, UInt8.toNat_ofNat', List.not_mem_nil, false_implies,
          implies_true, and_true]
        omega
      · simp only [List.forall_mem_cons, UInt8.toNat_ofNat', List.not_mem_nil, false_implies,
          implies_true, and_true]
        omega

/-- A byte of ASCII in the bytes of a text is a character of the text. -/
theorem utf8_split {text : List Char} {before after : Bytes} {c : Char} (hc : c.toNat < 128)
    (h : utf8 text = before ++ UInt8.ofNat c.toNat :: after) :
    ∃ first second, text = first ++ c :: second ∧ utf8 first = before ∧ utf8 second = after := by
  induction text generalizing before with
  | nil => simp at h
  | cons d text ih =>
      rw [utf8_cons] at h
      rcases List.append_eq_append_iff.mp h with ⟨rest, rfl, hrest⟩ | ⟨rest, hchar, hrest⟩
      · obtain ⟨first, second, rfl, rfl, hsecond⟩ := ih hrest
        exact ⟨d :: first, second, rfl, utf8_cons d first, hsecond⟩
      · cases rest with
        | nil =>
            obtain ⟨first, second, rfl, hfirst, hsecond⟩ := @ih [] hrest.symm
            rw [List.append_nil] at hchar
            refine ⟨d :: first, second, rfl, ?_, hsecond⟩
            rw [utf8_cons, hfirst, hchar, List.append_nil]
        | cons b rest =>
            obtain ⟨hb, htail⟩ := List.cons.inj hrest
            rcases utf8EncodeChar_cases d with ⟨hd, hone⟩ | hlarge
            · rw [hone] at hchar
              obtain ⟨rfl, hlast⟩ | ⟨-, hlast⟩ := List.singleton_eq_append_iff.mp hchar
              · obtain ⟨rfl, rfl⟩ := List.cons.inj hlast
                have hsame : c.toNat = d.toNat := by
                  have htoNat := congrArg UInt8.toNat hb
                  rw [UInt8.toNat_ofNat', UInt8.toNat_ofNat'] at htoNat
                  omega
                obtain rfl := Char.toNat_inj.mp hsame
                exact ⟨[], text, rfl, rfl, htail.symm⟩
              · contradiction
            · have hmem : b ∈ String.utf8EncodeChar d := by
                rw [hchar]
                exact List.mem_append_right _ List.mem_cons_self
              have hsmall : b.toNat = c.toNat := by
                rw [← hb, UInt8.toNat_ofNat']
                omega
              have := hlarge b hmem
              omega

end SocketTrail.Foundation
