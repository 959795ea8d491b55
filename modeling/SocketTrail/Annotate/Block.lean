/-
# Blocks of a capture file

A pcapng file is a sequence of blocks, each with its type, its length before and
behind the body, and the body. `readBlock` accepts exactly the encodings of well
formed blocks: `readBlock_encode` and `encode_of_readBlock` are the two
directions. Options are spliced into a body with `withComment`.
-/

import SocketTrail.Foundation.Bytes
import SocketTrail.Foundation.Unicode
import SocketTrail.State.Enrich
import Mathlib.Tactic.Cases

namespace SocketTrail.Annotate

open SocketTrail.Foundation

/-- Why a file could not be rewritten. -/
inductive Failure
  | unexpectedEof
  | corruptedBlock
  | lengthsDisagree
  | bigEndian
  | corruptedPacket
  | headerMissing
  /-- An operation of the system failed. -/
  | system
  deriving DecidableEq, Repr

/-- The message of a failure; the system words its own. -/
def Failure.text (lang : Lang) (system : String) : Failure → String
  | .unexpectedEof => "failed to fill whole buffer"
  | .corruptedBlock => tr lang "corrupted pcapng block" "поврежденный блок pcapng"
  | .lengthsDisagree => tr lang "pcapng block lengths disagree" "Длины блока pcapng не совпадают"
  | .bigEndian => tr lang "big-endian pcapng" "pcapng с обратным порядком байт"
  | .corruptedPacket => tr lang "corrupted pcapng packet" "поврежденный пакет pcapng"
  | .headerMissing =>
      tr lang "pcapng section header is missing" "В pcapng отсутствует заголовок секции"
  | .system => system

structure Block where
  ty : UInt32
  body : Bytes
  deriving DecidableEq, Repr

/-- The section header block. -/
def shb : UInt32 := 0x0A0D0D0A

/-- The interface description block. -/
def idb : UInt32 := 1

/-- The enhanced packet block. -/
def epb : UInt32 := 6

/-- What a little-endian section header begins with. -/
def magic : ℕ := 0x1A2B3C4D

/-- The longest block that is read. -/
def maxBlock : ℕ := 2 ^ 26

namespace Block

/-- The length of the block in the file. -/
def size (b : Block) : ℕ := 12 + b.body.length

/-- The bytes of a block. -/
def encode (b : Block) : Bytes :=
  leBytes 4 b.ty.toNat ++ (leBytes 4 b.size ++ (b.body ++ leBytes 4 b.size))

/-- The block fits into a file that is read: whole groups of four bytes, and not
too long. -/
structure WellFormed (b : Block) : Prop where
  aligned : 4 ∣ b.body.length
  bounded : b.size ≤ maxBlock

instance (b : Block) : Decidable b.WellFormed :=
  decidable_of_iff (4 ∣ b.body.length ∧ b.size ≤ maxBlock)
    ⟨fun h => ⟨h.1, h.2⟩, fun h => ⟨h.aligned, h.bounded⟩⟩

end Block

/-- The bytes of a sequence of blocks. -/
def encodeAll (blocks : List Block) : Bytes := (blocks.map Block.encode).flatten

@[simp]
theorem encodeAll_nil : encodeAll [] = [] := rfl

@[simp]
theorem encodeAll_cons (b : Block) (blocks : List Block) :
    encodeAll (b :: blocks) = b.encode ++ encodeAll blocks := rfl

@[simp]
theorem encodeAll_append (first second : List Block) :
    encodeAll (first ++ second) = encodeAll first ++ encodeAll second := by
  simp [encodeAll]

/-- Read the first block of a file that is not at its end. -/
def readBlock (bytes : Bytes) : Except Failure (Block × Bytes) :=
  if bytes.length < 8 then .error .unexpectedEof
  else
    let len := le32 bytes 4
    if ¬(12 ≤ len ∧ len ≤ maxBlock) ∨ len % 4 ≠ 0 then .error .corruptedBlock
    else if bytes.length < len then .error .unexpectedEof
    else if le32 bytes (len - 4) ≠ len then .error .lengthsDisagree
    else
      .ok ({ ty := UInt32.ofNat (le32 bytes 0), body := (bytes.drop 8).take (len - 12) },
        bytes.drop len)

/-! ## Reading what was written -/

theorem Block.length_encode (b : Block) : b.encode.length = b.size := by
  simp only [Block.encode, List.length_append, length_leBytes, Block.size]
  omega

theorem Block.encode_ne_nil (b : Block) : b.encode ≠ [] := by
  intro h
  have hlength := b.length_encode
  rw [h, Block.size] at hlength
  simp only [List.length_nil] at hlength
  omega

/-- Where the parts of a written block stand. -/
theorem Block.parts_encode {b : Block} (h : b.WellFormed) (rest : Bytes) :
    le32 (b.encode ++ rest) 0 = b.ty.toNat ∧ le32 (b.encode ++ rest) 4 = b.size ∧
      le32 (b.encode ++ rest) (b.size - 4) = b.size ∧
      ((b.encode ++ rest).drop 8).take (b.size - 12) = b.body := by
  have hbounded : b.size < 256 ^ 4 := lt_of_le_of_lt h.bounded (by decide)
  have hty : b.ty.toNat < 256 ^ 4 := b.ty.toNat_lt
  refine ⟨?_, ?_, ?_, ?_⟩
  · have hread := leAt_append [] (leBytes 4 b.size ++ (b.body ++ leBytes 4 b.size) ++ rest) hty
    simpa [Block.encode] using hread
  · have hread := leAt_append (leBytes 4 b.ty.toNat) (b.body ++ leBytes 4 b.size ++ rest) hbounded
    simpa [Block.encode] using hread
  · have hread := leAt_append (leBytes 4 b.ty.toNat ++ leBytes 4 b.size ++ b.body) rest hbounded
    have hposition : (leBytes 4 b.ty.toNat ++ leBytes 4 b.size ++ b.body).length = b.size - 4 := by
      simp only [List.length_append, length_leBytes, Block.size]
      omega
    rw [hposition] at hread
    simpa [Block.encode] using hread
  · have hsplit : b.encode ++ rest =
        (leBytes 4 b.ty.toNat ++ leBytes 4 b.size) ++ (b.body ++ (leBytes 4 b.size ++ rest)) := by
      simp [Block.encode]
    have hlength : b.size - 12 = b.body.length := by
      unfold Block.size
      omega
    rw [hsplit, List.drop_left' (by simp), hlength, List.take_left]

/-- A written block is read back. -/
theorem readBlock_encode {b : Block} (h : b.WellFormed) (rest : Bytes) :
    readBlock (b.encode ++ rest) = .ok (b, rest) := by
  obtain ⟨hty, hlen, htrailer, hbody⟩ := Block.parts_encode h rest
  have hsize : b.size = 12 + b.body.length := rfl
  have hlength : (b.encode ++ rest).length = b.size + rest.length := by
    rw [List.length_append, b.length_encode]
  have haligned : b.size % 4 = 0 := by
    have hdvd := h.aligned
    omega
  have hrest : (b.encode ++ rest).drop b.size = rest := List.drop_left' b.length_encode
  unfold readBlock
  rw [if_neg (by omega)]
  simp only [hlen, hty, htrailer, hbody, hrest]
  rw [if_neg (by have hbounded := h.bounded; omega), if_neg (by omega), if_neg (by simp)]
  simp

/-- What is read as a block is the encoding of a well formed one. -/
theorem encode_of_readBlock {bytes rest : Bytes} {b : Block}
    (h : readBlock bytes = .ok (b, rest)) : bytes = b.encode ++ rest ∧ b.WellFormed := by
  unfold readBlock at h
  split at h
  · contradiction
  rename_i hhead
  dsimp only at h
  generalize hlen : le32 bytes 4 = len at h
  split at h
  · contradiction
  rename_i hvalid
  split at h
  · contradiction
  rename_i hcomplete
  split at h
  · contradiction
  rename_i htrailer
  rw [not_not] at htrailer
  obtain ⟨rfl, rfl⟩ := Prod.mk.inj (Except.ok.inj h)
  have hbody : ((bytes.drop 8).take (len - 12)).length = len - 12 := by
    rw [List.length_take, List.length_drop]
    omega
  have hty : (UInt32.ofNat (le32 bytes 0)).toNat = le32 bytes 0 := by
    have hlt := leAt_lt 4 bytes 0
    rw [UInt32.toNat_ofNat']
    exact Nat.mod_eq_of_lt hlt
  have hsize : 12 + (len - 12) = len := by omega
  refine ⟨?_, ?_, ?_⟩
  · have hfirst : leBytes 4 (le32 bytes 0) = bytes.take 4 := leBytes_leAt (by omega)
    have hsecond : leBytes 4 len = (bytes.drop 4).take 4 := by
      rw [← hlen]
      exact leBytes_leAt (by omega)
    have hlast : leBytes 4 len = (bytes.drop (len - 4)).take 4 := by
      conv_lhs => rw [← htrailer]
      exact leBytes_leAt (by omega)
    have hend := take_append_drop_add bytes (len - 4) 4
    have hmiddle := take_append_drop_add bytes 8 (len - 12)
    have hstart := take_append_drop_add bytes 4 4
    rw [show len - 4 + 4 = len by omega] at hend
    rw [show 8 + (len - 12) = len - 4 by omega] at hmiddle
    calc
      bytes = bytes.take 4 ++ bytes.drop 4 := (List.take_append_drop 4 bytes).symm
      _ = bytes.take 4 ++ ((bytes.drop 4).take 4 ++ ((bytes.drop 8).take (len - 12) ++
            ((bytes.drop (len - 4)).take 4 ++ bytes.drop len))) := by
          rw [hend, hmiddle, hstart]
      _ = _ := by
          simp only [Block.encode, Block.size, hbody, hty, hsize, hfirst, List.append_assoc]
          rw [← hsecond, ← hlast]
  · dsimp only
    rw [hbody]
    omega
  · unfold Block.size
    dsimp only
    rw [hbody]
    omega

/-! ## Comments -/

/-- The longest text of a comment, in bytes. -/
def maxComment : ℕ := 65532

/-- The option that carries a comment, padded to a group of four bytes. -/
def optComment (text : String) : Bytes :=
  let t := (utf8 text.toList).take maxComment
  let o := leBytes 2 1 ++ (leBytes 2 t.length ++ t)
  o ++ List.replicate (padTo4 o.length - o.length) 0

/-- A body with a comment in front of its options, which begin behind the first
`fixed` bytes. A body without options gets an end of options as well. -/
def withComment (body : Bytes) (fixed : ℕ) (text : String) : Bytes :=
  body.take fixed ++ (optComment text ++ if fixed < body.length then body.drop fixed else
    [0, 0, 0, 0])

/-- The option is a comment with the text: its code, the length of the text, the
text as far as one option holds it, and zeros up to a group of four bytes. -/
structure IsComment (text : String) (o : Bytes) : Prop where
  code : le16 o 0 = 1
  length : le16 o 2 = min maxComment (utf8 text.toList).length
  text : (o.drop 4).take (le16 o 2) = (utf8 text.toList).take maxComment
  padding : ∀ b ∈ o.drop (4 + le16 o 2), b = 0
  aligned : 4 ∣ o.length
  short : o.length < 4 + le16 o 2 + 4

/-- The second body is the first with one comment right behind its first `fixed`
bytes; if it had no options there, an end of options (code 0, length 0) follows. -/
def Commented (body : Bytes) (fixed : ℕ) (text : String) (body' : Bytes) : Prop :=
  ∃ o, IsComment text o ∧
    (fixed < body.length → body' = body.take fixed ++ (o ++ body.drop fixed)) ∧
    (fixed = body.length → body' = body ++ (o ++ [0, 0, 0, 0]))

theorem length_optComment (text : String) :
    (optComment text).length = padTo4 (4 + min maxComment (utf8 text.toList).length) := by
  have hpad := le_padTo4 (4 + min maxComment (utf8 text.toList).length)
  simp only [optComment, List.length_append, length_leBytes, List.length_take,
    List.length_replicate]
  rw [show 2 + (2 + min maxComment (utf8 text.toList).length) =
    4 + min maxComment (utf8 text.toList).length by omega]
  omega

theorem isComment_optComment (text : String) : IsComment text (optComment text) := by
  generalize hheld : (utf8 text.toList).take maxComment = held
  have hlength : held.length = min maxComment (utf8 text.toList).length := by
    rw [← hheld, List.length_take]
  have hfits : held.length < 256 ^ 2 := by
    rw [hlength]
    exact (min_le_left ..).trans_lt (by decide)
  have heq : optComment text =
      leBytes 2 1 ++ (leBytes 2 held.length ++ (held ++
        List.replicate (padTo4 (4 + held.length) - (4 + held.length)) 0)) := by
    have htotal : (leBytes 2 1 ++ (leBytes 2 held.length ++ held)).length = 4 + held.length := by
      simp only [List.length_append, length_leBytes]
      omega
    simp only [optComment, hheld, htotal, List.append_assoc]
  have hcode : le16 (optComment text) 0 = 1 := by
    rw [heq]
    exact leAt_append [] _ (by decide)
  have hsecond : le16 (optComment text) 2 = held.length := by
    rw [heq]
    exact leAt_append (leBytes 2 1) _ hfits
  have hrest : (optComment text).drop 4 =
      held ++ List.replicate (padTo4 (4 + held.length) - (4 + held.length)) 0 := by
    rw [heq, ← List.append_assoc]
    exact List.drop_left' (by simp)
  have hsize : (optComment text).length = padTo4 (4 + held.length) := by
    rw [length_optComment, hlength]
  refine ⟨hcode, hsecond.trans hlength, ?_, ?_, ?_, ?_⟩
  · rw [hsecond, hrest, List.take_left]
    exact hheld.symm
  · rw [hsecond, ← List.drop_drop, hrest, List.drop_left]
    exact fun b hb => List.eq_of_mem_replicate hb
  · rw [hsize]
    exact four_dvd_padTo4 _
  · rw [hsize, hsecond, padTo4]
    omega

/-- A body with a comment is commented. -/
theorem commented_withComment (body : Bytes) (fixed : ℕ) (text : String) :
    Commented body fixed text (withComment body fixed text) := by
  refine ⟨optComment text, isComment_optComment text, fun hlt => ?_, fun heq => ?_⟩
  · rw [withComment, if_pos hlt]
  · rw [withComment, if_neg heq.not_lt, heq, List.take_length]

/-- A comment keeps a body aligned. -/
theorem four_dvd_withComment {body : Bytes} {fixed : ℕ} (hbody : 4 ∣ body.length)
    (hfixed : 4 ∣ fixed) (hle : fixed ≤ body.length) (text : String) :
    4 ∣ (withComment body fixed text).length := by
  have hoption : 4 ∣ (optComment text).length := by
    rw [length_optComment]
    exact four_dvd_padTo4 _
  simp only [withComment, List.length_append, List.length_take, min_eq_left hle]
  split
  · rw [List.length_drop]
    omega
  · simp only [List.length_cons, List.length_nil]
    omega

/-- How much a comment can lengthen a body. -/
theorem length_withComment_le (body : Bytes) (fixed : ℕ) (text : String) :
    (withComment body fixed text).length ≤ body.length + maxComment + 12 := by
  have hoption : (optComment text).length ≤ maxComment + 8 := by
    rw [length_optComment, padTo4]
    omega
  simp only [withComment, List.length_append, List.length_take]
  split
  · rw [List.length_drop]
    omega
  · simp only [List.length_cons, List.length_nil]
    omega

/-! ## Files that are cut or damaged -/

/-- A file whose block is cut short is not read. -/
theorem readBlock_cut {b : Block} (h : b.WellFormed) {cut : Bytes} (hfront : cut <+: b.encode)
    (hne : cut ≠ b.encode) : ∃ e, readBlock cut = .error e := by
  obtain ⟨rest, hrest⟩ := hfront
  have hlength : cut.length < b.size := by
    have hsum : cut.length + rest.length = b.size := by
      rw [← List.length_append, hrest, b.length_encode]
    have hrest_ne : rest ≠ [] := by
      rintro rfl
      exact hne (by simpa using hrest)
    have hpos := List.length_pos_iff.mpr hrest_ne
    omega
  unfold readBlock
  split
  · exact ⟨_, rfl⟩
  rename_i hhead
  have hlen : le32 cut 4 = b.size := by
    have hread := (Block.parts_encode h []).2.1
    rw [List.append_nil, ← hrest] at hread
    rw [← hread]
    unfold le32 leAt
    rw [List.drop_append_of_le_length (by omega), List.take_append_of_le_length]
    rw [List.length_drop]
    omega
  dsimp only
  rw [hlen]
  split
  · exact ⟨_, rfl⟩
  · exact ⟨_, rfl⟩

/-- A file whose block has two different lengths is not read. -/
theorem readBlock_mismatch {bytes : Bytes} (h : le32 bytes (le32 bytes 4 - 4) ≠ le32 bytes 4) :
    ∃ e, readBlock bytes = .error e := by
  unfold readBlock
  split
  · exact ⟨_, rfl⟩
  dsimp only
  split
  · exact ⟨_, rfl⟩
  split
  · exact ⟨_, rfl⟩
  · exact ⟨_, rfl⟩

/-- No list of blocks begins with blocks and goes on with what is not read. -/
theorem encodeAll_ne_of_error {before blocks : List Block} {tail : Bytes} {e : Failure}
    (hbefore : ∀ b ∈ before, b.WellFormed) (hblocks : ∀ b ∈ blocks, b.WellFormed)
    (htail : tail ≠ []) (herror : readBlock tail = .error e) :
    encodeAll before ++ tail ≠ encodeAll blocks := by
  induction before generalizing blocks with
  | nil =>
      intro h
      cases blocks with
      | nil => exact htail h
      | cons b rest =>
          rw [encodeAll_nil, List.nil_append, encodeAll_cons] at h
          rw [h, readBlock_encode (hblocks b (List.mem_cons_self ..))] at herror
          contradiction
  | cons first others ih =>
      intro h
      have hfirst := hbefore first (List.mem_cons_self ..)
      rw [encodeAll_cons, List.append_assoc] at h
      have hread := readBlock_encode hfirst (encodeAll others ++ tail)
      cases blocks with
      | nil =>
          rw [encodeAll_nil, List.append_eq_nil_iff] at h
          exact first.encode_ne_nil h.1
      | cons b rest =>
          rw [h, encodeAll_cons, readBlock_encode (hblocks b (List.mem_cons_self ..)),
            Except.ok.injEq, Prod.mk.injEq] at hread
          exact ih (fun b hb => hbefore b (List.mem_cons_of_mem _ hb))
            (fun b hb => hblocks b (List.mem_cons_of_mem _ hb)) hread.2.symm

end SocketTrail.Annotate
