/-
# The live pcapng stream

`PcapngReader.push` takes the next bytes of a stream, reads the blocks that are
complete and keeps the rest for the next call. `push_chunks` says that it does not
matter how the stream is cut: an incomplete block is kept as it is, and a cut of
the stream is a cut between two blocks or inside one (`cut_stream`).
-/

import SocketTrail.Pcap.Live
import SocketTrail.Pcap.QuicHello

namespace SocketTrail.Pcap

open SocketTrail.Foundation SocketTrail.Net

/-! ## The reader -/

/-- What the blocks of a stream said so far: the link types of the interfaces, in
the order of their description blocks, and the assemblers. The number of frames
read tells which clock readings the next one meets. -/
structure Decoder where
  linktypes : List UInt16
  parsers : Parsers
  frames : ℕ

structure PcapngReader extends Decoder where
  buf : Bytes

/-- The reader of a new capture. -/
def PcapngReader.new : PcapngReader where
  linktypes := []
  parsers := { quic := { flows := ∅ }, tcp := { flows := ∅ } }
  frames := 0
  buf := []

/-- The longest block that is read. -/
def maxLiveBlock : ℕ := 2 ^ 26

/-- Process a block of a type, which may give a packet. -/
def Decoder.block (c : Quic.Ciphers) (env : ℕ → Surroundings) (r : Decoder) (btype : ℕ)
    (body : Bytes) : Decoder × Option Packet :=
  if btype = 1 then
    if 2 ≤ body.length then
      ({ r with linktypes := r.linktypes ++ [UInt16.ofNat (le16 body 0)] }, none)
    else (r, none)
  else if btype = 6 ∧ 20 ≤ body.length then
    let caplen := le32 body 12
    let linktype := r.linktypes.getD (le32 body 0) 1
    if 20 + caplen ≤ body.length then
      let (p, parsers) :=
        parseLinkLive c (env r.frames) linktype ((body.drop 20).take caplen) r.parsers
      ({ r with parsers := parsers, frames := r.frames + 1 }, p)
    else (r, none)
  else (r, none)

/-- The loop over the blocks of the buffer from position `pos` on: the position
reached, `none` when the stream is out of step, and the packets. A block takes
bytes away, so `fuel` for the length of the buffer is never used up. -/
def pushLoop (c : Quic.Ciphers) (env : ℕ → Surroundings) (buf : Bytes) :
    ℕ → ℕ → Decoder → List Packet → Option ℕ × Decoder × List Packet
  | 0, pos, r, out => (some pos, r, out)
  | fuel + 1, pos, r, out =>
      if buf.length - pos < 12 then (some pos, r, out)
      else
        let btype := le32 buf pos
        let blen := le32 buf (pos + 4)
        if ¬ (12 ≤ blen ∧ blen ≤ maxLiveBlock) then (none, r, out)
        else if buf.length - pos < blen then (some pos, r, out)
        else
          let (r, p) := r.block c env btype ((buf.drop (pos + 8)).take (blen - 12))
          pushLoop c env buf fuel (pos + blen) r (out ++ p.toList)

namespace PcapngReader

/-- Take bytes of the stream in; the result has the packets they complete. -/
def push (c : Quic.Ciphers) (env : ℕ → Surroundings) (r : PcapngReader) (data : Bytes) :
    PcapngReader × List Packet :=
  let buf := r.buf ++ data
  match pushLoop c env buf buf.length 0 r.toDecoder [] with
  | (some pos, d, out) => ({ d with buf := buf.drop pos }, out)
  | (none, d, out) => ({ d with buf := [] }, out)

/-- Take chunks of the stream in, one after another. -/
def pushAll (c : Quic.Ciphers) (env : ℕ → Surroundings) :
    PcapngReader → List Bytes → PcapngReader × List Packet
  | r, [] => (r, [])
  | r, data :: rest =>
      let (r, out) := r.push c env data
      let (r, later) := pushAll c env r rest
      (r, out ++ later)

end PcapngReader

/-! ## Streams -/

/-- A block as it stands in the stream; it says how long it is. -/
structure IsBlock (b : Bytes) : Prop where
  minimal : 12 ≤ b.length
  bounded : b.length ≤ maxLiveBlock
  measured : le32 b 4 = b.length

/-- The beginning of a block. Its length may not be there yet. -/
structure IsIncomplete (t : Bytes) : Prop where
  minimal : 8 ≤ t.length → 12 ≤ le32 t 4
  bounded : 8 ≤ t.length → le32 t 4 ≤ maxLiveBlock
  missing : 8 ≤ t.length → t.length < le32 t 4

/-- The beginning of a block as far as the reader looks at it: it waits for twelve
bytes before it reads the length. -/
structure IsPending (t : Bytes) : Prop where
  declared : 12 ≤ t.length → 12 ≤ le32 t 4 ∧ le32 t 4 ≤ maxLiveBlock
  missing : 12 ≤ t.length → t.length < le32 t 4

theorem IsIncomplete.pending {t : Bytes} (h : IsIncomplete t) : IsPending t where
  declared hpresent := ⟨h.minimal (by omega), h.bounded (by omega)⟩
  missing hpresent := h.missing (by omega)

/-- Too few bytes say nothing yet. -/
theorem isPending_of_short {t : Bytes} (h : t.length < 12) : IsPending t where
  declared hpresent := absurd hpresent (Nat.not_le_of_lt h)
  missing hpresent := absurd hpresent (Nat.not_le_of_lt h)

def blockType (b : Bytes) : ℕ := le32 b 0

def blockBody (b : Bytes) : Bytes := (b.drop 8).take (b.length - 12)

/-- The link type that a block describes. -/
def blockLinktype (b : Bytes) : Option UInt16 :=
  if blockType b = 1 ∧ 2 ≤ (blockBody b).length then
    some (UInt16.ofNat (le16 (blockBody b) 0))
  else none

/-- The number of its interface and the frame, if a block holds one. -/
def blockFrame (b : Bytes) : Option (ℕ × Bytes) :=
  let body := blockBody b
  if blockType b = 6 ∧ 20 ≤ body.length ∧ 20 + le32 body 12 ≤ body.length then
    some (le32 body 0, (body.drop 20).take (le32 body 12))
  else none

/-- The frame of a block with the link type of its interface. An interface that was
not described counts as Ethernet. -/
def capturedFrame (linktypes : List UInt16) (b : Bytes) : Option (UInt16 × Bytes) :=
  (blockFrame b).map fun f => (linktypes.getD f.1 1, f.2)

/-- The frames of the blocks in order. -/
def capturedFrames : List UInt16 → List Bytes → List (UInt16 × Bytes)
  | _, [] => []
  | linktypes, b :: rest =>
      (capturedFrame linktypes b).toList ++
        capturedFrames (linktypes ++ (blockLinktype b).toList) rest

/-- The packets of the frames from the `n`-th on, and the assemblers behind them. -/
def parseFrames (c : Quic.Ciphers) (env : ℕ → Surroundings) :
    ℕ → Parsers → List (UInt16 × Bytes) → List Packet × Parsers
  | _, p, [] => ([], p)
  | n, p, (linktype, d) :: rest =>
      let (pkt, p) := parseLinkLive c (env n) linktype d p
      let (later, p) := parseFrames c env (n + 1) p rest
      (pkt.toList ++ later, p)

/-- The decoder behind the blocks. -/
def Decoder.after (c : Quic.Ciphers) (env : ℕ → Surroundings) (r : Decoder) (blocks : List Bytes) :
    Decoder where
  linktypes := r.linktypes ++ blocks.filterMap blockLinktype
  parsers := (parseFrames c env r.frames r.parsers (capturedFrames r.linktypes blocks)).2
  frames := r.frames + (capturedFrames r.linktypes blocks).length

/-- The packets of the blocks. -/
def Decoder.packets (c : Quic.Ciphers) (env : ℕ → Surroundings) (r : Decoder)
    (blocks : List Bytes) : List Packet :=
  (parseFrames c env r.frames r.parsers (capturedFrames r.linktypes blocks)).1

/-! ## Blocks -/

section Blocks

variable {c : Quic.Ciphers} {env : ℕ → Surroundings}

@[simp]
theorem Decoder.after_nil (r : Decoder) : r.after c env [] = r := by
  simp [Decoder.after, capturedFrames, parseFrames]

@[simp]
theorem Decoder.packets_nil (r : Decoder) : r.packets c env [] = [] := rfl

theorem parseFrames_append (n : ℕ) (p : Parsers) (first second : List (UInt16 × Bytes)) :
    parseFrames c env n p (first ++ second) =
      ((parseFrames c env n p first).1 ++
          (parseFrames c env (n + first.length) (parseFrames c env n p first).2 second).1,
        (parseFrames c env (n + first.length) (parseFrames c env n p first).2 second).2) := by
  induction first generalizing n p with
  | nil => rfl
  | cons f first ih =>
      obtain ⟨linktype, d⟩ := f
      rw [List.cons_append, parseFrames, parseFrames]
      simp only [ih, List.append_assoc, List.length_cons]
      rw [Nat.add_right_comm, Nat.add_assoc]

theorem parseFrames_concat (n : ℕ) (p : Parsers) (frames : List (UInt16 × Bytes))
    (linktype : UInt16) (d : Bytes) :
    parseFrames c env n p (frames ++ [(linktype, d)]) =
      ((parseFrames c env n p frames).1 ++
          (parseLinkLive c (env (n + frames.length)) linktype d
            (parseFrames c env n p frames).2).1.toList,
        (parseLinkLive c (env (n + frames.length)) linktype d
          (parseFrames c env n p frames).2).2) := by
  rw [parseFrames_append]
  simp [parseFrames]

theorem capturedFrames_append (linktypes : List UInt16) (first second : List Bytes) :
    capturedFrames linktypes (first ++ second) =
      capturedFrames linktypes first ++
        capturedFrames (linktypes ++ first.filterMap blockLinktype) second := by
  induction first generalizing linktypes with
  | nil => simp [capturedFrames]
  | cons b first ih =>
      have hlinktypes : linktypes ++ (blockLinktype b).toList ++ first.filterMap blockLinktype =
          linktypes ++ (b :: first).filterMap blockLinktype := by
        rw [List.filterMap_cons, List.append_assoc]
        cases blockLinktype b <;> rfl
      rw [List.cons_append, capturedFrames, capturedFrames, ih, hlinktypes, List.append_assoc]

/-- What the first blocks leave behind, the others start with. -/
theorem Decoder.after_append (r : Decoder) (first second : List Bytes) :
    r.after c env (first ++ second) = (r.after c env first).after c env second := by
  simp only [Decoder.after, capturedFrames_append, parseFrames_append, List.filterMap_append,
    List.append_assoc, List.length_append, Nat.add_assoc]

theorem Decoder.packets_append (r : Decoder) (first second : List Bytes) :
    r.packets c env (first ++ second) =
      r.packets c env first ++ (r.after c env first).packets c env second := by
  simp only [Decoder.packets, Decoder.after, capturedFrames_append, parseFrames_append]

/-- One block describes an interface, holds a frame or says nothing. -/
theorem Decoder.block_eq (r : Decoder) (b : Bytes) :
    (r.block c env (blockType b) (blockBody b)).1 = r.after c env [b] ∧
      (r.block c env (blockType b) (blockBody b)).2.toList = r.packets c env [b] := by
  unfold Decoder.block Decoder.after Decoder.packets
  simp only [capturedFrames, capturedFrame, List.append_nil, List.filterMap_cons,
    List.filterMap_nil]
  by_cases hinterface : blockType b = 1
  · have hframe : blockFrame b = none := by simp [blockFrame, hinterface]
    rw [if_pos hinterface, hframe]
    unfold blockLinktype
    by_cases hbody : 2 ≤ (blockBody b).length
    · rw [if_pos hbody, if_pos ⟨hinterface, hbody⟩]
      simp [parseFrames]
    · rw [if_neg hbody, if_neg (by simp [hbody])]
      simp [parseFrames]
  · have hlinktype : blockLinktype b = none := by simp [blockLinktype, hinterface]
    rw [if_neg hinterface, hlinktype]
    unfold blockFrame
    by_cases hpacket : blockType b = 6 ∧ 20 ≤ (blockBody b).length
    · rw [if_pos hpacket]
      dsimp only
      by_cases hcaplen : 20 + le32 (blockBody b) 12 ≤ (blockBody b).length
      · rw [if_pos hcaplen, if_pos ⟨hpacket.1, hpacket.2, hcaplen⟩]
        simp [parseFrames]
      · rw [if_neg hcaplen, if_neg (by simp [hcaplen])]
        simp [parseFrames]
    · rw [if_neg hpacket, if_neg (by tauto)]
      simp [parseFrames]

end Blocks

/-! ## The loop -/

/-- The length of a block is where the loop looks for it. -/
theorem IsBlock.read {b : Bytes} (h : IsBlock b) {d rest : Bytes} {p : ℕ}
    (hd : Stands d p (b ++ rest)) :
    le32 d p = blockType b ∧ le32 d (p + 4) = b.length ∧
      (d.drop (p + 8)).take (b.length - 12) = blockBody b := by
  have hminimal := h.minimal
  refine ⟨?_, ?_, ?_⟩
  · have htype := hd.leAt 4 0
    rw [leAt_append_left rest (by omega)] at htype
    exact htype
  · have hlength := hd.leAt 4 4
    rw [leAt_append_left rest (by omega)] at hlength
    exact hlength.trans h.measured
  · rw [← List.drop_drop, hd.2, List.drop_append_of_le_length (by omega),
      List.take_append_of_le_length (by rw [List.length_drop]; omega)]
    rfl

section Loop

variable {c : Quic.Ciphers} {env : ℕ → Surroundings}

/-- The loop stops at a block that is not complete. -/
theorem pushLoop_pending {buf tail : Bytes} {pos : ℕ} (hbuf : Stands buf pos tail)
    (h : IsPending tail) (fuel : ℕ) (r : Decoder) (out : List Packet) :
    pushLoop c env buf fuel pos r out = (some pos, r, out) := by
  have hlength := hbuf.length
  cases fuel with
  | zero => rfl
  | succ fuel =>
      unfold pushLoop
      by_cases hshort : buf.length - pos < 12
      · rw [if_pos hshort]
      · have hpresent : 12 ≤ tail.length := by omega
        have hdeclared : le32 buf (pos + 4) = le32 tail 4 := hbuf.leAt 4 4
        have hmissing := h.missing hpresent
        rw [if_neg hshort]
        dsimp only
        rw [hdeclared, if_neg (not_not.mpr (h.declared hpresent)), if_pos (by omega)]

/-- The loop goes through the blocks and on behind them. -/
theorem pushLoop_through {buf tail : Bytes} {blocks : List Bytes}
    (hblocks : ∀ b ∈ blocks, IsBlock b) {pos : ℕ} (hbuf : Stands buf pos (blocks.flatten ++ tail))
    (fuel : ℕ) (r : Decoder) (out : List Packet) :
    Stands buf (pos + blocks.flatten.length) tail ∧
      pushLoop c env buf (blocks.length + fuel) pos r out =
        pushLoop c env buf fuel (pos + blocks.flatten.length) (r.after c env blocks)
          (out ++ r.packets c env blocks) := by
  induction blocks generalizing pos r out with
  | nil =>
      rw [List.flatten_nil, List.nil_append] at hbuf
      simpa using hbuf
  | cons b rest ih =>
      obtain ⟨hb, hrest⟩ := List.forall_mem_cons.mp hblocks
      rw [List.flatten_cons, List.append_assoc] at hbuf
      have hminimal := hb.minimal
      have hlength := hbuf.length
      rw [List.length_append] at hlength
      obtain ⟨htype, hdeclared, hbody⟩ := hb.read hbuf
      obtain ⟨hafter, hpackets⟩ := @Decoder.block_eq c env r b
      obtain ⟨hstands, hloop⟩ := ih hrest hbuf.skip (r.after c env [b])
        (out ++ r.packets c env [b])
      have hsplit : b :: rest = [b] ++ rest := rfl
      rw [List.flatten_cons, List.length_append, ← Nat.add_assoc]
      refine ⟨hstands, ?_⟩
      rw [List.length_cons, Nat.add_right_comm, pushLoop, if_neg (by omega)]
      dsimp only
      rw [hdeclared, if_neg (not_not.mpr ⟨hminimal, hb.bounded⟩), if_neg (by omega), htype,
        hbody, hafter, hpackets, hloop, hsplit, r.after_append, r.packets_append,
        List.append_assoc]

end Loop

/-! ## Cutting the stream -/

theorem length_le_flatten {blocks : List Bytes} (h : ∀ b ∈ blocks, IsBlock b) :
    blocks.length ≤ blocks.flatten.length := by
  induction blocks with
  | nil => exact le_rfl
  | cons b rest ih =>
      obtain ⟨hb, hrest⟩ := List.forall_mem_cons.mp h
      have hminimal := hb.minimal
      have hlength := ih hrest
      rw [List.flatten_cons, List.length_append, List.length_cons]
      omega

/-- What is in front of the end of a block is pending. -/
theorem IsBlock.pending {b x y : Bytes} (h : IsBlock b) (hcut : x ++ y = b) (hy : y ≠ []) :
    IsPending x := by
  have hpos := List.length_pos_of_ne_nil hy
  have hlength : x.length + y.length = b.length := by rw [← hcut, List.length_append]
  have hsame : 12 ≤ x.length → le32 x 4 = b.length := by
    intro hpresent
    rw [← h.measured, ← hcut]
    exact (leAt_append_left y (by omega)).symm
  constructor
  · intro hpresent
    rw [hsame hpresent]
    exact ⟨h.minimal, h.bounded⟩
  · intro hpresent
    rw [hsame hpresent]
    omega

/-- The beginning of a pending block is pending. -/
theorem IsPending.front {t x y : Bytes} (h : IsPending t) (hcut : x ++ y = t) : IsPending x := by
  have hlength : x.length + y.length = t.length := by rw [← hcut, List.length_append]
  have hsame : 12 ≤ x.length → le32 x 4 = le32 t 4 := by
    intro hpresent
    rw [← hcut]
    exact (leAt_append_left y (by omega)).symm
  constructor
  · intro hpresent
    rw [hsame hpresent]
    exact h.declared (by omega)
  · intro hpresent
    have hmissing := h.missing (by omega)
    rw [hsame hpresent]
    omega

/-- A pending block does not begin with a complete one. -/
theorem IsPending.not_block {t b rest : Bytes} (h : IsPending t) (hb : IsBlock b) :
    t ≠ b ++ rest := by
  rintro rfl
  have hminimal := hb.minimal
  have hpresent : 12 ≤ (b ++ rest).length := by
    rw [List.length_append]
    omega
  have hmissing := h.missing hpresent
  have hdeclared : le32 (b ++ rest) 4 = le32 b 4 := leAt_append_left rest (by omega)
  rw [hdeclared, hb.measured, List.length_append] at hmissing
  omega

/-- A cut of the stream stands behind some blocks, and the block after them is
pending there. -/
theorem cut_stream {blocks : List Bytes} {tail : Bytes} (hblocks : ∀ b ∈ blocks, IsBlock b)
    (htail : IsPending tail) {x y : Bytes} (hcut : x ++ y = blocks.flatten ++ tail) :
    ∃ done rest part, blocks = done ++ rest ∧ x = done.flatten ++ part ∧ IsPending part ∧
      part ++ y = rest.flatten ++ tail := by
  induction blocks generalizing x with
  | nil => exact ⟨[], [], x, rfl, rfl, htail.front hcut, hcut⟩
  | cons b blocks ih =>
      obtain ⟨hb, hrest⟩ := List.forall_mem_cons.mp hblocks
      rw [List.flatten_cons, List.append_assoc] at hcut
      have hfront : x <+: x ++ y := List.prefix_append ..
      have hblock : b <+: x ++ y := hcut ▸ List.prefix_append ..
      rcases Nat.lt_or_ge x.length b.length with hshort | hlong
      · obtain ⟨more, hmore⟩ := List.prefix_of_prefix_length_le hfront hblock hshort.le
        have hne : more ≠ [] := by
          rintro rfl
          rw [← hmore, List.append_nil] at hshort
          omega
        refine ⟨[], b :: blocks, x, rfl, rfl, hb.pending hmore hne, ?_⟩
        rw [hcut, List.flatten_cons, List.append_assoc]
      · obtain ⟨more, rfl⟩ := List.prefix_of_prefix_length_le hblock hfront hlong
        rw [List.append_assoc, List.append_cancel_left_eq] at hcut
        obtain ⟨done, rest, part, rfl, rfl, hpart, hnext⟩ := ih hrest hcut
        refine ⟨b :: done, rest, part, rfl, ?_, hpart, hnext⟩
        rw [List.flatten_cons, List.append_assoc]

section Stream

variable {c : Quic.Ciphers} {env : ℕ → Surroundings} {r : PcapngReader}

/-- The reader behind some blocks of the stream, with an incomplete one in its
buffer. -/
def PcapngReader.behind (c : Quic.Ciphers) (env : ℕ → Surroundings) (r : PcapngReader)
    (blocks : List Bytes) (tail : Bytes) : PcapngReader :=
  { r.toDecoder.after c env blocks with buf := tail }

/-- A call reads the blocks that it completes. -/
theorem PcapngReader.push_blocks {blocks : List Bytes} {data tail : Bytes}
    (hblocks : ∀ b ∈ blocks, IsBlock b) (htail : IsPending tail)
    (hdata : r.buf ++ data = blocks.flatten ++ tail) :
    r.push c env data = (r.behind c env blocks tail, r.toDecoder.packets c env blocks) := by
  have hfuel : blocks.length ≤ (r.buf ++ data).length := by
    rw [hdata, List.length_append]
    exact (length_le_flatten hblocks).trans (Nat.le_add_right _ _)
  have hstart : Stands (r.buf ++ data) 0 (blocks.flatten ++ tail) := hdata ▸ .start _
  obtain ⟨fuel, hfuel⟩ := Nat.exists_eq_add_of_le hfuel
  obtain ⟨hstands, hloop⟩ := @pushLoop_through c env _ _ _ hblocks _ hstart fuel
    r.toDecoder []
  unfold PcapngReader.push
  dsimp only
  rw [hfuel, hloop, pushLoop_pending hstands htail]
  dsimp only
  rw [Nat.zero_add, List.nil_append, hdata, List.drop_left]
  rfl

/-- The calls read all blocks of the stream. -/
theorem PcapngReader.pushAll_blocks {blocks : List Bytes} {tail : Bytes} {chunks : List Bytes}
    (hblocks : ∀ b ∈ blocks, IsBlock b) (htail : IsPending tail) (hbuf : IsPending r.buf)
    (hcut : r.buf ++ chunks.flatten = blocks.flatten ++ tail) :
    r.pushAll c env chunks = (r.behind c env blocks tail, r.toDecoder.packets c env blocks) := by
  induction chunks generalizing r blocks with
  | nil =>
      rw [List.flatten_nil, List.append_nil] at hcut
      cases blocks with
      | nil =>
          rw [List.flatten_nil, List.nil_append] at hcut
          rw [PcapngReader.behind, Decoder.after_nil, Decoder.packets_nil, ← hcut]
          rfl
      | cons b rest =>
          rw [List.flatten_cons, List.append_assoc] at hcut
          exact absurd hcut (hbuf.not_block (hblocks b (List.mem_cons_self ..)))
  | cons data chunks ih =>
      rw [List.flatten_cons, ← List.append_assoc] at hcut
      obtain ⟨done, rest, part, rfl, hdone, hpart, hnext⟩ := cut_stream hblocks htail hcut
      obtain ⟨hdoneBlocks, hrest⟩ := List.forall_mem_append.mp hblocks
      rw [PcapngReader.pushAll, push_blocks hdoneBlocks hpart hdone]
      dsimp only
      rw [ih hrest hpart hnext]
      simp only [PcapngReader.behind, Decoder.after_append, Decoder.packets_append]

/-- **The reader does not depend on how the stream is cut.** Of a stream of blocks
that ends in an incomplete one, any chunks give the same packets and leave the same
reader behind as the whole stream: the packets of its frames in order, each read
with the link type of its interface, and the incomplete block in the buffer. -/
theorem push_chunks (hbuf : r.buf = []) {blocks : List Bytes} {tail : Bytes}
    (hblocks : ∀ b ∈ blocks, IsBlock b) (htail : IsIncomplete tail) {chunks : List Bytes}
    (hcut : chunks.flatten = blocks.flatten ++ tail) :
    r.pushAll c env chunks = r.push c env (blocks.flatten ++ tail) ∧
      (r.pushAll c env chunks).2 =
        (parseFrames c env r.frames r.parsers (capturedFrames r.linktypes blocks)).1 ∧
      (r.pushAll c env chunks).1.parsers =
        (parseFrames c env r.frames r.parsers (capturedFrames r.linktypes blocks)).2 ∧
      (r.pushAll c env chunks).1.linktypes = r.linktypes ++ blocks.filterMap blockLinktype ∧
      (r.pushAll c env chunks).1.buf = tail := by
  have hempty : IsPending r.buf := by
    rw [hbuf]
    exact isPending_of_short (by decide)
  have hall : r.buf ++ chunks.flatten = blocks.flatten ++ tail := by
    rw [hbuf, List.nil_append, hcut]
  have hwhole : r.buf ++ (blocks.flatten ++ tail) = blocks.flatten ++ tail := by
    rw [hbuf, List.nil_append]
  rw [PcapngReader.pushAll_blocks hblocks htail.pending hempty hall,
    PcapngReader.push_blocks hblocks htail.pending hwhole]
  exact ⟨rfl, rfl, rfl, rfl, rfl⟩

end Stream

/-! ## A sample stream -/

/-- The description of a raw IP interface. -/
def sampleInterface : Bytes :=
  [1, 0, 0, 0, 20, 0, 0, 0, 101, 0, 0, 0, 0, 0, 4, 0, 20, 0, 0, 0]

/-- The sample frame, captured on that interface. -/
def sampleCapture : Bytes :=
  [6, 0, 0, 0, 60, 0, 0, 0, 0, 0, 0, 0, 0, 0, 0, 0, 0, 0, 0, 0, 28, 0, 0, 0, 28, 0, 0, 0] ++
    sampleFrame ++ [60, 0, 0, 0]

/-- The sample packet is read from two chunks that part the block in its header,
before the next block is there. -/
theorem push_chunks_sample :
    (PcapngReader.new.pushAll Quic.sampleCiphers (fun _ => sampleSurroundings)
      [sampleInterface ++ sampleCapture.take 6, sampleCapture.drop 6 ++ [6, 0]]).2 =
        [samplePacket] := by
  have hblocks : ∀ b ∈ [sampleInterface, sampleCapture], IsBlock b := by
    refine List.forall_mem_cons.mpr ⟨?_, List.forall_mem_singleton.mpr ?_⟩ <;>
      constructor <;> decide
  have htail : IsIncomplete [6, 0] := by constructor <;> decide
  rw [(push_chunks (c := Quic.sampleCiphers) rfl hblocks htail (by decide)).2.1]
  decide +kernel

end SocketTrail.Pcap
