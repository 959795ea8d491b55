/-
# Events and the file that is written of them

`packet` takes an event of the capture driver apart, and `writeHeader` and
`writeEpb` write the recording, piece by piece. What they write are encoded blocks
(`block_eq_encode`), which both readers of recordings know: the reader of the live
stream finds the frames again (`capturedFrames_file`), and the file is a complete
capture for the filter (`file_capture`).
-/

import SocketTrail.Annotate.Interfaces

namespace SocketTrail.Etw

open SocketTrail.Foundation SocketTrail.Annotate SocketTrail.Pcap

/-! ## Events -/

/-- The length of the fields in front of the frame. -/
def header : ℕ := 34

/-- An event that was taken apart. The link type is zero for a frame of a kind that
is not recorded. -/
structure PacketEvent where
  group : ℕ
  number : ℕ
  linktype : UInt16
  orig : ℕ
  frame : Bytes
  deriving DecidableEq, Repr

/-- One packet has one group and number wherever it is seen. -/
def PacketEvent.id (p : PacketEvent) : ℕ × ℕ := (p.group, p.number)

/-- Take an event apart; an event whose length is not the declared one is not
understood. -/
def packet (d : Bytes) : Option PacketEvent :=
  if d.length < header then none
  else
    let logged := le16 d 32
    if header + logged ≠ d.length then none
    else
      let orig := le16 d 30
      let linktype : UInt16 :=
        match le16 d 14 with
        | 1 => 1
        | 3 => 101
        | _ => 0
      some
        { group := leAt 8 d 0
          number := le16 d 8
          linktype := linktype
          orig := if linktype = 0 then orig else max orig logged
          frame := d.drop header }

theorem packet_eq_some {d : Bytes} {p : PacketEvent} (h : packet d = some p) :
    (p.linktype = 0 ∨ p.linktype = 1 ∨ p.linktype = 101) ∧ p.frame.length < 2 ^ 16 := by
  unfold packet at h
  split at h
  · contradiction
  · dsimp only at h
    split at h
    · contradiction
    · rename_i hlength
      have hlogged : le16 d 32 < 2 ^ 16 := leAt_lt 2 d 32
      obtain rfl := Option.some.inj h
      refine ⟨?_, ?_⟩
      · dsimp only
        split
        · exact .inr (.inl rfl)
        · exact .inr (.inr rfl)
        · exact .inl rfl
      · rw [List.length_drop]
        omega

/-! ## The file -/

/-- The pieces of a block. -/
def block (ty : ℕ) (body : Bytes) : List Bytes :=
  let pad := (4 - body.length % 4) % 4
  let len := 12 + body.length + pad
  [leBytes 4 ty, leBytes 4 len, body, List.replicate pad 0, leBytes 4 len]

/-- The body of the section header: the byte order, version 1.0, and no length. -/
def sectionBody : Bytes :=
  leBytes 4 0x1A2B3C4D ++ (leBytes 2 1 ++ (leBytes 2 0 ++ leBytes 8 (2 ^ 64 - 1)))

/-- The body of the description of an interface. -/
def interfaceBody (linktype : ℕ) : Bytes := leBytes 2 linktype ++ (leBytes 2 0 ++ leBytes 4 0)

/-- The pieces of the header: the section and its two interfaces. -/
def writeHeader : List Bytes :=
  block 0x0A0D0D0A sectionBody ++ [1, 101].flatMap fun linktype => block 1 (interfaceBody linktype)

/-- The microseconds since 1970 of a time in units of 100 ns since 1601. -/
def microseconds (filetime : ℤ) : ℕ := (filetime.tdiv 10 - 11644473600000000).toNat

/-- The body of an enhanced packet block, up to the padding. -/
def epbBody (iface : ℕ) (filetime : ℤ) (frame : Bytes) (orig : ℕ) : Bytes :=
  leBytes 4 iface ++ (leBytes 4 (microseconds filetime / 2 ^ 32) ++
    (leBytes 4 (microseconds filetime) ++ (leBytes 4 frame.length ++
      (leBytes 4 (max orig frame.length) ++ frame))))

/-- The pieces of an enhanced packet block. -/
def writeEpb (iface : ℕ) (filetime : ℤ) (frame : Bytes) (orig : ℕ) : List Bytes :=
  block 6 (epbBody iface filetime frame orig)

/-- An event that is recorded, with its time. -/
structure Stamped where
  event : PacketEvent
  stamp : ℤ
  deriving DecidableEq, Repr

/-- The interface of the recording that an event belongs to. -/
def PacketEvent.iface (p : PacketEvent) : ℕ := if p.linktype = 1 then 0 else 1

/-- The pieces of the block of an event. -/
def Stamped.pieces (s : Stamped) : List Bytes :=
  writeEpb s.event.iface s.stamp s.event.frame s.event.orig

/-- The recording of some events: the header, and one enhanced packet block for
each. -/
def file (events : List Stamped) : Bytes :=
  writeHeader.flatten ++ (events.map fun s => s.pieces.flatten).flatten

theorem file_concat (events : List Stamped) (s : Stamped) :
    file (events ++ [s]) = file events ++ s.pieces.flatten := by
  simp [file]

/-! ## Blocks -/

/-- A body with its padding. -/
def padded (body : Bytes) : Bytes := body ++ List.replicate ((4 - body.length % 4) % 4) 0

theorem length_padded (body : Bytes) : (padded body).length = padTo4 body.length := by
  rw [padded, List.length_append, List.length_replicate, padTo4]
  omega

/-- What is written for a block is its encoding. -/
theorem block_eq_encode (ty : UInt32) (body : Bytes) :
    (block ty.toNat body).flatten = Block.encode { ty := ty, body := padded body } := by
  have hsize : Block.size { ty := ty, body := padded body } =
      12 + body.length + (4 - body.length % 4) % 4 := by
    rw [Block.size, padded, List.length_append, List.length_replicate, Nat.add_assoc]
  rw [Block.encode, hsize]
  simp [block, padded]

theorem padded_wellFormed (ty : UInt32) {body : Bytes} (h : body.length ≤ 2 ^ 25) :
    Block.WellFormed { ty := ty, body := padded body } where
  aligned := by
    rw [length_padded]
    exact four_dvd_padTo4 _
  bounded := by
    rw [Block.size, length_padded, padTo4, maxBlock]
    omega

/-- The blocks of the header. -/
def headerBlocks : List Block :=
  [{ ty := shb, body := sectionBody }, { ty := idb, body := interfaceBody 1 },
    { ty := idb, body := interfaceBody 101 }]

/-- The enhanced packet block of an event. -/
def Stamped.block (s : Stamped) : Block where
  ty := epb
  body := padded (epbBody s.event.iface s.stamp s.event.frame s.event.orig)

/-- An event whose block is written. -/
structure Recordable (p : PacketEvent) : Prop where
  kind : p.linktype = 1 ∨ p.linktype = 101
  short : p.frame.length < 2 ^ 16

theorem recordable {d : Bytes} {p : PacketEvent} (h : packet d = some p) (hkind : p.linktype ≠ 0) :
    Recordable p where
  kind := (packet_eq_some h).1.resolve_left hkind
  short := (packet_eq_some h).2

theorem writeHeader_flatten : writeHeader.flatten = encodeAll headerBlocks := by decide

theorem file_eq_encodeAll (events : List Stamped) :
    file events = encodeAll (headerBlocks ++ events.map Stamped.block) := by
  have hblocks : events.map (fun s => s.pieces.flatten) =
      (events.map Stamped.block).map Block.encode := by
    rw [List.map_map]
    apply List.map_congr_left
    intro s _
    exact block_eq_encode epb _
  rw [encodeAll_append, file, writeHeader_flatten, hblocks]
  rfl

theorem headerBlocks_wellFormed : ∀ b ∈ headerBlocks, b.WellFormed := by decide

theorem length_epbBody (iface : ℕ) (filetime : ℤ) (frame : Bytes) (orig : ℕ) :
    (epbBody iface filetime frame orig).length = 20 + frame.length := by
  simp only [epbBody, List.length_append, length_leBytes]
  omega

theorem Stamped.block_wellFormed {s : Stamped} (h : Recordable s.event) : s.block.WellFormed := by
  apply padded_wellFormed
  have hshort := h.short
  rw [length_epbBody]
  omega

theorem file_wellFormed {events : List Stamped} (h : ∀ s ∈ events, Recordable s.event) :
    ∀ b ∈ headerBlocks ++ events.map Stamped.block, b.WellFormed := by
  refine List.forall_mem_append.mpr ⟨headerBlocks_wellFormed, ?_⟩
  intro b hb
  obtain ⟨s, hs, rfl⟩ := List.mem_map.mp hb
  exact s.block_wellFormed (h s hs)

/-! ## Reading the file back -/

/-- The fields of a written block that the readers look at. -/
theorem epbBody_fields (iface : ℕ) (filetime : ℤ) (frame : Bytes) (orig : ℕ)
    (hiface : iface < 2 ^ 32) (hframe : frame.length < 2 ^ 32) :
    le32 (padded (epbBody iface filetime frame orig)) 0 = iface ∧
      le32 (padded (epbBody iface filetime frame orig)) 12 = frame.length ∧
      ((padded (epbBody iface filetime frame orig)).drop 20).take frame.length = frame := by
  unfold padded
  generalize List.replicate ((4 - (epbBody iface filetime frame orig).length % 4) % 4) (0 : UInt8) =
    pad
  refine ⟨?_, ?_, ?_⟩
  · have hread := leAt_append (w := 4) (n := iface) []
      (leBytes 4 (microseconds filetime / 2 ^ 32) ++ (leBytes 4 (microseconds filetime) ++
        (leBytes 4 frame.length ++ (leBytes 4 (max orig frame.length) ++ frame))) ++ pad) hiface
    simpa [epbBody] using hread
  · have hread := leAt_append (w := 4) (n := frame.length)
      (leBytes 4 iface ++ (leBytes 4 (microseconds filetime / 2 ^ 32) ++
        leBytes 4 (microseconds filetime)))
      (leBytes 4 (max orig frame.length) ++ frame ++ pad) hframe
    simpa [epbBody] using hread
  · have hsplit : epbBody iface filetime frame orig ++ pad =
        (leBytes 4 iface ++ (leBytes 4 (microseconds filetime / 2 ^ 32) ++
          (leBytes 4 (microseconds filetime) ++ (leBytes 4 frame.length ++
            leBytes 4 (max orig frame.length))))) ++ (frame ++ pad) := by
      simp [epbBody]
    rw [hsplit, List.drop_left' (by simp), List.take_left]

/-- The capture length of a written block is that of its frame. -/
theorem Stamped.caplen_block {s : Stamped} (h : Recordable s.event) :
    s.block.caplen = s.event.frame.length ∧ le32 s.block.body 0 = s.event.iface ∧
      (s.block.body.drop 20).take s.event.frame.length = s.event.frame := by
  have hshort := h.short
  have hiface : s.event.iface < 2 ^ 32 := by
    unfold PacketEvent.iface
    split <;> decide
  obtain ⟨hnumber, hcaplen, hframe⟩ :=
    epbBody_fields s.event.iface s.stamp s.event.frame s.event.orig hiface (by omega)
  exact ⟨hcaplen, hnumber, hframe⟩

theorem Stamped.length_body (s : Stamped) :
    s.block.body.length = padTo4 (20 + s.event.frame.length) := by
  rw [← length_epbBody s.event.iface s.stamp s.event.frame s.event.orig]
  exact length_padded _

theorem Stamped.block_acceptable {s : Stamped} (h : Recordable s.event) : Acceptable s.block where
  header hshb := absurd hshb epb_ne_shb
  packet _ := by
    rw [Block.fixed, s.caplen_block h |>.1, s.length_body, padTo4, padTo4]
    omega

/-- A written block holds its frame, and does not describe an interface. -/
theorem Stamped.blockFrame_encode {s : Stamped} (h : Recordable s.event) :
    blockFrame s.block.encode = some (s.event.iface, s.event.frame) ∧
      blockLinktype s.block.encode = none := by
  obtain ⟨-, htype, hbody⟩ := isBlock_encode (s.block_wellFormed h)
  obtain ⟨hcaplen, hnumber, hframe⟩ := s.caplen_block h
  have hlength := s.length_body
  have hle := le_padTo4 (20 + s.event.frame.length)
  constructor
  · unfold blockFrame
    rw [htype, hbody]
    dsimp only
    rw [Block.caplen] at hcaplen
    rw [if_pos ⟨rfl, by omega, by omega⟩, hnumber, hcaplen, hframe]
  · unfold blockLinktype
    rw [htype, if_neg]
    rintro ⟨hinterface, -⟩
    have hpacket : s.block.ty.toNat = 6 := rfl
    omega

theorem capturedFrames_blocks {events : List Stamped} (h : ∀ s ∈ events, Recordable s.event) :
    capturedFrames [1, 101] ((events.map Stamped.block).map Block.encode) =
      events.map fun s => (s.event.linktype, s.event.frame) := by
  induction events with
  | nil => rfl
  | cons s rest ih =>
      obtain ⟨hs, hrest⟩ := List.forall_mem_cons.mp h
      obtain ⟨hframe, hinterface⟩ := s.blockFrame_encode hs
      rw [List.map_cons, List.map_cons, capturedFrames, capturedFrame, hframe, hinterface]
      have hlinktype : ([1, 101] : List UInt16).getD s.event.iface 1 = s.event.linktype := by
        rcases hs.kind with hkind | hkind <;> rw [PacketEvent.iface, hkind] <;> rfl
      simp only [Option.map_some, Option.toList_some, Option.toList_none, List.append_nil,
        hlinktype, ih hrest, List.map_cons, List.singleton_append]

/-- The live reader finds the recorded frames in the file. -/
theorem capturedFrames_file {events : List Stamped} (h : ∀ s ∈ events, Recordable s.event) :
    capturedFrames [] ((headerBlocks ++ events.map Stamped.block).map Block.encode) =
      events.map fun s => (s.event.linktype, s.event.frame) := by
  have hframes : capturedFrames [] (headerBlocks.map Block.encode) = [] := by decide
  have hlinktypes : (headerBlocks.map Block.encode).filterMap blockLinktype = [1, 101] := by decide
  rw [List.map_append, capturedFrames_append, hframes, hlinktypes]
  exact capturedFrames_blocks h

/-- The live reader reads the packets of the recorded frames, in order. -/
theorem push_file (c : Quic.Ciphers) (env : ℕ → Surroundings) {events : List Stamped}
    (h : ∀ s ∈ events, Recordable s.event) :
    (PcapngReader.new.push c env (file events)).2 =
      (parseFrames c env 0 PcapngReader.new.parsers
        (events.map fun s => (s.event.linktype, s.event.frame))).1 := by
  rw [file_eq_encodeAll, push_encodeAll (file_wellFormed h), ← capturedFrames_file h]
  rfl

/-- The file is a complete capture for the filter. -/
theorem file_capture {events : List Stamped} (h : ∀ s ∈ events, Recordable s.event) :
    Capture (headerBlocks ++ events.map Stamped.block) where
  wellFormed := file_wellFormed h
  acceptable := by
    refine List.forall_mem_append.mpr ⟨?_, ?_⟩
    · intro b hb
      simp only [headerBlocks, List.mem_cons, List.not_mem_nil, or_false] at hb
      rcases hb with rfl | rfl | rfl
      · exact ⟨fun _ => by decide, fun hpacket => absurd hpacket.1 (by decide)⟩
      · exact ⟨fun hshb => absurd hshb (by decide), fun hpacket => absurd hpacket.1 (by decide)⟩
      · exact ⟨fun hshb => absurd hshb (by decide), fun hpacket => absurd hpacket.1 (by decide)⟩
    · intro b hb
      obtain ⟨s, hs, rfl⟩ := List.mem_map.mp hb
      exact s.block_acceptable (h s hs)
  header := ⟨_, List.mem_append_left _ (List.mem_cons_self ..), rfl⟩

end SocketTrail.Etw
