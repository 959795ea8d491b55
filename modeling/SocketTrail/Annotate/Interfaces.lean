/-
# The interfaces of two readers

A capture is read live by `push` and filtered by `apply`, and each reader keeps a
table of the interfaces. A section header empties the table of `apply` and leaves
that of `push` as it is, so `push` counts the interfaces of all sections in one
row. `interfaces_agree_iff` says which packets are then read alike.
-/

import SocketTrail.Annotate.Apply
import SocketTrail.Pcap.Reader
import Mathlib.Data.List.GetD
import Mathlib.Data.List.ReduceOption

namespace SocketTrail.Annotate

open SocketTrail.Foundation SocketTrail.Pcap

/-! ## What the readers parse -/

section Traces

variable (c : Quic.Ciphers) (env : ℕ → Surroundings)

/-- What `push` parses, block by block: the link type and the frame. -/
def decodings : Decoder → List Bytes → List (Option (UInt16 × Bytes))
  | _, [] => []
  | r, b :: rest =>
      capturedFrame r.linktypes b ::
        decodings (r.block c env (blockType b) (blockBody b)).1 rest

end Traces

/-- What `apply` passes to `judge` for a block. -/
def judged (st : Pass) (b : Block) : Option (UInt16 × Bytes) :=
  if b.IsPacket ∧ b.fixed ≤ b.body.length then
    some (st.linktypes.getD (le32 b.body 0) 1, b.frame)
  else none

/-- What `apply` passes to `judge`, block by block. -/
def Plan.judgements (plan : Plan) : Pass → List Block → List (Option (UInt16 × Bytes))
  | _, [] => []
  | st, b :: rest =>
      judged st b ::
        match plan.applyBlock st b with
        | .error _ => []
        | .ok (st, _) => plan.judgements st rest

/-- Plans that say the same of the frame that is judged do the same to the block. -/
theorem applyBlock_congr {plan other : Plan} {st : Pass} {b : Block}
    (hcomment : plan.comment = other.comment)
    (hjudge : ∀ f, judged st b = some f → plan.judge f.1 f.2 = other.judge f.1 f.2) :
    plan.applyBlock st b = other.applyBlock st b := by
  unfold Plan.applyBlock
  rw [hcomment]
  by_cases hpacket : b.IsPacket
  · by_cases hfits : b.fixed ≤ b.body.length
    · have hsame := hjudge _ (if_pos ⟨hpacket, hfits⟩)
      rw [hsame]
    · simp only [if_pos hpacket, if_pos (not_le.mp hfits)]
  · rw [if_neg hpacket, if_neg hpacket]

/-! ## The blocks in their sections -/

/-- A block with the link types of the interfaces that stand before it: those of the
earlier sections, and those of its own. -/
structure Place where
  earlier : List UInt16
  own : List UInt16
  block : Block

/-- The blocks, each in its place. -/
def places : List UInt16 → List UInt16 → List Block → List Place
  | _, _, [] => []
  | earlier, own, b :: rest =>
      { earlier := earlier, own := own, block := b } ::
        places (if b.ty = shb then earlier ++ own else earlier) (linktypesAfter own b) rest

/-- The frame of an enhanced packet block with the link type of its interface. -/
def frameIn (linktypes : List UInt16) (b : Block) : Option (UInt16 × Bytes) :=
  if b.IsPacket then some (linktypes.getD (le32 b.body 0) 1, b.frame) else none

/-- Counting through all sections leads to the link type that the interface has in
the section of the block. -/
def Place.Undisturbed (p : Place) : Prop :=
  let id := le32 p.block.body 0
  if id < p.earlier.length then p.earlier.getD id 1 = p.own.getD id 1
  else p.own.getD (id - p.earlier.length) 1 = p.own.getD id 1

theorem Place.undisturbed_iff (p : Place) :
    p.Undisturbed ↔
      (p.earlier ++ p.own).getD (le32 p.block.body 0) 1 = p.own.getD (le32 p.block.body 0) 1 := by
  unfold Place.Undisturbed
  dsimp only
  split
  · rename_i hearlier
    rw [List.getD_append _ _ _ _ hearlier]
  · rename_i hown
    rw [List.getD_append_right _ _ _ _ (not_lt.mp hown)]

instance (p : Place) : Decidable p.Undisturbed := decidable_of_iff' _ p.undisturbed_iff

theorem frameIn_eq_iff {linktypes others : List UInt16} {b : Block} :
    frameIn linktypes b = frameIn others b ↔
      (b.IsPacket →
        linktypes.getD (le32 b.body 0) 1 = others.getD (le32 b.body 0) 1) := by
  unfold frameIn
  by_cases hpacket : b.IsPacket
  · simp [hpacket]
  · simp [hpacket]

/-! ## The tables of the readers -/

/-- The live stream has the same blocks as a capture file. -/
theorem isBlock_encode {b : Block} (h : b.WellFormed) : IsBlock b.encode ∧
    blockType b.encode = b.ty.toNat ∧ blockBody b.encode = b.body := by
  have hlength := b.length_encode
  obtain ⟨hty, hlen, -, hbody⟩ := b.parts_encode h []
  rw [List.append_nil] at hty hlen hbody
  refine ⟨⟨?_, ?_, ?_⟩, hty, ?_⟩
  · rw [hlength, Block.size]
    omega
  · rw [hlength]
    exact h.bounded
  · rw [hlength]
    exact hlen
  · rw [blockBody, hlength]
    exact hbody

/-- The live reader finds the padded frame of an acceptable block. -/
theorem capturedFrame_encode (linktypes : List UInt16) {b : Block} (h : b.WellFormed)
    (hacceptable : Acceptable b) : capturedFrame linktypes b.encode = frameIn linktypes b := by
  obtain ⟨-, htype, hbody⟩ := isBlock_encode h
  have hty : b.ty.toNat = 6 ↔ b.ty = epb := UInt32.toNat_inj (b := epb)
  unfold capturedFrame blockFrame frameIn
  rw [htype, hbody]
  dsimp only
  by_cases hpacket : b.IsPacket
  · have hfits := hacceptable.packet hpacket
    have hpad := le_padTo4 b.caplen
    rw [Block.fixed, Block.caplen] at hfits
    rw [Block.caplen] at hpad
    rw [if_pos ⟨hty.mpr hpacket.1, hpacket.2, by omega⟩, if_pos hpacket]
    rfl
  · rw [if_neg fun h => hpacket ⟨hty.mp h.1, h.2.1⟩, if_neg hpacket]
    rfl

/-- A section header moves the interfaces of its predecessor to the earlier ones; no
other block parts the two. -/
theorem linktypes_encode (earlier own : List UInt16) {b : Block} (h : b.WellFormed) :
    earlier ++ own ++ (blockLinktype b.encode).toList =
      (if b.ty = shb then earlier ++ own else earlier) ++ linktypesAfter own b := by
  obtain ⟨-, htype, hbody⟩ := isBlock_encode h
  have hty : b.ty.toNat = 1 ↔ b.ty = idb := UInt32.toNat_inj (b := idb)
  unfold blockLinktype linktypesAfter
  simp only [htype, hbody, hty]
  by_cases hshb : b.ty = shb
  · rw [if_pos hshb, if_pos hshb, if_neg]
    · rfl
    · rintro ⟨hidb, -⟩
      exact idb_ne_shb (hidb.symm.trans hshb)
  · rw [if_neg hshb, if_neg hshb]
    by_cases hdescribes : b.ty = idb ∧ 2 ≤ b.body.length
    · rw [if_pos hdescribes, if_pos hdescribes, Option.toList_some, List.append_assoc]
    · rw [if_neg hdescribes, if_neg hdescribes, Option.toList_none, List.append_nil]

section Tables

variable {c : Quic.Ciphers} {env : ℕ → Surroundings} {blocks : List Block}

/-- `push` looks an interface up among all that stand before the block. -/
theorem decodings_eq (hwf : ∀ b ∈ blocks, b.WellFormed) (hacceptable : ∀ b ∈ blocks, Acceptable b)
    {r : Decoder} {earlier own : List UInt16} (hr : r.linktypes = earlier ++ own) :
    decodings c env r (blocks.map Block.encode) =
      (places earlier own blocks).map fun p => frameIn (p.earlier ++ p.own) p.block := by
  induction blocks generalizing r earlier own with
  | nil => rfl
  | cons b rest ih =>
      obtain ⟨hb, hrest⟩ := List.forall_mem_cons.mp hwf
      obtain ⟨hbAcceptable, hrestAcceptable⟩ := List.forall_mem_cons.mp hacceptable
      have hnext : (r.block c env (blockType b.encode) (blockBody b.encode)).1.linktypes =
          (if b.ty = shb then earlier ++ own else earlier) ++ linktypesAfter own b := by
        rw [(r.block_eq b.encode).1, ← linktypes_encode earlier own hb, ← hr]
        rw [Decoder.after, List.filterMap_cons]
        cases blockLinktype b.encode <;> rfl
      rw [List.map_cons, decodings, places, List.map_cons, ih hrest hrestAcceptable hnext, hr,
        capturedFrame_encode _ hb hbAcceptable]

/-- `apply` looks an interface up among those of the section. -/
theorem judgements_eq (plan : Plan) (hacceptable : ∀ b ∈ blocks, Acceptable b) (st : Pass)
    (earlier : List UInt16) :
    plan.judgements st blocks =
      (places earlier st.linktypes blocks).map fun p => frameIn p.own p.block := by
  induction blocks generalizing st earlier with
  | nil => rfl
  | cons b rest ih =>
      obtain ⟨hb, hrest⟩ := List.forall_mem_cons.mp hacceptable
      have hjudged : judged st b = frameIn st.linktypes b := by
        unfold judged frameIn
        simp only [and_iff_left_of_imp hb.packet]
      obtain ⟨stats, hblock⟩ := applyBlock_of_acceptable plan st hb
      rw [Plan.judgements, hblock]
      dsimp only
      rw [ih hrest, hjudged, places, List.map_cons]

/-- The frames that are parsed block by block are those of the stream. -/
theorem reduceOption_decodings (r : Decoder) (encoded : List Bytes) :
    (decodings c env r encoded).reduceOption = capturedFrames r.linktypes encoded := by
  induction encoded generalizing r with
  | nil => rfl
  | cons b rest ih =>
      have hnext : (r.block c env (blockType b) (blockBody b)).1.linktypes =
          r.linktypes ++ (blockLinktype b).toList := by
        rw [(r.block_eq b).1, Decoder.after, List.filterMap_cons]
        cases blockLinktype b <;> rfl
      rw [decodings, capturedFrames, ← hnext, ← ih]
      cases capturedFrame r.linktypes b <;> rfl

/-- The live reader reads all blocks of a file. -/
theorem push_encodeAll (hwf : ∀ b ∈ blocks, b.WellFormed) :
    (PcapngReader.new.push c env (encodeAll blocks)).2 =
      PcapngReader.new.toDecoder.packets c env (blocks.map Block.encode) := by
  have hblocks : ∀ b ∈ blocks.map Block.encode, IsBlock b := by
    intro b hb
    obtain ⟨b, hmem, rfl⟩ := List.mem_map.mp hb
    exact (isBlock_encode (hwf b hmem)).1
  have hend : IsPending [] := isPending_of_short (by decide)
  have hfile : PcapngReader.new.buf ++ encodeAll blocks =
      (blocks.map Block.encode).flatten ++ [] := by
    rw [List.append_nil]
    rfl
  rw [PcapngReader.push_blocks hblocks hend hfile]

end Tables

/-- Of a complete capture, `push` reads the packets of the frames it parses, and these
are those that `apply` judges when the interfaces are undisturbed. -/
theorem Capture.readers_agree_iff {blocks : List Block} (h : Capture blocks) (plan : Plan)
    (c : Quic.Ciphers) (env : ℕ → Surroundings) :
    (PcapngReader.new.push c env (encodeAll blocks)).2 =
        (parseFrames c env 0 PcapngReader.new.parsers
          (decodings c env PcapngReader.new.toDecoder
            (blocks.map Block.encode)).reduceOption).1 ∧
      (decodings c env PcapngReader.new.toDecoder (blocks.map Block.encode) =
          plan.judgements {} blocks ↔
        ∀ p ∈ places [] [] blocks, p.block.IsPacket → p.Undisturbed) := by
  constructor
  · rw [push_encodeAll h.wellFormed, reduceOption_decodings]
    rfl
  · have hdecodings : decodings c env PcapngReader.new.toDecoder (blocks.map Block.encode) =
        (places [] [] blocks).map fun p => frameIn (p.earlier ++ p.own) p.block :=
      decodings_eq h.wellFormed h.acceptable rfl
    rw [hdecodings, judgements_eq plan h.acceptable {} [], List.map_inj_left]
    refine forall₂_congr fun p _ => ?_
    rw [frameIn_eq_iff, p.undisturbed_iff]

/-- **The readers agree where the earlier sections do not disturb.** A file that
`apply` accepts is a complete capture, and `push` reads the packets of all its
frames. Each enhanced packet block is parsed with the link type and the bytes that
`apply` passes to `judge` exactly when, for every such block, counting the interfaces
of all sections leads to the link type that the interface has in its own section. What
is passed to `judge` decides about the block: a plan that judges this frame alike does
the same to the block. -/
theorem interfaces_agree_iff {plan : Plan} {f : Faults} {src : Bytes} {result : Bytes × Stats}
    (h : plan.apply f src = .ok result) (c : Quic.Ciphers) (env : ℕ → Surroundings) :
    ∃ blocks, src = encodeAll blocks ∧ Capture blocks ∧
      (PcapngReader.new.push c env src).2 =
        (parseFrames c env 0 PcapngReader.new.parsers
          (decodings c env PcapngReader.new.toDecoder
            (blocks.map Block.encode)).reduceOption).1 ∧
      (decodings c env PcapngReader.new.toDecoder (blocks.map Block.encode) =
          plan.judgements {} blocks ↔
        ∀ p ∈ places [] [] blocks, p.block.IsPacket → p.Undisturbed) ∧
      ∀ (other : Plan) (st : Pass) (b : Block), plan.comment = other.comment →
        (∀ frame, judged st b = some frame →
          plan.judge frame.1 frame.2 = other.judge frame.1 frame.2) →
        plan.applyBlock st b = other.applyBlock st b := by
  obtain ⟨out, stats⟩ := result
  obtain ⟨blocks, rfl, hcapture, -⟩ := capture_of_apply h
  obtain ⟨hpackets, hagree⟩ := hcapture.readers_agree_iff plan c env
  exact ⟨blocks, rfl, hcapture, hpackets, hagree, fun _ _ _ => applyBlock_congr⟩

/-! ## Sample sections -/

instance (b : Block) : Decidable (Acceptable b) :=
  decidable_of_iff ((b.ty = shb → 16 ≤ b.body.length ∧ le32 b.body 0 = magic) ∧
      (b.IsPacket → b.fixed ≤ b.body.length))
    ⟨fun h => ⟨h.1, h.2⟩, fun h => ⟨h.header, h.packet⟩⟩

/-- A section with one interface and one packet on it. -/
def sampleSection (linktype : UInt8) : List Block :=
  [{ ty := shb, body := [0x4d, 0x3c, 0x2b, 0x1a, 1, 0, 0, 0] ++ List.replicate 8 255 },
    { ty := idb, body := [linktype, 0, 0, 0, 0, 0, 4, 0] },
    { ty := epb, body := List.replicate 12 0 ++ [28, 0, 0, 0, 28, 0, 0, 0] ++ sampleFrame }]

/-- Two such sections, the first of Ethernet and the second of raw IP. -/
def sampleSections : List Block := sampleSection 1 ++ sampleSection 101

theorem sampleSections_capture : Capture sampleSections where
  wellFormed := by decide
  acceptable := by decide
  header := ⟨_, .head _, rfl⟩

/-- A plan that keeps every packet. -/
def sampleKeep : Plan := { owners := ∅, onlyGroup := false, comment := "" }

/-- What is written of a list of blocks says which list it was. -/
theorem encodeAll_inj {first second : List Block} (hfirst : ∀ b ∈ first, b.WellFormed)
    (hsecond : ∀ b ∈ second, b.WellFormed) (h : encodeAll first = encodeAll second) :
    first = second := by
  induction first generalizing second with
  | nil =>
      cases second with
      | nil => rfl
      | cons b rest => simp [b.encode_ne_nil] at h
  | cons b first ih =>
      obtain ⟨hb, hrest⟩ := List.forall_mem_cons.mp hfirst
      cases second with
      | nil => simp [b.encode_ne_nil] at h
      | cons b' second =>
          obtain ⟨hb', hrest'⟩ := List.forall_mem_cons.mp hsecond
          have hread := readBlock_encode hb (encodeAll first)
          rw [← encodeAll_cons, h, encodeAll_cons, readBlock_encode hb'] at hread
          obtain ⟨rfl, hsame⟩ := Prod.mk.inj (Except.ok.inj hread)
          rw [ih hrest hrest' hsame.symm]

/-- The readers agree about two sections of raw IP. -/
theorem interfaces_agree_sample :
    let blocks := sampleSection 101 ++ sampleSection 101
    decodings Quic.sampleCiphers (fun _ => sampleSurroundings) PcapngReader.new.toDecoder
        (blocks.map Block.encode) = sampleKeep.judgements {} blocks ∧
      sampleKeep.judgements {} blocks =
        [none, none, some (101, sampleFrame), none, none, some (101, sampleFrame)] := by
  intro blocks
  have hcapture : Capture blocks :=
    { wellFormed := by decide, acceptable := by decide, header := ⟨_, .head _, rfl⟩ }
  obtain ⟨stats, happly⟩ := apply_of_capture sampleKeep hcapture
  obtain ⟨found, hsrc, hfound, -, hiff, -⟩ := interfaces_agree_iff happly Quic.sampleCiphers
    fun _ => sampleSurroundings
  obtain rfl := encodeAll_inj hcapture.wellFormed hfound.wellFormed hsrc
  have hundisturbed : ∀ p ∈ places [] [] blocks, p.block.IsPacket → p.Undisturbed := by decide
  exact ⟨hiff.mpr hundisturbed, by decide +kernel⟩

/-- The second packet is judged as raw IP and parsed as Ethernet. -/
theorem interfaces_disagree :
    (∃ result, sampleKeep.apply {} (encodeAll sampleSections) = .ok result) ∧
      sampleKeep.judgements {} sampleSections =
        [none, none, some (1, sampleFrame), none, none, some (101, sampleFrame)] ∧
      decodings Quic.sampleCiphers (fun _ => sampleSurroundings) PcapngReader.new.toDecoder
          (sampleSections.map Block.encode) =
        [none, none, some (1, sampleFrame), none, none, some (1, sampleFrame)] := by
  obtain ⟨stats, happly⟩ := apply_of_capture sampleKeep sampleSections_capture
  exact ⟨⟨_, happly⟩, by decide +kernel, by decide +kernel⟩

end SocketTrail.Annotate
