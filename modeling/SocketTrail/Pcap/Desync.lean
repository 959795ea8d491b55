/-
# A stream out of step

A header with an impossible length puts the reader out of step. It throws its
buffer away and remembers nothing of it, so it reads on at the beginning of the
next chunk as if a block began there. `Resumes` says which blocks it takes from
there on, whatever the bytes are, and `push_desync_iff` when this does no harm:
when no frame of these blocks is accepted.
-/

import SocketTrail.Pcap.Reader

namespace SocketTrail.Pcap

open SocketTrail.Foundation SocketTrail.Net

/-- A header stands there with a length that no block has. -/
structure IsLost (t : Bytes) : Prop where
  present : 12 ≤ t.length
  impossible : ¬(12 ≤ le32 t 4 ∧ le32 t 4 ≤ maxLiveBlock)

/-- The blocks that stand in the chunks for a reader with the given buffer. In step
it keeps what is pending; out of step it loses the rest of the chunk and begins
anew with the next one. -/
inductive Resumes : Bytes → List Bytes → List Bytes → Prop
  | done (buf : Bytes) : Resumes buf [] []
  | keep {buf data tail : Bytes} {rest blocks later : List Bytes}
      (hblocks : ∀ b ∈ blocks, IsBlock b) (htail : IsPending tail)
      (hdata : buf ++ data = blocks.flatten ++ tail) (hrest : Resumes tail rest later) :
      Resumes buf (data :: rest) (blocks ++ later)
  | lose {buf data tail : Bytes} {rest blocks later : List Bytes}
      (hblocks : ∀ b ∈ blocks, IsBlock b) (htail : IsLost tail)
      (hdata : buf ++ data = blocks.flatten ++ tail) (hrest : Resumes [] rest later) :
      Resumes buf (data :: rest) (blocks ++ later)

/-- The chunks behind the one in which the `n`-th byte arrives. -/
def chunksBehind : ℕ → List Bytes → List Bytes
  | _, [] => []
  | n, data :: rest => if n ≤ data.length then rest else chunksBehind (n - data.length) rest

/-! ## Every buffer -/

/-- Bytes begin with blocks, and what follows is pending or out of step. -/
theorem exists_blocks (d : Bytes) :
    ∃ (blocks : List Bytes) (tail : Bytes), d = blocks.flatten ++ tail ∧
      (∀ b ∈ blocks, IsBlock b) ∧ (IsPending tail ∨ IsLost tail) := by
  induction hn : d.length using Nat.strongRecOn generalizing d with
  | ind n ih =>
      subst hn
      by_cases hshort : d.length < 12
      · exact ⟨[], d, rfl, by simp, .inl (isPending_of_short hshort)⟩
      have hpresent : 12 ≤ d.length := Nat.le_of_not_lt hshort
      by_cases hdeclared : 12 ≤ le32 d 4 ∧ le32 d 4 ≤ maxLiveBlock
      · by_cases hmissing : d.length < le32 d 4
        · exact ⟨[], d, rfl, by simp, .inl ⟨fun _ => hdeclared, fun _ => hmissing⟩⟩
        · have hcut := List.take_append_drop (le32 d 4) d
          have hlength : (d.take (le32 d 4)).length = le32 d 4 := by
            rw [List.length_take]
            omega
          have hblock : IsBlock (d.take (le32 d 4)) := by
            refine ⟨by omega, by omega, ?_⟩
            rw [hlength]
            conv_rhs => rw [← hcut]
            exact (leAt_append_left _ (by omega)).symm
          obtain ⟨blocks, tail, heq, hblocks, htail⟩ := ih _ (by rw [List.length_drop]; omega)
            (d.drop (le32 d 4)) rfl
          refine ⟨d.take (le32 d 4) :: blocks, tail, ?_,
            List.forall_mem_cons.mpr ⟨hblock, hblocks⟩, htail⟩
          rw [List.flatten_cons, List.append_assoc, ← heq, hcut]
      · exact ⟨[], d, rfl, by simp, .inr ⟨hpresent, hdeclared⟩⟩

theorem exists_resumes (buf : Bytes) (chunks : List Bytes) :
    ∃ found, Resumes buf chunks found := by
  induction chunks generalizing buf with
  | nil => exact ⟨[], .done buf⟩
  | cons data rest ih =>
      obtain ⟨blocks, tail, hdata, hblocks, htail | htail⟩ := exists_blocks (buf ++ data)
      · obtain ⟨later, hlater⟩ := ih tail
        exact ⟨_, .keep hblocks htail hdata hlater⟩
      · obtain ⟨later, hlater⟩ := ih []
        exact ⟨_, .lose hblocks htail hdata hlater⟩

/-- Pending bytes are not out of step, and neither begins with a block. -/
theorem blocks_unique {blocks blocks' : List Bytes} {tail tail' : Bytes}
    (hblocks : ∀ b ∈ blocks, IsBlock b) (hblocks' : ∀ b ∈ blocks', IsBlock b)
    (htail : IsPending tail ∨ IsLost tail) (htail' : IsPending tail' ∨ IsLost tail')
    (heq : blocks.flatten ++ tail = blocks'.flatten ++ tail') : blocks = blocks' ∧ tail = tail' := by
  have hnone : ∀ {b rest t : Bytes}, IsBlock b → IsPending t ∨ IsLost t → b ++ rest ≠ t := by
    rintro b rest t hb (hpending | hlost) rfl
    · exact hpending.not_block hb rfl
    · have hminimal := hb.minimal
      have hdeclared : le32 (b ++ rest) 4 = b.length :=
        (leAt_append_left rest (by omega)).trans hb.measured
      refine hlost.impossible ?_
      rw [hdeclared]
      exact ⟨hminimal, hb.bounded⟩
  induction blocks generalizing blocks' with
  | nil =>
      cases blocks' with
      | nil => exact ⟨rfl, heq⟩
      | cons b rest =>
          rw [List.flatten_cons, List.append_assoc] at heq
          exact absurd heq.symm (hnone (hblocks' b List.mem_cons_self) htail)
  | cons b rest ih =>
      obtain ⟨hb, hrest⟩ := List.forall_mem_cons.mp hblocks
      cases blocks' with
      | nil =>
          rw [List.flatten_cons, List.append_assoc] at heq
          exact absurd heq (hnone hb htail')
      | cons b' rest' =>
          obtain ⟨hb', hrest'⟩ := List.forall_mem_cons.mp hblocks'
          rw [List.flatten_cons, List.flatten_cons, List.append_assoc, List.append_assoc] at heq
          -- both blocks have the length that the same header declares
          have hlength : b.length = b'.length := by
            have hminimal := hb.minimal
            have hminimal' := hb'.minimal
            rw [← hb.measured, ← hb'.measured, le32, le32,
              ← leAt_append_left (rest.flatten ++ tail) (by omega), heq,
              leAt_append_left (rest'.flatten ++ tail') (by omega)]
          obtain ⟨rfl, hmore⟩ := List.append_inj heq hlength
          obtain ⟨rfl, rfl⟩ := ih hrest hrest' hmore
          exact ⟨rfl, rfl⟩

/-- The chunks determine the blocks that stand in them. -/
theorem Resumes.unique {buf : Bytes} {chunks found found' : List Bytes}
    (h : Resumes buf chunks found) (h' : Resumes buf chunks found') : found = found' := by
  induction h generalizing found' with
  | done buf =>
      cases h'
      rfl
  | keep hblocks htail hdata hrest ih =>
      cases h' with
      | keep hblocks' htail' hdata' hrest' =>
          obtain ⟨rfl, rfl⟩ := blocks_unique hblocks hblocks' (.inl htail) (.inl htail')
            (hdata.symm.trans hdata')
          rw [ih hrest']
      | lose hblocks' htail' hdata' hrest' =>
          obtain ⟨-, rfl⟩ := blocks_unique hblocks hblocks' (.inl htail) (.inr htail')
            (hdata.symm.trans hdata')
          exact absurd (htail.declared htail'.present) htail'.impossible
  | lose hblocks htail hdata hrest ih =>
      cases h' with
      | keep hblocks' htail' hdata' hrest' =>
          obtain ⟨-, rfl⟩ := blocks_unique hblocks hblocks' (.inr htail) (.inl htail')
            (hdata.symm.trans hdata')
          exact absurd (htail'.declared htail.present) htail.impossible
      | lose hblocks' htail' hdata' hrest' =>
          obtain ⟨rfl, -⟩ := blocks_unique hblocks hblocks' (.inr htail) (.inr htail')
            (hdata.symm.trans hdata')
          rw [ih hrest']

/-! ## The reader -/

section Reader

variable {c : Quic.Ciphers} {env : ℕ → Surroundings} {r : PcapngReader}

/-- A call that meets an impossible length reads the blocks in front of it and
throws the rest away. -/
theorem PcapngReader.push_lost {blocks : List Bytes} {data tail : Bytes}
    (hblocks : ∀ b ∈ blocks, IsBlock b) (htail : IsLost tail)
    (hdata : r.buf ++ data = blocks.flatten ++ tail) :
    r.push c env data = (r.behind c env blocks [], r.toDecoder.packets c env blocks) := by
  have hpresent := htail.present
  have hfuel : blocks.length + 1 ≤ (r.buf ++ data).length := by
    have hlength := length_le_flatten hblocks
    rw [hdata, List.length_append]
    omega
  have hstart : Stands (r.buf ++ data) 0 (blocks.flatten ++ tail) := hdata ▸ .start _
  obtain ⟨fuel, hfuel⟩ := Nat.exists_eq_add_of_le hfuel
  rw [Nat.add_assoc] at hfuel
  obtain ⟨hstands, hloop⟩ := @pushLoop_through c env _ _ _ hblocks _ hstart (1 + fuel)
    r.toDecoder []
  have hlength := hstands.length
  have hdeclared : le32 (r.buf ++ data) (0 + blocks.flatten.length + 4) = le32 tail 4 :=
    hstands.leAt 4 4
  unfold PcapngReader.push
  dsimp only
  rw [hfuel, hloop, Nat.add_comm 1 fuel, pushLoop, if_neg (by omega)]
  dsimp only
  rw [hdeclared, if_pos htail.impossible]
  rfl

/-- The packets of any chunks are those of the blocks that stand in them. -/
theorem PcapngReader.pushAll_resumes {chunks found : List Bytes}
    (h : Resumes r.buf chunks found) :
    (r.pushAll c env chunks).2 = r.toDecoder.packets c env found := by
  generalize hbuf : r.buf = buf at h
  induction h generalizing r with
  | done buf => rfl
  | keep hblocks htail hdata hrest ih =>
      rw [← hbuf] at hdata
      rw [PcapngReader.pushAll, push_blocks hblocks htail hdata]
      dsimp only
      rw [ih rfl]
      exact (r.toDecoder.packets_append _ _).symm
  | lose hblocks htail hdata hrest ih =>
      rw [← hbuf] at hdata
      rw [PcapngReader.pushAll, push_lost hblocks htail hdata]
      dsimp only
      rw [ih rfl]
      exact (r.toDecoder.packets_append _ _).symm

end Reader

/-! ## The end of the blocks -/

/-- The beginning of what is out of step is out of step once the length is there. -/
theorem isLost_of_front {bad tail more : Bytes} (hpresent : 12 ≤ tail.length)
    (himpossible : ¬(12 ≤ le32 bad 4 ∧ le32 bad 4 ≤ maxLiveBlock)) (hcut : tail ++ more = bad) :
    IsLost tail := by
  have hdeclared : le32 bad 4 = le32 tail 4 := by
    rw [← hcut]
    exact leAt_append_left _ (by omega)
  exact ⟨hpresent, hdeclared ▸ himpossible⟩

/-- A cut before the length of the next header is there stands behind some blocks, and
what follows them is pending there. -/
theorem cut_before {blocks : List Bytes} {bad x y : Bytes} (hblocks : ∀ b ∈ blocks, IsBlock b)
    (hcut : x ++ y = blocks.flatten ++ bad) (hshort : x.length < blocks.flatten.length + 12) :
    ∃ done rest part, blocks = done ++ rest ∧ x = done.flatten ++ part ∧ IsPending part ∧
      part ++ y = rest.flatten ++ bad := by
  have hfront : x <+: blocks.flatten ++ bad.take 11 := by
    have htake : blocks.flatten ++ bad.take 11 =
        (blocks.flatten ++ bad).take (blocks.flatten.length + 11) :=
      (List.take_length_add_append 11).symm
    rw [htake]
    exact List.prefix_take_iff.mpr ⟨hcut ▸ List.prefix_append .., by omega⟩
  obtain ⟨more, hmore⟩ := hfront
  have hpending : IsPending (bad.take 11) := isPending_of_short (by rw [List.length_take]; omega)
  obtain ⟨done, rest, part, rfl, rfl, hpart, -⟩ := cut_stream hblocks hpending hmore
  rw [List.flatten_append, List.append_assoc, List.append_assoc,
    List.append_cancel_left_eq] at hcut
  exact ⟨done, rest, part, rfl, rfl, hpart, hcut⟩

/-- A reader that comes upon an impossible length reads the blocks in front of it,
and those that stand in the chunks behind. -/
theorem resumes_behind {buf bad : Bytes} {chunks blocks found : List Bytes}
    (hblocks : ∀ b ∈ blocks, IsBlock b) (hbuf : IsPending buf)
    (himpossible : ¬(12 ≤ le32 bad 4 ∧ le32 bad 4 ≤ maxLiveBlock))
    (hshort : buf.length < blocks.flatten.length + 12)
    (hcut : buf ++ chunks.flatten = blocks.flatten ++ bad)
    (h : Resumes [] (chunksBehind (blocks.flatten.length + 12 - buf.length) chunks) found) :
    Resumes buf chunks (blocks ++ found) := by
  induction chunks generalizing buf blocks with
  | nil =>
      cases h with
      | done =>
          rw [List.flatten_nil, List.append_nil] at hcut
          cases blocks with
          | nil => exact .done buf
          | cons b rest =>
              rw [List.flatten_cons, List.append_assoc] at hcut
              exact absurd hcut (hbuf.not_block (hblocks b (List.mem_cons_self ..)))
  | cons data rest ih =>
      rw [List.flatten_cons, ← List.append_assoc] at hcut
      have hlength : (buf ++ data).length = buf.length + data.length := List.length_append
      rw [chunksBehind] at h
      split at h
      · -- the length is there
        have hthere : blocks.flatten <+: buf ++ data :=
          List.prefix_of_prefix_length_le (List.prefix_append ..) (hcut ▸ List.prefix_append ..)
            (by omega)
        obtain ⟨tail, hdata⟩ := hthere
        rw [← hdata, List.append_assoc, List.append_cancel_left_eq] at hcut
        rw [← hdata, List.length_append] at hlength
        exact .lose hblocks (isLost_of_front (by omega) himpossible hcut) hdata.symm h
      · rename_i hnot
        obtain ⟨done, next, part, rfl, hdone, hpart, hnext⟩ := cut_before hblocks hcut (by omega)
        obtain ⟨hdoneBlocks, hnextBlocks⟩ := List.forall_mem_append.mp hblocks
        rw [hdone, List.length_append] at hlength
        rw [List.flatten_append, List.length_append] at h hnot hshort
        have hbehind : done.flatten.length + next.flatten.length + 12 - buf.length - data.length =
            next.flatten.length + 12 - part.length := by omega
        rw [hbehind] at h
        rw [List.append_assoc]
        exact .keep hdoneBlocks hpart hdone (ih hnextBlocks hpart (by omega) hnext h)

section Frames

variable {c : Quic.Ciphers} {env : ℕ → Surroundings}

/-- There are no packets when no frame is accepted, whatever the assemblers hold. -/
theorem parseFrames_eq_nil_iff {n : ℕ} {p : Parsers} {frames : List (UInt16 × Bytes)} :
    (parseFrames c env n p frames).1 = [] ↔ ∀ f ∈ frames, parseLink f.1 f.2 = none := by
  induction frames generalizing n p with
  | nil => simp [parseFrames]
  | cons f rest ih =>
      obtain ⟨linktype, d⟩ := f
      rw [parseFrames, List.forall_mem_cons]
      dsimp only
      rw [List.append_eq_nil_iff, ih, Option.toList_eq_nil_iff]
      refine and_congr_left fun _ => ?_
      rcases parseLinkLive_cases c (env n) linktype d p with ⟨hnone, hlive⟩ | ⟨g, sni, hsome, hlive⟩
      · rw [hlive]
        exact iff_of_true rfl hnone
      · rw [hlive, hsome]
        exact iff_of_false (Option.some_ne_none _) (Option.some_ne_none _)

/-- The packets are those of the blocks and, read with their interfaces, those of the
blocks that stand in the chunks behind. -/
theorem push_desync_packets {blocks chunks found : List Bytes} {bad : Bytes}
    (hblocks : ∀ b ∈ blocks, IsBlock b)
    (himpossible : ¬(12 ≤ le32 bad 4 ∧ le32 bad 4 ≤ maxLiveBlock))
    (hcut : chunks.flatten = blocks.flatten ++ bad)
    (h : Resumes [] (chunksBehind (blocks.flatten.length + 12) chunks) found) :
    (PcapngReader.new.pushAll c env chunks).2 =
      PcapngReader.new.toDecoder.packets c env blocks ++
        (PcapngReader.new.toDecoder.after c env blocks).packets c env found := by
  have hresumes : Resumes PcapngReader.new.buf chunks (blocks ++ found) :=
    resumes_behind hblocks (isPending_of_short (by decide)) himpossible
      (Nat.lt_add_left _ (by decide)) hcut h
  rw [PcapngReader.pushAll_resumes hresumes, Decoder.packets_append]

/-- **A reader out of step does harm when it finds frames.** Of a stream of blocks
that ends in a header with an impossible length, any chunks give exactly the packets
of the blocks when no frame is accepted of those that stand in the chunks behind the
one in which the twelfth byte of the header arrives. -/
theorem push_desync_iff {blocks chunks : List Bytes} {bad : Bytes}
    (hblocks : ∀ b ∈ blocks, IsBlock b)
    (himpossible : ¬(12 ≤ le32 bad 4 ∧ le32 bad 4 ≤ maxLiveBlock))
    (hcut : chunks.flatten = blocks.flatten ++ bad) :
    (PcapngReader.new.pushAll c env chunks).2 = PcapngReader.new.toDecoder.packets c env blocks ↔
      ∀ found, Resumes [] (chunksBehind (blocks.flatten.length + 12) chunks) found →
        ∀ f ∈ capturedFrames (blocks.filterMap blockLinktype) found, parseLink f.1 f.2 = none := by
  constructor
  · intro heq found h
    rw [push_desync_packets hblocks himpossible hcut h, List.append_right_eq_self] at heq
    exact parseFrames_eq_nil_iff.mp heq
  · intro hnone
    obtain ⟨found, h⟩ := exists_resumes [] (chunksBehind (blocks.flatten.length + 12) chunks)
    rw [push_desync_packets hblocks himpossible hcut h, List.append_right_eq_self]
    exact parseFrames_eq_nil_iff.mpr (hnone found h)

end Frames

/-- A header that declares the length zero. -/
def sampleLost : Bytes := [6, 0, 0, 0, 0, 0, 0, 0, 0, 0, 0, 0]

/-- A frame that is no packet, captured on the sample interface. -/
def sampleUnread : Bytes :=
  [6, 0, 0, 0, 36, 0, 0, 0, 0, 0, 0, 0, 0, 0, 0, 0, 0, 0, 0, 0, 4, 0, 0, 0, 4, 0, 0, 0] ++
    [0, 0, 0, 0] ++ [36, 0, 0, 0]

/-- Behind the chunk with the impossible length stand an interface and a frame that is
no packet. -/
theorem push_desync_sample :
    (PcapngReader.new.pushAll Quic.sampleCiphers (fun _ => sampleSurroundings)
      [sampleInterface ++ sampleCapture ++ sampleLost.take 5, sampleLost.drop 5 ++ [6, 0],
        sampleInterface ++ sampleUnread]).2 = [samplePacket] := by
  have hblock : ∀ b ∈ [sampleInterface, sampleCapture, sampleUnread], IsBlock b := by
    refine List.forall_mem_cons.mpr ⟨?_, List.forall_mem_cons.mpr ⟨?_,
      List.forall_mem_singleton.mpr ?_⟩⟩ <;> constructor <;> decide
  have hblocks : ∀ b ∈ [sampleInterface, sampleCapture], IsBlock b :=
    fun b hb => hblock b (List.mem_append_left [sampleUnread] hb)
  have hunread : ∀ b ∈ [sampleInterface, sampleUnread], IsBlock b :=
    fun b hb => hblock b (List.cons_subset_cons _ (List.subset_cons_self _ _) hb)
  have hbehind : Resumes [] [sampleInterface ++ sampleUnread] ([sampleInterface, sampleUnread] ++ []) :=
    .keep hunread (isPending_of_short (by decide : ([] : Bytes).length < 12)) rfl (.done [])
  have hcut : [sampleInterface ++ sampleCapture ++ sampleLost.take 5,
      sampleLost.drop 5 ++ [6, 0], sampleInterface ++ sampleUnread].flatten =
        [sampleInterface, sampleCapture].flatten ++
          (sampleLost ++ [6, 0] ++ sampleInterface ++ sampleUnread) := by decide
  rw [(push_desync_iff hblocks (by decide) hcut).mpr]
  · decide +kernel
  · intro found h
    obtain rfl := hbehind.unique h
    decide +kernel

/-- A header with an impossible length comes first in the stream. The block in the
next chunk is read. -/
theorem push_desync_reads_on :
    ¬(12 ≤ le32 sampleLost 4 ∧ le32 sampleLost 4 ≤ maxLiveBlock) ∧
      (PcapngReader.new.pushAll Quic.sampleCiphers (fun _ => sampleSurroundings)
          [sampleLost, sampleInterface ++ sampleCapture]).2 = [samplePacket] ∧
      PcapngReader.new.toDecoder.packets Quic.sampleCiphers (fun _ => sampleSurroundings) [] =
        [] := by
  refine ⟨by decide, by decide +kernel, rfl⟩

end SocketTrail.Pcap
