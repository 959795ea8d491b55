/-
# What a rewritten capture holds

Every block of a complete capture has its place in the rewritten one: a section
header with the comment of the plan, a packet as the plan judges it, and any
other block as it was. Only packets are removed, and only by a plan that keeps
one process.
-/

import SocketTrail.Annotate.Apply
import SocketTrail.Pcap.Live

namespace SocketTrail.Annotate

open SocketTrail.Foundation SocketTrail.Net SocketTrail.Pcap

/-- A plan for all traffic keeps every frame. -/
theorem judge_keeps_all {plan : Plan} (hall : plan.onlyGroup = false) (linktype : UInt16)
    (frame : Bytes) : (plan.judge linktype frame).1 = true := by
  unfold Plan.judge
  split
  · simp [hall]
  · split <;> simp [hall]

/-- Only a packet that was judged out is removed. -/
theorem rewriteBlock_eq_none {plan : Plan} {linktypes : List UInt16} {b : Block}
    (h : plan.rewriteBlock linktypes b = none) :
    b.IsPacket ∧ (plan.verdict linktypes b).1 = false := by
  unfold Plan.rewriteBlock at h
  split at h
  · contradiction
  · split at h
    · rename_i hpacket
      refine ⟨hpacket, ?_⟩
      split at h
      · rename_i hverdict
        rw [hverdict]
      · contradiction
      · contradiction
    · contradiction

theorem map_snd_inContext (linktypes : List UInt16) (blocks : List Block) :
    (inContext linktypes blocks).map Prod.snd = blocks := by
  induction blocks generalizing linktypes with
  | nil => rfl
  | cons b rest ih => rw [inContext, List.map_cons, ih]

/-- A plan for all traffic keeps every block. -/
theorem length_rewriteBlocks {plan : Plan} (hall : plan.onlyGroup = false)
    (linktypes : List UInt16) (blocks : List Block) :
    (plan.rewriteBlocks linktypes blocks).length = blocks.length := by
  induction blocks generalizing linktypes with
  | nil => rfl
  | cons b rest ih =>
      rw [rewriteBlocks_cons, List.length_append, ih, List.length_cons]
      cases hblock : plan.rewriteBlock linktypes b with
      | none =>
          have hjudged := (rewriteBlock_eq_none hblock).2
          rw [Plan.verdict, judge_keeps_all hall] at hjudged
          contradiction
      | some b' =>
          rw [Option.toList_some, List.length_singleton]
          exact Nat.add_comm ..

/-- The block is well formed as a block of any file: its length is a multiple of
four and fits into its length fields. -/
structure Written (b : Block) : Prop where
  aligned : 4 ∣ b.size
  atLeast : 12 ≤ b.size
  fits : b.size < 2 ^ 32

theorem written_of_wellFormed {b : Block} (h : b.WellFormed) : Written b := by
  have haligned := h.aligned
  have hbounded : b.size ≤ 2 ^ 26 := h.bounded
  refine ⟨?_, ?_, by omega⟩
  · unfold Block.size
    omega
  · unfold Block.size
    omega

theorem written_comment {b : Block} (h : b.WellFormed) {fixed : ℕ} (hfixed : 4 ∣ fixed)
    (hle : fixed ≤ b.body.length) (text : String) : Written (b.comment fixed text) := by
  have haligned := four_dvd_withComment h.aligned hfixed hle text
  have hlength := length_withComment_le b.body fixed text
  have hbounded : 12 + b.body.length ≤ 2 ^ 26 := h.bounded
  have hcomment : maxComment = 65532 := rfl
  have hsize : (b.comment fixed text).size = 12 + (withComment b.body fixed text).length := rfl
  exact ⟨by omega, by omega, by omega⟩

theorem four_dvd_fixed (b : Block) : 4 ∣ b.fixed := by
  have hpad := four_dvd_padTo4 b.caplen
  unfold Block.fixed
  omega

/-- What is written for an acceptable block is well formed. -/
theorem written_rewriteBlock {plan : Plan} {linktypes : List UInt16} {b b' : Block}
    (hwf : b.WellFormed) (hacceptable : Acceptable b)
    (h : plan.rewriteBlock linktypes b = some b') : Written b' := by
  unfold Plan.rewriteBlock at h
  split at h
  · rename_i hshb
    obtain rfl := Option.some.inj h
    exact written_comment hwf (by decide) (hacceptable.header hshb).1 _
  · split at h
    · rename_i hpacket
      split at h
      · contradiction
      · obtain rfl := Option.some.inj h
        exact written_comment hwf (four_dvd_fixed b) (hacceptable.packet hpacket) _
      · obtain rfl := Option.some.inj h
        exact written_of_wellFormed hwf
    · obtain rfl := Option.some.inj h
      exact written_of_wellFormed hwf

theorem mem_of_mem_inContext {linktypes : List UInt16} {blocks : List Block}
    {block : List UInt16 × Block} (h : block ∈ inContext linktypes blocks) : block.2 ∈ blocks := by
  rw [← map_snd_inContext linktypes blocks]
  exact List.mem_map_of_mem h

/-- The second block is the first with one comment behind its first `fixed` bytes. -/
def Block.Commented (b : Block) (fixed : ℕ) (text : String) (b' : Block) : Prop :=
  b'.ty = b.ty ∧ Annotate.Commented b.body fixed text b'.body

theorem Block.commented_comment (b : Block) (fixed : ℕ) (text : String) :
    b.Commented fixed text (b.comment fixed text) :=
  ⟨rfl, commented_withComment b.body fixed text⟩

/-- **Rewriting is an exact filter and labelling of the blocks.** A complete
capture is rewritten, block by block and in order:

* a section header gets the comment of the plan behind its 16 fixed bytes;
* a packet that is judged out is removed, and a packet that is kept is written
  as it is or, with a label, with one comment behind its padded frame;
* any other block is written as it is;
* a plan for all traffic removes nothing;
* what is written are well formed blocks again. -/
theorem apply_filters_and_labels (plan : Plan) {blocks : List Block} (h : Capture blocks) :
    (∃ stats, plan.apply {} (encodeAll blocks) =
      .ok (encodeAll ((inContext [] blocks).filterMap fun block =>
        plan.rewriteBlock block.1 block.2), stats)) ∧
    (inContext [] blocks).map Prod.snd = blocks ∧
    (∀ linktypes b, (linktypes, b) ∈ inContext [] blocks →
      (b.ty = shb → ∃ b', plan.rewriteBlock linktypes b = some b' ∧
        b.Commented 16 plan.comment b') ∧
      (b.IsPacket →
        ((plan.verdict linktypes b).1 = false → plan.rewriteBlock linktypes b = none) ∧
        (plan.verdict linktypes b = (true, none) → plan.rewriteBlock linktypes b = some b) ∧
        ∀ l, plan.verdict linktypes b = (true, some l) →
          ∃ b', plan.rewriteBlock linktypes b = some b' ∧ b.Commented b.fixed l b') ∧
      (b.ty ≠ shb → ¬b.IsPacket → plan.rewriteBlock linktypes b = some b)) ∧
    (plan.onlyGroup = false → (plan.rewriteBlocks [] blocks).length = blocks.length) ∧
    ∀ b' ∈ plan.rewriteBlocks [] blocks, Written b' := by
  refine ⟨apply_of_capture plan h, map_snd_inContext [] blocks, ?_,
    fun hall => length_rewriteBlocks hall [] blocks, ?_⟩
  · intro linktypes b _
    refine ⟨fun hshb => ⟨_, if_pos hshb, b.commented_comment 16 plan.comment⟩, fun hpacket => ?_,
      fun hshb hpacket => ?_⟩
    · have hshb : b.ty ≠ shb := fun hshb => epb_ne_shb (hpacket.1.symm.trans hshb)
      unfold Plan.rewriteBlock
      rw [if_neg hshb, if_pos hpacket]
      refine ⟨fun hout => ?_, fun hkept => by rw [hkept],
        fun l hlabel => ⟨_, by rw [hlabel], b.commented_comment b.fixed l⟩⟩
      split
      · rfl
      · rename_i hverdict
        rw [hverdict] at hout
        contradiction
      · rename_i hverdict
        rw [hverdict] at hout
        contradiction
    · unfold Plan.rewriteBlock
      rw [if_neg hshb, if_neg hpacket]
  · intro b' hb'
    obtain ⟨block, hblock, hwritten⟩ := List.mem_filterMap.mp hb'
    have hmem := mem_of_mem_inContext hblock
    exact written_rewriteBlock (h.wellFormed _ hmem) (h.acceptable _ hmem) hwritten

def headerBlock : Block where
  ty := shb
  body := [0x4d, 0x3c, 0x2b, 0x1a, 1, 0, 0, 0] ++ List.replicate 8 255

/-- An interface of raw IP. -/
def interfaceBlock : Block where
  ty := idb
  body := [101, 0, 0, 0, 0, 0, 4, 0]

/-- The sample frame as a packet without options. -/
def ownedPacket : Block where
  ty := epb
  body := List.replicate 12 0 ++ [28, 0, 0, 0, 28, 0, 0, 0] ++ sampleFrame

/-- A packet without a frame. -/
def emptyPacket : Block where
  ty := epb
  body := List.replicate 20 0

/-- A capture of one section with an interface and two packets. -/
def sampleCapture : List Block := [headerBlock, interfaceBlock, ownedPacket, emptyPacket]

theorem sampleCapture_capture : Capture sampleCapture where
  wellFormed := by decide
  acceptable := by
    intro b hb
    simp only [sampleCapture, List.mem_cons, List.not_mem_nil, or_false] at hb
    rcases hb with rfl | rfl | rfl | rfl
    · exact ⟨fun _ => by decide, fun hpacket => absurd hpacket.1 (by decide)⟩
    · exact ⟨fun hshb => absurd hshb (by decide), fun hpacket => absurd hpacket.1 (by decide)⟩
    · exact ⟨fun hshb => absurd hshb (by decide), fun _ => by decide⟩
    · exact ⟨fun hshb => absurd hshb (by decide), fun _ => by decide⟩
  header := ⟨_, .head _, rfl⟩

/-- A process-only plan that labels the packets of the sample frame. -/
def labellingPlan : Plan where
  owners := AList.singleton samplePacket.backward { label := some "client [7]", keep := true }
  onlyGroup := true
  comment := "SocketTrail: only traffic of client [7]"

/-- The header gets the comment of the plan and the packet its label; the packet of
nobody is removed. -/
theorem apply_filters_and_labels_sample :
    ∃ header packet stats, labellingPlan.apply {} (encodeAll sampleCapture) =
        .ok (encodeAll [header, interfaceBlock, packet], stats) ∧
      headerBlock.Commented 16 "SocketTrail: only traffic of client [7]" header ∧
      ownedPacket.Commented 48 "client [7]" packet := by
  obtain ⟨⟨stats, hout⟩, -, hblocks, -⟩ :=
    apply_filters_and_labels labellingPlan sampleCapture_capture
  have hcontext : inContext [] sampleCapture = [([], headerBlock), ([], interfaceBlock),
      ([101], ownedPacket), ([101], emptyPacket)] := by decide +kernel
  rw [hcontext] at hblocks hout
  obtain ⟨header, hheader, hcommented⟩ := (hblocks [] headerBlock (.head _)).1 rfl
  have hinterface := (hblocks [] interfaceBlock (.tail _ (.head _))).2.2 (by decide) (by decide)
  obtain ⟨packet, hpacket, hlabelled⟩ :=
    ((hblocks [101] ownedPacket (.tail _ (.tail _ (.head _)))).2.1 (by decide)).2.2 "client [7]"
      (by decide +kernel)
  have hremoved := ((hblocks [101] emptyPacket (.tail _ (.tail _ (.tail _ (.head _))))).2.1
    (by decide)).1 (by decide +kernel)
  refine ⟨header, packet, stats, ?_, hcommented, hlabelled⟩
  simpa only [List.filterMap_cons, List.filterMap_nil, hheader, hinterface, hpacket, hremoved]
    using hout

end SocketTrail.Annotate
