/-
# Rewriting a capture

A plan names the owner of every recorded tuple: the label that its packets get and
whether a process-only dump keeps them. `Plan.apply` reads a capture block by block, filters its packets and labels what
it keeps. The loop is described by `Plan.pass`, the same work on a list of
blocks: `applyLoop_encodeAll` runs the loop on the encoding of a list, and
`pass_of_applyLoop` finds the list behind a file that the loop accepts.
`Plan.rewriteBlock` says what becomes of one block.
-/

import SocketTrail.Annotate.Block
import SocketTrail.Pcap.Frame

namespace SocketTrail.Annotate

open SocketTrail.Foundation SocketTrail.Net SocketTrail.Pcap

/-- The owner of a tuple, as far as the dump is concerned. -/
structure Owner where
  label : Option String
  keep : Bool
  deriving DecidableEq, Repr

structure Plan where
  owners : KeyedMap ConnKey Owner
  /-- Keep the connections of the process only, or else all traffic. -/
  onlyGroup : Bool
  /-- The comment of every section header. -/
  comment : String

/-- The label of a packet, such as `client [7] -> example.org`. -/
def label (pname : Option String) (pid : Option ℤ) (domain : Option String) : Option String :=
  let who :=
    match pname, pid with
    | some n, some p => some (n ++ " [" ++ toString p ++ "]")
    | some n, none => some n
    | none, some p => some ("[" ++ toString p ++ "]")
    | none, none => none
  match who, domain with
  | some w, some d => some (w ++ " -> " ++ d)
  | some w, none => some w
  | none, some d => some ("-> " ++ d)
  | none, none => none

/-- The owner of a packet: its tuple as the sender sees it, or else as the
receiver does. -/
def Plan.lookup (plan : Plan) (p : Packet) : Option Owner :=
  (plan.owners.lookup p.forward).or (plan.owners.lookup p.backward)

/-- Whether a frame is kept, and the label it gets. -/
def Plan.judge (plan : Plan) (linktype : UInt16) (frame : Bytes) : Bool × Option String :=
  match parseLink linktype frame with
  | none => (!plan.onlyGroup, none)
  | some g =>
      match plan.lookup (g.packet none []) with
      | some o => (!plan.onlyGroup || o.keep, o.label)
      | none => (!plan.onlyGroup, none)

structure Stats where
  packets : ℕ := 0
  kept : ℕ := 0
  labeled : ℕ := 0
  deriving DecidableEq, Repr

namespace Block

/-- The number of captured bytes that an enhanced packet block declares. -/
def caplen (b : Block) : ℕ := le32 b.body 12

/-- Where the options of an enhanced packet block begin. -/
def fixed (b : Block) : ℕ := 20 + padTo4 b.caplen

/-- The captured frame of an enhanced packet block. -/
def frame (b : Block) : Bytes := (b.body.drop 20).take b.caplen

/-- An enhanced packet block long enough to be looked at. -/
def IsPacket (b : Block) : Prop := b.ty = epb ∧ 20 ≤ b.body.length

instance (b : Block) : Decidable b.IsPacket := by
  unfold IsPacket
  infer_instance

/-- The block with a comment. -/
def comment (b : Block) (fixed : ℕ) (text : String) : Block :=
  { b with body := withComment b.body fixed text }

end Block

/-- The link types of the interfaces of the section, the sections seen and the
counts. -/
structure Pass where
  linktypes : List UInt16 := []
  sawHeader : Bool := false
  stats : Stats := {}

/-- Process one block; the result names the block to write, if any. -/
def Plan.applyBlock (plan : Plan) (st : Pass) (b : Block) :
    Except Failure (Pass × Option Block) :=
  if b.ty = shb then
    if b.body.length < 16 ∨ le32 b.body 0 ≠ magic then .error .bigEndian
    else .ok ({ st with sawHeader := true, linktypes := [] }, some (b.comment 16 plan.comment))
  else if b.ty = idb then
    let linktypes :=
      if 2 ≤ b.body.length then st.linktypes ++ [UInt16.ofNat (le16 b.body 0)] else st.linktypes
    .ok ({ st with linktypes := linktypes }, some b)
  else if b.IsPacket then
    let stats := { st.stats with packets := st.stats.packets + 1 }
    if b.body.length < b.fixed then .error .corruptedPacket
    else
      match plan.judge (st.linktypes.getD (le32 b.body 0) 1) b.frame with
      | (false, _) => .ok ({ st with stats := stats }, none)
      | (true, some l) =>
          let stats := { stats with kept := stats.kept + 1, labeled := stats.labeled + 1 }
          .ok ({ st with stats := stats }, some (b.comment b.fixed l))
      | (true, none) => .ok ({ st with stats := { stats with kept := stats.kept + 1 } }, some b)
  else .ok (st, some b)

/-- The operations on the two files that fail: the reading of the `n`-th block,
the writing of what becomes of it, the last flush. -/
structure Faults where
  read : ℕ → Bool := fun _ => false
  write : ℕ → Bool := fun _ => false
  flush : Bool := false

/-- The loop over the blocks of a file, at its `n`-th block and with `out` written
so far. Every block takes bytes away, so `fuel` for the length of the file is
never used up. -/
def Plan.applyLoop (plan : Plan) (f : Faults) :
    ℕ → ℕ → Pass → Bytes → Bytes → Except Failure (Pass × Bytes)
  | _, n, st, out, [] => if f.read n then .error .system else .ok (st, out)
  | 0, _, _, _, _ :: _ => .error .unexpectedEof
  | fuel + 1, n, st, out, first :: others =>
      if f.read n then .error .system
      else
        match readBlock (first :: others) with
        | .error e => .error e
        | .ok (b, rest) =>
            match plan.applyBlock st b with
            | .error e => .error e
            | .ok (st, none) => plan.applyLoop f fuel (n + 1) st out rest
            | .ok (st, some b) =>
                if f.write n then .error .system
                else plan.applyLoop f fuel (n + 1) st (out ++ b.encode) rest

/-- Rewrite the file `src`: the bytes written and the counts. -/
def Plan.apply (plan : Plan) (f : Faults) (src : Bytes) : Except Failure (Bytes × Stats) :=
  match plan.applyLoop f src.length 0 {} [] src with
  | .error e => .error e
  | .ok (st, out) =>
      if !st.sawHeader then .error .headerMissing
      else if f.flush then .error .system
      else .ok (out, st.stats)

/-! ## The loop and the list of blocks -/

/-- Process a list of blocks; the result lists the blocks to write. -/
def Plan.pass (plan : Plan) : Pass → List Block → Except Failure (Pass × List Block)
  | st, [] => .ok (st, [])
  | st, b :: rest =>
      match plan.applyBlock st b with
      | .error e => .error e
      | .ok (st, written) =>
          match plan.pass st rest with
          | .error e => .error e
          | .ok (st, blocks) => .ok (st, written.toList ++ blocks)

/-- One turn of the loop over a file that begins with a block. -/
theorem applyLoop_block (plan : Plan) (f : Faults) {b : Block} (h : b.WellFormed) (rest : Bytes)
    (fuel n : ℕ) (st : Pass) (out : Bytes) :
    plan.applyLoop f (fuel + 1) n st out (b.encode ++ rest) =
      if f.read n then .error .system
      else
        match plan.applyBlock st b with
        | .error e => .error e
        | .ok (st, none) => plan.applyLoop f fuel (n + 1) st out rest
        | .ok (st, some b) =>
            if f.write n then .error .system
            else plan.applyLoop f fuel (n + 1) st (out ++ b.encode) rest := by
  have hne : b.encode ++ rest ≠ [] := by simp [b.encode_ne_nil]
  obtain ⟨first, others, hcons⟩ := List.exists_cons_of_ne_nil hne
  rw [hcons, Plan.applyLoop, ← hcons, readBlock_encode h]

/-- Without faults the loop processes the blocks of the file. -/
theorem applyLoop_encodeAll (plan : Plan) {blocks : List Block} {fuel : ℕ}
    (hwf : ∀ b ∈ blocks, b.WellFormed) (hfuel : blocks.length ≤ fuel) (n : ℕ) (st : Pass)
    (out : Bytes) :
    plan.applyLoop {} fuel n st out (encodeAll blocks) =
      match plan.pass st blocks with
      | .error e => .error e
      | .ok (st, written) => .ok (st, out ++ encodeAll written) := by
  induction blocks generalizing fuel n st out with
  | nil =>
      cases fuel <;> simp [Plan.applyLoop, Plan.pass]
  | cons b rest ih =>
      have hrest : ∀ b ∈ rest, b.WellFormed := fun b hb => hwf b (List.mem_cons_of_mem _ hb)
      cases fuel with
      | zero => simp at hfuel
      | succ fuel =>
          have hfuel' : rest.length ≤ fuel := by simpa using hfuel
          rw [encodeAll_cons, applyLoop_block plan {} (hwf b (List.mem_cons_self ..)), Plan.pass]
          cases hblock : plan.applyBlock st b with
          | error e => rfl
          | ok result =>
              obtain ⟨st', written⟩ := result
              cases written with
              | none =>
                  simp only [Bool.false_eq_true, if_false, ih hrest hfuel']
                  cases plan.pass st' rest <;> rfl
              | some b' =>
                  simp only [Bool.false_eq_true, if_false, ih hrest hfuel']
                  cases plan.pass st' rest with
                  | error e => rfl
                  | ok result => simp

/-- A file that the loop gets through is the encoding of a list of well formed
blocks, and the loop has written what processing the list writes. -/
theorem pass_of_applyLoop {plan : Plan} {f : Faults} {fuel n : ℕ} {st st' : Pass}
    {out out' bytes : Bytes} (h : plan.applyLoop f fuel n st out bytes = .ok (st', out')) :
    ∃ blocks written, bytes = encodeAll blocks ∧ (∀ b ∈ blocks, b.WellFormed) ∧
      plan.pass st blocks = .ok (st', written) ∧ out' = out ++ encodeAll written := by
  induction fuel generalizing n st out bytes with
  | zero =>
      cases bytes with
      | nil =>
          rw [Plan.applyLoop] at h
          split at h
          · contradiction
          · obtain ⟨rfl, rfl⟩ := Prod.mk.inj (Except.ok.inj h)
            exact ⟨[], [], rfl, by simp, rfl, by simp⟩
      | cons first others => contradiction
  | succ fuel ih =>
      cases bytes with
      | nil =>
          rw [Plan.applyLoop] at h
          split at h
          · contradiction
          · obtain ⟨rfl, rfl⟩ := Prod.mk.inj (Except.ok.inj h)
            exact ⟨[], [], rfl, by simp, rfl, by simp⟩
      | cons first others =>
          rw [Plan.applyLoop] at h
          split at h
          · contradiction
          split at h
          · contradiction
          rename_i b rest hread
          obtain ⟨hbytes, hwf⟩ := encode_of_readBlock hread
          split at h
          · contradiction
          · rename_i st₁ hblock
            obtain ⟨blocks, written, rfl, hblocks, hpass, rfl⟩ := ih h
            refine ⟨b :: blocks, written, hbytes, ?_, ?_, rfl⟩
            · exact List.forall_mem_cons.mpr ⟨hwf, hblocks⟩
            · simp [Plan.pass, hblock, hpass]
          · rename_i st₁ b' hblock
            split at h
            · contradiction
            obtain ⟨blocks, written, rfl, hblocks, hpass, rfl⟩ := ih h
            refine ⟨b :: blocks, b' :: written, hbytes, ?_, ?_, ?_⟩
            · exact List.forall_mem_cons.mpr ⟨hwf, hblocks⟩
            · simp [Plan.pass, hblock, hpass]
            · simp

/-! ## What becomes of the blocks -/

/-- The link types of the interfaces after a block. -/
def linktypesAfter (linktypes : List UInt16) (b : Block) : List UInt16 :=
  if b.ty = shb then []
  else if b.ty = idb ∧ 2 ≤ b.body.length then linktypes ++ [UInt16.ofNat (le16 b.body 0)]
  else linktypes

/-- The blocks, each with the link types of the interfaces that its section has
described before it. -/
def inContext : List UInt16 → List Block → List (List UInt16 × Block)
  | _, [] => []
  | linktypes, b :: rest => (linktypes, b) :: inContext (linktypesAfter linktypes b) rest

/-- The verdict on an enhanced packet block; an interface that was not described
counts as Ethernet. -/
def Plan.verdict (plan : Plan) (linktypes : List UInt16) (b : Block) : Bool × Option String :=
  plan.judge (linktypes.getD (le32 b.body 0) 1) b.frame

/-- What is written for a block. -/
def Plan.rewriteBlock (plan : Plan) (linktypes : List UInt16) (b : Block) : Option Block :=
  if b.ty = shb then some (b.comment 16 plan.comment)
  else if b.IsPacket then
    match plan.verdict linktypes b with
    | (false, _) => none
    | (true, some l) => some (b.comment b.fixed l)
    | (true, none) => some b
  else some b

/-- What is written for a list of blocks. -/
def Plan.rewriteBlocks (plan : Plan) (linktypes : List UInt16) (blocks : List Block) :
    List Block :=
  (inContext linktypes blocks).filterMap fun block => plan.rewriteBlock block.1 block.2

theorem rewriteBlocks_cons (plan : Plan) (linktypes : List UInt16) (b : Block)
    (rest : List Block) :
    plan.rewriteBlocks linktypes (b :: rest) =
      (plan.rewriteBlock linktypes b).toList ++
        plan.rewriteBlocks (linktypesAfter linktypes b) rest := by
  unfold Plan.rewriteBlocks
  rw [inContext, List.filterMap_cons]
  cases plan.rewriteBlock linktypes b <;> simp

/-- A section header is little-endian and complete, and an enhanced packet block
holds its padded frame. -/
structure Acceptable (b : Block) : Prop where
  header : b.ty = shb → 16 ≤ b.body.length ∧ le32 b.body 0 = magic
  packet : b.IsPacket → b.fixed ≤ b.body.length

theorem epb_ne_shb : epb ≠ shb := by decide

theorem idb_ne_shb : idb ≠ shb := by decide

theorem idb_ne_epb : idb ≠ epb := by decide

/-- An acceptable block is processed, and the result is the rewritten block. -/
theorem applyBlock_of_acceptable (plan : Plan) (st : Pass) {b : Block} (h : Acceptable b) :
    ∃ stats, plan.applyBlock st b =
      .ok ({ linktypes := linktypesAfter st.linktypes b
             sawHeader := st.sawHeader || decide (b.ty = shb)
             stats := stats }, plan.rewriteBlock st.linktypes b) := by
  unfold Plan.applyBlock Plan.rewriteBlock
  by_cases hshb : b.ty = shb
  · obtain ⟨hlength, hmagic⟩ := h.header hshb
    have hafter : linktypesAfter st.linktypes b = [] := if_pos hshb
    rw [if_pos hshb, if_pos hshb, if_neg (by simp [hmagic, hlength]), hafter]
    exact ⟨st.stats, by simp [hshb]⟩
  rw [if_neg hshb, if_neg hshb, decide_eq_false hshb, Bool.or_false]
  by_cases hidb : b.ty = idb
  · have hpacket : ¬b.IsPacket := fun hp => idb_ne_epb (hidb.symm.trans hp.1)
    have hafter : linktypesAfter st.linktypes b =
        if 2 ≤ b.body.length then st.linktypes ++ [UInt16.ofNat (le16 b.body 0)]
        else st.linktypes := by
      simp [linktypesAfter, hidb, idb_ne_shb]
    rw [if_pos hidb, if_neg hpacket, hafter]
    exact ⟨st.stats, rfl⟩
  have hafter : linktypesAfter st.linktypes b = st.linktypes := by
    simp [linktypesAfter, hshb, hidb]
  rw [if_neg hidb, hafter]
  by_cases hpacket : b.IsPacket
  · rw [if_pos hpacket, if_pos hpacket, if_neg (not_lt.mpr (h.packet hpacket))]
    unfold Plan.verdict
    split
    · exact ⟨_, rfl⟩
    · exact ⟨_, rfl⟩
    · exact ⟨_, rfl⟩
  · rw [if_neg hpacket, if_neg hpacket]
    exact ⟨st.stats, rfl⟩

/-- A block that is processed is acceptable. -/
theorem acceptable_of_applyBlock {plan : Plan} {st : Pass} {b : Block}
    {result : Pass × Option Block} (h : plan.applyBlock st b = .ok result) : Acceptable b := by
  unfold Plan.applyBlock at h
  by_cases hshb : b.ty = shb
  · rw [if_pos hshb] at h
    split at h
    · contradiction
    · rename_i hheader
      rw [not_or, not_lt, not_not] at hheader
      exact ⟨fun _ => hheader, fun hp => absurd (hp.1.symm.trans hshb) epb_ne_shb⟩
  · rw [if_neg hshb] at h
    refine ⟨fun hheader => absurd hheader hshb, fun hp => ?_⟩
    have hidb : b.ty ≠ idb := fun hidb => idb_ne_epb (hidb.symm.trans hp.1)
    rw [if_neg hidb, if_pos hp] at h
    dsimp only at h
    split at h
    · contradiction
    · rename_i hfits
      exact not_lt.mp hfits

/-- Acceptable blocks are processed, and the result is the rewritten list. -/
theorem pass_of_acceptable (plan : Plan) {blocks : List Block} (h : ∀ b ∈ blocks, Acceptable b)
    (st : Pass) :
    ∃ st', plan.pass st blocks = .ok (st', plan.rewriteBlocks st.linktypes blocks) ∧
      st'.sawHeader = (st.sawHeader || blocks.any fun b => b.ty = shb) := by
  induction blocks generalizing st with
  | nil => exact ⟨st, rfl, by simp⟩
  | cons b rest ih =>
      obtain ⟨hb, hrest⟩ := List.forall_mem_cons.mp h
      obtain ⟨stats, hblock⟩ := applyBlock_of_acceptable plan st hb
      obtain ⟨st', hpass, hheader⟩ := ih hrest
        { linktypes := linktypesAfter st.linktypes b
          sawHeader := st.sawHeader || decide (b.ty = shb), stats := stats }
      refine ⟨st', ?_, ?_⟩
      · rw [Plan.pass, hblock]
        dsimp only
        rw [hpass, rewriteBlocks_cons]
      · rw [hheader, List.any_cons, Bool.or_assoc]

/-- A list of blocks that is processed consists of acceptable ones. -/
theorem acceptable_of_pass {plan : Plan} {blocks written : List Block} {st st' : Pass}
    (h : plan.pass st blocks = .ok (st', written)) : ∀ b ∈ blocks, Acceptable b := by
  induction blocks generalizing st st' written with
  | nil => simp
  | cons b rest ih =>
      rw [Plan.pass] at h
      split at h
      · contradiction
      rename_i st₁ first hblock
      split at h
      · contradiction
      rename_i st₂ others hpass
      exact List.forall_mem_cons.mpr ⟨acceptable_of_applyBlock hblock, ih hpass⟩

/-! ## The files that are rewritten -/

/-- A complete capture: well formed, acceptable blocks with at least one section
header among them. -/
structure Capture (blocks : List Block) : Prop where
  wellFormed : ∀ b ∈ blocks, b.WellFormed
  acceptable : ∀ b ∈ blocks, Acceptable b
  header : ∃ b ∈ blocks, b.ty = shb

theorem length_le_encodeAll (blocks : List Block) : blocks.length ≤ (encodeAll blocks).length := by
  induction blocks with
  | nil => exact le_rfl
  | cons b rest ih =>
      rw [encodeAll_cons, List.length_append, List.length_cons, b.length_encode, Block.size]
      omega

/-- Without faults a complete capture is rewritten, block by block. -/
theorem apply_of_capture (plan : Plan) {blocks : List Block} (h : Capture blocks) :
    ∃ stats, plan.apply {} (encodeAll blocks) =
      .ok (encodeAll (plan.rewriteBlocks [] blocks), stats) := by
  obtain ⟨st, hpass, hheader⟩ := pass_of_acceptable plan h.acceptable {}
  have hsaw : st.sawHeader = true := by
    obtain ⟨b, hb, hshb⟩ := h.header
    rw [hheader, Bool.false_or, List.any_eq_true]
    exact ⟨b, hb, by simpa using hshb⟩
  refine ⟨st.stats, ?_⟩
  unfold Plan.apply
  rw [applyLoop_encodeAll plan h.wellFormed (length_le_encodeAll blocks), hpass]
  simp [hsaw]

/-- Whatever fails, a file that is rewritten is a complete capture, and what is
written for it are its rewritten blocks. -/
theorem capture_of_apply {plan : Plan} {f : Faults} {src out : Bytes} {stats : Stats}
    (h : plan.apply f src = .ok (out, stats)) :
    ∃ blocks, src = encodeAll blocks ∧ Capture blocks ∧
      out = encodeAll (plan.rewriteBlocks [] blocks) := by
  unfold Plan.apply at h
  split at h
  · contradiction
  rename_i st out' hloop
  obtain ⟨blocks, written, hsrc, hwf, hpass, hout⟩ := pass_of_applyLoop hloop
  have hacceptable := acceptable_of_pass hpass
  obtain ⟨st', hpass', hheader⟩ := pass_of_acceptable plan hacceptable {}
  rw [hpass, Except.ok.injEq, Prod.mk.injEq] at hpass'
  obtain ⟨rfl, rfl⟩ := hpass'
  split at h
  · contradiction
  rename_i hsaw
  split at h
  · contradiction
  obtain ⟨rfl, -⟩ := Prod.mk.inj (Except.ok.inj h)
  refine ⟨blocks, hsrc, ⟨hwf, hacceptable, ?_⟩, by simpa using hout⟩
  rw [Bool.not_eq_true', Bool.not_eq_false, hheader, Bool.false_or, List.any_eq_true] at hsaw
  obtain ⟨b, hb, hshb⟩ := hsaw
  exact ⟨b, hb, by simpa using hshb⟩

/-- What is written despite faults is what is written without them. -/
theorem apply_without_faults {plan : Plan} {f : Faults} {src : Bytes} {result : Bytes × Stats}
    (h : plan.apply f src = .ok result) : plan.apply {} src = .ok result := by
  unfold Plan.apply at h ⊢
  split at h
  · contradiction
  rename_i st out hloop
  obtain ⟨blocks, written, rfl, hwf, hpass, hout⟩ := pass_of_applyLoop hloop
  rw [applyLoop_encodeAll plan hwf (length_le_encodeAll blocks), hpass]
  dsimp only
  rw [← hout]
  split at h
  · contradiction
  rename_i hsaw
  split at h
  · contradiction
  rw [if_neg hsaw]
  exact h

end SocketTrail.Annotate
