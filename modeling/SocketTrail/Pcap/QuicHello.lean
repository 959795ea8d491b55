/-
# A ClientHello is found however it is packetised

The flow of a connection stays `Tracked`: it has gathered the positions that the
CRYPTO frames covered so far and they leave a gap in the ClientHello, or they do
not and the flow is done. `Outcome` says what a frame, a packet or a datagram
adds, and composes; `hello_collected` reads off which datagram returns the name.

That opening a packet yields the plaintext that the client sealed is assumed, as
part of `Carries`.
-/

import SocketTrail.Pcap.QuicFrames

namespace SocketTrail.Pcap.Quic

open SocketTrail.Foundation SocketTrail.Net

/-! ## What the frames cover -/

/-- Data with its offset in the CRYPTO stream. -/
abbrev Piece : Type := ℕ × Bytes

/-- The positions that the pieces cover. -/
def Covers (pieces : List Piece) (i : ℕ) : Prop :=
  ∃ piece ∈ pieces, piece.1 ≤ i ∧ i < piece.1 + piece.2.length

/-- The piece is a slice of the message at its offset. -/
def IsSlice (hello : Bytes) (piece : Piece) : Prop := piece.2 <+: hello.drop piece.1

instance (hello : Bytes) (piece : Piece) : Decidable (IsSlice hello piece) :=
  inferInstanceAs (Decidable (_ <+: _))

theorem covers_nil (i : ℕ) : ¬ Covers [] i := by
  simp [Covers]

theorem covers_cons (piece : Piece) (pieces : List Piece) (i : ℕ) :
    Covers (piece :: pieces) i ↔
      (piece.1 ≤ i ∧ i < piece.1 + piece.2.length) ∨ Covers pieces i := by
  simp [Covers]

theorem covers_append (first second : List Piece) (i : ℕ) :
    Covers (first ++ second) i ↔ Covers first i ∨ Covers second i := by
  simp [Covers, or_and_right, exists_or]

/-! ## The state of a flow -/

/-- A flow that has received the positions `got` of the message: it waits for the
first gap to be filled, or there was none and it is done. -/
inductive Tracked (hello : Bytes) (got : ℕ → Prop) (f : Flow) : Prop
  | waiting (hdone : f.done = false) (hg : Gathered hello got f.buf f.filled f.ready)
      (hmissing : f.ready < hello.length)
  | complete (hdone : f.done = true) (hall : ∀ i < hello.length, got i)

namespace Tracked

variable {hello : Bytes} {got got' : ℕ → Prop} {f : Flow}

theorem congr (h : Tracked hello got f) (hsame : ∀ i, got' i ↔ got i) : Tracked hello got' f := by
  cases h with
  | waiting hdone hg hmissing => exact .waiting hdone (hg.congr hsame) hmissing
  | complete hdone hall => exact .complete hdone fun i hi => (hsame i).mpr (hall i hi)

/-- Only the stream counts, not when a packet was seen or which number it had. -/
theorem relabel (h : Tracked hello got f) (seen : ℕ) (largest : Option ℕ) :
    Tracked hello got { f with seen := seen, largest := largest } := by
  cases h with
  | waiting hdone hg hmissing => exact .waiting hdone hg hmissing
  | complete hdone hall => exact .complete hdone hall

/-- A new flow has received nothing. -/
theorem fresh (h : IsHello hello) (now : ℕ) : Tracked hello (fun _ => False) (.fresh now) :=
  .waiting rfl (.empty hello) ((by decide : 0 < 4).trans_le h.header)

end Tracked

/-- What more positions do to a flow and to the name found so far: the name of the
message is found when they complete it. -/
structure Outcome (hello : Bytes) (got got' : ℕ → Prop) (f' : Flow) (sni sni' : Option String) :
    Prop where
  tracked : Tracked hello got' f'
  completes : Completes hello.length got got' → sni' = (clientHelloSni hello).or sni
  otherwise : ¬ Completes hello.length got got' → sni' = sni

namespace Outcome

variable {hello : Bytes} {got got' got'' : ℕ → Prop} {f' f'' : Flow}
  {sni sni' sni'' : Option String}

/-- Nothing was added. -/
theorem same (h : Tracked hello got f') (hsame : ∀ i, got' i ↔ got i) :
    Outcome hello got got' f' sni sni where
  tracked := h.congr hsame
  completes hnow := absurd hnow (not_completes_of_same hsame)
  otherwise _ := rfl

/-- After the message is complete, nothing more is found. -/
theorem complete (hdone : f'.done = true) (hall : ∀ i < hello.length, got i)
    (hmore : ∀ i, got i → got' i) : Outcome hello got got' f' sni sni where
  tracked := .complete hdone fun i hi => hmore i (hall i hi)
  completes hnow := absurd hnow (not_completes_of_all hall)
  otherwise _ := rfl

/-- Two steps complete the message if one of them does. -/
theorem trans (first : Outcome hello got got' f' sni sni')
    (second : Outcome hello got' got'' f'' sni' sni'') (hmore : ∀ i, got i → got' i)
    (hmore' : ∀ i, got' i → got'' i) : Outcome hello got got'' f'' sni sni'' where
  tracked := second.tracked
  completes hnow := by
    by_cases hmiddle : ∀ i < hello.length, got' i
    · rw [second.otherwise (not_completes_of_all hmiddle), first.completes ⟨hmiddle, hnow.2⟩]
    · rw [second.completes ⟨hnow.1, hmiddle⟩, first.otherwise fun hearlier => hmiddle hearlier.1]
  otherwise hnever := by
    rw [second.otherwise, first.otherwise]
    · rintro ⟨hall, hmissing⟩
      exact hnever ⟨fun i hi => hmore' i (hall i hi), hmissing⟩
    · rintro ⟨hall, hmissing⟩
      exact hnever ⟨hall, fun hbefore => hmissing fun i hi => hmore i (hbefore i hi)⟩

theorem congr (h : Outcome hello got got' f' sni sni') (hsame : ∀ i, got'' i ↔ got' i) :
    Outcome hello got got'' f' sni sni' := by
  have heq : got'' = got' := by
    funext i
    exact propext (hsame i)
  rw [heq]
  exact h

end Outcome

/-! ## Frames -/

section Stream

variable {hello : Bytes} {got : ℕ → Prop} {f : Flow}

/-- A slice of the message is put into its place. -/
theorem Flow.place_gathered (hmax : hello.length ≤ maxHello)
    (hg : Gathered hello got f.buf f.filled f.ready) {piece : Piece}
    (hslice : IsSlice hello piece) :
    (f.place piece.1 piece.2).done = f.done ∧
      Gathered hello (fun i => got i ∨ Covers [piece] i) (f.place piece.1 piece.2).buf
        (f.place piece.1 piece.2).filled (f.place piece.1 piece.2).ready := by
  obtain ⟨off, data⟩ := piece
  have hcovers (i : ℕ) :
      (got i ∨ Covers [(off, data)] i) ↔ (got i ∨ (off ≤ i ∧ i < off + data.length)) := by
    rw [covers_cons]
    simp [covers_nil]
  by_cases hdata : data = []
  · subst hdata
    have hstop : ¬ off < min (off + ([] : Bytes).length) maxHello := by
      rw [List.length_nil]
      omega
    unfold Flow.place
    dsimp only
    rw [if_neg hstop, hg.advance_eq]
    refine ⟨rfl, hg.congr fun i => ?_⟩
    rw [hcovers, List.length_nil]
    constructor
    · rintro (hgot | hin)
      · exact hgot
      · omega
    · exact .inl
  · have hpos := List.length_pos_of_ne_nil hdata
    have hlength : data.length ≤ hello.length - off := by
      have hle := hslice.length_le
      rwa [List.length_drop] at hle
    have hstop : min (off + data.length) maxHello = off + data.length := min_eq_left (by omega)
    unfold Flow.place
    dsimp only
    rw [hstop, if_pos (by omega), Nat.add_sub_cancel_left, List.take_length]
    exact ⟨rfl, (hg.insert hslice 0).congr hcovers⟩

/-- One CRYPTO frame. -/
theorem Flow.add_outcome (h : IsHello hello) (hmax : hello.length ≤ maxHello)
    (hdone : f.done = false) (hg : Gathered hello got f.buf f.filled f.ready)
    (hmissing : f.ready < hello.length) {piece : Piece} (hslice : IsSlice hello piece) :
    Outcome hello got (fun i => got i ∨ Covers [piece] i) (f.add piece.1 piece.2).1 none
      (f.add piece.1 piece.2).2 := by
  obtain ⟨hsame, hplaced⟩ := f.place_gathered hmax hg hslice
  have hnot : ¬ ∀ i < hello.length, got i := by
    intro hall
    have hready := hg.le_ready_iff.mpr hall
    omega
  have hheader := h.header
  unfold Flow.add
  dsimp only
  generalize f.place piece.1 piece.2 = placed at hsame hplaced ⊢
  have hcovered := hplaced.le_ready_iff (n := hello.length)
  have hwaits : placed.ready < hello.length →
      Outcome hello got (fun i => got i ∨ Covers [piece] i) placed none none := by
    intro hlt
    refine ⟨.waiting (hsame.trans hdone) hplaced hlt, fun hnow => ?_, fun _ => rfl⟩
    have hle := hcovered.mpr hnow.1
    omega
  by_cases hready : placed.ready < 4
  · rw [if_pos (.inr hready)]
    exact hwaits (by omega)
  · have hbuf : 3 < placed.buf.length := hplaced.lt_length (hplaced.below 3 (by omega))
    obtain ⟨hkind, htotal⟩ := h.of_agrees fun i hi => hplaced.getElem?_eq (i := i) (by omega)
    rw [if_neg (by omega), hkind, htotal, if_neg (by simp; omega)]
    by_cases hall : placed.ready < hello.length
    · rw [if_pos hall]
      exact hwaits hall
    · rw [if_neg hall]
      have hmessage := hplaced.slice_eq (o := 0) (n := hello.length) (by omega)
      rw [List.drop_zero, List.drop_zero, List.take_length] at hmessage
      rw [hmessage]
      have hnow := hcovered.mp (by omega)
      refine ⟨.complete rfl hnow, fun _ => (Option.or_none ..).symm, fun hnever => ?_⟩
      exact absurd ⟨hnow, hnot⟩ hnever

/-- The frames of a packet. -/
theorem Flow.addFrames_outcome (h : IsHello hello) (hmax : hello.length ≤ maxHello)
    (ht : Tracked hello got f) (sni : Option String) {pieces : List Piece}
    (hslices : ∀ piece ∈ pieces, IsSlice hello piece) :
    Outcome hello got (fun i => got i ∨ Covers pieces i) (f.addFrames sni pieces).1 sni
      (f.addFrames sni pieces).2 := by
  induction pieces generalizing got f sni with
  | nil => exact .same ht fun i => by simp [covers_nil]
  | cons piece pieces ih =>
      cases ht with
      | complete hdone hall =>
          rw [Flow.addFrames, if_pos hdone]
          exact .complete hdone hall fun _ => .inl
      | waiting hdone hg hmissing =>
          rw [Flow.addFrames, if_neg (by simp [hdone])]
          have hpiece := f.add_outcome h hmax hdone hg hmissing
            (hslices piece (List.mem_cons_self ..))
          have hfirst : Outcome hello got (fun i => got i ∨ Covers [piece] i)
              (f.add piece.1 piece.2).1 sni ((f.add piece.1 piece.2).2.or sni) := by
            refine ⟨hpiece.tracked, fun hnow => ?_, fun hnever => ?_⟩
            · rw [hpiece.completes hnow, Option.or_none]
            · rw [hpiece.otherwise hnever, Option.none_or]
          have hrest := ih hpiece.tracked ((f.add piece.1 piece.2).2.or sni)
            fun other hother => hslices other (List.mem_cons_of_mem _ hother)
          refine (hfirst.trans hrest (fun _ => .inl) fun _ => .inl).congr fun i => ?_
          rw [covers_cons, covers_cons, or_assoc]
          simp [covers_nil]

/-- An opened packet. -/
theorem Flow.receive_outcome (h : IsHello hello) (hmax : hello.length ≤ maxHello)
    (ht : Tracked hello got f) (sni : Option String) {frames : List Frame} (pn : ℕ)
    (hslices : ∀ piece ∈ frames.filterMap Frame.crypto?, IsSlice hello piece) :
    Outcome hello got (fun i => got i ∨ Covers (frames.filterMap Frame.crypto?) i)
      (f.receive sni (encodeFrames frames) pn).1 sni
      (f.receive sni (encodeFrames frames) pn).2 := by
  rw [Flow.receive, cryptoFrames_encode]
  exact Flow.addFrames_outcome h hmax (ht.relabel f.seen _) sni hslices

end Stream

/-- Which name was found before makes no difference to the flow. -/
theorem Flow.addFrames_fst (f : Flow) (sni sni' : Option String) (pieces : List Piece) :
    (f.addFrames sni pieces).1 = (f.addFrames sni' pieces).1 := by
  induction pieces generalizing f sni sni' with
  | nil => rfl
  | cons piece pieces ih =>
      rw [Flow.addFrames, Flow.addFrames]
      split
      · rfl
      · exact ih ..

/-! ## Packets -/

namespace Assembler

variable {c : Ciphers} {e : Datagram} {key : Key}

theorem dropExpired_eq {a : Assembler} {now : ℕ} (halive : a.expired key now = false) :
    a.dropExpired key now = a := by
  rw [dropExpired, if_neg (by simp [halive])]

theorem dropExpired_other (a : Assembler) {other : Key} (hne : key ≠ other) (now : ℕ) :
    (a.dropExpired other now).flows.lookup key = a.flows.lookup key := by
  unfold dropExpired
  split
  · exact AList.lookup_erase_ne hne
  · rfl

/-- Making room leaves a flow alone, or throws it out. -/
theorem makeRoom_kept (a : Assembler) (key other : Key) (now : ℕ) (order : HashOrder Key) :
    (a.makeRoom other now order).lookup key = a.flows.lookup key ∨
      (a.makeRoom other now order).lookup key = none := by
  unfold makeRoom
  split
  · have hfresh : (KeyedMap.filterMap (fun _ f => if now - f.seen < ttl then some f else none)
          a.flows).lookup key = a.flows.lookup key ∨
        (KeyedMap.filterMap (fun _ f => if now - f.seen < ttl then some f else none)
          a.flows).lookup key = none := by
      rw [KeyedMap.lookup_filterMap]
      cases a.flows.lookup key with
      | none => exact .inl rfl
      | some f =>
          by_cases hlive : now - f.seen < ttl
          · exact .inl (if_pos hlive)
          · exact .inr (if_neg hlive)
    dsimp only
    split
    · split
      · rename_i old _
        by_cases hold : key = old
        · subst hold
          exact .inr (AList.lookup_erase ..)
        · rw [AList.lookup_erase_ne hold]
          exact hfresh
      · exact hfresh
    · exact hfresh
  · exact .inl rfl

/-- Making room for a flow does not touch the flow itself. -/
theorem makeRoom_self (a : Assembler) (now : ℕ) (order : HashOrder Key) :
    (a.makeRoom key now order).lookup key = a.flows.lookup key := by
  by_cases hmem : key ∈ a.flows
  · rw [makeRoom, if_neg (by simp [hmem])]
  · have hnone : a.flows.lookup key = none := AList.lookup_eq_none.mpr hmem
    rcases a.makeRoom_kept key key now order with hsame | hgone
    · exact hsame
    · rw [hgone, hnone]

theorem packet_fst (a : Assembler) (i : ℕ) (d : Bytes) (h : Header) (sni sni' : Option String) :
    (packet c e i a d h sni).1 = (packet c e i a d h sni').1 := by
  unfold packet
  dsimp only
  split
  · rfl
  · rename_i plain pn _
    unfold deliver
    dsimp only
    split
    · rfl
    · simp only [Flow.receive, Flow.addFrames_fst _ sni sni']

/-- A packet that holds no Initial of a client leaves the flow alone, unless it
finds the flow expired. -/
theorem packet_passed {a : Assembler} {i : ℕ} {d : Bytes} {h : Header} (sni : Option String)
    (hinitial : h.initial = false)
    (halive : (e.src, e.sport, h.dcid) = key → a.expired key (e.clock.read (2 * i)) = false) :
    (packet c e i a d h sni).1.flows.lookup key = a.flows.lookup key ∧
      (packet c e i a d h sni).2 = sni := by
  unfold packet
  dsimp only
  rw [hinitial, if_neg (by simp)]
  refine ⟨?_, rfl⟩
  by_cases hkey : (e.src, e.sport, h.dcid) = key
  · rw [hkey, dropExpired_eq (halive hkey)]
  · exact a.dropExpired_other (Ne.symm hkey) _

/-- A packet of another connection leaves the flow alone, or throws it out. -/
theorem packet_other {a : Assembler} {i : ℕ} {d : Bytes} {h : Header} (sni : Option String)
    (hkey : (e.src, e.sport, h.dcid) ≠ key) :
    (packet c e i a d h sni).1.flows.lookup key = a.flows.lookup key ∨
      (packet c e i a d h sni).1.flows.lookup key = none := by
  have hdropped := a.dropExpired_other (Ne.symm hkey) (e.clock.read (2 * i))
  unfold packet
  dsimp only
  split
  · exact .inl hdropped
  · have hroom := (a.dropExpired (e.src, e.sport, h.dcid) (e.clock.read (2 * i))).makeRoom_kept
      key (e.src, e.sport, h.dcid) (e.clock.read (2 * i + 1)) e.order
    rw [hdropped] at hroom
    unfold deliver
    dsimp only
    split
    · rw [AList.lookup_insert_ne (Ne.symm hkey)]
      exact hroom
    · rw [AList.lookup_insert_ne (Ne.symm hkey)]
      exact hroom

/-- What the assembler has of a connection; nothing yet, if it has no flow. -/
def Follows (hello : Bytes) (key : Key) (got : ℕ → Prop) (a : Assembler) : Prop :=
  ∀ now, Tracked hello got ((a.flows.lookup key).getD (.fresh now))

/-- An opened Initial goes to its flow. -/
theorem packet_initial {hello : Bytes} {got : ℕ → Prop} (h : IsHello hello)
    (hmax : hello.length ≤ maxHello) {a : Assembler} (hfollows : Follows hello key got a) {i : ℕ}
    {d : Bytes} {hd : Header} (sni : Option String) (hinitial : hd.initial = true)
    (hkey : (e.src, e.sport, hd.dcid) = key)
    (halive : a.expired key (e.clock.read (2 * i)) = false) {frames : List Frame} {pn : ℕ}
    (hopen : ((Keys.new c hd.version hd.dcid).bind fun keys =>
      openPacket c keys d hd ((a.flows.lookup key).bind Flow.largest)) =
        some (encodeFrames frames, pn))
    (hslices : ∀ piece ∈ frames.filterMap Frame.crypto?, IsSlice hello piece) :
    ∃ f, (packet c e i a d hd sni).1.flows.lookup key = some f ∧
      Outcome hello got (fun i => got i ∨ Covers (frames.filterMap Frame.crypto?) i) f sni
        (packet c e i a d hd sni).2 := by
  have hflow := (hfollows (e.clock.read (2 * i + 1))).relabel (e.clock.read (2 * i + 1))
  unfold packet
  dsimp only
  rw [hkey, dropExpired_eq halive, hinitial, if_pos rfl, hopen]
  dsimp only
  unfold deliver
  dsimp only
  rw [makeRoom_self]
  generalize (a.flows.lookup key).getD (.fresh (e.clock.read (2 * i + 1))) = f at hflow ⊢
  have hf := hflow f.largest
  by_cases hdone : f.done = true
  · rw [if_pos hdone]
    refine ⟨_, AList.lookup_insert .., ?_⟩
    cases hf with
    | waiting hwaiting => simp_all
    | complete _ hall => exact .complete hdone hall fun _ => .inl
  · rw [if_neg hdone]
    exact ⟨_, AList.lookup_insert .., Flow.receive_outcome h hmax hf sni pn hslices⟩

theorem Follows.of_lookup {hello : Bytes} {got : ℕ → Prop} {a : Assembler} {f : Flow}
    (hf : a.flows.lookup key = some f) (ht : Tracked hello got f) : Follows hello key got a := by
  intro now
  rw [hf]
  exact ht

theorem Follows.congr_lookup {hello : Bytes} {got : ℕ → Prop} {a a' : Assembler}
    (h : Follows hello key got a) (hsame : a'.flows.lookup key = a.flows.lookup key) :
    Follows hello key got a' := by
  intro now
  rw [hsame]
  exact h now

end Assembler

/-! ## Datagrams -/

theorem varint_size_pos {d : Bytes} {p value n : ℕ} (h : varint d p = some (value, n)) : 0 < n := by
  unfold varint at h
  obtain ⟨first, -, h⟩ := Option.bind_eq_some_iff.mp h
  obtain ⟨rest, -, h⟩ := Option.bind_eq_some_iff.mp h
  simp only [Option.some.injEq, Prod.mk.injEq] at h
  rw [← h.2]
  exact Nat.two_pow_pos _

/-- A packet ends behind its beginning and its header, and not behind the datagram. -/
theorem header_bounds {d : Bytes} {h : Header} (hheader : header d = some h) :
    0 < h.end ∧ h.pnOff ≤ h.end ∧ h.end ≤ d.length := by
  unfold header at hheader
  obtain ⟨first, -, hheader⟩ := Option.bind_eq_some_iff.mp hheader
  dsimp only at hheader
  split at hheader
  · cases hheader
  obtain ⟨id, -, hheader⟩ := Option.bind_eq_some_iff.mp hheader
  obtain ⟨version, -, hheader⟩ := Option.bind_eq_some_iff.mp hheader
  split at hheader
  · cases hheader
  obtain ⟨dcidLen, -, hheader⟩ := Option.bind_eq_some_iff.mp hheader
  split at hheader
  · cases hheader
  obtain ⟨dcid, -, hheader⟩ := Option.bind_eq_some_iff.mp hheader
  obtain ⟨scidLen, -, hheader⟩ := Option.bind_eq_some_iff.mp hheader
  -- with a token and without
  split at hheader
  all_goals
    obtain ⟨p, -, hheader⟩ := Option.bind_eq_some_iff.mp hheader
    obtain ⟨⟨len, n⟩, hlen, hheader⟩ := Option.bind_eq_some_iff.mp hheader
    have hn := varint_size_pos hlen
    dsimp only at hheader
    split at hheader
    · rename_i hstop
      obtain rfl := Option.some.inj hheader
      exact ⟨by change 0 < p + n + len; omega, Nat.le_add_right _ _, hstop⟩
    · cases hheader

theorem header_end {d : Bytes} {h : Header} (hheader : header d = some h) :
    0 < h.end ∧ h.end ≤ d.length :=
  ⟨(header_bounds hheader).1, (header_bounds hheader).2.2⟩

/-- The packets from the `i`-th of a datagram on, which `d` begins with: every
Initial belongs to the connection, which has not expired, and opening it yields the
plaintext that the client sealed. `plaintexts` has the frames of these in order. -/
inductive Carries (c : Ciphers) (key : Key) (e : Datagram) :
    ℕ → Assembler → Bytes → List (List Frame) → Prop
  | nothing {i : ℕ} {a : Assembler} {d : Bytes} (hend : header d = none) :
      Carries c key e i a d []
  | passed {i : ℕ} {a : Assembler} {d : Bytes} {plaintexts : List (List Frame)} {h : Header}
      (hheader : header d = some h) (hinitial : h.initial = false)
      (halive : (e.src, e.sport, h.dcid) = key → a.expired key (e.clock.read (2 * i)) = false)
      (hrest : Carries c key e (i + 1) (a.packet c e i d h none).1 (d.drop h.end) plaintexts) :
      Carries c key e i a d plaintexts
  | initial {i : ℕ} {a : Assembler} {d : Bytes} {frames : List Frame}
      {plaintexts : List (List Frame)} {h : Header} {n : ℕ}
      (hheader : header d = some h) (hinitial : h.initial = true)
      (hkey : (e.src, e.sport, h.dcid) = key)
      (halive : a.expired key (e.clock.read (2 * i)) = false)
      (hopen : ((Keys.new c h.version h.dcid).bind fun keys =>
        openPacket c keys d h ((a.flows.lookup key).bind Flow.largest)) =
          some (encodeFrames frames, n))
      (hrest : Carries c key e (i + 1) (a.packet c e i d h none).1 (d.drop h.end) plaintexts) :
      Carries c key e i a d (frames :: plaintexts)

/-- No packet from `d` on belongs to the connection. -/
inductive Foreign (key : Key) (e : Datagram) : Bytes → Prop
  | nothing {d : Bytes} (hend : header d = none) : Foreign key e d
  | other {d : Bytes} {h : Header} (hheader : header d = some h)
      (hkey : (e.src, e.sport, h.dcid) ≠ key) (hrest : Foreign key e (d.drop h.end)) :
      Foreign key e d

/-- The CRYPTO frames of several plaintexts. -/
def pieces (plaintexts : List (List Frame)) : List Piece :=
  plaintexts.flatMap fun frames => frames.filterMap Frame.crypto?

namespace Assembler

variable {c : Ciphers} {e : Datagram} {key : Key} {hello : Bytes}

/-- Nothing is left to be read. -/
theorem feedFrom_nothing {d : Bytes} (hend : header d = none) (fuel i : ℕ) (a : Assembler)
    (sni : Option String) : feedFrom c e fuel i a d sni = (a, sni) := by
  cases fuel with
  | zero => rfl
  | succ fuel => rw [feedFrom, hend]

/-- The first packet and the others. -/
theorem feedFrom_packet {d : Bytes} {h : Header} (hheader : header d = some h) {fuel : ℕ}
    (hfuel : d.length ≤ fuel) (i : ℕ) (a : Assembler) (sni : Option String) :
    ∃ rest, (d.drop h.end).length ≤ rest ∧
      feedFrom c e fuel i a d sni =
        feedFrom c e rest (i + 1) (a.packet c e i d h sni).1 (d.drop h.end)
          (a.packet c e i d h sni).2 := by
  obtain ⟨hpos, hle⟩ := header_end hheader
  cases fuel with
  | zero => omega
  | succ fuel =>
      refine ⟨fuel, ?_, ?_⟩
      · rw [List.length_drop]
        omega
      · rw [feedFrom, hheader]

/-- The flow of a connection after a packet or several of them, and the name found
so far. -/
def Yields (hello : Bytes) (key : Key) (got got' : ℕ → Prop) (result : Assembler × Option String)
    (sni : Option String) : Prop :=
  ∀ now, Outcome hello got got' ((result.1.flows.lookup key).getD (.fresh now)) sni result.2

/-- The packets of a datagram of the connection. -/
theorem feedFrom_yields (h : IsHello hello) (hmax : hello.length ≤ maxHello) {got : ℕ → Prop}
    {i : ℕ} {a : Assembler} {d : Bytes} {plaintexts : List (List Frame)}
    (hcarries : Carries c key e i a d plaintexts) (hfollows : Follows hello key got a)
    (hslices : ∀ piece ∈ pieces plaintexts, IsSlice hello piece) (sni : Option String) {fuel : ℕ}
    (hfuel : d.length ≤ fuel) :
    Yields hello key got (fun i => got i ∨ Covers (pieces plaintexts) i)
      (feedFrom c e fuel i a d sni) sni := by
  induction hcarries generalizing got sni fuel with
  | nothing hend =>
      rw [feedFrom_nothing hend]
      intro now
      exact .same (hfollows now) fun i => by simp [pieces, covers_nil]
  | @passed i a d plaintexts hd hheader hinitial halive hrest ih =>
      obtain ⟨rest, hrestFuel, hfeed⟩ := feedFrom_packet (c := c) (e := e) hheader hfuel i a sni
      obtain ⟨hflow, hsni⟩ := packet_passed (c := c) (i := i) (d := d) sni hinitial halive
      have hnext := hfollows.congr_lookup hflow
      rw [packet_fst _ _ _ _ sni none] at hnext hfeed
      rw [hfeed, hsni]
      exact ih hnext hslices sni hrestFuel
  | @initial i a d frames plaintexts hd pn hheader hinitial hkey halive hopen hrest ih =>
      obtain ⟨rest, hrestFuel, hfeed⟩ := feedFrom_packet (c := c) (e := e) hheader hfuel i a sni
      have hpieces : pieces (frames :: plaintexts) =
          frames.filterMap Frame.crypto? ++ pieces plaintexts := rfl
      rw [hpieces, List.forall_mem_append] at hslices
      obtain ⟨f, hflow, hfirst⟩ :=
        packet_initial h hmax hfollows sni hinitial hkey halive hopen hslices.1
      rw [packet_fst _ _ _ _ sni none] at hflow hfeed
      rw [hfeed]
      intro now
      have hnext := Follows.of_lookup hflow hfirst.tracked
      have hlater := ih hnext hslices.2 (packet c e i a d hd sni).2 hrestFuel now
      refine (hfirst.trans hlater (fun _ => .inl) fun _ => .inl).congr fun i => ?_
      rw [hpieces, covers_append, or_assoc]

/-- The packets of a foreign datagram leave the flow alone, or throw it out. -/
theorem feedFrom_foreign {d : Bytes} (hforeign : Foreign key e d) {fuel : ℕ}
    (hfuel : d.length ≤ fuel) (i : ℕ) (a : Assembler) (sni : Option String) :
    (feedFrom c e fuel i a d sni).1.flows.lookup key = a.flows.lookup key ∨
      (feedFrom c e fuel i a d sni).1.flows.lookup key = none := by
  induction hforeign generalizing fuel i a sni with
  | nothing hend =>
      rw [feedFrom_nothing hend]
      exact .inl rfl
  | @other d hd hheader hkey hrest ih =>
      obtain ⟨rest, hrestFuel, hfeed⟩ := feedFrom_packet (c := c) (e := e) hheader hfuel i a sni
      rw [hfeed]
      have hlater := ih hrestFuel (i + 1) (a.packet c e i d hd sni).1 (a.packet c e i d hd sni).2
      rcases packet_other (c := c) (a := a) (i := i) (d := d) sni hkey with hsame | hgone
      · rwa [hsame] at hlater
      · rw [hgone] at hlater
        exact .inr (hlater.elim id id)

end Assembler

/-! ## The result -/

/-- A datagram, and the plaintexts of the connection's packets in it. -/
structure Sent where
  datagram : Datagram
  plaintexts : List (List Frame)

/-- The assembler as a transition system. -/
def system (c : Ciphers) : System Assembler Sent := .ofFun fun a s => (a.feed c s.datagram).1

/-- A datagram of the connection, whose CRYPTO frames hold slices of the message. -/
structure Own (c : Ciphers) (key : Key) (hello : Bytes) (a : Assembler) (s : Sent) : Prop where
  carries : Carries c key s.datagram 0 a s.datagram.payload s.plaintexts
  slices : ∀ piece ∈ pieces s.plaintexts, IsSlice hello piece

/-- A datagram of other connections, for which the flow is not thrown out. -/
structure Other (c : Ciphers) (key : Key) (a : Assembler) (s : Sent) : Prop where
  foreign : Foreign key s.datagram s.datagram.payload
  nothing : s.plaintexts = []
  kept : a.flows.lookup key ≠ none → (a.feed c s.datagram).1.flows.lookup key ≠ none

/-- The positions of the message that the connection has received. -/
def Received (hist : History Assembler Sent) (i : ℕ) : Prop :=
  ∃ entry ∈ hist, Covers (pieces entry.2.plaintexts) i

theorem received_cons (hist : History Assembler Sent) (a : Assembler) (s : Sent) (i : ℕ) :
    Received ((a, s) :: hist) i ↔ Received hist i ∨ Covers (pieces s.plaintexts) i := by
  simp [Received, or_comm]

section Connection

variable {c : Ciphers} {key : Key} {hello : Bytes} {a₀ a : Assembler}
  {hist : History Assembler Sent} {s : Sent}

/-- A datagram of the connection. -/
theorem Own.yields (h : IsHello hello) (hmax : hello.length ≤ maxHello)
    (hown : Own c key hello a s) (hfollows : a.Follows hello key (Received hist)) :
    Assembler.Yields hello key (Received hist) (Received ((a, s) :: hist)) (a.feed c s.datagram)
      none := by
  intro now
  have hyields := Assembler.feedFrom_yields h hmax hown.carries hfollows hown.slices none le_rfl now
  exact hyields.congr fun i => received_cons hist a s i

/-- The flow is followed through a whole run. -/
theorem follows_of_run (h : IsHello hello) (hmax : hello.length ≤ maxHello)
    (hnew : a₀.flows.lookup key = none) (run : Run (system c) a₀ hist a)
    (hall : ∀ entry ∈ hist, Own c key hello entry.1 entry.2 ∨ Other c key entry.1 entry.2) :
    a.Follows hello key (Received hist) := by
  revert hall
  apply run.historyInvariant (P := fun hist a =>
    (∀ entry ∈ hist, Own c key hello entry.1 entry.2 ∨ Other c key entry.1 entry.2) →
      a.Follows hello key (Received hist))
  · intro _ now
    rw [hnew]
    exact (Tracked.fresh h now).congr fun i => by simp [Received]
  · intro hist a s a' _ ih fires hall
    obtain ⟨hnow, hpast⟩ := List.forall_mem_cons.mp hall
    have hfollows := ih hpast
    have hnext : (a.feed c s.datagram).1 = a' := by simpa [system] using fires
    rw [← hnext]
    rcases hnow with hown | hother
    · intro now
      exact (hown.yields h hmax hfollows now).tracked
    · have hsame : (a.feed c s.datagram).1.flows.lookup key = a.flows.lookup key := by
        rcases Assembler.feedFrom_foreign hother.foreign le_rfl 0 a none with hsame | hgone
        · exact hsame
        · have hnone : a.flows.lookup key = none := by
            by_contra hflow
            exact hother.kept hflow hgone
          exact hgone.trans hnone.symm
      intro now
      refine (hfollows.congr_lookup hsame now).congr fun i => ?_
      rw [received_cons, hother.nothing]
      simp [pieces, covers_nil]

/-- **The ClientHello is found independently of the packetisation.** Every CRYPTO
frame of a plaintext is returned, in order. A connection sends slices of its
ClientHello in any order, overlapping or repeated, over any frames, packets and
datagrams, between datagrams of other connections. The datagram that completes the
message returns the name in it, and every other one returns nothing. -/
theorem hello_collected (h : IsHello hello) (hmax : hello.length ≤ maxHello)
    (hnew : a₀.flows.lookup key = none) :
    (∀ frames, cryptoFrames (encodeFrames frames) = frames.filterMap Frame.crypto?) ∧
    ∀ hist a, Run (system c) a₀ hist a →
      (∀ entry ∈ hist, Own c key hello entry.1 entry.2 ∨ Other c key entry.1 entry.2) →
      ∀ s, Own c key hello a s →
        (Completes hello.length (Received hist) (Received ((a, s) :: hist)) →
          (a.feed c s.datagram).2 = clientHelloSni hello) ∧
        (¬ Completes hello.length (Received hist) (Received ((a, s) :: hist)) →
          (a.feed c s.datagram).2 = none) := by
  refine ⟨cryptoFrames_encode, ?_⟩
  intro hist a run hall s hown
  have houtcome := hown.yields h hmax (follows_of_run h hmax hnew run hall) 0
  refine ⟨fun hnow => ?_, houtcome.otherwise⟩
  rw [houtcome.completes hnow, Option.or_none]

end Connection

/-! ## A sample connection -/

/-- The secrets and keys for the connection ID of the sample. -/
def sampleSecrets : List (String × Bytes) :=
  [("client in",
    [0xc0, 0x0c, 0xf1, 0x51, 0xca, 0x5b, 0xe0, 0x75, 0xed, 0x0e, 0xbf, 0xb5, 0xc8, 0x03, 0x23,
      0xc4, 0x2d, 0x6b, 0x7d, 0xb6, 0x78, 0x81, 0x28, 0x9a, 0xf4, 0x00, 0x8f, 0x1f, 0x6c, 0x35,
      0x7a, 0xea]),
   ("quic key",
    [0x1f, 0x36, 0x96, 0x13, 0xdd, 0x76, 0xd5, 0x46, 0x77, 0x30, 0xef, 0xcb, 0xe3, 0xb1, 0xa2,
      0x2d]),
   ("quic iv",
    [0xfa, 0x04, 0x4b, 0x2f, 0x42, 0xa3, 0xfd, 0x3b, 0x46, 0xfb, 0x25, 0x5c]),
   ("quic hp",
    [0x9f, 0x50, 0x44, 0x9e, 0x04, 0xa0, 0xe8, 0x10, 0x28, 0x3a, 0x1e, 0x99, 0x33, 0xad, 0xed,
      0xd2])]

/-- The end of the sample ClientHello, in the first packet of the client. -/
def sampleTail : List Frame :=
  [.ping, .crypto (.short 30) (.short 29) (sampleHello.drop 30) (by decide)]

/-- Its beginning, which overlaps the end, in the second one. -/
def sampleHead : List Frame :=
  [.crypto (.short 0) (.short 40) (sampleHello.take 40) (by decide), .padding]

/-- The first packet, sealed. -/
def sampleTailPacket : Bytes :=
    [0xca, 0x00, 0x00, 0x00, 0x01, 0x08, 0x83, 0x94, 0xc8, 0xf0, 0x3e, 0x51, 0x57, 0x08, 0x00,
      0x00, 0x40, 0x32, 0x60, 0x41, 0xb2, 0x0f, 0xc7, 0x9a, 0x7c, 0xa3, 0x27, 0xc3, 0xa6, 0x4f,
      0x95, 0xc6, 0x88, 0x75, 0xd0, 0x23, 0x11, 0x10, 0xfe, 0xa7, 0x50, 0x17, 0x1b, 0xb9, 0x76,
      0xb9, 0x6e, 0x9a, 0x25, 0x41, 0x9a, 0x6e, 0x72, 0xbd, 0x9e, 0xd2, 0x8e, 0xc9, 0x06, 0x0e,
      0x1f, 0x3f, 0xec, 0x44, 0xf4, 0x7d, 0x56, 0xd3]

/-- The second packet, sealed. -/
def sampleHeadPacket : Bytes :=
    [0xc7, 0x00, 0x00, 0x00, 0x01, 0x08, 0x83, 0x94, 0xc8, 0xf0, 0x3e, 0x51, 0x57, 0x08, 0x00,
      0x00, 0x40, 0x3d, 0x38, 0x6c, 0x3a, 0x83, 0xbd, 0x07, 0x87, 0xf5, 0xcd, 0xe2, 0xdd, 0x9c,
      0xa4, 0x32, 0x7c, 0xe6, 0x25, 0x63, 0x67, 0x8a, 0x8b, 0xa3, 0xf7, 0x60, 0x08, 0x84, 0xe0,
      0x24, 0x55, 0xe5, 0x5e, 0x04, 0xf2, 0x39, 0xdb, 0xc4, 0xfb, 0x4f, 0x54, 0xb7, 0x87, 0x81,
      0x3d, 0x24, 0x34, 0xbe, 0xd1, 0xce, 0x92, 0xb5, 0x49, 0x7e, 0xf4, 0xee, 0x5d, 0xc8, 0xb7,
      0x17, 0x24, 0xce, 0xd4]

/-- What the cryptography does on the sample packets. -/
def sampleCiphers : Ciphers where
  extract _ _ :=
    [0x7d, 0xb5, 0xdf, 0x06, 0xe7, 0xa6, 0x9e, 0x43, 0x24, 0x96, 0xad, 0xed, 0xb0, 0x08, 0x51,
      0x92, 0x35, 0x95, 0x22, 0x15, 0x96, 0xae, 0x2a, 0xe9, 0xfb, 0x81, 0x15, 0xc1, 0xe9, 0xed,
      0x0a, 0x44]
  expand _ info _ :=
    (sampleSecrets.find? fun entry => info[3]? = some (asciiBytes entry.1)).map Prod.snd
  encryptBlock _ block :=
    if block = (sampleTailPacket.drop 22).take 16 then
      [0x6a, 0x60, 0x2b, 0x12, 0x2b, 0xea, 0x83, 0xd2, 0xc4, 0xf2, 0x6f, 0x12, 0x66, 0xf4, 0xa8,
        0xb4]
    else
      [0x87, 0x39, 0xc5, 0xf8, 0x54, 0x69, 0xbf, 0x46, 0xbb, 0xf8, 0x68, 0xa7, 0xef, 0xe7, 0x5f,
        0x21]
  decrypt _ _ _ text tag :=
    if text ++ tag = sampleTailPacket.drop 19 then some (encodeFrames sampleTail)
    else if text ++ tag = sampleHeadPacket.drop 19 then some (encodeFrames sampleHead)
    else none

def sampleKey : Key :=
  (.ofOctets 192 0 2 1, 50000, [0x83, 0x94, 0xc8, 0xf0, 0x3e, 0x51, 0x57, 0x08])

def sampleSent (payload : Bytes) (frames : List Frame) : Sent where
  datagram :=
    { src := sampleKey.1, sport := sampleKey.2.1, payload := payload, clock := .still 0,
      order := .stored }
  plaintexts := [frames]

/-- The assembler after the first packet. -/
def sampleMiddle : Assembler :=
  (Assembler.feed sampleCiphers { flows := ∅ }
    (sampleSent sampleTailPacket sampleTail).datagram).1

/-- The header of a sample packet, which the datagram ends with. -/
def sampleHeader (stop : ℕ) : Header where
  version := versions.head (by decide)
  initial := true
  dcid := sampleKey.2.2
  pnOff := 18
  «end» := stop

theorem sampleTail_own : Own sampleCiphers sampleKey sampleHello { flows := ∅ }
    (sampleSent sampleTailPacket sampleTail) where
  carries := by
    apply Carries.initial (h := sampleHeader 68) (n := 0)
    · decide +kernel
    · rfl
    · rfl
    · decide +kernel
    · decide +kernel
    · exact .nothing (by decide +kernel)
  slices := by decide +kernel

theorem sampleHead_own : Own sampleCiphers sampleKey sampleHello sampleMiddle
    (sampleSent sampleHeadPacket sampleHead) where
  carries := by
    apply Carries.initial (h := sampleHeader 79) (n := 1)
    · decide +kernel
    · rfl
    · rfl
    · decide +kernel
    · decide +kernel
    · exact .nothing (by decide +kernel)
  slices := by decide +kernel

/-- The sample name is found when the end of the ClientHello arrives first. -/
theorem hello_collected_sample :
    (sampleMiddle.feed sampleCiphers (sampleSent sampleHeadPacket sampleHead).datagram).2 =
      some "a.b" := by
  have run : Run (system sampleCiphers) { flows := ∅ }
      [({ flows := ∅ }, sampleSent sampleTailPacket sampleTail)] sampleMiddle :=
    Run.start.next rfl
  have hhello : IsHello sampleHello := ⟨by decide, by decide, by decide⟩
  have hnew : ({ flows := ∅ } : Assembler).flows.lookup sampleKey = none := rfl
  have hresult := (hello_collected hhello (by decide) hnew).2 _ _ run
    (by simpa using .inl sampleTail_own) _ sampleHead_own
  rw [hresult.1]
  · decide
  · constructor
    · intro i hi
      have hstop : i < 59 := hi
      by_cases hhead : i < 40
      · exact ⟨_, List.mem_cons_self .., _, List.mem_cons_self .., Nat.zero_le i, hhead⟩
      · refine ⟨_, List.mem_cons_of_mem _ (List.mem_cons_self ..), _, List.mem_cons_self .., ?_,
          hstop⟩
        exact (by decide : 30 ≤ 40).trans (Nat.le_of_not_lt hhead)
    · intro hall
      obtain ⟨entry, hentry, piece, hpiece, hfrom, -⟩ := hall 0 (by decide)
      obtain rfl := List.mem_singleton.mp hentry
      obtain rfl := List.mem_singleton.mp hpiece
      revert hfrom
      decide

end SocketTrail.Pcap.Quic
