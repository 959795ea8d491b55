/-
# Feeding a datagram does not panic

The assembler of `Quic` with every index, slice, conversion, sum and difference made
visible. Whoever sends a datagram, and whatever it claims to hold, the loop over its
packets ends without a panic; and if none of its packets is authentic, it leaves no
trace.
-/

import SocketTrail.Pcap.Bounds
import SocketTrail.Pcap.HelloExec
import SocketTrail.Pcap.PacketExec
import SocketTrail.Pcap.QuicSeal

namespace SocketTrail.Pcap.Quic

open SocketTrail.Foundation SocketTrail.Net
open SocketTrail.Foundation.Exec (add_bind)

/-! ## Flows -/

namespace Flow

/-- Write the data of a frame that ends at `stop` into the buffer. -/
def writeExec (f : Flow) (off stop : ℕ) (data : Bytes) : Exec Flow :=
  if off < stop then do
    let (buf, filled) :=
      if f.buf.length < stop then (grow f.buf stop 0, grow f.filled stop false)
      else (f.buf, f.filled)
    let count ← Exec.sub stop off
    let part ← Exec.slice data 0 count
    let buf ← Exec.copy buf off stop part
    let filled ← Exec.copy filled off stop (List.replicate count true)
    .value { f with buf := buf, filled := filled }
  else .value f

/-- `place` with its slices, sums and differences checked. The end of the data
saturates. -/
def placeExec (f : Flow) (off : ℕ) (data : Bytes) : Exec Flow := do
  let stop := min (min (off + data.length) (2 ^ 64 - 1)) maxHello
  let f ← f.writeExec off stop data
  let ready ← Exec.advance f.filled (f.filled.length + 1) f.ready
  .value { f with ready := ready }

/-- Look at the message that the buffer begins with. -/
def searchExec (f : Flow) (head : Bytes) : Exec (Flow × Option String) := do
  let total ← helloTotalExec head
  let kind ← Exec.index head 0
  if kind ≠ 1 ∨ maxHello < total then .value (f.finish, none)
  else if f.ready < total then .value (f, none)
  else
    let message ← Exec.slice f.buf 0 total
    let sni ← (clientHelloSniExec message).attempt
    .value (f.finish, sni)

/-- `add` with its indices, slices, sums and differences checked. -/
def addExec (f : Flow) (off : ℕ) (data : Bytes) : Exec (Flow × Option String) := do
  let f ← f.placeExec off data
  match (getRange f.buf 0 4).filter fun _ => 4 ≤ f.ready with
  | none => .value (f, none)
  | some head => f.searchExec head

/-- `addFrames` with what a frame is taken in by checked. -/
def addFramesExec : Flow → Option String → List (ℕ × Bytes) → Exec (Flow × Option String)
  | f, sni, [] => .value (f, sni)
  | f, sni, (off, data) :: rest =>
      if f.done then .value (f, sni)
      else do
        let (f, found) ← f.addExec off data
        addFramesExec f (found.or sni) rest

/-- `receive` with the frames and what takes them in checked. -/
def receiveExec (f : Flow) (sni : Option String) (plain : Bytes) (pn : ℕ) :
    Exec (Flow × Option String) := do
  let frames ← cryptoFramesExec plain
  { f with largest := some (f.largest.elim pn (max pn)) }.addFramesExec sni frames

end Flow

/-! ## The assembler -/

/-- Open a packet if it is an Initial packet. -/
def openedExec (c : Ciphers) (d : Bytes) (h : Header) (largest : Option ℕ) :
    Exec (Option (Bytes × ℕ)) :=
  if h.initial then
    match Keys.new c h.version h.dcid with
    | none => .value none
    | some keys => (openPacketExec c keys d h largest).attempt
  else .value none

namespace Assembler

/-- `deliver` with what the flow receives checked. -/
def deliverExec (a : Assembler) (key : Key) (now : ℕ) (order : HashOrder Key)
    (sni : Option String) (plain : Bytes) (pn : ℕ) : Exec (Assembler × Option String) :=
  let flows := a.makeRoom key now order
  let flow := { (flows.lookup key).getD (.fresh now) with seen := now }
  if flow.done then .value ({ flows := flows.insert key flow }, sni)
  else do
    let (flow, sni) ← flow.receiveExec sni plain pn
    .value ({ flows := flows.insert key flow }, sni)

/-- `packet` with what opens it and takes it in checked. -/
def packetExec (c : Ciphers) (e : Datagram) (i : ℕ) (a : Assembler) (d : Bytes) (h : Header)
    (sni : Option String) : Exec (Assembler × Option String) := do
  let key : Key := (e.src, e.sport, h.dcid)
  let a := a.dropExpired key (e.clock.read (2 * i))
  match ← openedExec c d h ((a.flows.lookup key).bind Flow.largest) with
  | none => .value (a, sni)
  | some (plain, pn) => a.deliverExec key (e.clock.read (2 * i + 1)) e.order sni plain pn

/-- The loop over the packets of a datagram, for `fuel` rounds at most. -/
def feedLoop (c : Ciphers) (e : Datagram) :
    ℕ → ℕ → Assembler → Bytes → Option String → Exec (Assembler × Option String)
  | 0, _, _, _, _ => .panic
  | fuel + 1, i, a, d, sni => do
      match ← (headerExec d).attempt with
      | none => .value (a, sni)
      | some h =>
          let (a, sni) ← a.packetExec c e i d h sni
          let d ← Exec.slice d h.end d.length
          feedLoop c e fuel (i + 1) a d sni

/-- `feed` with its loops, indices, slices, conversions, sums and differences
checked. -/
def feedExec (c : Ciphers) (a : Assembler) (e : Datagram) : Exec (Assembler × Option String) :=
  a.feedLoop c e (e.payload.length + 1) 0 e.payload none

end Assembler

/-! ## A flow takes frames in without a panic -/

namespace Flow

variable {f : Flow}

/-- The data is written into a buffer that reaches to its end. -/
theorem writeExec_eq (h : Bounded f) (off : ℕ) (data : Bytes) :
    f.writeExec off (min (off + data.length) maxHello) data =
      .value (if off < min (off + data.length) maxHello then
        { f with
          buf := overwrite (grow f.buf (min (off + data.length) maxHello) 0) off
            (data.take (min (off + data.length) maxHello - off))
          filled := overwrite (grow f.filled (min (off + data.length) maxHello) false) off
            (List.replicate (min (off + data.length) maxHello - off) true) }
      else f) := by
  generalize hstop : min (off + data.length) maxHello = stop
  have hpart : (data.take (stop - off)).length = stop - off := List.length_take_of_le (by omega)
  unfold writeExec
  dsimp only
  rw [h.resize]
  split
  · rename_i hsome
    rw [Exec.sub_eq (by omega), Exec.value_bind, Exec.slice_zero (by omega), Exec.value_bind,
      Exec.copy_eq (by omega) (by rw [length_grow]; omega), Exec.value_bind,
      Exec.copy_eq (by rw [List.length_replicate]; omega) (by rw [length_grow]; omega)]
    rfl
  · rfl

theorem placeExec_eq (h : Bounded f) (off : ℕ) (data : Bytes) :
    f.placeExec off data = .value (f.place off data) := by
  have hmax : maxHello = 16 * 1024 := rfl
  have hstop : min (min (off + data.length) (2 ^ 64 - 1)) maxHello =
      min (off + data.length) maxHello := by omega
  have hshort := h.short
  have haligned := h.aligned
  rw [placeExec, place, hstop, writeExec_eq h, Exec.value_bind]
  generalize min (off + data.length) maxHello = stop at hstop
  rw [Exec.advance_eq _ (by omega)]
  · rfl
  · split
    · rw [length_overwrite, length_grow]
      omega
    · omega

/-- The first bytes of the buffer say how long the message is. -/
theorem searchExec_eq (h : Bounded f) (hready : f.ready ≤ f.buf.length) (hhead : 4 ≤ f.ready) :
    f.searchExec (f.buf.take 4) =
      .value (if f.buf.getD 0 0 ≠ 1 ∨ maxHello < helloTotal f.buf then (f.finish, none)
        else if f.ready < helloTotal f.buf then (f, none)
        else (f.finish, clientHelloSni (f.buf.take (helloTotal f.buf)))) := by
  have hmax : maxHello = 16 * 1024 := rfl
  have hshort := h.short
  have htake : (f.buf.take 4).length = 4 := List.length_take_of_le (by omega)
  have htotal : helloTotal (f.buf.take 4) = helloTotal f.buf := by
    rw [helloTotal, helloTotal, List.drop_take, List.take_take]
    rfl
  have hkind : (f.buf.take 4).getD 0 0 = f.buf.getD 0 0 := by
    rw [List.getD_eq_getElem?_getD, List.getElem?_take_of_lt (by decide),
      List.getD_eq_getElem?_getD]
  rw [searchExec, helloTotalExec_eq (by omega), Exec.value_bind, Exec.index_eq (by omega) 0,
    Exec.value_bind, hkind, htotal]
  generalize helloTotal f.buf = total
  split
  · rfl
  · split
    · rfl
    · have hmessage : (f.buf.take total).length < 2 ^ 63 := by
        rw [List.length_take]
        omega
      rw [Exec.slice_zero (by omega), Exec.value_bind, clientHelloSniExec_eq,
        Exec.attempt_of]
      rfl

theorem addExec_eq (h : Bounded f) (hopen : f.done = false) (off : ℕ) (data : Bytes) :
    f.addExec off data = .value (f.add off data) := by
  have hplaced := h.place off data
  have hdone : (f.place off data).done = false := (place_done f off data).trans hopen
  rw [addExec, Flow.add, placeExec_eq h, Exec.value_bind]
  generalize f.place off data = f at hplaced hdone
  have hready := hplaced.ready_le hdone
  dsimp only
  by_cases hhead : 4 ≤ f.ready
  · have hrange : (getRange f.buf 0 4).filter (fun _ => 4 ≤ f.ready) = some (f.buf.take 4) := by
      rw [getRange, if_pos ⟨by decide, by omega⟩]
      exact Option.filter_some_pos (by simpa using hhead)
    rw [hrange, if_neg (by omega)]
    exact searchExec_eq hplaced hready hhead
  · have hrange : (getRange f.buf 0 4).filter (fun _ => 4 ≤ f.ready) = none := by
      cases getRange f.buf 0 4 with
      | none => rfl
      | some head => exact Option.filter_some_neg (by simpa using hhead)
    rw [hrange, if_pos (by omega)]

theorem addFramesExec_eq (h : Bounded f) (sni : Option String) (frames : List (ℕ × Bytes)) :
    f.addFramesExec sni frames = .value (f.addFrames sni frames) := by
  induction frames generalizing f sni with
  | nil => rfl
  | cons frame rest ih =>
      rw [addFramesExec, addFrames]
      split
      · rfl
      · rename_i hopen
        rw [addExec_eq h (by simpa using hopen), Exec.value_bind]
        exact ih (h.add frame.1 frame.2) _

theorem receiveExec_eq (h : Bounded f) (sni : Option String) {plain : Bytes}
    (hplain : plain.length < 2 ^ 63) (pn : ℕ) :
    f.receiveExec sni plain pn = .value (f.receive sni plain pn) := by
  rw [receiveExec, cryptoFramesExec_eq hplain]
  exact addFramesExec_eq (h.relabel f.seen _) sni _

/-- Data changes no packet number. -/
theorem add_largest (f : Flow) (off : ℕ) (data : Bytes) :
    (f.add off data).1.largest = f.largest := by
  have hplaced : (f.place off data).largest = f.largest := by
    unfold place
    dsimp only
    split <;> rfl
  unfold add
  dsimp only
  split
  · exact hplaced
  · split
    · exact hplaced
    · split <;> exact hplaced

theorem addFrames_largest (f : Flow) (sni : Option String) (frames : List (ℕ × Bytes)) :
    (f.addFrames sni frames).1.largest = f.largest := by
  induction frames generalizing f sni with
  | nil => rfl
  | cons frame rest ih =>
      rw [addFrames]
      split
      · rfl
      · rw [ih, add_largest]

end Flow

/-! ## Packet numbers -/

namespace Assembler

/-- The packet numbers of all flows are smaller than `n`. -/
def Numbered (n : ℕ) (a : Assembler) : Prop :=
  KeyedMap.Every (fun f => ∀ pn ∈ f.largest, pn < n) a.flows

variable {a : Assembler} {n m : ℕ}

theorem Numbered.mono (h : Numbered n a) (hle : n ≤ m) : Numbered m a :=
  fun key f hf pn hpn => (h key f hf pn hpn).trans_le hle

/-- A packet leaves its own number, if any. -/
theorem Numbered.deliver (h : Numbered n a) {pn : ℕ} (hpn : pn < n) (key : Key) (now : ℕ)
    (order : HashOrder Key) (sni : Option String) (plain : Bytes) :
    Numbered n (a.deliver key now order sni plain pn).1 := by
  have hroom := makeRoom_every h key now order
  have hfresh : ∀ pn ∈ (Flow.fresh now).largest, pn < n := fun _ hnone => by contradiction
  have hflow := hroom.getD hfresh key
  unfold Assembler.deliver
  dsimp only
  split
  · exact hroom.insert hflow
  · refine hroom.insert ?_
    intro k hk
    rw [Flow.receive, Flow.addFrames_largest] at hk
    obtain rfl := Option.some.inj hk
    dsimp only
    cases hlargest : (((a.makeRoom key now order).lookup key).getD (.fresh now)).largest with
    | none => exact hpn
    | some old => exact Nat.max_lt.mpr ⟨hpn, hflow old hlargest⟩

/-- The number by which the numbers grow with a packet at most. -/
def stride : ℕ := 2 ^ 31 + 1

end Assembler

/-! ## The loop over the packets -/

/-- The text and the number of a packet, if it is an authentic Initial packet. -/
def opened (c : Ciphers) (d : Bytes) (h : Header) (largest : Option ℕ) : Option (Bytes × ℕ) :=
  if h.initial then (Keys.new c h.version h.dcid).bind fun keys => openPacket c keys d h largest
  else none

theorem Keys.iv_length {c : Ciphers} (hc : c.Sized) {v : Version} {dcid : Bytes} {keys : Keys}
    (h : Keys.new c v dcid = some keys) : keys.iv.length = 12 := by
  unfold Keys.new at h
  obtain ⟨secret, -, h⟩ := Option.bind_eq_some_iff.mp h
  obtain ⟨key, -, h⟩ := Option.bind_eq_some_iff.mp h
  obtain ⟨iv, hiv, h⟩ := Option.bind_eq_some_iff.mp h
  obtain ⟨hp, -, h⟩ := Option.bind_eq_some_iff.mp h
  obtain rfl := Option.some.inj h
  exact hc.expand _ _ _ _ hiv

theorem openedExec_eq {c : Ciphers} (hc : c.Sized) {d : Bytes} (hd : d.length < 2 ^ 63) {h : Header}
    (hheader : header d = some h) {largest : Option ℕ} (hlargest : ∀ n ∈ largest, n < maxNumber) :
    openedExec c d h largest = .value (opened c d h largest) := by
  obtain ⟨-, hoff, hend⟩ := header_bounds hheader
  unfold openedExec opened
  split
  · cases hkeys : Keys.new c h.version h.dcid with
    | none => rfl
    | some keys =>
        have hiv := Keys.iv_length hc hkeys
        dsimp only
        rw [openPacketExec_eq hc (by omega) hd hend hoff hlargest, Exec.attempt_of]
        rfl
  · rfl

theorem opened_bounds {c : Ciphers} (hc : c.Sized) {d : Bytes} {h : Header} {largest : Option ℕ}
    {plain : Bytes} {pn : ℕ} (hopen : opened c d h largest = some (plain, pn)) :
    plain.length ≤ d.length ∧ pn ≤ max (2 ^ 62) (largest.elim 0 (· + 1) + 2 ^ 31) := by
  unfold opened at hopen
  split at hopen
  · obtain ⟨keys, -, hopen⟩ := Option.bind_eq_some_iff.mp hopen
    exact openPacket_bounds hc hopen
  · contradiction

namespace Assembler

variable {a : Assembler} {n : ℕ}

/-- The assembler when the `i`-th packet of a datagram is looked at. -/
def reached (e : Datagram) (i : ℕ) (a : Assembler) (h : Header) : Assembler :=
  a.dropExpired (e.src, e.sport, h.dcid) (e.clock.read (2 * i))

/-- The largest number of the connection of a packet. -/
def largestOf (e : Datagram) (i : ℕ) (a : Assembler) (h : Header) : Option ℕ :=
  ((a.reached e i h).flows.lookup (e.src, e.sport, h.dcid)).bind Flow.largest

/-- A packet is opened, and delivered if it is authentic. -/
theorem packet_eq (c : Ciphers) (e : Datagram) (i : ℕ) (a : Assembler) (d : Bytes) (h : Header)
    (sni : Option String) :
    a.packet c e i d h sni =
      match opened c d h (a.largestOf e i h) with
      | none => (a.reached e i h, sni)
      | some (plain, pn) =>
          (a.reached e i h).deliver (e.src, e.sport, h.dcid) (e.clock.read (2 * i + 1)) e.order sni
            plain pn := rfl

theorem Numbered.reached (h : Numbered n a) (e : Datagram) (i : ℕ) (hd : Header) :
    Numbered n (a.reached e i hd) :=
  dropExpired_every h _ _

theorem Numbered.largestOf (h : Numbered n a) (e : Datagram) (i : ℕ) (hd : Header) :
    ∀ pn ∈ a.largestOf e i hd, pn < n := by
  intro pn hpn
  obtain ⟨f, hf, hlargest⟩ := Option.bind_eq_some_iff.mp hpn
  exact h.reached e i hd _ f hf pn hlargest

/-- The numbers grow little with a packet. -/
theorem Numbered.packet {c : Ciphers} (hc : c.Sized) (h : Numbered n a) (hn : 2 ^ 62 ≤ n)
    (e : Datagram) (i : ℕ) (d : Bytes) (hd : Header) (sni : Option String) :
    Numbered (n + stride) (a.packet c e i d hd sni).1 := by
  have hreached := (h.reached e i hd).mono (Nat.le_add_right n stride)
  have hlargest := h.largestOf e i hd
  rw [packet_eq]
  cases hopen : opened c d hd (a.largestOf e i hd) with
  | none => exact hreached
  | some read =>
      obtain ⟨plain, pn⟩ := read
      have hpn := (opened_bounds hc hopen).2
      have hnext : (a.largestOf e i hd).elim 0 (· + 1) ≤ n := by
        cases hold : a.largestOf e i hd with
        | none => exact Nat.zero_le _
        | some old => exact hlargest old hold
      have hstride : stride = 2 ^ 31 + 1 := rfl
      exact hreached.deliver (by omega) _ _ _ _ _

theorem deliverExec_eq (h : Bounded a) (key : Key) (now : ℕ) (order : HashOrder Key)
    (sni : Option String) {plain : Bytes} (hplain : plain.length < 2 ^ 63) (pn : ℕ) :
    a.deliverExec key now order sni plain pn = .value (a.deliver key now order sni plain pn) := by
  have hflow := (makeRoom_every h.flows key now order).getD (Flow.fresh_bounded now) key
  unfold deliverExec Assembler.deliver
  dsimp only
  split
  · rfl
  · rw [Flow.receiveExec_eq (hflow.relabel now _) sni hplain]
    rfl

theorem packetExec_eq {c : Ciphers} (hc : c.Sized) (h : Bounded a) (hnumbers : Numbered maxNumber a)
    {d : Bytes} (hd : d.length < 2 ^ 63) {hdr : Header} (hheader : header d = some hdr)
    (e : Datagram) (i : ℕ) (sni : Option String) :
    a.packetExec c e i d hdr sni = .value (a.packet c e i d hdr sni) := by
  have hreached : Bounded (a.reached e i hdr) := h.dropExpired _ _
  have hopened := openedExec_eq hc hd hheader (hnumbers.largestOf e i hdr)
  unfold packetExec
  dsimp only
  rw [← reached, ← largestOf, hopened, Exec.value_bind, packet_eq]
  cases hopen : opened c d hdr (a.largestOf e i hdr) with
  | none => rfl
  | some read =>
      obtain ⟨plain, pn⟩ := read
      have hplain := (opened_bounds hc hopen).1
      exact deliverExec_eq hreached _ _ _ _ (by omega) pn

/-- The loop ends: every packet takes at least one byte. -/
theorem feedLoop_eq {c : Ciphers} (hc : c.Sized) (e : Datagram) {fuel i : ℕ} (h : Bounded a)
    (hnumbers : Numbered (2 ^ 62 + i * stride) a) {d : Bytes} (hd : d.length ≤ fuel)
    (hfew : i + fuel < 2 ^ 32) (sni : Option String) :
    a.feedLoop c e (fuel + 1) i d sni = .value (a.feedFrom c e fuel i d sni) := by
  induction fuel generalizing i a d sni with
  | zero =>
      obtain rfl := List.length_eq_zero_iff.mp (Nat.le_zero.mp hd)
      rfl
  | succ fuel ih =>
      rw [feedLoop, feedFrom, headerExec_eq (by omega), Exec.attempt_of, Exec.value_bind]
      cases hheader : header d with
      | none => rfl
      | some hdr =>
          obtain ⟨hpos, -, hend⟩ := header_bounds hheader
          have hsum : (i + 1) * stride = i * stride + stride := Nat.succ_mul i stride
          have hmax : maxNumber = 2 ^ 64 - 2 ^ 34 := rfl
          have hstride : stride = 2 ^ 31 + 1 := rfl
          have hfar : i * stride ≤ 2 ^ 32 * stride := Nat.mul_le_mul_right _ (by omega)
          have hsmall : Numbered maxNumber a := hnumbers.mono (by omega)
          have hpacket := packetExec_eq hc h hsmall (by omega) hheader e i sni
          have hnext := hnumbers.packet hc (Nat.le_add_right _ _) e i d hdr sni
          have hbounded := h.packet c e i d hdr sni
          have hrest : (d.drop hdr.end).length ≤ fuel := by
            rw [List.length_drop]
            omega
          dsimp only
          rw [hpacket, Exec.value_bind, Exec.slice_end hend, Exec.value_bind]
          refine ih hbounded ?_ hrest (by omega) _
          rwa [hsum, ← Nat.add_assoc]

/-- A datagram is shorter than 2^32 bytes, even as a jumbogram. -/
theorem feedExec_eq {c : Ciphers} (hc : c.Sized) (h : Bounded a) (hnumbers : Numbered (2 ^ 62) a)
    {e : Datagram} (he : e.payload.length < 2 ^ 32) :
    a.feedExec c e = .value (a.feed c e) := by
  refine feedLoop_eq hc e h ?_ le_rfl (by omega) none
  rwa [Nat.zero_mul, Nat.add_zero]

/-! ## Datagrams without an authentic packet -/

/-- None of the packets of a datagram from the `i`-th on, which `d` begins with, is
opened by the keys that follow from its own connection ID. -/
inductive NoneOpens (c : Ciphers) (e : Datagram) : ℕ → Assembler → Bytes → Prop
  | nothing {i : ℕ} {a : Assembler} {d : Bytes} (h : header d = none) : NoneOpens c e i a d
  | packet {i : ℕ} {a : Assembler} {d : Bytes} {h : Header} (found : header d = some h)
      (foreign : h.initial = true → ∀ keys, Keys.new c h.version h.dcid = some keys →
        openPacket c keys d h (a.largestOf e i h) = none)
      (rest : NoneOpens c e (i + 1) (a.reached e i h) (d.drop h.end)) : NoneOpens c e i a d

/-- Every flow is left as it is, unless it expired; none is added. -/
def Kept (e : Datagram) (a a' : Assembler) : Prop :=
  ∀ key, a'.flows.lookup key = a.flows.lookup key ∨
    (a'.flows.lookup key = none ∧ ∃ i, a.expired key (e.clock.read i) = true)

theorem Kept.refl (e : Datagram) (a : Assembler) : Kept e a a := fun _ => .inl rfl

theorem Kept.trans {e : Datagram} {a₁ a₂ a₃ : Assembler} (h : Kept e a₁ a₂) (h' : Kept e a₂ a₃) :
    Kept e a₁ a₃ := by
  intro key
  rcases h' key with hsame | ⟨hgone, i, hexpired⟩
  · rw [hsame]
    exact h key
  · rcases h key with hsame | ⟨hgone', hexpired'⟩
    · refine .inr ⟨hgone, i, ?_⟩
      rwa [expired, hsame] at hexpired
    · exact .inr ⟨hgone, hexpired'⟩

/-- Looking at a packet takes away its flow at most, if that expired. -/
theorem kept_reached (e : Datagram) (i : ℕ) (a : Assembler) (h : Header) :
    Kept e a (a.reached e i h) := by
  intro key
  unfold reached dropExpired
  split
  · rename_i hexpired
    by_cases hkey : key = (e.src, e.sport, h.dcid)
    · subst hkey
      exact .inr ⟨AList.lookup_erase _ _, _, hexpired⟩
    · exact .inl (AList.lookup_erase_ne hkey)
  · exact .inl rfl

/-- A packet that is not opened is not delivered. -/
theorem packet_foreign {c : Ciphers} {e : Datagram} {i : ℕ} {d : Bytes} {h : Header}
    (hforeign : h.initial = true → ∀ keys, Keys.new c h.version h.dcid = some keys →
      openPacket c keys d h (a.largestOf e i h) = none) (sni : Option String) :
    a.packet c e i d h sni = (a.reached e i h, sni) := by
  have hclosed : opened c d h (a.largestOf e i h) = none := by
    unfold opened
    split
    · rename_i hinitial
      cases hkeys : Keys.new c h.version h.dcid with
      | none => rfl
      | some keys => exact hforeign hinitial keys hkeys
    · rfl
  rw [packet_eq, hclosed]

theorem feedFrom_noneOpens {c : Ciphers} {e : Datagram} {i : ℕ} {d : Bytes}
    (h : NoneOpens c e i a d) (fuel : ℕ) (sni : Option String) :
    (a.feedFrom c e fuel i d sni).2 = sni ∧ Kept e a (a.feedFrom c e fuel i d sni).1 := by
  induction h generalizing fuel sni with
  | nothing hnone =>
      cases fuel with
      | zero => exact ⟨rfl, .refl e _⟩
      | succ fuel =>
          rw [feedFrom, hnone]
          exact ⟨rfl, .refl e _⟩
  | packet hfound hforeign _ ih =>
      cases fuel with
      | zero => exact ⟨rfl, .refl e _⟩
      | succ fuel =>
          rw [feedFrom, hfound]
          dsimp only
          rw [packet_foreign hforeign]
          obtain ⟨hname, hkept⟩ := ih fuel sni
          exact ⟨hname, (kept_reached e _ _ _).trans hkept⟩

/-! ## Any datagram -/

/-- Whatever datagram an assembler is fed that was fed any datagrams before: every
packet found takes a part of it that is not empty; while the packet numbers stored are
those that QUIC has, the loop over the packets ends without a panic; and if no packet
is authentic, no name is found and no flow changes, but for those that expired. -/
theorem datagram_harmless {c : Ciphers} (hc : c.Sized) {hist : History Assembler Datagram}
    (run : Run (system c) { flows := ∅ } hist a) (e : Datagram) :
    (∀ d h, header d = some h → 0 < h.end ∧ h.end ≤ d.length) ∧
    (e.payload.length < 2 ^ 32 → Numbered (2 ^ 62) a →
      a.feedExec c e = .value (a.feed c e)) ∧
    (NoneOpens c e 0 a e.payload →
      (a.feed c e).2 = none ∧ Kept e a (a.feed c e).1) := by
  refine ⟨?_, ?_, ?_⟩
  · intro d h hheader
    obtain ⟨hpos, -, hend⟩ := header_bounds hheader
    exact ⟨hpos, hend⟩
  · intro he hnumbers
    exact feedExec_eq hc (bounded_of_run run) hnumbers he
  · intro hforeign
    exact feedFrom_noneOpens hforeign _ none

end Assembler

/-! ## A sample datagram -/

/-- The cryptography of the sample connection, which refuses all other packets. -/
def strictCiphers : Ciphers where
  extract := sampleCiphers.extract
  expand hk info len := (sampleCiphers.expand hk info len).filter fun out => out.length = len
  encryptBlock := sampleCiphers.encryptBlock
  decrypt key nonce ad text tag :=
    if key = sampleKeys.key ∧ nonce = sampleKeys.iv ∧ ad = sampleInitial.associated ∧
        (text, tag) = sampleText then some sampleInitial.plain
    else none

theorem strictCiphers_sized : strictCiphers.Sized where
  expand hk info len out h := by
    obtain ⟨_, hlength⟩ := Option.filter_eq_some_iff.mp h
    exact of_decide_eq_true hlength
  block key block := sealingCiphers_seals.block key block
  decrypt key nonce ad text tag plain h := by
    obtain ⟨⟨-, -, -, hpair⟩, hplain⟩ := Option.ite_none_right_eq_some.mp h
    obtain rfl := Option.some.inj hplain
    obtain rfl := congrArg Prod.fst hpair
    decide

/-- The first packet of the sample connection, received. -/
def sampleFirst : Assembler :=
  (Assembler.feed strictCiphers { flows := ∅ }
    (sampleSent sampleTailPacket sampleTail).datagram).1

/-- The same packet with a byte changed, in front of the second one, which is changed
as well. -/
def sampleForged : Datagram :=
  (sampleSent (sampleTailPacket.set 40 0 ++ sampleHeadPacket.set 40 0) []).datagram

/-- The forged datagram leaves the sample connection as it is. -/
theorem datagram_harmless_sample :
    sampleFirst.flows.size = 1 ∧
      sampleFirst.feedExec strictCiphers sampleForged =
        .value (sampleFirst.feed strictCiphers sampleForged) ∧
      (sampleFirst.feed strictCiphers sampleForged).2 = none ∧
      Assembler.Kept sampleForged sampleFirst (sampleFirst.feed strictCiphers sampleForged).1 := by
  have run : Run (Assembler.system strictCiphers) { flows := ∅ }
      [({ flows := ∅ }, (sampleSent sampleTailPacket sampleTail).datagram)] sampleFirst :=
    Run.start.next rfl
  have hnumbers : Assembler.Numbered (2 ^ 62) sampleFirst := by
    apply KeyedMap.every_of_entries
    decide +kernel
  have hforeign : Assembler.NoneOpens strictCiphers sampleForged 0 sampleFirst
      sampleForged.payload := by
    have hkeys (keys : Keys) (h : Keys.new strictCiphers (versions.head (by decide))
        sampleKey.2.2 = some keys) : keys = sampleKeys := by
      have hknown : Keys.new strictCiphers (versions.head (by decide)) sampleKey.2.2 =
          some sampleKeys := by decide +kernel
      exact Option.some.inj (h.symm.trans hknown)
    refine .packet (h := sampleHeader 68) (by decide +kernel) ?_ ?_
    · intro _ keys hnew
      obtain rfl := hkeys keys hnew
      decide +kernel
    · refine .packet (h := sampleHeader 79) (by decide +kernel) ?_ (.nothing (by decide +kernel))
      intro _ keys hnew
      obtain rfl := hkeys keys hnew
      decide +kernel
  obtain ⟨-, hends, hkept⟩ := Assembler.datagram_harmless strictCiphers_sized run sampleForged
  exact ⟨by decide +kernel, hends (by decide +kernel) hnumbers, hkept hforeign⟩

end SocketTrail.Pcap.Quic
