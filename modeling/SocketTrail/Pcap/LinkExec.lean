/-
# Parsing a frame does not panic

The readers of `Live` with every index, slice, conversion, sum and product made
visible. Whatever frames a capture has seen, the next one is parsed without a panic:
it is accepted or refused, and the loops over VLAN tags, extension headers, names,
records, packets and extensions end.
-/

import SocketTrail.Pcap.DnsExec
import SocketTrail.Pcap.IpHeader
import SocketTrail.Pcap.QuicExec
import SocketTrail.Pcap.TlsExec

namespace SocketTrail.Pcap

open SocketTrail.Foundation SocketTrail.Net
open SocketTrail.Foundation.Exec (add add_bind bind_of early_ite_of ite_of)

/-! ## Headers -/

/-- `Transport.segment` with its products and slices checked. -/
def Transport.segmentExec (t : Transport) : Exec Segment :=
  if t.proto = 6 then do
    let first ← .of t.data[12]?
    let off ← Exec.mul 64 (first.toNat / 16) 4
    if off < 20 ∨ t.data.length < off then .early
    else
      let sport ← be16Exec t.data 0
      let dport ← be16Exec t.data 2
      .value
        { proto := .tcp, src := t.src, sport := UInt16.ofNat sport, dst := t.dst,
          dport := UInt16.ofNat dport, bytes := t.bytes,
          payload := (getFrom t.data off).getD [] }
  else if t.proto = 17 then do
    let len ← be16Exec t.data 4
    if len < 8 ∨ t.data.length < 8 then .early
    else
      let sport ← be16Exec t.data 0
      let dport ← be16Exec t.data 2
      let len ← be16Exec t.data 4
      let payload ← Exec.slice t.data 8 (min len t.data.length)
      .value
        { proto := .udp, src := t.src, sport := UInt16.ofNat sport, dst := t.dst,
          dport := UInt16.ofNat dport, bytes := t.bytes, payload := payload }
  else .early

/-- `ipv4At` with its indices checked. -/
def ipv4AtExec (d : Bytes) (o : ℕ) : Exec IpAddr := do
  let a ← Exec.index d o
  let b ← Exec.index d (o + 1)
  let c ← Exec.index d (o + 2)
  let e ← Exec.index d (o + 3)
  .value (.ofOctets a b c e)

/-- `ipv4Transport` with its indices, products and slices checked. -/
def ipv4Exec (d : Bytes) : Exec Transport := do
  let first := (← .of d[0]?).toNat
  if first / 16 ≠ 4 ∨ (← be16Exec d 6) % 8192 ≠ 0 then .early
  else
    let ihl ← Exec.mul 64 (first % 16) 4
    if ihl < 20 ∨ d.length < ihl then .early
    else
      let total ← be16Exec d 2
      if total < ihl then .early
      else
        let d ← Exec.slice d 0 (min d.length total)
        let proto := (← .of d[9]?).toNat
        let src ← ipv4AtExec d 12
        let dst ← ipv4AtExec d 16
        let data ← .of (getFrom d ihl)
        .value { proto := proto, src := src, dst := dst, bytes := total, data := data }

/-- The IPv6 address from position `p` up to `q`. -/
def ipv6AtExec (d : Bytes) (p q : ℕ) : Exec IpAddr := do
  let bytes ← Exec.slice d p q
  let octets ← Exec.copy (List.replicate 16 0) 0 16 bytes
  .value (.ofBytes octets)

/-- The size of an extension header. -/
def extensionExec (d : Bytes) (next off : ℕ) : Exec ℕ :=
  if next = 0 ∨ next = 43 ∨ next = 60 then do
    let o ← add 64 off 1
    let n ← .of d[o]?
    let n ← add 64 n.toNat 1
    Exec.mul 64 n 8
  else if next = 51 then do
    let o ← add 64 off 1
    let n ← .of d[o]?
    let n ← add 64 n.toNat 2
    Exec.mul 64 n 4
  else if next = 44 then do
    let o ← add 64 off 2
    let word ← be16Exec d o
    if word / 8 ≠ 0 then .early else .value 8
  else .early

/-- `ipv6Payload` with its sums and products checked. -/
def ipv6PayloadExec (src dst : IpAddr) (payloadLen : ℕ) (d : Bytes) : ℕ → ℕ → ℕ → Exec Transport
  | 0, _, _ => .early
  | fuel + 1, next, off =>
      if next = 6 ∨ next = 17 then do
        let total ← add 32 payloadLen 40
        let data ← .of (getFrom d off)
        .value { proto := next, src := src, dst := dst, bytes := total, data := data }
      else do
        let size ← extensionExec d next off
        let next ← .of d[off]?
        let off ← .of (checkedAdd 64 off size)
        if d.length < off then .early
        else ipv6PayloadExec src dst payloadLen d fuel next.toNat off

/-- `ipv6Transport` with its indices, slices and sums checked. -/
def ipv6Exec (d : Bytes) : Exec Transport :=
  if d.length < 40 then .early
  else do
    let first ← Exec.index d 0
    if first.toNat / 16 ≠ 6 then .early
    else
      let payloadLen ← be16Exec d 4
      let next ← .of d[6]?
      let whole ← add 64 40 payloadLen
      let d ← Exec.slice d 0 (min d.length whole)
      let src ← ipv6AtExec d 8 24
      let dst ← ipv6AtExec d 24 40
      ipv6PayloadExec src dst payloadLen d 8 next.toNat 40

/-- `skipVlan` with its sums checked. -/
def skipVlanExec (d : Bytes) : ℕ → ℕ → ℕ → Exec (ℕ × ℕ)
  | 0, ethertype, off => .value (ethertype, off)
  | fuel + 1, ethertype, off =>
      if ethertype = 0x8100 ∨ ethertype = 0x88a8 then do
        let o ← add 64 off 2
        let ethertype ← be16Exec d o
        let off ← add 64 off 4
        skipVlanExec d fuel ethertype off
      else .value (ethertype, off)

/-- The type of what a link header carries, and where that starts. -/
def linkHeaderExec (linktype : UInt16) (d : Bytes) : Exec (ℕ × ℕ) :=
  if linktype = 1 then do
    let ethertype ← be16Exec d 12
    .value (ethertype, 14)
  else if linktype = 113 then do
    let ethertype ← be16Exec d 14
    .value (ethertype, 16)
  else if linktype = 276 then do
    let ethertype ← be16Exec d 0
    .value (ethertype, 20)
  else if linktype = 101 ∨ linktype = 12 ∨ linktype = 14 then do
    let first ← .of d[0]?
    .value (if first.toNat / 16 = 6 then 0x86DD else 0x0800, 0)
  else .early

/-- `linkTransport` with its indices, slices, sums and products checked. -/
def linkExec (linktype : UInt16) (d : Bytes) : Exec Transport := do
  let (ethertype, off) ← linkHeaderExec linktype d
  let (ethertype, off) ← skipVlanExec d 2 ethertype off
  if ethertype = 0x0800 then
    let d ← .of (getFrom d off)
    ipv4Exec d
  else if ethertype = 0x86DD then
    let d ← .of (getFrom d off)
    ipv6Exec d
  else .early

/-! ## Names -/

/-- `Segment.dnsMessage` with its length read under a check. -/
def Segment.dnsMessageExec (g : Segment) : Exec (Option Bytes) :=
  match g.proto with
  | .tcp =>
      match getFrom g.payload 2 with
      | none => .value none
      | some m => do
          let n ← (be16Exec g.payload 0).attempt
          .value (if n = some m.length then some m else none)
  | .udp => .value (some g.payload)

/-- `Segment.dnsAddrs` with its message read under checks. -/
def Segment.dnsAddrsExec (g : Segment) : Exec (List (String × IpAddr × ℕ)) :=
  if g.sport = 53 ∨ g.dport = 53 ∨ g.sport = 5353 ∨ g.dport = 5353 then do
    let m ← g.dnsMessageExec
    match m.filter fun m => !m.isEmpty with
    | none => .value []
    | some m => parseDnsExec m
  else .value []

/-- `Transport.feed` with its slices and conversions checked. -/
def Transport.feedExec (t : Transport) (s : Surroundings) (g : Segment) : Exec Tls.Feed := do
  let bytes ← .of (getRange t.data 4 8)
  let bytes ← .of (toArray 4 bytes)
  let flags ← .of t.data[13]?
  .value
    { key := (g.src, g.sport, g.dst, g.dport), sequence := UInt32.ofNat (beNat bytes)
      flags := flags, data := g.payload, clock := s.clock, order := s.tcpOrder }

/-- `Transport.readSni` with the parsers and assemblers that it calls checked. -/
def Transport.readSniExec (t : Transport) (c : Quic.Ciphers) (s : Surroundings) (l : Lent)
    (g : Segment) : Exec (Option String × Lent) :=
  match g.proto with
  | .tcp =>
      match l.tcp with
      | none => do
          let sni ← (parseSniExec g.payload).attempt
          .value (sni, l)
      | some a => do
          let e ← t.feedExec s g
          let (a, sni) ← a.feedExec e
          .value (sni, { l with tcp := some a })
  | .udp =>
      match l.quic with
      | none => .value (none, l)
      | some a =>
          if g.payload[0]?.any fun b => b &&& 0x80 ≠ 0 then do
            let (a, sni) ← a.feedExec c (g.datagram s)
            .value (sni, { l with quic := some a })
          else .value (none, l)

/-- `parseL4State` with what it calls checked. -/
def parseL4StateExec (c : Quic.Ciphers) (s : Surroundings) (l : Lent) (t : Transport) :
    Exec (Packet × Lent) := do
  let g ← t.segmentExec
  let (sni, l) ← t.readSniExec c s l g
  let addrs ← g.dnsAddrsExec
  .value (g.packet sni addrs, l)

/-! ## Frames -/

/-- `parseLinkState` with what it calls checked. -/
def parseLinkStateExec (c : Quic.Ciphers) (s : Surroundings) (linktype : UInt16) (d : Bytes)
    (l : Lent) : Exec (Packet × Lent) := do
  let t ← linkExec linktype d
  parseL4StateExec c s l t

/-- `parseLinkPacket` with what it calls checked. -/
def parseLinkPacketExec (c : Quic.Ciphers) (s : Surroundings) (linktype : UInt16) (d : Bytes) :
    Exec (Option Packet) := do
  let found ← (parseLinkStateExec c s linktype d { quic := none, tcp := none }).attempt
  .value (found.map Prod.fst)

/-- `parseLinkLive` with what it calls checked. -/
def parseLinkLiveExec (c : Quic.Ciphers) (s : Surroundings) (linktype : UInt16) (d : Bytes)
    (p : Parsers) : Exec (Option Packet × Parsers) := do
  let l : Lent := { quic := some p.quic, tcp := some p.tcp }
  match ← (parseLinkStateExec c s linktype d l).attempt with
  | none => .value (none, p)
  | some (pkt, l) =>
      .value (some pkt, { quic := l.quic.getD p.quic, tcp := l.tcp.getD p.tcp })

/-! ## Headers are read without a panic -/

theorem Transport.segmentExec_eq {t : Transport} (ht : t.data.length < 2 ^ 63) :
    t.segmentExec = .of t.segment := by
  rw [segmentExec, segment, parseL4]
  apply ite_of
  · intro _
    apply bind_of
    intro first _
    have hfirst := first.toNat_lt
    rw [Exec.mul_eq (by omega), Exec.value_bind]
    dsimp only
    apply early_ite_of
    intro hoff
    rw [be16Exec_eq ht, be16Exec_eq ht]
    apply bind_of
    intro sport _
    apply bind_of
    intro dport _
    rw [getFrom, if_pos (by omega)]
    rfl
  · intro _
    apply ite_of
    · intro _
      rw [be16Exec_eq ht]
      apply bind_of
      intro len hlen
      apply early_ite_of
      intro hshort
      rw [be16Exec_eq ht, be16Exec_eq ht, hlen]
      apply bind_of
      intro sport _
      apply bind_of
      intro dport _
      rw [Exec.of_some, Exec.value_bind, Exec.slice_eq (by omega) (by omega), List.drop_take]
      rfl
    · exact fun _ => rfl

theorem ipv4AtExec_eq {d : Bytes} {o : ℕ} (h : o + 3 < d.length) :
    ipv4AtExec d o = .value (ipv4At d o) := by
  rw [ipv4AtExec, Exec.index_eq (by omega) 0, Exec.value_bind, Exec.index_eq (by omega) 0,
    Exec.value_bind, Exec.index_eq (by omega) 0, Exec.value_bind, Exec.index_eq (by omega) 0]
  rfl

theorem ipv6AtExec_eq {d : Bytes} {p : ℕ} (h : p + 16 ≤ d.length) :
    ipv6AtExec d p (p + 16) = .value (.ofBytes ((d.drop p).take 16)) := by
  have hlength : ((d.drop p).take 16).length = 16 := by
    rw [List.length_take, List.length_drop]
    omega
  rw [ipv6AtExec, Exec.slice_eq (by omega) h, Exec.value_bind, Nat.add_sub_cancel_left, Exec.copy,
    if_pos ⟨by decide, by decide, by omega⟩]
  change Exec.value (IpAddr.ofBytes ([] ++ (_ ++ []))) = _
  rw [List.nil_append, List.append_nil]

section Headers

variable {d : Bytes} (hd : d.length < 2 ^ 63)

include hd

theorem ipv4Exec_eq : ipv4Exec d = .of (ipv4Transport d) := by
  rw [ipv4Exec, ipv4Transport]
  apply bind_of
  intro first _
  rw [be16Exec_eq hd]
  apply bind_of
  intro word _
  apply early_ite_of
  intro _
  rw [Exec.mul_eq (by omega), Exec.value_bind]
  dsimp only
  apply early_ite_of
  intro hihl
  rw [be16Exec_eq hd]
  apply bind_of
  intro total _
  apply early_ite_of
  intro htotal
  have hlength : (d.take (min d.length total)).length = min d.length total :=
    List.length_take_of_le (by omega)
  rw [Exec.slice_zero (by omega), Exec.value_bind]
  apply bind_of
  intro proto _
  rw [ipv4AtExec_eq (by omega), Exec.value_bind, ipv4AtExec_eq (by omega), Exec.value_bind]
  exact bind_of fun data _ => rfl

theorem extensionExec_eq {next off : ℕ} (hoff : off ≤ d.length) :
    extensionExec d next off = .of (extensionSize d next off) := by
  rw [extensionExec, extensionSize]
  apply ite_of
  · intro _
    rw [add_bind (by omega), Option.map_eq_bind]
    apply bind_of
    intro n _
    have hn := n.toNat_lt
    rw [add_bind (by omega), Exec.mul_eq (by omega)]
    rfl
  · intro _
    apply ite_of
    · intro _
      rw [add_bind (by omega), Option.map_eq_bind]
      apply bind_of
      intro n _
      have hn := n.toNat_lt
      rw [add_bind (by omega), Exec.mul_eq (by omega)]
      rfl
    · intro _
      apply ite_of
      · intro _
        rw [add_bind (by omega), be16Exec_eq hd]
        exact bind_of fun word _ => ite_of (fun _ => rfl) fun _ => rfl
      · exact fun _ => rfl

omit hd in
/-- An extension header is short. -/
theorem extensionSize_le {next off size : ℕ} (h : extensionSize d next off = some size) :
    size ≤ 2048 := by
  unfold extensionSize at h
  split at h
  · obtain ⟨n, -, rfl⟩ := Option.map_eq_some_iff.mp h
    have hn := n.toNat_lt
    omega
  · split at h
    · obtain ⟨n, -, rfl⟩ := Option.map_eq_some_iff.mp h
      have hn := n.toNat_lt
      omega
    · split at h
      · obtain ⟨word, -, h⟩ := Option.bind_eq_some_iff.mp h
        obtain ⟨-, h⟩ := Option.ite_none_left_eq_some.mp h
        have hsize := Option.some.inj h
        omega
      · contradiction

theorem ipv6PayloadExec_eq {src dst : IpAddr} {payloadLen : ℕ} (hlen : payloadLen < 65536)
    {fuel next off : ℕ} (hoff : off ≤ d.length) :
    ipv6PayloadExec src dst payloadLen d fuel next off =
      .of (ipv6Payload src dst (payloadLen + 40) d fuel next off) := by
  induction fuel generalizing next off with
  | zero => rfl
  | succ fuel ih =>
      by_cases hnext : next = 6 ∨ next = 17
      · rw [ipv6PayloadExec, ipv6Payload, if_pos hnext, if_pos hnext, add_bind (by omega)]
        exact bind_of fun data _ => rfl
      · rw [ipv6PayloadExec, if_neg hnext, ipv6Payload_extension hnext,
          extensionExec_eq hd hoff]
        apply bind_of
        intro size hsize
        have hsmall := extensionSize_le hsize
        apply bind_of
        intro next _
        rw [checkedAdd_eq (by omega), Exec.of_some, Exec.value_bind]
        apply early_ite_of
        intro hinside
        exact ih (by omega)

theorem ipv6Exec_eq : ipv6Exec d = .of (ipv6Transport d) := by
  rw [ipv6Exec, ipv6Transport]
  by_cases hshort : d.length < 40
  · rw [if_pos hshort, if_pos (.inl hshort)]
    rfl
  rw [if_neg hshort, Exec.index_eq (by omega) 0, Exec.value_bind]
  by_cases hversion : (d.getD 0 0).toNat / 16 ≠ 6
  · rw [if_pos hversion, if_pos (.inr hversion)]
    rfl
  rw [if_neg hversion, if_neg (not_or.mpr ⟨hshort, hversion⟩), be16Exec_eq hd]
  apply bind_of
  intro payloadLen hread
  have hlen := be16_lt hread
  apply bind_of
  intro next _
  have hlength : (d.take (min d.length (40 + payloadLen))).length =
      min d.length (40 + payloadLen) :=
    List.length_take_of_le (by omega)
  rw [add_bind (by omega), Exec.slice_zero (by omega), Exec.value_bind]
  generalize d.take (min d.length (40 + payloadLen)) = d' at hlength
  have hsrc : ipv6AtExec d' 8 24 = .value (.ofBytes ((d'.drop 8).take 16)) :=
    ipv6AtExec_eq (p := 8) (by omega)
  have hdst : ipv6AtExec d' 24 40 = .value (.ofBytes ((d'.drop 24).take 16)) :=
    ipv6AtExec_eq (p := 24) (by omega)
  rw [hsrc, Exec.value_bind, hdst, Exec.value_bind]
  exact ipv6PayloadExec_eq (by omega) hlen (by omega)

theorem skipVlanExec_eq {fuel ethertype off : ℕ} (hoff : off + 4 * fuel < 2 ^ 63) :
    skipVlanExec d fuel ethertype off = .of (skipVlan d fuel ethertype off) := by
  induction fuel generalizing ethertype off with
  | zero => rfl
  | succ fuel ih =>
      rw [skipVlanExec, skipVlan]
      apply ite_of
      · intro _
        rw [add_bind (by omega), be16Exec_eq hd]
        apply bind_of
        intro next _
        rw [add_bind (by omega)]
        exact ih (by omega)
      · exact fun _ => rfl

end Headers

/-- The type of what a link header carries, and where that starts. -/
def linkStart (linktype : UInt16) (d : Bytes) : Option (ℕ × ℕ) :=
  if linktype = 1 then (be16 d 12).map fun e => (e, 14)
  else if linktype = 113 then (be16 d 14).map fun e => (e, 16)
  else if linktype = 276 then (be16 d 0).map fun e => (e, 20)
  else if linktype = 101 ∨ linktype = 12 ∨ linktype = 14 then
    (d[0]?).map fun b => (if b.toNat / 16 = 6 then 0x86DD else 0x0800, 0)
  else none

theorem linkTransport_start (linktype : UInt16) (d : Bytes) :
    linkTransport linktype d = (linkStart linktype d).bind fun start =>
      (skipVlan d 2 start.1 start.2).bind fun next =>
        if next.1 = 0x0800 then (getFrom d next.2).bind ipv4Transport
        else if next.1 = 0x86DD then (getFrom d next.2).bind ipv6Transport
        else none := by
  rw [linkTransport, linkStart]
  simp only [Option.bind_eq_bind, ite_bind, Option.bind_none]

theorem linkStart_le {linktype : UInt16} {d : Bytes} {start : ℕ × ℕ}
    (h : linkStart linktype d = some start) : start.2 ≤ 20 := by
  unfold linkStart at h
  split at h
  · obtain ⟨e, -, rfl⟩ := Option.map_eq_some_iff.mp h
    exact (by decide : 14 ≤ 20)
  · split at h
    · obtain ⟨e, -, rfl⟩ := Option.map_eq_some_iff.mp h
      exact (by decide : 16 ≤ 20)
    · split at h
      · obtain ⟨e, -, rfl⟩ := Option.map_eq_some_iff.mp h
        exact le_rfl
      · split at h
        · obtain ⟨e, -, rfl⟩ := Option.map_eq_some_iff.mp h
          exact Nat.zero_le _
        · contradiction

theorem linkHeaderExec_eq (linktype : UInt16) {d : Bytes} (hd : d.length < 2 ^ 63) :
    linkHeaderExec linktype d = .of (linkStart linktype d) := by
  rw [linkHeaderExec, linkStart]
  simp only [be16Exec_eq hd, Option.map_eq_bind]
  apply ite_of
  · exact fun _ => bind_of fun e _ => rfl
  intro _
  apply ite_of
  · exact fun _ => bind_of fun e _ => rfl
  intro _
  apply ite_of
  · exact fun _ => bind_of fun e _ => rfl
  intro _
  apply ite_of
  · exact fun _ => bind_of fun e _ => rfl
  · exact fun _ => rfl

theorem linkExec_eq (linktype : UInt16) {d : Bytes} (hd : d.length < 2 ^ 63) :
    linkExec linktype d = .of (linkTransport linktype d) := by
  rw [linkExec, linkTransport_start, linkHeaderExec_eq linktype hd]
  apply bind_of
  rintro ⟨ethertype, off⟩ hstart
  have hoff := linkStart_le hstart
  dsimp only at hoff ⊢
  rw [skipVlanExec_eq hd (by omega)]
  apply bind_of
  rintro ⟨ethertype, off⟩ _
  apply ite_of
  · intro _
    apply bind_of
    intro rest hrest
    have hlength := length_of_getFrom hrest
    exact ipv4Exec_eq (by omega)
  · intro _
    apply ite_of
    · intro _
      apply bind_of
      intro rest hrest
      have hlength := length_of_getFrom hrest
      exact ipv6Exec_eq (by omega)
    · exact fun _ => rfl

/-! ## What a frame carries is short -/

theorem ipv4Transport_length {d : Bytes} {t : Transport} (h : ipv4Transport d = some t) :
    t.data.length ≤ d.length := by
  unfold ipv4Transport at h
  obtain ⟨first, -, h⟩ := Option.bind_eq_some_iff.mp h
  obtain ⟨word, -, h⟩ := Option.bind_eq_some_iff.mp h
  obtain ⟨-, h⟩ := Option.ite_none_left_eq_some.mp h
  obtain ⟨-, h⟩ := Option.ite_none_left_eq_some.mp h
  obtain ⟨total, -, h⟩ := Option.bind_eq_some_iff.mp h
  obtain ⟨-, h⟩ := Option.ite_none_left_eq_some.mp h
  obtain ⟨proto, -, h⟩ := Option.bind_eq_some_iff.mp h
  obtain ⟨data, hdata, h⟩ := Option.bind_eq_some_iff.mp h
  obtain rfl := Option.some.inj h
  exact (length_of_getFrom hdata).trans (List.length_take_le' _ _)

theorem ipv6Payload_length {src dst : IpAddr} {total : ℕ} {d : Bytes} {fuel next off : ℕ}
    {t : Transport} (h : ipv6Payload src dst total d fuel next off = some t) :
    t.data.length ≤ d.length := by
  induction fuel generalizing next off with
  | zero => contradiction
  | succ fuel ih =>
      by_cases hnext : next = 6 ∨ next = 17
      · rw [ipv6Payload, if_pos hnext] at h
        obtain ⟨data, hdata, h⟩ := Option.bind_eq_some_iff.mp h
        obtain rfl := Option.some.inj h
        exact length_of_getFrom hdata
      · rw [ipv6Payload_extension hnext] at h
        obtain ⟨size, -, h⟩ := Option.bind_eq_some_iff.mp h
        obtain ⟨next, -, h⟩ := Option.bind_eq_some_iff.mp h
        obtain ⟨-, h⟩ := Option.ite_none_left_eq_some.mp h
        exact ih h

theorem ipv6Transport_length {d : Bytes} {t : Transport} (h : ipv6Transport d = some t) :
    t.data.length ≤ d.length := by
  unfold ipv6Transport at h
  obtain ⟨-, h⟩ := Option.ite_none_left_eq_some.mp h
  obtain ⟨payloadLen, -, h⟩ := Option.bind_eq_some_iff.mp h
  obtain ⟨next, -, h⟩ := Option.bind_eq_some_iff.mp h
  exact (ipv6Payload_length h).trans (List.length_take_le' _ _)

theorem linkTransport_length {linktype : UInt16} {d : Bytes} {t : Transport}
    (h : linkTransport linktype d = some t) : t.data.length ≤ d.length := by
  rw [linkTransport_start] at h
  obtain ⟨start, -, h⟩ := Option.bind_eq_some_iff.mp h
  obtain ⟨next, -, h⟩ := Option.bind_eq_some_iff.mp h
  split at h
  · obtain ⟨rest, hrest, h⟩ := Option.bind_eq_some_iff.mp h
    exact (ipv4Transport_length h).trans (length_of_getFrom hrest)
  · obtain ⟨-, h⟩ := Option.ite_none_right_eq_some.mp h
    obtain ⟨rest, hrest, h⟩ := Option.bind_eq_some_iff.mp h
    exact (ipv6Transport_length h).trans (length_of_getFrom hrest)

/-- The payload is a part of the segment; in UDP its length has sixteen bits. -/
theorem Transport.payload_length {t : Transport} {g : Segment} (h : t.segment = some g) :
    g.payload.length ≤ t.data.length ∧ (g.proto = .udp → g.payload.length < 65536) := by
  unfold segment parseL4 at h
  split at h
  · obtain ⟨first, -, h⟩ := Option.bind_eq_some_iff.mp h
    obtain ⟨-, h⟩ := Option.ite_none_left_eq_some.mp h
    obtain ⟨sport, -, h⟩ := Option.bind_eq_some_iff.mp h
    obtain ⟨dport, -, h⟩ := Option.bind_eq_some_iff.mp h
    obtain rfl := Option.some.inj h
    refine ⟨?_, fun hudp => by contradiction⟩
    dsimp only
    rw [List.length_drop]
    omega
  · obtain ⟨-, h⟩ := Option.ite_none_right_eq_some.mp h
    obtain ⟨len, hlen, h⟩ := Option.bind_eq_some_iff.mp h
    obtain ⟨-, h⟩ := Option.ite_none_left_eq_some.mp h
    obtain ⟨sport, -, h⟩ := Option.bind_eq_some_iff.mp h
    obtain ⟨dport, -, h⟩ := Option.bind_eq_some_iff.mp h
    obtain rfl := Option.some.inj h
    have hword := be16_lt hlen
    have hlength : ((t.data.take (min len t.data.length)).drop 8).length ≤
        min len t.data.length := by
      rw [List.length_drop, List.length_take]
      omega
    exact ⟨by dsimp only; omega, fun _ => by dsimp only; omega⟩

/-! ## Names are read without a panic -/

section Names

variable {g : Segment} (hg : g.payload.length < 2 ^ 63)

include hg

theorem Segment.dnsMessageExec_eq : g.dnsMessageExec = .value g.dnsMessage := by
  unfold dnsMessageExec dnsMessage
  cases g.proto with
  | udp => rfl
  | tcp =>
      dsimp only
      cases getFrom g.payload 2 with
      | none => rfl
      | some m =>
          dsimp only
          rw [be16Exec_eq hg, Exec.attempt_of, Exec.value_bind]
          by_cases hlength : be16 g.payload 0 = some m.length
          · rw [if_pos hlength]
            exact congrArg Exec.value (Option.filter_some_pos (by simpa using hlength)).symm
          · rw [if_neg hlength]
            exact congrArg Exec.value (Option.filter_some_neg (by simpa using hlength)).symm

omit hg in
theorem Segment.dnsMessage_length {m : Bytes} (h : g.dnsMessage = some m) :
    m.length ≤ g.payload.length := by
  unfold dnsMessage at h
  split at h
  · exact length_of_getFrom (Option.filter_eq_some_iff.mp h).1
  · exact (congrArg List.length (Option.some.inj h)).ge

theorem Segment.dnsAddrsExec_eq : g.dnsAddrsExec = .value g.dnsAddrs := by
  unfold dnsAddrsExec dnsAddrs
  split
  · rw [dnsMessageExec_eq hg, Exec.value_bind]
    cases hmessage : g.dnsMessage.filter fun m => !m.isEmpty with
    | none => rfl
    | some m =>
        have hlength := dnsMessage_length (Option.filter_eq_some_iff.mp hmessage).1
        exact parseDnsExec_eq (by omega)
  · rfl

omit hg in
theorem Transport.feedExec_eq (t : Transport) (s : Surroundings) (g : Segment) :
    t.feedExec s g = .of (t.feed s g) := by
  rw [feedExec, feed]
  have hrange : getRange t.data 4 8 = getSlice t.data 4 4 := getRange_add t.data 4 4
  rw [hrange]
  apply bind_of
  intro bytes hbytes
  rw [toArray_eq (drop_of_getSlice hbytes).1, Exec.of_some, Exec.value_bind]
  exact bind_of fun flags _ => rfl

end Names

/-- What is lent is as bounded as any assembler that was fed, and the packet numbers
that it has stored are those of QUIC. -/
structure Lent.Sound (l : Lent) : Prop where
  quic : ∀ a ∈ l.quic, Quic.Assembler.Bounded a ∧ Quic.Assembler.Numbered (2 ^ 62) a
  tcp : ∀ a ∈ l.tcp, Tls.Assembler.Bounded a

theorem Transport.readSniExec_eq {c : Quic.Ciphers} (hc : c.Sized) {l : Lent} (hl : l.Sound)
    {t : Transport} {g : Segment} (ht : t.data.length < 2 ^ 63) (hg : t.segment = some g)
    (s : Surroundings) : t.readSniExec c s l g = .of (t.readSni c s l g) := by
  obtain ⟨hpart, hudp⟩ := payload_length hg
  unfold readSniExec readSni
  cases hproto : g.proto with
  | tcp =>
      dsimp only
      cases htcp : l.tcp with
      | none =>
          dsimp only
          rw [parseSniExec_eq (by omega), Exec.attempt_of]
          rfl
      | some a =>
          dsimp only
          rw [feedExec_eq, Option.map_eq_bind]
          apply bind_of
          intro e _
          rw [Tls.Assembler.feedExec_eq (hl.tcp a htcp)]
          rfl
  | udp =>
      dsimp only
      cases hquic : l.quic with
      | none => rfl
      | some a =>
          have hshort : g.payload.length < 65536 := hudp hproto
          obtain ⟨hbounded, hnumbers⟩ := hl.quic a hquic
          have hfeed := Quic.Assembler.feedExec_eq (e := g.datagram s) hc hbounded hnumbers
            (hshort.trans (by decide))
          dsimp only
          rw [hfeed]
          split <;> rfl

theorem parseLinkStateExec_eq {c : Quic.Ciphers} (hc : c.Sized) {l : Lent} (hl : l.Sound)
    (s : Surroundings) (linktype : UInt16) {d : Bytes} (hd : d.length < 2 ^ 63) :
    parseLinkStateExec c s linktype d l = .of (parseLinkState c s linktype d l) := by
  rw [parseLinkStateExec, parseLinkState, linkExec_eq linktype hd]
  apply bind_of
  intro t ht
  have hdata := linkTransport_length ht
  rw [parseL4StateExec, parseL4State, Transport.segmentExec_eq (by omega)]
  apply bind_of
  intro g hg
  have hpayload := (Transport.payload_length hg).1
  rw [Transport.readSniExec_eq hc hl (by omega) hg]
  apply bind_of
  rintro ⟨sni, l'⟩ _
  dsimp only
  rw [Segment.dnsAddrsExec_eq (by omega)]
  rfl

/-! ## Any frames -/

namespace Parsers

/-- A frame of a capture and what it meets. -/
structure Captured where
  linktype : UInt16
  data : Bytes
  surroundings : Surroundings

/-- The assemblers of a capture, given any frames. -/
def system (c : Quic.Ciphers) : System Parsers Captured :=
  .ofFun fun p e => (parseLinkLive c e.surroundings e.linktype e.data p).2

/-- The assemblers before the first frame. -/
def fresh : Parsers where
  quic := { flows := ∅ }
  tcp := { flows := ∅ }

/-- Both assemblers are bounded. -/
structure Bounded (p : Parsers) : Prop where
  quic : Quic.Assembler.Bounded p.quic
  tcp : Tls.Assembler.Bounded p.tcp

/-- A frame feeds one assembler at most. -/
theorem Bounded.live (c : Quic.Ciphers) {p : Parsers} (h : Bounded p) (e : Captured) :
    Bounded (parseLinkLive c e.surroundings e.linktype e.data p).2 := by
  unfold parseLinkLive
  split
  · exact h
  · rename_i pkt l hstate
    obtain ⟨t, -, hstate⟩ := Option.bind_eq_some_iff.mp hstate
    obtain ⟨g, -, hstate⟩ := Option.bind_eq_some_iff.mp hstate
    obtain ⟨⟨sni, l'⟩, hread, hstate⟩ := Option.bind_eq_some_iff.mp hstate
    obtain ⟨-, rfl⟩ := Prod.mk.inj (Option.some.inj hstate)
    unfold Transport.readSni at hread
    split at hread
    · obtain ⟨feed, -, hread⟩ := Option.map_eq_some_iff.mp hread
      obtain ⟨-, rfl⟩ := Prod.mk.inj hread
      exact ⟨h.quic, h.tcp.feed feed⟩
    · dsimp only at hread
      split at hread
      · obtain ⟨-, rfl⟩ := Prod.mk.inj (Option.some.inj hread)
        exact ⟨h.quic.feed c _, h.tcp⟩
      · obtain ⟨-, rfl⟩ := Prod.mk.inj (Option.some.inj hread)
        exact h

theorem bounded_of_run {c : Quic.Ciphers} {hist : History Parsers Captured} {p : Parsers}
    (run : Run (system c) fresh hist p) : Bounded p := by
  apply run.invariant
  · exact ⟨⟨Nat.zero_le _, KeyedMap.every_empty⟩, ⟨Nat.zero_le _, KeyedMap.every_empty⟩⟩
  · intro p e p' h fires
    obtain rfl : (parseLinkLive c e.surroundings e.linktype e.data p).2 = p' :=
      Option.some.inj fires
    exact h.live c e

end Parsers

/-- Whatever frames a capture has seen, and whatever bytes the next one consists of, it
is parsed without a panic, in the capture and on its own. -/
theorem frame_parsed_safely {c : Quic.Ciphers} (hc : c.Sized)
    {hist : History Parsers Parsers.Captured} {p : Parsers}
    (run : Run (Parsers.system c) Parsers.fresh hist p)
    (hnumbers : p.quic.Numbered (2 ^ 62)) (linktype : UInt16) {d : Bytes}
    (hd : d.length < 2 ^ 63) (s : Surroundings) :
    parseLinkLiveExec c s linktype d p = .value (parseLinkLive c s linktype d p) ∧
      parseLinkPacketExec c s linktype d = .value (parseLinkPacket c s linktype d) := by
  have hbounded := Parsers.bounded_of_run run
  have hlent : Lent.Sound { quic := some p.quic, tcp := some p.tcp } := by
    constructor
    · intro a ha
      obtain rfl := Option.some.inj ha
      exact ⟨hbounded.quic, hnumbers⟩
    · intro a ha
      obtain rfl := Option.some.inj ha
      exact hbounded.tcp
  have hnone : Lent.Sound { quic := none, tcp := none } :=
    ⟨fun a ha => by contradiction, fun a ha => by contradiction⟩
  constructor
  · rw [parseLinkLiveExec, parseLinkStateExec_eq hc hlent s linktype hd, Exec.attempt_of,
      Exec.value_bind, parseLinkLive]
    cases parseLinkState c s linktype d { quic := some p.quic, tcp := some p.tcp } <;> rfl
  · rw [parseLinkPacketExec, parseLinkStateExec_eq hc hnone s linktype hd, Exec.attempt_of]
    rfl

/-- The first packet of the sample connection, as a raw IP frame. -/
def sampleCaptured : Parsers.Captured where
  linktype := 101
  data :=
    [0x45, 0, 0, 96, 0, 0, 0, 0, 64, 17, 0, 0, 192, 0, 2, 1, 10, 0, 0, 1, 0xC3, 0x50, 1, 0xBB, 0,
      76, 0, 0] ++ Quic.sampleTailPacket
  surroundings := sampleSurroundings

/-- The assemblers behind the first packet of the sample connection. -/
def sampleParsers : Parsers :=
  (parseLinkLive Quic.strictCiphers sampleSurroundings sampleCaptured.linktype sampleCaptured.data
    .fresh).2

/-- A frame of the sample connection is parsed when the connection is known. -/
theorem frame_parsed_safely_sample :
    sampleParsers.quic.flows.size = 1 ∧
      parseLinkLiveExec Quic.strictCiphers sampleSurroundings 101 sampleCaptured.data
        sampleParsers =
          .value (parseLinkLive Quic.strictCiphers sampleSurroundings 101 sampleCaptured.data
            sampleParsers) ∧
      parseLinkPacketExec Quic.strictCiphers sampleSurroundings 101 sampleCaptured.data =
        .value (parseLinkPacket Quic.strictCiphers sampleSurroundings 101 sampleCaptured.data) := by
  have run : Run (Parsers.system Quic.strictCiphers) .fresh [(.fresh, sampleCaptured)]
      sampleParsers := Run.start.next rfl
  have hnumbers : sampleParsers.quic.Numbered (2 ^ 62) := by
    apply KeyedMap.every_of_entries
    decide +kernel
  exact ⟨by decide +kernel, frame_parsed_safely Quic.strictCiphers_sized run hnumbers 101
    (by decide +kernel) sampleSurroundings⟩

end SocketTrail.Pcap
