/-
# Bytes that no field accounts for

A link pads short frames, and a datagram may be longer than what it carries says.
`padding_ignored` compares two captures whose frames differ in such bytes only.
-/

import SocketTrail.Pcap.Encapsulation

namespace SocketTrail.Pcap

open SocketTrail.Foundation SocketTrail.Net

/-! ## Bytes behind the datagram -/

/-- The bytes are a datagram of the length that its header declares. -/
def IpVersion.Complete : IpVersion → Bytes → Prop
  | .v4, d => IpVersion.v4.Heads d ∧ be16 d 2 = some d.length
  | .v6, d => IpVersion.v6.Heads d ∧ ∃ n, be16 d 4 = some n ∧ d.length = 40 + n

theorem IpVersion.Heads.ne_nil {v : IpVersion} {d : Bytes} (h : v.Heads d) : 0 < d.length := by
  obtain ⟨first, hfirst, -⟩ := Option.map_eq_some_iff.mp h
  exact (List.getElem?_eq_some_iff.mp hfirst).1

theorem IpVersion.Heads.append {v : IpVersion} {d : Bytes} (h : v.Heads d) (pad : Bytes) :
    v.Heads (d ++ pad) := by
  unfold IpVersion.Heads
  rw [List.getElem?_append_left h.ne_nil]
  exact h

/-- A header that is too short, or longer than the datagram, carries nothing. -/
theorem ipv4Transport_malformed {d : Bytes} {first : UInt8} {total : ℕ}
    (hfirst : d[0]? = some first) (htotal : be16 d 2 = some total)
    (h : first.toNat % 16 * 4 < 20 ∨ total < first.toNat % 16 * 4) : ipv4Transport d = none := by
  rw [ipv4Transport, hfirst]
  cases be16 d 6 with
  | none => rfl
  | some word =>
      simp only [Option.bind_eq_bind, Option.bind_some, htotal]
      split
      · rfl
      · split
        · rfl
        · rw [if_pos (by omega)]

/-- An IPv4 datagram carries the same, whatever stands behind it. -/
theorem ipv4Transport_append {d : Bytes} (h : IpVersion.v4.Complete d) (pad : Bytes) :
    ipv4Transport (d ++ pad) = ipv4Transport d := by
  obtain ⟨hheads, htotal⟩ := h
  obtain ⟨first, hfirst, -⟩ := Option.map_eq_some_iff.mp hheads
  have hfirst' : (d ++ pad)[0]? = some first := by
    rw [List.getElem?_append_left hheads.ne_nil, hfirst]
  have htotal' : be16 (d ++ pad) 2 = some d.length := by
    rw [be16_append_left pad (length_of_be16 htotal), htotal]
  by_cases hmalformed : first.toNat % 16 * 4 < 20 ∨ d.length < first.toNat % 16 * 4
  · rw [ipv4Transport_malformed hfirst htotal hmalformed,
      ipv4Transport_malformed hfirst' htotal' hmalformed]
  · have hword : be16 (d ++ pad) 6 = be16 d 6 := be16_append_left pad (by omega)
    have hcut : (d ++ pad).take (min (d ++ pad).length d.length) = d := by
      rw [List.length_append, Nat.min_eq_right (Nat.le_add_right _ _), List.take_left]
    have hcut' : d.take (min d.length d.length) = d := by
      rw [Nat.min_self, List.take_length]
    have hlonger : (d ++ pad).length < first.toNat % 16 * 4 ↔
        d.length < first.toNat % 16 * 4 := by
      rw [List.length_append]
      omega
    simp only [ipv4Transport, hfirst, hfirst', htotal, htotal', hword, Option.bind_eq_bind,
      Option.bind_some, hcut, hcut', hlonger]

/-- An IPv6 datagram carries the same, whatever stands behind it. -/
theorem ipv6Transport_append {d : Bytes} (h : IpVersion.v6.Complete d) (pad : Bytes) :
    ipv6Transport (d ++ pad) = ipv6Transport d := by
  obtain ⟨-, n, hdeclared, hlength⟩ := h
  have hdeclared' : be16 (d ++ pad) 4 = some n := by
    rw [be16_append_left pad (by omega), hdeclared]
  have hfirst : (d ++ pad).getD 0 0 = d.getD 0 0 := by
    rw [List.getD_eq_getElem?_getD, List.getElem?_append_left (by omega),
      ← List.getD_eq_getElem?_getD]
  have hnext : (d ++ pad)[6]? = d[6]? := List.getElem?_append_left (by omega)
  have hcut : (d ++ pad).take (min (d ++ pad).length (40 + n)) = d := by
    rw [List.length_append, ← hlength, Nat.min_eq_right (Nat.le_add_right _ _), List.take_left]
  have hcut' : d.take (min d.length (40 + n)) = d := by
    rw [hlength, Nat.min_self, ← hlength, List.take_length]
  have hlong : ¬ (d ++ pad).length < 40 := by
    rw [List.length_append]
    omega
  have hlong' : ¬ d.length < 40 := by omega
  simp only [ipv6Transport, hfirst, hnext, hdeclared, hdeclared', Option.bind_eq_bind,
    Option.bind_some, hcut, hcut', hlong, hlong']

/-- A complete datagram carries the same, whatever stands behind it. -/
theorem IpVersion.transport_append {v : IpVersion} {d : Bytes} (h : v.Complete d) (pad : Bytes) :
    v.transport (d ++ pad) = v.transport d := by
  cases v with
  | v4 => exact ipv4Transport_append h pad
  | v6 => exact ipv6Transport_append h pad

theorem IpVersion.Complete.heads {v : IpVersion} {d : Bytes} (h : v.Complete d) : v.Heads d := by
  cases v with
  | v4 => exact h.1
  | v6 => exact h.1

/-- What is left of a frame does not depend on the bytes behind the datagram. -/
theorem linkTransport_padding (link : LinkHeader) {v : IpVersion} {d : Bytes} (h : v.Complete d)
    (pad : Bytes) :
    linkTransport link.linktype (link.encode v.etherType ++ (d ++ pad)) =
      linkTransport link.linktype (link.encode v.etherType ++ d) := by
  rw [linkTransport_encode link v h.heads, linkTransport_encode link v (h.heads.append pad),
    IpVersion.transport_append h]

/-! ## Bytes behind the UDP length -/

/-- A UDP segment says everything about its packet. -/
theorem parseL4State_congr {t t' : Transport} {g : Segment} (ht : t.segment = some g)
    (ht' : t'.segment = some g) (hudp : g.proto = .udp) (c : Quic.Ciphers) (s : Surroundings)
    (l : Lent) : parseL4State c s l t = parseL4State c s l t' := by
  have hsni : t.readSni c s l g = t'.readSni c s l g := by
    unfold Transport.readSni
    rw [hudp]
  rw [parseL4State, parseL4State, ht, ht']
  simp only [Option.bind_eq_bind, Option.bind_some, hsni]

/-- A UDP datagram that fills a whole IP datagram, together with bytes that its
length does not cover. -/
structure UdpDatagram where
  link : LinkHeader
  ip : IpHeader
  sport : UInt16
  dport : UInt16
  checksum : UInt16
  payload : Bytes
  slack : ℕ
  fits : ip.declared (8 + payload.length + slack) 17 < 65536

namespace UdpDatagram

def carried (u : UdpDatagram) (slack : Bytes) : Carried :=
  .udp u.sport u.dport u.checksum u.payload slack

/-- The frame with these bytes behind the UDP length and these behind the datagram. -/
def frame (u : UdpDatagram) (slack : FixedBytes u.slack) (pad : Bytes) : Bytes :=
  u.link.encode u.ip.version.etherType ++
    (u.ip.encode (u.carried slack.1).encode.length 17 ++ ((u.carried slack.1).encode ++ pad))

theorem length_carried (u : UdpDatagram) (slack : FixedBytes u.slack) :
    (u.carried slack.1).encode.length = 8 + u.payload.length + u.slack := by
  simp only [carried, Carried.encode, List.length_append, length_beBytes, slack.2]
  omega

/-- The transports of two such frames give the same packets. -/
theorem parseLinkState_slack (u : UdpDatagram) (slack slack' : FixedBytes u.slack)
    (pad pad' : Bytes) (c : Quic.Ciphers) (s : Surroundings) (l : Lent) :
    parseLinkState c s u.link.linktype (u.frame slack pad) l =
      parseLinkState c s u.link.linktype (u.frame slack' pad') l := by
  have hfits (x : FixedBytes u.slack) :
      u.ip.declared (u.carried x.1).encode.length 17 < 65536 := by
    rw [u.length_carried]
    exact u.fits
  have hsegment (x : FixedBytes u.slack) (bytes : ℕ) :
      Transport.segment
          { proto := (17 : UInt8).toNat, src := u.ip.src, dst := u.ip.dst, bytes := bytes
            data := (u.carried x.1).encode } =
        some ((u.carried slack.1).segment u.ip.src u.ip.dst bytes) := by
    have hshort : (u.carried x.1).Fits := by
      apply Carried.fits_of_length
      have hdeclared := hfits x
      cases hip : u.ip with
      | v4 h =>
          rw [hip, IpHeader.declared] at hdeclared
          omega
      | v6 h =>
          rw [hip, IpHeader.declared] at hdeclared
          omega
    exact (u.carried x.1).parseL4_encode hshort u.ip.src u.ip.dst bytes
  unfold parseLinkState frame
  rw [linkTransport_encapsulated u.link u.ip (.inr rfl) (hfits slack) pad,
    linkTransport_encapsulated u.link u.ip (.inr rfl) (hfits slack') pad', u.length_carried,
    u.length_carried]
  by_cases hreadable : u.link.Readable ∧ u.ip.extensions.length ≤ 7 ∧ u.ip.Whole
  · rw [if_pos hreadable, if_pos hreadable, Option.bind_some, Option.bind_some]
    exact parseL4State_congr (hsegment slack _) (hsegment slack' _) rfl c s l
  · rw [if_neg hreadable, if_neg hreadable]

end UdpDatagram

/-! ## The result -/

/-- **Bytes that no field accounts for have no influence.** Behind any link header,
what follows a complete datagram changes neither the packet nor the assemblers, and
in UDP neither do the bytes of the datagram that the UDP length does not cover. -/
theorem padding_ignored (c : Quic.Ciphers) (s : Surroundings) (p : Parsers) :
    (∀ (link : LinkHeader) (v : IpVersion) (d pad pad' : Bytes), v.Complete d →
      parseLinkLive c s link.linktype (link.encode v.etherType ++ (d ++ pad)) p =
        parseLinkLive c s link.linktype (link.encode v.etherType ++ (d ++ pad')) p) ∧
    (∀ (u : UdpDatagram) (slack slack' : FixedBytes u.slack) (pad pad' : Bytes),
      parseLinkLive c s u.link.linktype (u.frame slack pad) p =
        parseLinkLive c s u.link.linktype (u.frame slack' pad') p) := by
  constructor
  · intro link v d pad pad' hcomplete
    unfold parseLinkLive parseLinkState
    rw [linkTransport_padding link hcomplete pad, linkTransport_padding link hcomplete pad']
  · intro u slack slack' pad pad'
    unfold parseLinkLive
    rw [u.parseLinkState_slack slack slack' pad pad']

/-- The sample frame is padded without effect. -/
theorem padding_ignored_sample :
    parseLinkLive Quic.sampleCiphers sampleSurroundings 101 (sampleFrame ++ [1, 2])
        { quic := { flows := ∅ }, tcp := { flows := ∅ } } =
      parseLinkLive Quic.sampleCiphers sampleSurroundings 101 (sampleFrame ++ [])
        { quic := { flows := ∅ }, tcp := { flows := ∅ } } := by
  exact (padding_ignored Quic.sampleCiphers sampleSurroundings _).1 (.raw 101 (.inl rfl)) .v4
    sampleFrame [1, 2] [] ⟨rfl, rfl⟩

end SocketTrail.Pcap
