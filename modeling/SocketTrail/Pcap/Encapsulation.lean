/-
# Frames and what they encapsulate

TCP and UDP in their headers, and frames that put them into IP datagrams and these
behind link headers. `parseLink_encode` says that the packet of such a frame is the
one that was encapsulated, and that no fragment but the first gives a packet.
-/

import SocketTrail.Pcap.IpHeader
import SocketTrail.Pcap.QuicHello

namespace SocketTrail.Pcap

open SocketTrail.Foundation SocketTrail.Net

/-! ## TCP and UDP -/

structure TcpHeader where
  sport : UInt16
  dport : UInt16
  sequence : UInt32
  acknowledged : UInt32
  reserved : Fin 16
  flags : UInt8
  window : UInt16
  checksum : UInt16
  urgent : UInt16
  options : HeaderOptions

namespace TcpHeader

def length (h : TcpHeader) : ℕ := 20 + h.options.1.length

def encode (h : TcpHeader) : Bytes :=
  beBytes 2 h.sport.toNat ++ (beBytes 2 h.dport.toNat ++ (beBytes 4 h.sequence.toNat ++
    (beBytes 4 h.acknowledged.toNat ++ (UInt8.ofNat (h.length / 4 * 16 + h.reserved) :: h.flags ::
      (beBytes 2 h.window.toNat ++ (beBytes 2 h.checksum.toNat ++ (beBytes 2 h.urgent.toNat ++
        h.options.1)))))))

theorem length_encode (h : TcpHeader) : h.encode.length = h.length := by
  simp only [encode, length, List.length_cons, List.length_append, length_beBytes]
  omega

/-- The data offset is the length of the header. -/
theorem offset_eq (h : TcpHeader) :
    (UInt8.ofNat (h.length / 4 * 16 + h.reserved)).toNat / 16 * 4 = h.length := by
  obtain ⟨⟨k, hk⟩, hle⟩ := h.options.2
  have hreserved := h.reserved.isLt
  rw [UInt8.toNat_ofNat', length, hk]
  omega

end TcpHeader

/-- A TCP segment, or a UDP datagram with bytes behind the length that it declares. -/
inductive Carried
  | tcp (h : TcpHeader) (payload : Bytes)
  | udp (sport dport checksum : UInt16) (payload slack : Bytes)

namespace Carried

def proto : Carried → UInt8
  | tcp .. => 6
  | udp .. => 17

def encode : Carried → Bytes
  | tcp h payload => h.encode ++ payload
  | udp sport dport checksum payload slack =>
      beBytes 2 sport.toNat ++ (beBytes 2 dport.toNat ++ (beBytes 2 (8 + payload.length) ++
        (beBytes 2 checksum.toNat ++ (payload ++ slack))))

/-- The segment between two addresses, of a datagram of `bytes` bytes. -/
def segment (src dst : IpAddr) (bytes : ℕ) : Carried → Segment
  | tcp h payload =>
      { proto := .tcp, src := src, sport := h.sport, dst := dst, dport := h.dport, bytes := bytes
        payload := payload }
  | udp sport dport _ payload _ =>
      { proto := .udp, src := src, sport := sport, dst := dst, dport := dport, bytes := bytes
        payload := payload }

theorem proto_eq (t : Carried) : t.proto = 6 ∨ t.proto = 17 := by
  cases t with
  | tcp => exact .inl rfl
  | udp => exact .inr rfl

/-- The length that a UDP datagram declares fits into its field. -/
def Fits : Carried → Prop
  | tcp .. => True
  | udp _ _ _ payload _ => 8 + payload.length < 65536

theorem fits_of_length {t : Carried} (h : t.encode.length < 65536) : t.Fits := by
  cases t with
  | tcp => trivial
  | udp sport dport checksum payload slack =>
      simp only [encode, List.length_append, length_beBytes] at h
      have hall : 8 + payload.length < 65536 := by omega
      exact hall

/-- The segment is read back. -/
theorem parseL4_encode {t : Carried} (hfits : t.Fits) (src dst : IpAddr) (bytes : ℕ) :
    parseL4 t.proto.toNat src dst bytes t.encode = some (t.segment src dst bytes) := by
  cases t with
  | tcp h payload =>
      have hoffset : (h.encode ++ payload)[12]? =
          some (UInt8.ofNat (h.length / 4 * 16 + h.reserved)) := rfl
      have hsport : be16 (h.encode ++ payload) 0 = some h.sport.toNat :=
        congrArg some (two_bytes h.sport.toNat_lt)
      have hdport : be16 (h.encode ++ payload) 2 = some h.dport.toNat :=
        congrArg some (two_bytes h.dport.toNat_lt)
      have hpayload : (h.encode ++ payload).drop h.length = payload := by
        rw [← h.length_encode, List.drop_left]
      have hlong : ¬ (h.length < 20 ∨ (h.encode ++ payload).length < h.length) := by
        rw [List.length_append, h.length_encode, TcpHeader.length]
        omega
      rw [parseL4, proto, encode, if_pos (by decide), hoffset]
      simp only [Option.bind_eq_bind, Option.bind_some, h.offset_eq, hsport, hdport, hpayload,
        UInt16.ofNat_toNat, if_neg hlong]
      rfl
  | udp sport dport checksum payload slack =>
      have hfit : 8 + payload.length < 65536 := hfits
      have hsport : be16 (encode (udp sport dport checksum payload slack)) 0 = some sport.toNat :=
        congrArg some (two_bytes sport.toNat_lt)
      have hdport : be16 (encode (udp sport dport checksum payload slack)) 2 = some dport.toNat :=
        congrArg some (two_bytes dport.toNat_lt)
      have hlen : be16 (encode (udp sport dport checksum payload slack)) 4 =
          some (8 + payload.length) := congrArg some (two_bytes hfit)
      have hlength : (encode (udp sport dport checksum payload slack)).length =
          8 + payload.length + slack.length := by
        simp only [encode, List.length_append, length_beBytes]
        omega
      have hpayload : ((encode (udp sport dport checksum payload slack)).take
          (8 + payload.length)).drop 8 = payload := by
        have hcut : (encode (udp sport dport checksum payload slack)).drop 8 =
            payload ++ slack := rfl
        rw [List.drop_take, hcut, Nat.add_sub_cancel_left, List.take_left]
      rw [parseL4, proto, if_neg (by decide), if_pos (by decide), hlen, hsport, hdport, hlength]
      simp only [Option.bind_eq_bind, Option.bind_some]
      rw [if_neg (by omega), Nat.min_eq_left (by omega), hpayload, UInt16.ofNat_toNat,
        UInt16.ofNat_toNat]
      rfl

end Carried

/-! ## Whole frames -/

/-- What is left of a frame that encapsulates a complete datagram. -/
theorem linkTransport_encapsulated (link : LinkHeader) (h : IpHeader) {proto : UInt8}
    (hproto : proto = 6 ∨ proto = 17) {content : Bytes}
    (hfits : h.declared content.length proto < 65536) (trailing : Bytes) :
    linkTransport link.linktype (link.encode h.version.etherType ++
        (h.encode content.length proto ++ (content ++ trailing))) =
      if link.Readable ∧ h.extensions.length ≤ 7 ∧ h.Whole then
        some
          { proto := proto.toNat, src := h.src, dst := h.dst
            bytes := h.total content.length proto, data := content }
      else none := by
  rw [linkTransport_encode link h.version (h.heads ..), h.transport_encode hproto hfits,
    ite_and (P := link.Readable)]

/-- A datagram in its headers; its length fits into the field of the IP header. -/
structure Encapsulation where
  link : LinkHeader
  ip : IpHeader
  carried : Carried
  fits : ip.declared carried.encode.length carried.proto < 65536

namespace Encapsulation

/-- The frame, with whatever the link puts behind the datagram. -/
def frame (f : Encapsulation) (trailing : Bytes) : Bytes :=
  f.link.encode f.ip.version.etherType ++
    (f.ip.encode f.carried.encode.length f.carried.proto ++ (f.carried.encode ++ trailing))

/-- The segment that is encapsulated. -/
def segment (f : Encapsulation) : Segment :=
  f.carried.segment f.ip.src f.ip.dst (f.ip.total f.carried.encode.length f.carried.proto)

/-- The link header is of a kind that is read, the chain of extension headers is not
too long, and the datagram is no further fragment. -/
structure Readable (f : Encapsulation) : Prop where
  link : f.link.Readable
  chain : f.ip.extensions.length ≤ 7
  whole : f.ip.Whole

theorem length_carried_lt (f : Encapsulation) : f.carried.encode.length < 65536 := by
  have hfits := f.fits
  cases hip : f.ip with
  | v4 h =>
      rw [hip, IpHeader.declared] at hfits
      omega
  | v6 h =>
      rw [hip, IpHeader.declared] at hfits
      omega

/-- What is left of a readable frame is the segment with its header. -/
theorem transport {f : Encapsulation} (h : f.Readable) (trailing : Bytes) :
    ∃ t, linkTransport f.link.linktype (f.frame trailing) = some t ∧
      t.segment = some f.segment := by
  have hread := linkTransport_encapsulated f.link f.ip f.carried.proto_eq f.fits trailing
  rw [if_pos ⟨h.link, h.chain, h.whole⟩] at hread
  exact ⟨_, hread, f.carried.parseL4_encode (Carried.fits_of_length f.length_carried_lt) _ _ _⟩

end Encapsulation

/-- The host name in a segment that is read on its own. -/
def Segment.ownSni (g : Segment) : Option String :=
  match g.proto with
  | .tcp => parseSni g.payload
  | .udp => none

/-- The packet of a segment that is read on its own. -/
theorem parseLinkPacket_of_transport {linktype : UInt16} {d : Bytes} {t : Transport} {g : Segment}
    (htransport : linkTransport linktype d = some t) (hsegment : t.segment = some g)
    (c : Quic.Ciphers) (s : Surroundings) :
    parseLinkPacket c s linktype d = some (g.packet g.ownSni g.dnsAddrs) := by
  have hsni : t.readSni c s { quic := none, tcp := none } g =
      some (g.ownSni, { quic := none, tcp := none }) := by
    unfold Transport.readSni Segment.ownSni
    cases g.proto <;> rfl
  rw [parseLinkPacket, parseLinkState, htransport, Option.bind_some, parseL4State, hsegment]
  simp only [Option.bind_eq_bind, Option.bind_some, hsni]
  rfl

/-- A frame of which nothing is left gives no packet, on its own or in a capture. -/
theorem dropped_of_transport {linktype : UInt16} {d : Bytes}
    (htransport : linkTransport linktype d = none) (c : Quic.Ciphers) (s : Surroundings) :
    parseLinkPacket c s linktype d = none ∧
      ∀ p, parseLinkLive c s linktype d p = (none, p) := by
  have hstate (l : Lent) : parseLinkState c s linktype d l = none := by
    rw [parseLinkState, htransport]
    rfl
  refine ⟨?_, fun p => ?_⟩
  · rw [parseLinkPacket, hstate]
    rfl
  · rw [parseLinkLive, hstate]

/-- **Parsing a frame undoes its encapsulation.** The packet has the protocol, the
addresses, the ports and the length of the datagram that is encapsulated, and its
names are those of its payload, whatever follows the datagram. A further fragment,
of IPv4 or behind any extension headers of IPv6, gives no packet. -/
theorem parseLink_encode (c : Quic.Ciphers) (s : Surroundings) :
    (∀ (f : Encapsulation) (trailing : Bytes), f.Readable →
      parseLinkPacket c s f.link.linktype (f.frame trailing) =
        some (f.segment.packet f.segment.ownSni f.segment.dnsAddrs)) ∧
    (∀ (link : LinkHeader) (d : Bytes) (word : ℕ), IpVersion.v4.Heads d →
      be16 d 6 = some word → word % 8192 ≠ 0 →
      parseLinkPacket c s link.linktype (link.encode IpVersion.v4.etherType ++ d) = none ∧
        ∀ p, parseLinkLive c s link.linktype (link.encode IpVersion.v4.etherType ++ d) p =
          (none, p)) ∧
    (∀ (link : LinkHeader) (h : Ipv6Header) (declared : ℕ) (proto : UInt8) (rest : Bytes),
      ¬ h.Whole →
      parseLinkPacket c s link.linktype
          (link.encode IpVersion.v6.etherType ++ (h.encode declared proto ++ rest)) = none ∧
        ∀ p, parseLinkLive c s link.linktype
          (link.encode IpVersion.v6.etherType ++ (h.encode declared proto ++ rest)) p =
          (none, p)) := by
  refine ⟨?_, ?_, ?_⟩
  · intro f trailing hreadable
    obtain ⟨t, htransport, hsegment⟩ := Encapsulation.transport hreadable trailing
    exact parseLinkPacket_of_transport htransport hsegment c s
  · intro link d word hheads hword hfragment
    apply dropped_of_transport
    rw [linkTransport_encode link .v4 hheads, IpVersion.transport,
      ipv4Transport_fragment hword hfragment, ite_self]
  · intro link h declared proto rest hfragment
    apply dropped_of_transport
    have hheads : IpVersion.v6.Heads (h.encode declared proto ++ rest) := congrArg some h.version_eq
    rw [linkTransport_encode link .v6 hheads, IpVersion.transport,
      ipv6Transport_fragment hfragment, ite_self]

/-- A DNS query in UDP behind two tags, an authentication header and the header of a
datagram in one fragment. -/
def sampleEncapsulation : Encapsulation where
  link := .ethernet ⟨List.replicate 12 0, rfl⟩
    [{ service := true, control := 1 }, { service := false, control := 2 }]
  ip := .v6
    { traffic := 0, mixed := 0, label := 0, hopLimit := 64, src := 1, dst := 2
      extensions := [.authentication 1 ⟨List.replicate 10 0, rfl⟩,
        .fragment 0 1 ⟨List.replicate 4 0, rfl⟩] }
  carried := .udp 5000 53 0 [7] []
  fits := by decide

/-- The packet of the sample frame. -/
theorem parseLink_encode_sample :
    parseLinkPacket Quic.sampleCiphers sampleSurroundings 1 (sampleEncapsulation.frame [0, 0]) =
      some
        { proto := .udp, src := .v6 1, sport := 5000, dst := .v6 2, dport := 53, bytes := 69
          sni := none, dnsAddrs := [] } := by
  have hpacket := (parseLink_encode Quic.sampleCiphers sampleSurroundings).1 sampleEncapsulation
    [0, 0] ⟨by decide, by decide, by decide⟩
  rw [show (1 : UInt16) = sampleEncapsulation.link.linktype from rfl, hpacket]
  decide

end SocketTrail.Pcap
