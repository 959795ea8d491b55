/-
# From a captured frame to its endpoints

`linkTransport` strips the link header, the VLAN tags and the IP header of a frame,
and `parseLink` delivers the transport segment: its endpoints, the bytes it stands
for and its payload. What the payload says, host names and DNS answers, is read from
the segment afterwards and never decides whether a frame is accepted.
-/

import SocketTrail.Foundation.Bytes
import SocketTrail.Net.Address

namespace SocketTrail.Pcap

open SocketTrail.Foundation SocketTrail.Net

/-- A transport segment with its endpoints. -/
structure Segment where
  proto : Proto
  src : IpAddr
  sport : UInt16
  dst : IpAddr
  dport : UInt16
  bytes : ℕ
  payload : Bytes
  deriving DecidableEq, Repr

/-- The packet of a segment, with the names its payload announced. -/
def Segment.packet (g : Segment) (sni : Option String) (dnsAddrs : List (String × IpAddr × ℕ)) :
    Packet where
  proto := g.proto
  src := g.src
  sport := g.sport
  dst := g.dst
  dport := g.dport
  bytes := g.bytes
  sni := sni
  dnsAddrs := dnsAddrs

/-- A TCP or UDP segment that stands for `bytes` bytes of IP traffic. -/
def parseL4 (proto : ℕ) (src dst : IpAddr) (bytes : ℕ) (d : Bytes) : Option Segment := do
  if proto = 6 then
    let off := (← d[12]?).toNat / 16 * 4
    if off < 20 ∨ d.length < off then none
    else
      some
        { proto := .tcp, src := src, sport := UInt16.ofNat (← be16 d 0), dst := dst,
          dport := UInt16.ofNat (← be16 d 2), bytes := bytes, payload := d.drop off }
  else if proto = 17 then
    let len ← be16 d 4
    if len < 8 ∨ d.length < 8 then none
    else
      some
        { proto := .udp, src := src, sport := UInt16.ofNat (← be16 d 0), dst := dst,
          dport := UInt16.ofNat (← be16 d 2), bytes := bytes,
          payload := (d.take (min len d.length)).drop 8 }
  else none

/-- A TCP or UDP segment with its header, and the bytes it stands for. -/
structure Transport where
  proto : ℕ
  src : IpAddr
  dst : IpAddr
  bytes : ℕ
  data : Bytes
  deriving DecidableEq, Repr

/-- The segment of a transport header. -/
def Transport.segment (t : Transport) : Option Segment :=
  parseL4 t.proto t.src t.dst t.bytes t.data

/-- The IPv4 address at position `o`. -/
def ipv4At (d : Bytes) (o : ℕ) : IpAddr :=
  .ofOctets (d.getD o 0) (d.getD (o + 1) 0) (d.getD (o + 2) 0) (d.getD (o + 3) 0)

/-- What an unfragmented IPv4 datagram carries; bytes after its total length are
padding. -/
def ipv4Transport (d : Bytes) : Option Transport := do
  let first := (← d[0]?).toNat
  if first / 16 ≠ 4 ∨ (← be16 d 6) % 8192 ≠ 0 then none
  else
    let ihl := first % 16 * 4
    if ihl < 20 ∨ d.length < ihl then none
    else
      let total ← be16 d 2
      if total < ihl then none
      else
        let d := d.take (min d.length total)
        let proto := (← d[9]?).toNat
        let data ← getFrom d ihl
        some { proto := proto, src := ipv4At d 12, dst := ipv4At d 16, bytes := total, data := data }

/-- What is carried behind at most `fuel` extension headers, the next one of kind
`next` at position `off`. -/
def ipv6Payload (src dst : IpAddr) (total : ℕ) (d : Bytes) : ℕ → ℕ → ℕ → Option Transport
  | 0, _, _ => none
  | fuel + 1, next, off => do
      if next = 6 ∨ next = 17 then
        let data ← getFrom d off
        some { proto := next, src := src, dst := dst, bytes := total, data := data }
      else
        let size ←
          if next = 0 ∨ next = 43 ∨ next = 60 then (d[off + 1]?).map fun n => (n.toNat + 1) * 8
          else if next = 51 then (d[off + 1]?).map fun n => (n.toNat + 2) * 4
          else if next = 44 then
            -- any fragment but a whole datagram is dropped
            (be16 d (off + 2)).bind fun word => if word / 8 ≠ 0 then none else some 8
          else none
        let next ← d[off]?
        if off + size > d.length then none
        else ipv6Payload src dst total d fuel next.toNat (off + size)

/-- What an IPv6 datagram carries; bytes after its payload length are padding. -/
def ipv6Transport (d : Bytes) : Option Transport := do
  if d.length < 40 ∨ (d.getD 0 0).toNat / 16 ≠ 6 then none
  else
    let payloadLen ← be16 d 4
    let next ← d[6]?
    let d := d.take (min d.length (40 + payloadLen))
    ipv6Payload (.ofBytes ((d.drop 8).take 16)) (.ofBytes ((d.drop 24).take 16))
      (payloadLen + 40) d 8 next.toNat 40

/-- Skip at most `fuel` VLAN tags; the result is the type of what follows and
where it starts. -/
def skipVlan (d : Bytes) : ℕ → ℕ → ℕ → Option (ℕ × ℕ)
  | 0, ethertype, off => some (ethertype, off)
  | fuel + 1, ethertype, off =>
      if ethertype = 0x8100 ∨ ethertype = 0x88a8 then
        (be16 d (off + 2)).bind fun ethertype => skipVlan d fuel ethertype (off + 4)
      else some (ethertype, off)

/-- What a frame of the given link type carries: Ethernet, LINUX_SLL, LINUX_SLL2 or
raw IP. -/
def linkTransport (linktype : UInt16) (d : Bytes) : Option Transport := do
  let (ethertype, off) ←
    if linktype = 1 then (be16 d 12).map fun e => (e, 14)
    else if linktype = 113 then (be16 d 14).map fun e => (e, 16)
    else if linktype = 276 then (be16 d 0).map fun e => (e, 20)
    else if linktype = 101 ∨ linktype = 12 ∨ linktype = 14 then
      (d[0]?).map fun b => (if b.toNat / 16 = 6 then 0x86DD else 0x0800, 0)
    else none
  let (ethertype, off) ← skipVlan d 2 ethertype off
  if ethertype = 0x0800 then ipv4Transport (← getFrom d off)
  else if ethertype = 0x86DD then ipv6Transport (← getFrom d off)
  else none

/-- The segment of a frame is read from what the frame carries. -/
def parseLink (linktype : UInt16) (d : Bytes) : Option Segment :=
  (linkTransport linktype d).bind Transport.segment

/-- Binding behind a case distinction. -/
theorem ite_bind {α β : Type*} {P : Prop} [Decidable P] (o o' : Option α) (f : α → Option β) :
    (if P then o else o').bind f = if P then o.bind f else o'.bind f := by
  split <;> rfl

/-! ## Addresses in bytes -/

/-- The four bytes of an IPv4 address make up the address. -/
theorem ofOctets_beBytes (addr : BitVec 32) :
    IpAddr.ofOctets (UInt8.ofNat (addr.toNat / 256 / 256 / 256))
      (UInt8.ofNat (addr.toNat / 256 / 256)) (UInt8.ofNat (addr.toNat / 256))
      (UInt8.ofNat addr.toNat) = .v4 addr := by
  have hlt := addr.isLt
  rw [IpAddr.ofOctets]
  simp only [UInt8.toNat_ofNat']
  congr 1
  apply BitVec.eq_of_toNat_eq
  rw [BitVec.toNat_ofNat]
  omega

theorem ofBytes_beBytes (addr : BitVec 128) :
    IpAddr.ofBytes (beBytes 16 addr.toNat) = .v6 addr := by
  have hback : beNat (beBytes 16 addr.toNat) = addr.toNat := beNat_beBytes_of_lt addr.isLt
  rw [IpAddr.ofBytes]
  change IpAddr.v6 (BitVec.ofNat 128 (beNat (beBytes 16 addr.toNat))) = _
  rw [hback, BitVec.ofNat_toNat, BitVec.setWidth_eq]

end SocketTrail.Pcap
