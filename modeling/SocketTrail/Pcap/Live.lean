/-
# From a captured frame to a packet

`parseLinkState` is given the assemblers that a caller lends: none when a frame is
read on its own, both during a capture. The assembler of TCP streams reads the
transport header too. They decide about the host name of a packet and about nothing
else: with or without them the packet is that of the segment of `parseLink`.
-/

import SocketTrail.Pcap.Dns
import SocketTrail.Pcap.Frame
import SocketTrail.Pcap.Quic
import SocketTrail.Pcap.Tls

namespace SocketTrail.Pcap

open SocketTrail.Foundation SocketTrail.Net

/-! ## Names -/

/-- The DNS message in a payload. In TCP two bytes with its length stand in front; a
message in several segments is not put together. -/
def Segment.dnsMessage (g : Segment) : Option Bytes :=
  match g.proto with
  | .tcp => (getFrom g.payload 2).filter fun m => be16 g.payload 0 = some m.length
  | .udp => some g.payload

/-- The addresses that a segment announces. -/
def Segment.dnsAddrs (g : Segment) : List (String × IpAddr × ℕ) :=
  if g.sport = 53 ∨ g.dport = 53 ∨ g.sport = 5353 ∨ g.dport = 5353 then
    ((g.dnsMessage.filter fun m => !m.isEmpty).map parseDns).getD []
  else []

/-- The assemblers that a caller lends. -/
structure Lent where
  quic : Option Quic.Assembler
  tcp : Option Tls.Assembler

/-- The clock readings and the iteration orders that one frame meets. -/
structure Surroundings where
  clock : Clock
  tcpOrder : HashOrder Tls.Key
  quicOrder : HashOrder Quic.Key

/-- What the stream assembler is fed with; `none` when the header is cut off. -/
def Transport.feed (t : Transport) (s : Surroundings) (g : Segment) : Option Tls.Feed := do
  let sequence ← getSlice t.data 4 4
  let flags ← t.data[13]?
  some
    { key := (g.src, g.sport, g.dst, g.dport), sequence := UInt32.ofNat (beNat sequence)
      flags := flags, data := g.payload, clock := s.clock, order := s.tcpOrder }

def Segment.datagram (g : Segment) (s : Surroundings) : Quic.Datagram where
  src := g.src
  sport := g.sport
  payload := g.payload
  clock := s.clock
  order := s.quicOrder

/-- The host name of a segment, and the assemblers afterwards. -/
def Transport.readSni (t : Transport) (c : Quic.Ciphers) (s : Surroundings) (l : Lent)
    (g : Segment) : Option (Option String × Lent) :=
  match g.proto with
  | .tcp =>
      match l.tcp with
      | none => some (parseSni g.payload, l)
      | some a => (t.feed s g).map fun e => ((a.feed e).2, { l with tcp := some (a.feed e).1 })
  | .udp =>
      match l.quic with
      | none => some (none, l)
      | some a =>
          if g.payload[0]?.any fun b => b &&& 0x80 ≠ 0 then
            some ((a.feed c (g.datagram s)).2, { l with quic := some (a.feed c (g.datagram s)).1 })
          else some (none, l)

/-- The packet of a transport header, and the assemblers afterwards. -/
def parseL4State (c : Quic.Ciphers) (s : Surroundings) (l : Lent) (t : Transport) :
    Option (Packet × Lent) := do
  let g ← t.segment
  let (sni, l) ← t.readSni c s l g
  some (g.packet sni g.dnsAddrs, l)

/-! ## Frames -/

def parseLinkState (c : Quic.Ciphers) (s : Surroundings) (linktype : UInt16) (d : Bytes)
    (l : Lent) : Option (Packet × Lent) :=
  (linkTransport linktype d).bind (parseL4State c s l)

/-- The packet of a frame that is read on its own. -/
def parseLinkPacket (c : Quic.Ciphers) (s : Surroundings) (linktype : UInt16) (d : Bytes) :
    Option Packet :=
  (parseLinkState c s linktype d { quic := none, tcp := none }).map Prod.fst

/-- The assemblers of a capture. -/
structure Parsers where
  quic : Quic.Assembler
  tcp : Tls.Assembler

/-- The packet of a frame in a capture, and the assemblers behind it. -/
def parseLinkLive (c : Quic.Ciphers) (s : Surroundings) (linktype : UInt16) (d : Bytes)
    (p : Parsers) : Option Packet × Parsers :=
  match parseLinkState c s linktype d { quic := some p.quic, tcp := some p.tcp } with
  | none => (none, p)
  | some (pkt, l) => (some pkt, { quic := l.quic.getD p.quic, tcp := l.tcp.getD p.tcp })

/-! ## What the assemblers decide -/

/-- Two packets that say the same, up to the host name. -/
structure Agrees (p q : Packet) : Prop where
  proto : p.proto = q.proto
  src : p.src = q.src
  sport : p.sport = q.sport
  dst : p.dst = q.dst
  dport : p.dport = q.dport
  bytes : p.bytes = q.bytes
  dnsAddrs : p.dnsAddrs = q.dnsAddrs

/-- The packets of one segment differ in the host name at most. -/
theorem Segment.agrees (g : Segment) (sni sni' : Option String)
    (dnsAddrs : List (String × IpAddr × ℕ)) :
    Agrees (g.packet sni dnsAddrs) (g.packet sni' dnsAddrs) :=
  ⟨rfl, rfl, rfl, rfl, rfl, rfl, rfl⟩

/-- A TCP header is at least twenty bytes long. -/
theorem Transport.length_of_tcp {t : Transport} {g : Segment} (h : t.segment = some g)
    (htcp : g.proto = .tcp) : 20 ≤ t.data.length := by
  unfold Transport.segment parseL4 at h
  split at h
  · obtain ⟨first, -, h⟩ := Option.bind_eq_some_iff.mp h
    dsimp only at h
    split at h
    · cases h
    · omega
  · split at h
    · obtain ⟨len, -, h⟩ := Option.bind_eq_some_iff.mp h
      split at h
      · cases h
      · obtain ⟨sport, -, h⟩ := Option.bind_eq_some_iff.mp h
        obtain ⟨dport, -, h⟩ := Option.bind_eq_some_iff.mp h
        obtain rfl := Option.some.inj h
        cases htcp
    · cases h

/-- The stream assembler can be fed with every segment that is accepted. -/
theorem Transport.feed_isSome {t : Transport} {g : Segment} (h : t.segment = some g)
    (htcp : g.proto = .tcp) (s : Surroundings) : ∃ e, t.feed s g = some e := by
  have hlength := t.length_of_tcp h htcp
  have hsequence : getSlice t.data 4 4 = some ((t.data.drop 4).take 4) := if_pos (by omega)
  have hflags : t.data[13]? = some t.data[13] := List.getElem?_eq_getElem (by omega)
  unfold Transport.feed
  rw [hsequence, hflags]
  exact ⟨_, rfl⟩

/-- Whatever is lent, an accepted segment gives a packet. -/
theorem parseL4State_of_segment {t : Transport} {g : Segment} (h : t.segment = some g)
    (c : Quic.Ciphers) (s : Surroundings) (l : Lent) :
    ∃ sni l', parseL4State c s l t = some (g.packet sni g.dnsAddrs, l') := by
  have hread : ∃ sni l', t.readSni c s l g = some (sni, l') := by
    unfold Transport.readSni
    split
    · rename_i htcp
      obtain ⟨e, hfeed⟩ := t.feed_isSome h htcp s
      rw [hfeed]
      split
      · exact ⟨_, _, rfl⟩
      · exact ⟨_, _, rfl⟩
    · split
      · exact ⟨_, _, rfl⟩
      · split
        · exact ⟨_, _, rfl⟩
        · exact ⟨_, _, rfl⟩
  obtain ⟨sni, l', hread⟩ := hread
  refine ⟨sni, l', ?_⟩
  simp only [parseL4State, h, hread, Option.bind_eq_bind, Option.bind_some]

/-- A frame is accepted or not, whatever is lent, and its segment says everything
but the host name. -/
theorem parseLinkState_cases (c : Quic.Ciphers) (s : Surroundings) (linktype : UInt16) (d : Bytes)
    (l : Lent) :
    (parseLink linktype d = none ∧ parseLinkState c s linktype d l = none) ∨
      ∃ g sni l', parseLink linktype d = some g ∧
        parseLinkState c s linktype d l = some (g.packet sni g.dnsAddrs, l') := by
  rw [parseLink, parseLinkState]
  cases linkTransport linktype d with
  | none => exact .inl ⟨rfl, rfl⟩
  | some t =>
      rw [Option.bind_some, Option.bind_some]
      cases hsegment : t.segment with
      | none =>
          refine .inl ⟨rfl, ?_⟩
          rw [parseL4State, hsegment]
          rfl
      | some g =>
          obtain ⟨sni, l', hpacket⟩ := parseL4State_of_segment hsegment c s l
          exact .inr ⟨g, sni, l', rfl, hpacket⟩

theorem parseLinkPacket_cases (c : Quic.Ciphers) (s : Surroundings) (linktype : UInt16)
    (d : Bytes) :
    (parseLink linktype d = none ∧ parseLinkPacket c s linktype d = none) ∨
      ∃ g sni, parseLink linktype d = some g ∧
        parseLinkPacket c s linktype d = some (g.packet sni g.dnsAddrs) := by
  unfold parseLinkPacket
  rcases parseLinkState_cases c s linktype d { quic := none, tcp := none } with
    ⟨hnone, hstate⟩ | ⟨g, sni, l', hsome, hstate⟩
  · rw [hstate]
    exact .inl ⟨hnone, rfl⟩
  · rw [hstate]
    exact .inr ⟨g, sni, hsome, rfl⟩

theorem parseLinkLive_cases (c : Quic.Ciphers) (s : Surroundings) (linktype : UInt16)
    (d : Bytes) (p : Parsers) :
    (parseLink linktype d = none ∧ (parseLinkLive c s linktype d p).1 = none) ∨
      ∃ g sni, parseLink linktype d = some g ∧
        (parseLinkLive c s linktype d p).1 = some (g.packet sni g.dnsAddrs) := by
  unfold parseLinkLive
  rcases parseLinkState_cases c s linktype d { quic := some p.quic, tcp := some p.tcp } with
    ⟨hnone, hstate⟩ | ⟨g, sni, l', hsome, hstate⟩
  · rw [hstate]
    exact .inl ⟨hnone, rfl⟩
  · rw [hstate]
    exact .inr ⟨g, sni, hsome, rfl⟩

/-- A frame is accepted in a capture exactly when it is accepted on its own, and
the two packets differ in the host name at most. -/
theorem parseLinkLive_agrees (c : Quic.Ciphers) (s s' : Surroundings) (linktype : UInt16)
    (d : Bytes) (p : Parsers) :
    Option.Rel Agrees (parseLinkLive c s linktype d p).1 (parseLinkPacket c s' linktype d) := by
  rcases parseLinkLive_cases c s linktype d p with ⟨hnone, hlive⟩ | ⟨g, sni, hsome, hlive⟩
  · rcases parseLinkPacket_cases c s' linktype d with ⟨-, hpacket⟩ | ⟨g, sni, hsome, -⟩
    · rw [hlive, hpacket]
      exact .none
    · rw [hnone] at hsome
      cases hsome
  · rcases parseLinkPacket_cases c s' linktype d with ⟨hnone, -⟩ | ⟨g', sni', hsome', hpacket⟩
    · rw [hnone] at hsome
      cases hsome
    · obtain rfl := Option.some.inj (hsome.symm.trans hsome')
      rw [hlive, hpacket]
      exact .some (g.agrees sni sni' _)

/-- A DNS response without content, as a raw IP frame from `1.1.1.1`. -/
def sampleFrame : Bytes :=
  [0x45, 0, 0, 28, 0, 0, 0, 0, 64, 17, 0, 0, 1, 1, 1, 1, 10, 0, 0, 1, 0, 53, 0x13, 0x88, 0, 8, 0, 0]

def samplePacket : Packet where
  proto := .udp
  src := .ofOctets 1 1 1 1
  sport := 53
  dst := .ofOctets 10 0 0 1
  dport := 5000
  bytes := 28
  sni := none
  dnsAddrs := []

def sampleSurroundings : Surroundings where
  clock := .still 0
  tcpOrder := .stored
  quicOrder := .stored

end SocketTrail.Pcap
