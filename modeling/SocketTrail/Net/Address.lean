/-
# Addresses, tuples, sockets and packets

The data that the socket table and the packet parser hand to the connection
history: IP addresses with the predicates of the standard library that the
program consults, the tuple that identifies a connection, one row of a socket
snapshot, and one parsed packet.
-/

import Mathlib.Data.BitVec
import Mathlib.Data.Finset.Basic

namespace SocketTrail.Net

/-! ## IP addresses -/

/-- An IP address, its bytes read as one big-endian number. -/
inductive IpAddr
  | v4 (addr : BitVec 32)
  | v6 (addr : BitVec 128)
  deriving DecidableEq, Repr

namespace IpAddr

/-- The `i`-th byte of an IPv4 address, counted from the most significant. -/
def octet (addr : BitVec 32) (i : ℕ) : ℕ := addr.toNat / 256 ^ (3 - i) % 256

/-- The `i`-th 16-bit group of an IPv6 address, counted from the most
significant. -/
def segment (addr : BitVec 128) (i : ℕ) : ℕ := addr.toNat / 65536 ^ (7 - i) % 65536

/-- The IPv4 address `a.b.c.d`. -/
def ofOctets (a b c d : UInt8) : IpAddr :=
  v4 (BitVec.ofNat 32 (((a.toNat * 256 + b.toNat) * 256 + c.toNat) * 256 + d.toNat))

/-- The IPv6 address with these sixteen bytes. -/
def ofBytes (bytes : List UInt8) : IpAddr :=
  v6 (BitVec.ofNat 128 (bytes.foldl (fun n b => n * 256 + b.toNat) 0))

def isIpv4 : IpAddr → Bool
  | v4 _ => true
  | v6 _ => false

def isUnspecified : IpAddr → Bool
  | v4 a => a == 0
  | v6 a => a == 0

def isLoopback : IpAddr → Bool
  | v4 a => octet a 0 == 127
  | v6 a => a == 1

def isMulticast : IpAddr → Bool
  | v4 a => 224 ≤ octet a 0 && octet a 0 < 240
  | v6 a => segment a 0 / 256 == 255

def isBroadcast (a : BitVec 32) : Bool := a.toNat == 2 ^ 32 - 1

def isPrivate (a : BitVec 32) : Bool :=
  octet a 0 == 10 || (octet a 0 == 172 && 16 ≤ octet a 1 && octet a 1 < 32) ||
    (octet a 0 == 192 && octet a 1 == 168)

def isLinkLocal (a : BitVec 32) : Bool := octet a 0 == 169 && octet a 1 == 254

/-! ### Text -/

/-- The lower-case hexadecimal digits of a 16-bit group, without leading zeros. -/
def hexGroup (n : ℕ) : String := String.ofList (Nat.toDigits 16 n)

/-- The first longest run of zero groups, as its start and its length. -/
def longestZeros (groups : List ℕ) : ℕ × ℕ :=
  let scan := groups.foldl (fun (acc : ℕ × (ℕ × ℕ) × (ℕ × ℕ)) g =>
    let (i, current, longest) := acc
    if g = 0 then
      let current := if current.2 = 0 then (i, 1) else (current.1, current.2 + 1)
      (i + 1, current, if current.2 > longest.2 then current else longest)
    else (i + 1, (0, 0), longest)) (0, (0, 0), (0, 0))
  scan.2.2

def v4Text (a : BitVec 32) : String :=
  String.intercalate "." ((List.range 4).map fun i => toString (octet a i))

/-- The text form of an address, as the standard library prints it. -/
def text : IpAddr → String
  | v4 a => v4Text a
  | v6 a =>
      let groups := (List.range 8).map (segment a)
      if groups.take 5 = [0, 0, 0, 0, 0] ∧ segment a 5 = 65535 then
        "::ffff:" ++ v4Text (a.setWidth 32)
      else
        let (start, len) := longestZeros groups
        let colons (gs : List ℕ) := String.intercalate ":" (gs.map hexGroup)
        if len > 1 then colons (groups.take start) ++ "::" ++ colons (groups.drop (start + len))
        else colons groups

end IpAddr

/-- Where a connection leads. -/
inductive Scope
  | publicNet | privateNet | loopback | multicast | broadcast
  deriving DecidableEq, Repr

def Scope.text : Scope → String
  | .publicNet => "public"
  | .privateNet => "private"
  | .loopback => "loopback"
  | .multicast => "multicast"
  | .broadcast => "broadcast"

/-- The scope of an address. Shared (CGNAT) and reserved IPv4 ranges count as
private, so that no lookup about them leaves the host. -/
def classify : IpAddr → Scope
  | .v4 a =>
      if IpAddr.isLoopback (.v4 a) then .loopback
      else if IpAddr.isBroadcast a then .broadcast
      else if IpAddr.isMulticast (.v4 a) then .multicast
      else if IpAddr.isPrivate a || IpAddr.isLinkLocal a || IpAddr.octet a 0 == 0 ||
          240 ≤ IpAddr.octet a 0 || (IpAddr.octet a 0 == 100 && IpAddr.octet a 1 / 64 == 1) then
        .privateNet
      else .publicNet
  | .v6 a =>
      if IpAddr.isLoopback (.v6 a) then .loopback
      else if IpAddr.isMulticast (.v6 a) then .multicast
      -- fc00::/7, and fe80::/10 together with the old site-local fec0::/10
      else if IpAddr.segment a 0 / 512 == 126 || IpAddr.segment a 0 / 128 == 509 then .privateNet
      else .publicNet

/-! ## Connection tuples and socket rows -/

inductive Proto
  | tcp | udp
  deriving DecidableEq, Repr

def Proto.asStr : Proto → String
  | .tcp => "TCP"
  | .udp => "UDP"

/-- The tuple that identifies a connection. -/
structure ConnKey where
  proto : Proto
  «local» : IpAddr
  lport : UInt16
  remote : IpAddr
  rport : UInt16
  deriving DecidableEq, Repr

/-- The identifier of a row in the interface and in the connection map. -/
def keyId (k : ConnKey) : String :=
  String.intercalate "|" [k.proto.asStr, k.local.text, toString k.lport.toNat, k.remote.text,
    toString k.rport.toNat]

/-- Socket states of both platforms, and the states that the history itself
assigns to a row. -/
inductive SockState
  | new | active | closed | unconnected
  | established | synSent | synRecv | finWait1 | finWait2 | timeWait | close | closeWait
  | lastAck | listen | closing | deleteTcb | unknown
  deriving DecidableEq, Repr

def SockState.text : SockState → String
  | .new => "NEW"
  | .active => "ACTIVE"
  | .closed => "CLOSED"
  | .unconnected => "UNCONNECTED"
  | .established => "ESTABLISHED"
  | .synSent => "SYN_SENT"
  | .synRecv => "SYN_RECV"
  | .finWait1 => "FIN_WAIT1"
  | .finWait2 => "FIN_WAIT2"
  | .timeWait => "TIME_WAIT"
  | .close => "CLOSE"
  | .closeWait => "CLOSE_WAIT"
  | .lastAck => "LAST_ACK"
  | .listen => "LISTEN"
  | .closing => "CLOSING"
  | .deleteTcb => "DELETE_TCB"
  | .unknown => "UNKNOWN"

/-- The states in which a socket is already gone. -/
def SockState.terminal : SockState → Bool
  | .timeWait | .close | .deleteTcb => true
  | _ => false

/-- One row of a socket snapshot. -/
structure SockEntry where
  proto : Proto
  «local» : IpAddr
  lport : UInt16
  remote : IpAddr
  rport : UInt16
  state : SockState
  /-- The owner, when the scan found exactly one. -/
  pid : Option ℤ
  /-- The scan found several processes holding the socket. -/
  ambiguous : Bool
  /-- The identity of the socket, when the platform provides one: the inode on
  Linux, the creation time of a UDP socket on Windows. -/
  cookie : Option ℕ
  deriving DecidableEq, Repr

namespace SockEntry

/-- The tuple of a connected socket. -/
def key (s : SockEntry) : ConnKey where
  proto := s.proto
  «local» := s.local
  lport := s.lport
  remote := s.remote
  rport := s.rport

end SockEntry

/-- One packet, as the parser delivers it. -/
structure Packet where
  proto : Proto
  src : IpAddr
  sport : UInt16
  dst : IpAddr
  dport : UInt16
  bytes : ℕ
  /-- The host name of a ClientHello. -/
  sni : Option String
  /-- The answers of a DNS response: name, address and lifetime in seconds. -/
  dnsAddrs : List (String × IpAddr × ℕ)
  deriving DecidableEq, Repr

namespace Packet

/-- The tuple seen from the sending endpoint. -/
def forward (p : Packet) : ConnKey where
  proto := p.proto
  «local» := p.src
  lport := p.sport
  remote := p.dst
  rport := p.dport

/-- The tuple seen from the receiving endpoint. -/
def backward (p : Packet) : ConnKey where
  proto := p.proto
  «local» := p.dst
  lport := p.dport
  remote := p.src
  rport := p.sport

end Packet

end SocketTrail.Net
