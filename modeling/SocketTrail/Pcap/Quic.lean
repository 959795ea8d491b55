/-
# ClientHello messages in QUIC

The keys of an Initial packet follow from the connection ID that its header
shows, so its CRYPTO frames can be read. The assembler collects them per
connection until the ClientHello is complete.

HKDF, AES and AES-GCM are parameters. Instants are clock readings in nanoseconds.
-/

import SocketTrail.Foundation.Execution
import SocketTrail.Foundation.KeyedMap
import SocketTrail.Foundation.Reassembly
import SocketTrail.Net.Address
import SocketTrail.Pcap.Hello

namespace SocketTrail.Pcap.Quic

open SocketTrail.Foundation SocketTrail.Net

/-! ## Versions and keys -/

structure Version where
  id : ℕ
  salt : Bytes
  key : String
  iv : String
  hp : String
  /-- The packet type of an Initial packet. -/
  initial : ℕ
  /-- The packet type of a Retry packet. -/
  retry : ℕ
  deriving DecidableEq, Repr

def versions : List Version :=
  [{ id := 1
     salt := [0x38, 0x76, 0x2c, 0xf7, 0xf5, 0x59, 0x34, 0xb3, 0x4d, 0x17, 0x9a, 0xe6, 0xa4, 0xc8,
       0x0c, 0xad, 0xcc, 0xbb, 0x7f, 0x0a]
     key := "quic key"
     iv := "quic iv"
     hp := "quic hp"
     initial := 0
     retry := 3 },
   { id := 0x6b3343cf
     salt := [0x0d, 0xed, 0xe3, 0xde, 0xf7, 0x00, 0xa6, 0xdb, 0x81, 0x93, 0x81, 0xbe, 0x6e, 0x26,
       0x9d, 0xcb, 0xf9, 0xbd, 0x2e, 0xd9]
     key := "quicv2 key"
     iv := "quicv2 iv"
     hp := "quicv2 hp"
     initial := 1
     retry := 0 }]

/-- The cryptography. -/
structure Ciphers where
  /-- HKDF-Extract with a salt, from the key material. -/
  extract : Bytes → Bytes → Bytes
  /-- HKDF-Expand of a key, the parts of the info and the length; `none` when the
  length is refused. -/
  expand : Bytes → List Bytes → ℕ → Option Bytes
  /-- One block under AES-128. -/
  encryptBlock : Bytes → Bytes → Bytes
  /-- AES-128-GCM with key, nonce, associated data, ciphertext and tag; `none`
  when the tag does not fit. -/
  decrypt : Bytes → Bytes → Bytes → Bytes → Bytes → Option Bytes

/-- The bytes of an ASCII text. -/
def asciiBytes (s : String) : Bytes := s.toList.map fun c => UInt8.ofNat c.toNat

def expandLabel (c : Ciphers) (hk : Bytes) (label : String) (len : ℕ) : Option Bytes :=
  c.expand hk
    [beBytes 2 len, [UInt8.ofNat (6 + label.length)], asciiBytes "tls13 ", asciiBytes label, [0]]
    len

/-- The keys of the client's Initial packets. -/
structure Keys where
  key : Bytes
  iv : Bytes
  hp : Bytes
  deriving DecidableEq, Repr

def Keys.new (c : Ciphers) (v : Version) (dcid : Bytes) : Option Keys := do
  let secret ← expandLabel c (c.extract v.salt dcid) "client in" 32
  let key ← expandLabel c secret v.key 16
  let iv ← expandLabel c secret v.iv 12
  let hp ← expandLabel c secret v.hp 16
  some { key := key, iv := iv, hp := hp }

def xorBytes (a b : Bytes) : Bytes := List.zipWith (· ^^^ ·) a b

def Keys.nonce (k : Keys) (pn : ℕ) : Bytes :=
  k.iv.take 4 ++ xorBytes (k.iv.drop 4) (beBytes 8 pn)

/-! ## Headers -/

/-- A number of variable length, and the number of bytes it takes. -/
def varint (d : Bytes) (p : ℕ) : Option (ℕ × ℕ) := do
  let first := (← d[p]?).toNat
  let n := 2 ^ (first / 64)
  let rest ← getSlice d (p + 1) (n - 1)
  some (rest.foldl (fun v b => v * 256 + b.toNat) (first % 64), n)

structure Header where
  version : Version
  initial : Bool
  dcid : Bytes
  pnOff : ℕ
  «end» : ℕ
  deriving DecidableEq, Repr

/-- The packet with a long header at the start of `d`. Nothing is read behind a
short header, another version, a Retry or a truncated packet. -/
def header (d : Bytes) : Option Header := do
  let first := (← d[0]?).toNat
  if first < 0x80 then none
  else
    let id := beNat (← getSlice d 1 4)
    let version ← versions.find? fun v => v.id = id
    let ptype := first / 16 % 4
    if ptype = version.retry then none
    else
      let dcidLen := (← d[5]?).toNat
      if 20 < dcidLen then none
      else
        let dcid ← getSlice d 6 dcidLen
        let p := 6 + dcidLen
        let p := p + 1 + (← d[p]?).toNat
        let initial : Bool := ptype = version.initial
        let p ← if initial then (varint d p).map fun (token, n) => p + n + token else some p
        let (len, n) ← varint d p
        let p := p + n
        let stop := p + len
        if stop ≤ d.length then
          some { version := version, initial := initial, dcid := dcid, pnOff := p, «end» := stop }
        else none

/-! ## Opening a packet -/

/-- The packet number nearest to the next one expected whose lowest `bits` bits
are `truncated`. -/
def decodeNumber (truncated bits : ℕ) (largest : Option ℕ) : ℕ :=
  let expected := largest.elim 0 (· + 1)
  let window := 2 ^ bits
  let half := window / 2
  let candidate := expected / window * window ||| truncated
  if candidate + half ≤ expected ∧ candidate < 2 ^ 62 - window then candidate + window
  else if expected + half < candidate ∧ window ≤ candidate then candidate - window
  else candidate

/-- Remove the protection of the header and decrypt the packet: the plaintext and
the packet number. -/
def openPacket (c : Ciphers) (keys : Keys) (d : Bytes) (h : Header) (largest : Option ℕ) :
    Option (Bytes × ℕ) := do
  let pkt := d.take h.end
  let mask := c.encryptBlock keys.hp (← getSlice pkt (h.pnOff + 4) 16)
  let first := pkt.getD 0 0 ^^^ (mask.getD 0 0 &&& 0x0f)
  let pkt := pkt.set 0 first
  let pnLen := first.toNat % 4 + 1
  let number := xorBytes ((pkt.drop h.pnOff).take pnLen) ((mask.drop 1).take pnLen)
  let pkt := overwrite pkt h.pnOff number
  let pn := decodeNumber (beNat number) (pnLen * 8) largest
  let body := h.pnOff + pnLen
  if h.end < 16 ∨ h.end - 16 < body then none
  else
    let tagAt := h.end - 16
    let plain ← c.decrypt keys.key (keys.nonce pn) (pkt.take body)
      ((pkt.drop body).take (tagAt - body)) (pkt.drop tagAt)
    some (plain, pn)

/-! ## Frames -/

/-- Pass over `count` numbers from position `p` on. -/
def skip (d : Bytes) : ℕ → ℕ → Option ℕ
  | 0, p => some p
  | count + 1, p => do
      let (_, n) ← varint d p
      skip d count (p + n)

/-- Read a frame of type `t` whose fields begin at position `p`: the position
behind it, and the offset and data of a CRYPTO frame. Any other frame but
PADDING, PING, ACK and CONNECTION_CLOSE cannot be read. -/
def frame (d : Bytes) (t : UInt8) (p : ℕ) : Option (ℕ × Option (ℕ × Bytes)) :=
  if t = 0x00 ∨ t = 0x01 then some (p, none)
  else if t = 0x02 ∨ t = 0x03 then do
    let p ← skip d 2 p
    let (ranges, n) ← varint d p
    let p ← skip d (1 + 2 * ranges) (p + n)
    let p ← if t = 0x03 then skip d 3 p else some p
    some (p, none)
  else if t = 0x06 then do
    let (off, n) ← varint d p
    let p := p + n
    let (len, n) ← varint d p
    let p := p + n
    let data ← getSlice d p len
    some (p + len, some (off, data))
  else if t = 0x1c then do
    let p ← skip d 2 p
    let (len, n) ← varint d p
    some (p + n + len, none)
  else none

/-- The CRYPTO frames from position `p` on. A frame takes at least one byte, so
the length of the plaintext bounds their number. -/
def cryptoFramesFrom (d : Bytes) : ℕ → ℕ → List (ℕ × Bytes)
  | 0, _ => []
  | fuel + 1, p =>
      match d[p]? with
      | none => []
      | some t =>
          match frame d t (p + 1) with
          | none => []
          | some (next, found) => found.toList ++ cryptoFramesFrom d fuel next

/-- The offset and data of every CRYPTO frame of a plaintext. -/
def cryptoFrames (d : Bytes) : List (ℕ × Bytes) := cryptoFramesFrom d d.length 0

/-! ## Flows -/

def maxHello : ℕ := 16 * 1024

def maxFlows : ℕ := 256

/-- How long a flow is kept without a packet. -/
def ttl : ℕ := 10000000000

/-- A connection: the client, its port and the connection ID it chose first. -/
abbrev Key : Type := IpAddr × UInt16 × Bytes

/-- The CRYPTO stream of one connection. -/
structure Flow where
  buf : Bytes
  /-- Which bytes of `buf` have been received. -/
  filled : List Bool
  /-- How far `buf` is received without a gap. -/
  ready : ℕ
  seen : ℕ
  done : Bool
  /-- The largest packet number. -/
  largest : Option ℕ
  deriving DecidableEq, Repr

/-- The flow of a connection that was not seen before. -/
def Flow.fresh (now : ℕ) : Flow where
  buf := []
  filled := []
  ready := 0
  seen := now
  done := false
  largest := none

namespace Flow

/-- Forget the stream. -/
def finish (f : Flow) : Flow := { f with done := true, buf := [], filled := [] }

/-- Put the data of a frame into its place. -/
def place (f : Flow) (off : ℕ) (data : Bytes) : Flow :=
  let stop := min (off + data.length) maxHello
  let f :=
    if off < stop then
      { f with
        buf := overwrite (grow f.buf stop 0) off (data.take (stop - off))
        filled := overwrite (grow f.filled stop false) off (List.replicate (stop - off) true) }
    else f
  { f with ready := advance f.filled f.ready }

/-- Take the data of a frame in, and return the name once the ClientHello is
complete. -/
def add (f : Flow) (off : ℕ) (data : Bytes) : Flow × Option String :=
  let f := f.place off data
  if f.buf.length < 4 ∨ f.ready < 4 then (f, none)
  else
    let total := helloTotal f.buf
    if f.buf.getD 0 0 ≠ 1 ∨ maxHello < total then (f.finish, none)
    else if f.ready < total then (f, none)
    else (f.finish, clientHelloSni (f.buf.take total))

/-- Take the frames of one packet in, until the flow is done. -/
def addFrames : Flow → Option String → List (ℕ × Bytes) → Flow × Option String
  | f, sni, [] => (f, sni)
  | f, sni, (off, data) :: rest =>
      if f.done then (f, sni)
      else addFrames (f.add off data).1 ((f.add off data).2.or sni) rest

/-- Take an opened packet in. -/
def receive (f : Flow) (sni : Option String) (plain : Bytes) (pn : ℕ) : Flow × Option String :=
  { f with largest := some (f.largest.elim pn (max pn)) }.addFrames sni (cryptoFrames plain)

end Flow

/-! ## The assembler -/

/-- The assembler: the connections that packets were seen of. -/
structure Assembler where
  flows : KeyedMap Key Flow

/-- One UDP datagram, with the clock readings and the iteration order it meets. -/
structure Datagram where
  src : IpAddr
  sport : UInt16
  payload : Bytes
  clock : Clock
  order : HashOrder Key

namespace Assembler

/-- The flow was not seen for too long. -/
def expired (a : Assembler) (key : Key) (now : ℕ) : Bool :=
  (a.flows.lookup key).any fun f => ttl ≤ now - f.seen

/-- The flows once the flow of a packet is dropped if it expired. -/
def dropExpired (a : Assembler) (key : Key) (now : ℕ) : Assembler :=
  if a.expired key now then { flows := a.flows.erase key } else a

/-- The flows with room for a new one: expired ones go, and if that does not
suffice, the one that was not seen for longest. -/
def makeRoom (a : Assembler) (key : Key) (now : ℕ) (order : HashOrder Key) : KeyedMap Key Flow :=
  if key ∉ a.flows ∧ maxFlows ≤ a.flows.size then
    let kept := KeyedMap.filterMap (fun _ f => if now - f.seen < ttl then some f else none) a.flows
    if maxFlows ≤ kept.size then
      match KeyedMap.oldest order Flow.seen kept with
      | some old => kept.erase old
      | none => kept
    else kept
  else a.flows

/-- Find or open the flow of a packet, and give it what the packet holds unless it
is done. -/
def deliver (a : Assembler) (key : Key) (now : ℕ) (order : HashOrder Key) (sni : Option String)
    (plain : Bytes) (pn : ℕ) : Assembler × Option String :=
  let flows := a.makeRoom key now order
  let flow := { (flows.lookup key).getD (.fresh now) with seen := now }
  if flow.done then ({ flows := flows.insert key flow }, sni)
  else
    let (flow, sni) := flow.receive sni plain pn
    ({ flows := flows.insert key flow }, sni)

/-- Process the `i`-th packet of a datagram. -/
def packet (c : Ciphers) (e : Datagram) (i : ℕ) (a : Assembler) (d : Bytes) (h : Header)
    (sni : Option String) : Assembler × Option String :=
  let key : Key := (e.src, e.sport, h.dcid)
  let a := a.dropExpired key (e.clock.read (2 * i))
  let largest := (a.flows.lookup key).bind Flow.largest
  let opened :=
    if h.initial then
      (Keys.new c h.version h.dcid).bind fun keys => openPacket c keys d h largest
    else none
  match opened with
  | none => (a, sni)
  | some (plain, pn) => a.deliver key (e.clock.read (2 * i + 1)) e.order sni plain pn

/-- Process the packets of a datagram from the `i`-th on, which `d` begins with. A
packet takes at least one byte, so the length of the datagram bounds their
number. -/
def feedFrom (c : Ciphers) (e : Datagram) :
    ℕ → ℕ → Assembler → Bytes → Option String → Assembler × Option String
  | 0, _, a, _, sni => (a, sni)
  | fuel + 1, i, a, d, sni =>
      match header d with
      | none => (a, sni)
      | some h =>
          let (a, sni) := a.packet c e i d h sni
          feedFrom c e fuel (i + 1) a (d.drop h.end) sni

/-- Process a datagram; the name is returned with the one that completes the
ClientHello. -/
def feed (c : Ciphers) (a : Assembler) (e : Datagram) : Assembler × Option String :=
  a.feedFrom c e e.payload.length 0 e.payload none

end Assembler

end SocketTrail.Pcap.Quic
