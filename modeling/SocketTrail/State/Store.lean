/-
# The connection history

The store: connection rows by tuple, DNS names, local addresses and the UDP
socket table. The map of the names announced for an address has expiry, an overflow
mark and a trimming that never drops an address of the history. `applySockets` applies a snapshot of the socket table,
`applyPacket` one packet, `evict` keeps the history below its ceiling. Clock
readings and the iteration orders of hash maps are explicit inputs.
-/

import SocketTrail.Foundation.Execution
import SocketTrail.Foundation.KeyedMap
import SocketTrail.State.Conn
import Mathlib.Data.List.Sort

namespace SocketTrail.State

open SocketTrail.Foundation SocketTrail.Net

/-! ## Names of addresses -/

/-- The largest 64-bit value. -/
def u64Max : ℕ := 2 ^ 64 - 1

/-- One announced name and the instant at which it expires. -/
structure DnsName where
  name : String
  expires : ℕ
  deriving DecidableEq, Repr

/-- The names of one address. DNS suggests a name for an address and does not
prove the name of a flow. -/
structure DnsEntry where
  names : List DnsName := []
  overflowUntil : ℕ := 0
  deriving DecidableEq, Repr

/-- The only valid name, unless discarded names may still be valid. -/
def DnsEntry.unique (entry : DnsEntry) (now : ℕ) : Option String :=
  if entry.overflowUntil > now then none
  else
    match entry.names.filter fun n => n.expires > now with
    | [first] => some first.name
    | _ => none

/-- The ceiling of the name map. -/
def maxNames : ℕ := 20000

/-- Cut a map to nine tenths of the limit at the expense of addresses outside
the history; which of those go depends on the iteration order. The limits of the
program are small: nine times one is a number of 64 bits. -/
def trimIpMap {V : Type*} (order : HashOrder IpAddr) (map : KeyedMap IpAddr V)
    (used : List IpAddr) (limit : ℕ) : KeyedMap IpAddr V :=
  let excess := map.size - limit * 9 / 10
  if excess = 0 then map
  else KeyedMap.eraseAll (((order.arrange map.keys).filter fun ip => ip ∉ used).take excess) map

example : maxNames * 9 < 2 ^ 64 := by decide

/-- Learn a name with its lifetime in seconds. -/
def rememberNameFor (order : HashOrder IpAddr) (now : ℕ) (used : List IpAddr)
    (dns : KeyedMap IpAddr DnsEntry) (ip : IpAddr) (name : String) (ttl : ℕ) :
    KeyedMap IpAddr DnsEntry :=
  if name.isEmpty || 253 < name.utf8ByteSize then dns
  else
    let full := dns.size ≥ maxNames ∧ ip ∉ dns
    let dns := if full then trimIpMap order dns used maxNames else dns
    if full ∧ dns.size ≥ maxNames then dns
    else
      let name := name.toLower
      let entry := (dns.lookup ip).getD {}
      let kept := entry.names.filter fun n => n.expires > now ∧ n.name ≠ name
      if ttl = 0 then dns.insert ip { entry with names := kept }
      else
        let expires := min (now + min ttl 86400 * 1000) u64Max
        if kept.length < 8 then
          dns.insert ip { entry with names := kept ++ [{ name, expires }] }
        else
          dns.insert ip { names := kept, overflowUntil := max entry.overflowUntil expires }

/-! ## The store -/

/-- The ceiling of the history. -/
def maxConns : ℕ := 20000

/-- A TCP tuple seen in packets only closes after this much silence. -/
def packetOnlyIdleMs : ℕ := 60000

/-- The UDP sockets of the last poll, by local port. -/
abbrev UdpTable : Type := UInt16 → List UdpSocket

/-- A process list by number. -/
abbrev ProcMap : Type := ℤ → Option ProcInfo

structure Store where
  conns : KeyedMap ConnKey Conn
  dns : KeyedMap IpAddr DnsEntry
  /-- The addresses of this host, for the direction of a packet. -/
  localIps : Finset IpAddr
  packetsSeen : ℕ
  udpSockets : UdpTable
  socketGeneration : ℕ
  /-- The instant of the last poll. -/
  socketsAt : ℕ

/-- The empty store of a program that starts at `now`. -/
def Store.empty (now : ℕ) : Store where
  conns := ∅
  dns := ∅
  localIps := ∅
  packetsSeen := 0
  udpSockets _ := []
  socketGeneration := 0
  socketsAt := now

/-- The start time of a process, when the number and its entry are known. -/
def startedOf (procs : ProcMap) (pid : Option ℤ) : Option ℕ :=
  pid.bind fun p => (procs p).map ProcInfo.started

@[simp] theorem startedOf_none (procs : ProcMap) : startedOf procs none = none := rfl

/-- Two table entries describe one socket as far as its address, port and
cookie go. -/
def SameSocket (a b : SockEntry) : Prop :=
  a.local = b.local ∧ a.lport = b.lport ∧ a.remote = b.remote ∧ a.rport = b.rport ∧
    a.cookie = b.cookie

instance (a b : SockEntry) : Decidable (SameSocket a b) := by
  unfold SameSocket
  infer_instance

/-- The known UDP socket `old` continues in the snapshot row `s`. -/
def UdpSocket.continues (procs : ProcMap) (s : SockEntry) (old : UdpSocket) : Bool :=
  old.entry.local = s.local && old.entry.remote = s.remote && old.entry.rport = s.rport &&
    old.entry.cookie = s.cookie && !contradicts old.ownerStarted (startedOf procs s.pid) &&
    !contradicts s.pid old.entry.pid

/-- Take an element out of a vector, the last element moving into its place. -/
def swapRemove {α : Type*} (l : List α) (pos : ℕ) : List α :=
  match l.getLast? with
  | none => l
  | some last => (l.set pos last).dropLast

/-- Carry a known UDP socket into the next poll. A partial scan that does not
know the owner keeps the confirmed binding of the same inode. -/
def UdpSocket.carry (procs : ProcMap) (s : SockEntry) (old : UdpSocket) : UdpSocket :=
  let pid := s.pid.or old.entry.pid
  let ambiguous := s.ambiguous || old.entry.ambiguous
  { old with
    entry := { s with ambiguous := ambiguous, pid := if ambiguous then none else pid }
    ownerStarted := (startedOf procs pid).or old.ownerStarted }

/-- A UDP socket seen for the first time. Packets since the last poll may be
its own, the history from before is not. -/
def UdpSocket.fresh (procs : ProcMap) (s : SockEntry) (generation since : ℕ) : UdpSocket where
  entry := s
  ownerStarted := startedOf procs s.pid
  generation := generation
  since := since

/-- The sockets of the previous poll not yet matched, the table built so far
and the last generation given out. -/
structure Refresh where
  previous : UdpTable
  table : UdpTable
  generation : ℕ

/-- Match one snapshot row against the previous table. -/
def Refresh.step (procs : ProcMap) (since : ℕ) (r : Refresh) (s : SockEntry) : Refresh :=
  let entries := r.previous s.lport
  match entries.find? (UdpSocket.continues procs s) with
  | some old =>
      { r with
        previous := Function.update r.previous s.lport
          (swapRemove entries (entries.findIdx (UdpSocket.continues procs s)))
        table := Function.update r.table s.lport (r.table s.lport ++ [old.carry procs s]) }
  | none =>
      { r with
        table := Function.update r.table s.lport
          (r.table s.lport ++ [.fresh procs s (r.generation + 1) since])
        generation := r.generation + 1 }

namespace Store

/-- Replace the local addresses, when they could be read. -/
def setLocalIps (st : Store) (ips : Option (Finset IpAddr)) : Store :=
  match ips with
  | none => st
  | some ips =>
      { st with localIps := ips.filter fun ip => !ip.isUnspecified && !ip.isMulticast }

def refreshUdpSockets (st : Store) (socks : List SockEntry) (procs : ProcMap) (t : ℕ) : Store :=
  let r := (socks.filter fun s => s.proto = .udp).foldl (Refresh.step procs st.socketsAt)
    { previous := st.udpSockets, table := fun _ => [], generation := st.socketGeneration }
  { st with udpSockets := r.table, socketGeneration := r.generation, socketsAt := t }

/-- A socket covers a tuple: the local address is the tuple's or the wildcard of
its family, and a connected socket has the tuple's remote endpoint. -/
def covers (e : SockEntry) (k : ConnKey) : Bool :=
  (e.local = k.local || (e.local.isUnspecified && e.local.isIpv4 = k.local.isIpv4)) &&
    (e.rport = 0 || (e.remote = k.remote && e.rport = k.rport))

def udpOwner (st : Store) (k : ConnKey) : UdpMatch :=
  if k.local ∉ st.localIps then .missing
  else
    match (st.udpSockets k.lport).filter fun s => covers s.entry k with
    | [] => .missing
    | s :: rest =>
        if s.entry.ambiguous || !rest.isEmpty then .ambiguous
        else .unique
          { generation := s.generation, since := s.since, pid := s.entry.pid
            started := s.ownerStarted }

/-- The keys of the rows that satisfy `p`, the longest unseen first. -/
def oldestKeys (order : HashOrder ConnKey) (conns : KeyedMap ConnKey Conn) (p : Conn → Bool) :
    List ConnKey :=
  let rows := (order.arrange conns.keys).filterMap fun k =>
    (conns.lookup k).bind fun c => if p c then some (c.lastSeen, k) else none
  (rows.mergeSort fun a b => a.1 ≤ b.1).map Prod.snd

/-- Make room in the history: closed rows go first, then the oldest ones. -/
def evict (order : HashOrder ConnKey) (st : Store) : Store :=
  if st.conns.size < maxConns then st
  else
    let target := maxConns * 9 / 10
    let closed := (oldestKeys order st.conns Conn.closed).take (st.conns.size - target)
    let conns := KeyedMap.eraseAll closed st.conns
    if conns.size > maxConns then
      let all := (oldestKeys order conns fun _ => true).take (conns.size - target)
      { st with conns := KeyedMap.eraseAll all conns }
    else { st with conns := conns }

/-- The row of a tuple that was not in the history. -/
def freshConn (k : ConnKey) (fromPackets : Bool) (now : ℕ) : Conn where
  state := .new
  pid := none
  ownerStarted := none
  pname := none
  domain := none
  sni := none
  ptr := none
  asn := none
  owner := none
  firstSeen := now
  lastSeen := now
  txBytes := 0
  rxBytes := 0
  txPkts := 0
  rxPkts := 0
  fromPacketsOnly := fromPackets
  closed := false
  scope := classify k.remote
  udpGeneration := none
  tcpCookie := none
  ownerAmbiguous := false

/-- Find or create the row of a tuple and rewrite it with `f`. -/
def entry (order : HashOrder ConnKey) (now : ℕ) (k : ConnKey) (fromPackets : Bool)
    (f : Conn → Conn) (st : Store) : Store :=
  let st := if k ∈ st.conns then st else st.evict order
  let c := (st.conns.lookup k).getD (freshConn k fromPackets now)
  { st with conns := st.conns.insert k (f c) }

/-- The evidence that the TCP socket `s` is not the one the row was built from. -/
def tcpReused (procs : ProcMap) (s : SockEntry) (c : Conn) : Bool :=
  contradicts c.pid s.pid || contradicts c.ownerStarted (startedOf procs s.pid) ||
    s.ambiguous || contradicts c.tcpCookie s.cookie ||
    (c.closed && !s.state.terminal && !c.fromPacketsOnly)

/-- Put the row in dispute when the tuple has changed hands, and remember the
inode. -/
def checkReuse (procs : ProcMap) (s : SockEntry) (c : Conn) : Conn :=
  let c := if tcpReused procs s c then { c.dispute with sni := none, domain := none } else c
  { c with tcpCookie := s.cookie.or c.tcpCookie }

/-- The row is backed by a socket of the table at the poll of instant `t`. -/
def markShown (t : ℕ) (s : SockEntry) (c : Conn) : Conn :=
  { c with state := s.state, lastSeen := t, fromPacketsOnly := false, closed := s.state.terminal }

/-- Take over the owner that the scan found, unless the row is in dispute. -/
def takeOwner (procs : ProcMap) (s : SockEntry) (c : Conn) : Conn :=
  if s.pid.isSome && !c.ownerAmbiguous then
    { c with
      pid := s.pid
      ownerStarted := (startedOf procs s.pid).or c.ownerStarted
      pname := (s.pid.bind procs).map ProcInfo.name }
  else c

/-- What a snapshot row does to the row of its tuple. -/
def showSocket (procs : ProcMap) (t : ℕ) (s : SockEntry) (owner : UdpMatch) (c : Conn) : Conn :=
  match s.proto with
  | .tcp => takeOwner procs s (markShown t s (checkReuse procs s c))
  | .udp => attributeUdp (markShown t s c) owner (some procs)

theorem showSocket_tcp {s : SockEntry} (htcp : s.proto = .tcp) (procs : ProcMap) (t : ℕ)
    (owner : UdpMatch) (c : Conn) :
    showSocket procs t s owner c = takeOwner procs s (markShown t s (checkReuse procs s c)) := by
  simp only [showSocket, htcp]

theorem showSocket_udp {s : SockEntry} (hudp : s.proto = .udp) (procs : ProcMap) (t : ℕ)
    (owner : UdpMatch) (c : Conn) :
    showSocket procs t s owner c = attributeUdp (markShown t s c) owner (some procs) := by
  simp only [showSocket, hudp]

/-- Apply one snapshot row; the second component collects the tuples shown. A
TIME_WAIT row without history belongs to nobody and opens no row. -/
def applySocket (order : HashOrder ConnKey) (procs : ProcMap) (t : ℕ)
    (acc : Store × Finset ConnKey) (now : ℕ) (s : SockEntry) : Store × Finset ConnKey :=
  if s.rport = 0 then acc
  else if s.state = .timeWait ∧ s.key ∉ acc.1.conns then acc
  else
    let owner := acc.1.udpOwner s.key
    (acc.1.entry order now s.key false (showSocket procs t s owner), insert s.key acc.2)

/-- Apply the snapshot rows in order, the `i`-th row reading the clock anew. -/
def applyRows (order : HashOrder ConnKey) (procs : ProcMap) (clock : ℕ → ℕ) (t : ℕ) :
    ℕ → List SockEntry → Store × Finset ConnKey → Store × Finset ConnKey
  | _, [], acc => acc
  | i, s :: rest, acc =>
      applyRows order procs clock t (i + 1) rest (applySocket order procs t acc (clock i) s)

/-- The tuple lies on exactly one live socket, and that socket may be the row's. -/
def udpActive (owner : UdpMatch) (c : Conn) : Bool :=
  match owner with
  | .unique o => c.udpGeneration.all (· == o.generation)
  | _ => false

/-- The end of a poll for one row: a row that no socket shows any more closes,
and a UDP row on a live socket follows the owner of that socket. -/
def settle (procs : ProcMap) (t : ℕ) (shown : Bool) (k : ConnKey) (owner : UdpMatch) (c : Conn) :
    Conn :=
  if k.proto = .udp ∧ !shown then
    if udpActive owner c then
      if c.closed then c
      else { attributeUdp c owner (some procs) with state := .active }
    else { c with closed := true, state := .closed }
  else if c.closed || shown then c
  else if c.state ≠ .new then
    { c with closed := true, state := if c.state = .timeWait then .timeWait else .closed }
  else if t - c.lastSeen > packetOnlyIdleMs then { c with closed := true, state := .closed }
  else c

/-- The first half of a poll: local addresses and the UDP socket table. -/
def startPoll (st : Store) (socks : List SockEntry) (procs : ProcMap) (t : ℕ) : Store :=
  let seen := (socks.filter fun s => !s.local.isUnspecified && !s.local.isMulticast).map
    SockEntry.local
  { st with localIps := st.localIps ∪ seen.toFinset }.refreshUdpSockets socks procs t

/-- The poll of the snapshot `socks` once its first rows `done` are applied. -/
def midPoll (order : HashOrder ConnKey) (clock : Clock) (st : Store) (socks : List SockEntry)
    (procs : ProcMap) (done : List SockEntry) : Store × Finset ConnKey :=
  applyRows order procs clock.read (clock.read 0) 1 done
    (st.startPoll socks procs (clock.read 0), ∅)

/-- Apply a snapshot of the socket table: states, owners and closed rows. -/
def applySockets (order : HashOrder ConnKey) (clock : Clock) (st : Store)
    (socks : List SockEntry) (procs : ProcMap) : Store :=
  let (st, alive) := midPoll order clock st socks procs socks
  { st with
    conns := st.conns.mapValues fun k c =>
      settle procs (clock.read 0) (k ∈ alive) k (st.udpOwner k) c }

/-- The packet leaves this host, or touches none of its addresses. -/
def outbound (st : Store) (p : Packet) : Bool :=
  p.src ∈ st.localIps || p.dst ∉ st.localIps

/-- The tuple under which a packet is counted. -/
def packetKey (st : Store) (p : Packet) : ConnKey :=
  if st.outbound p then p.forward else p.backward

/-- Learn the names of a DNS response, one clock reading a name. -/
def learnNames (order : HashOrder IpAddr) (clock : ℕ → ℕ) (used : List IpAddr) :
    ℕ → List (String × IpAddr × ℕ) → KeyedMap IpAddr DnsEntry → KeyedMap IpAddr DnsEntry
  | _, [], dns => dns
  | i, (name, ip, ttl) :: rest, dns =>
      learnNames order clock used (i + 1) rest
        (rememberNameFor order (clock i) used dns ip name ttl)

/-- What a packet does to the row of its tuple. -/
def countPacket (p : Packet) (outgoing : Bool) (owner : UdpMatch) (now : ℕ) (c : Conn) : Conn :=
  let c :=
    if p.proto = .udp then
      { attributeUdp c owner none with closed := false, state := .new }
    else if c.closed && c.fromPacketsOnly then { c with closed := false, state := .new }
    else c
  let c := { c with lastSeen := now }
  let c :=
    if outgoing then { c with txBytes := c.txBytes + p.bytes, txPkts := c.txPkts + 1 }
    else { c with rxBytes := c.rxBytes + p.bytes, rxPkts := c.rxPkts + 1 }
  match p.sni with
  | none => c
  | some sni => { c with sni := some sni, domain := some sni }

/-- The first half of a packet: the packet count and the names it announces. -/
def hear (ips : HashOrder IpAddr) (clock : Clock) (st : Store) (p : Packet) : Store :=
  { st with
    packetsSeen := st.packetsSeen + 1
    dns := learnNames ips clock.read (st.conns.keys.map ConnKey.remote) 0 p.dnsAddrs st.dns }

/-- Apply a packet: names, counters and the owner of its row. -/
def applyPacket (conns : HashOrder ConnKey) (ips : HashOrder IpAddr) (clock : Clock) (st : Store)
    (p : Packet) : ConnKey × Store :=
  let names := p.dnsAddrs.length
  let st := st.hear ips clock p
  let k := st.packetKey p
  let owner := st.udpOwner k
  (k, st.entry conns (clock.read names) k (k ∉ st.conns)
    (countPacket p (st.outbound p) owner (clock.read (names + 1))))

end Store

end SocketTrail.State
