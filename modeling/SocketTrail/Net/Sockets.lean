/-
# The socket snapshot of Linux

A snapshot reads the four socket tables of `/proc/net` and looks the owners of
the sockets up by inode. A table that cannot be read leaves its rows out of the
snapshot and no other trace.
-/

import SocketTrail.Foundation.Unicode
import SocketTrail.Net.Address

namespace SocketTrail.Net

open SocketTrail.Foundation

/-! ## Fields of a table row -/

/-- The value of a digit in a base of at most sixteen. -/
def digitValue (base : ℕ) (c : Char) : Option ℕ :=
  let value :=
    if '0' ≤ c ∧ c ≤ '9' then some (c.toNat - '0'.toNat)
    else if 'a' ≤ c ∧ c ≤ 'f' then some (c.toNat - 'a'.toNat + 10)
    else if 'A' ≤ c ∧ c ≤ 'F' then some (c.toNat - 'A'.toNat + 10)
    else none
  value.filter (· < base)

/-- An unsigned number of `bits` bits. As in the standard library, a leading
plus sign is allowed. -/
def fromStrRadix (base bits : ℕ) (text : List Char) : Option ℕ :=
  let digits := if text.head? = some '+' then text.tail else text
  if digits = [] then none
  else
    digits.foldlM (fun n c => do
      let d ← digitValue base c
      if n * base + d < 2 ^ bits then some (n * base + d) else none) 0

/-- TCP states of `/proc/net/tcp`. -/
def tcpState (code : ℕ) : SockState :=
  match code with
  | 0x01 => .established
  | 0x02 => .synSent
  | 0x03 => .synRecv
  | 0x04 => .finWait1
  | 0x05 => .finWait2
  | 0x06 => .timeWait
  | 0x07 => .close
  | 0x08 => .closeWait
  | 0x09 => .lastAck
  | 0x0A => .listen
  | 0x0B => .closing
  | _ => .unknown

/-- A UDP socket without a remote address only listens on its port. -/
def udpState (rport : UInt16) : SockState :=
  if rport = 0 then .unconnected else .active

/-- A number's bytes in the order of the host, which is little-endian. -/
def hostWord (v : ℕ) : List UInt8 := leBytes 4 v

/-- The IPv4 address that an IPv4-mapped IPv6 address stands for. -/
def toIpv4Mapped (bytes : List UInt8) : Option IpAddr :=
  if bytes.take 12 = [0, 0, 0, 0, 0, 0, 0, 0, 0, 0, 0xFF, 0xFF] then
    match bytes.drop 12 with
    | [a, b, c, d] => some (.ofOctets a b c d)
    | _ => none
  else none

/-- An address of eight or thirty-two digits, its words in host order, and a
port. -/
def parseAddr (text : List Char) : Option (IpAddr × UInt16) := do
  guard (':' ∈ text)
  let addr := text.takeWhile (· ≠ ':')
  let port ← fromStrRadix 16 16 ((text.dropWhile (· ≠ ':')).drop 1)
  if addr.length = 8 then
    let v ← fromStrRadix 16 32 addr
    match hostWord v with
    | [a, b, c, d] => some (.ofOctets a b c d, UInt16.ofNat port)
    | _ => none
  else if addr.length = 32 then
    let words ← (List.range 4).mapM fun word =>
      fromStrRadix 16 32 ((addr.drop (word * 8)).take 8)
    let bytes := words.flatMap hostWord
    some ((toIpv4Mapped bytes).getD (.ofBytes bytes), UInt16.ofNat port)
  else none

example : parseAddr "0100007F:0035".toList = some (.ofOctets 127 0 0 1, 53) := by decide

/-! ## Tables -/

/-- The tables of `/proc/net`. -/
inductive SocketTable
  | tcp | tcp6 | udp | udp6
  deriving DecidableEq, Repr

/-- The tables in the order in which a snapshot reads them. -/
def SocketTable.all : List SocketTable := [.tcp, .tcp6, .udp, .udp6]

def SocketTable.proto : SocketTable → Proto
  | .tcp | .tcp6 => .tcp
  | .udp | .udp6 => .udp

/-- One line of a table: the socket without its owner, and its inode. -/
def parseRow (proto : Proto) (line : List Char) : Option (SockEntry × ℕ) :=
  match splitWhiteSpace line with
  | _ :: localField :: remoteField :: stateField :: _ :: _ :: _ :: _ :: _ :: inodeField :: _ => do
      let (localAddr, lport) ← parseAddr localField
      let (remote, rport) ← parseAddr remoteField
      let st := (fromStrRadix 16 8 stateField).getD 0
      let inode := (fromStrRadix 10 64 inodeField).getD 0
      some ({
        proto := proto
        «local» := localAddr
        lport := lport
        remote := remote
        rport := rport
        state := match proto with
          | .tcp => tcpState st
          | .udp => udpState rport
        pid := none
        ambiguous := false
        cookie := if inode ≠ 0 then some inode else none }, inode)
  | _ => none

/-- The rows of a table behind its title line; a table that cannot be read has
none. -/
def parseTable (data : Option (List Char)) (proto : Proto) : List (SockEntry × ℕ) :=
  match data with
  | none => []
  | some text => ((text.splitOn '\n').drop 1).filterMap (parseRow proto)

/-- Give a socket the one process that holds its inode, or report the socket as
shared by several. -/
def assignOwner (owners : ℕ → Option (List ℤ)) (row : SockEntry × ℕ) : SockEntry :=
  match owners row.2 with
  | none => row.1
  | some pids =>
      { row.1 with
        ambiguous := pids.length > 1
        pid := match pids with
          | [pid] => some pid
          | _ => none }

/-- The snapshot of the tables as they could be read. `owners` has the distinct
processes found to hold an inode. -/
def snapshot (read : SocketTable → Option (List Char)) (owners : ℕ → Option (List ℤ)) :
    List SockEntry :=
  (SocketTable.all.flatMap fun table => parseTable (read table) table.proto).map
    (assignOwner owners)

/-- The tables that can still be read when some of them fail. -/
def readExcept (read : SocketTable → Option (List Char)) (failed : SocketTable → Bool)
    (table : SocketTable) : Option (List Char) :=
  if failed table then none else read table

/-! ## What every snapshot is like -/

theorem tcpState_ne_new (code : ℕ) : tcpState code ≠ .new := by
  unfold tcpState
  split <;> simp

/-- The states that a snapshot gives to a socket. -/
structure FromTable (s : SockEntry) : Prop where
  known : s.state ≠ .new
  udp : s.proto = .udp → s.state = udpState s.rport

theorem fromTable_of_parseRow {proto : Proto} {line : List Char} {row : SockEntry × ℕ}
    (h : parseRow proto line = some row) : FromTable row.1 := by
  unfold parseRow at h
  split at h
  · simp only [Option.bind_eq_bind, Option.bind_eq_some_iff, Option.some.injEq] at h
    obtain ⟨⟨localAddr, lport⟩, -, ⟨remote, rport⟩, -, rfl⟩ := h
    cases proto with
    | tcp => exact ⟨tcpState_ne_new _, by simp⟩
    | udp =>
        refine ⟨?_, fun _ => rfl⟩
        change udpState rport ≠ .new
        unfold udpState
        split <;> simp
  · contradiction

/-- Every row of a snapshot has a state of the tables. -/
theorem fromTable_of_mem_snapshot {read : SocketTable → Option (List Char)}
    {owners : ℕ → Option (List ℤ)} {s : SockEntry} (h : s ∈ snapshot read owners) :
    FromTable s := by
  unfold snapshot at h
  obtain ⟨row, hrow, rfl⟩ := List.mem_map.mp h
  obtain ⟨table, -, hparsed⟩ := List.mem_flatMap.mp hrow
  have hfrom : FromTable row.1 := by
    unfold parseTable at hparsed
    split at hparsed
    · contradiction
    · obtain ⟨line, -, hline⟩ := List.mem_filterMap.mp hparsed
      exact fromTable_of_parseRow hline
  unfold assignOwner
  split
  · exact hfrom
  · exact ⟨hfrom.known, hfrom.udp⟩

/-- A failed read leaves rows out and changes no other row. -/
theorem snapshot_readExcept_sublist (read : SocketTable → Option (List Char))
    (failed : SocketTable → Bool) (owners : ℕ → Option (List ℤ)) :
    (snapshot (readExcept read failed) owners).Sublist (snapshot read owners) := by
  unfold snapshot
  apply List.Sublist.map
  have htables : ∀ tables : List SocketTable,
      (tables.flatMap fun table => parseTable (readExcept read failed table) table.proto).Sublist
        (tables.flatMap fun table => parseTable (read table) table.proto) := by
    intro tables
    induction tables with
    | nil => exact List.Sublist.slnil
    | cons table rest ih =>
        rw [List.flatMap_cons, List.flatMap_cons]
        refine List.Sublist.append ?_ ih
        unfold readExcept
        split
        · exact List.nil_sublist _
        · exact List.Sublist.refl _
  exact htables _

end SocketTrail.Net
