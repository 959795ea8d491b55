/-
# Naming the rows of the history

SNI comes before DNS, DNS before PTR, and a label stands where no domain name
exists. The steps of this module rewrite the names of rows and nothing else:
`NamesOnly` says so, and is what the ownership proofs use of them.
-/

import SocketTrail.State.Store

namespace SocketTrail

/-! ## The languages of the messages -/

/-- Every message exists in two languages, and the current language picks one of the
two at the moment the message is produced. -/
inductive Lang
  | en | ru
  deriving DecidableEq, Repr

/-- Pick one of a pair of texts. -/
def tr (lang : Lang) (en ru : String) : String :=
  match lang with
  | .en => en
  | .ru => ru

end SocketTrail

namespace SocketTrail.State

open SocketTrail.Foundation SocketTrail.Net

/-- The label of an address that has no domain name, in both languages. -/
def wellKnownLabel (ip : IpAddr) (port : UInt16) : Option (String × String) :=
  if ip = .ofOctets 127 0 0 53 ∧ port = 53 then
    some ("systemd-resolved, local DNS", "systemd-resolved, локальный DNS")
  else if ip = .ofOctets 127 0 0 54 then
    some ("systemd-resolved, delegation", "systemd-resolved, делегирование")
  else if ip = .ofOctets 127 0 0 1 ∨ ip = .v6 1 then some ("localhost", "localhost")
  else if ip = .ofOctets 224 0 0 251 then some ("mDNS, multicast", "mDNS, многоадресная рассылка")
  else if ip = .ofOctets 239 255 255 250 then
    some ("SSDP, device discovery", "SSDP, обнаружение устройств")
  else if ip = .ofOctets 255 255 255 255 then some ("broadcast", "широковещательная рассылка")
  else none

/-- The name a row without SNI gets. A row keeps the DNS name it was opened
with, since the same CDN address later answers for another domain; PTR names
and labels still give way to a DNS name. -/
def enrichedDomain (lang : Lang) (dns : KeyedMap IpAddr DnsEntry) (now : ℕ) (k : ConnKey)
    (c : Conn) : Option String :=
  let known := wellKnownLabel k.remote k.rport
  let isLabel (d : String) : Bool := known.any fun texts => d = texts.1 || d = texts.2
  let frozen := c.domain.any fun d => c.ptr ≠ some d && !isLabel d
  let label := known.map fun texts => tr lang texts.1 texts.2
  match (dns.lookup k.remote).bind (·.unique now), frozen with
  | some name, false => some name
  | _, _ =>
      if c.domain.any isLabel then label
      else if c.domain.isSome then c.domain
      else c.ptr.or label

/-- Name one row. -/
def enrichName (lang : Lang) (dns : KeyedMap IpAddr DnsEntry) (now : ℕ) (k : ConnKey)
    (c : Conn) : Conn :=
  if c.sni.isSome then c else { c with domain := enrichedDomain lang dns now k c }

/-- What a lookup found about an address. -/
structure Whois where
  ptr : Option String
  asn : Option String
  owner : Option String
  failed : Bool
  deriving DecidableEq, Repr

/-- Carry what is known about an address over to a row. -/
def applyWhoisRow (whois : IpAddr → Option Whois) (k : ConnKey) (c : Conn) : Conn :=
  if c.asn.isSome && c.domain.isSome then c
  else
    match whois k.remote with
    | none => c
    | some w =>
        { c with
          ptr := c.ptr.or w.ptr
          asn := if c.asn.isNone then w.asn else c.asn
          owner := if c.asn.isNone then w.owner else c.owner
          domain := c.domain.or w.ptr }

/-- Apply a finished lookup to a row. -/
def whoisRow (ip : IpAddr) (w : Whois) (k : ConnKey) (c : Conn) : Conn :=
  if k.remote = ip then
    { c with
      ptr := w.ptr.or c.ptr
      asn := if w.asn.isSome then w.asn else c.asn
      owner := if w.asn.isSome then w.owner else c.owner
      domain := c.domain.or w.ptr }
  else c

namespace Store

/-- Name every row; each row reads the clock when the iteration reaches it. -/
def enrichNames (order : HashOrder ConnKey) (lang : Lang) (clock : Clock) (st : Store) : Store :=
  { st with
    conns := st.conns.mapValues fun k c =>
      enrichName lang st.dns (clock.read ((order.arrange st.conns.keys).idxOf k)) k c }

def applyWhois (whois : IpAddr → Option Whois) (st : Store) : Store :=
  { st with conns := st.conns.mapValues (applyWhoisRow whois) }

def whoisDone (ip : IpAddr) (w : Whois) (st : Store) : Store :=
  { st with conns := st.conns.mapValues (whoisRow ip w) }

/-- Forget the history and the packet count. -/
def clear (st : Store) : Store :=
  { st with conns := ∅, packetsSeen := 0 }

end Store

/-! ## Naming changes names only -/

/-- The rows differ in their names at most. -/
def NamesOnly (c c' : Conn) : Prop :=
  ∃ domain ptr asn owner,
    c' = { c with domain := domain, ptr := ptr, asn := asn, owner := owner }

theorem NamesOnly.refl (c : Conn) : NamesOnly c c := ⟨_, _, _, _, rfl⟩

theorem enrichName_namesOnly (lang : Lang) (dns : KeyedMap IpAddr DnsEntry) (now : ℕ)
    (k : ConnKey) (c : Conn) : NamesOnly c (enrichName lang dns now k c) := by
  unfold enrichName
  split
  · exact .refl c
  · exact ⟨_, c.ptr, c.asn, c.owner, rfl⟩

theorem applyWhoisRow_namesOnly (whois : IpAddr → Option Whois) (k : ConnKey) (c : Conn) :
    NamesOnly c (applyWhoisRow whois k c) := by
  unfold applyWhoisRow
  split
  · exact .refl c
  · split
    · exact .refl c
    · exact ⟨_, _, _, _, rfl⟩

theorem whoisRow_namesOnly (ip : IpAddr) (w : Whois) (k : ConnKey) (c : Conn) :
    NamesOnly c (whoisRow ip w k c) := by
  unfold whoisRow
  split
  · exact ⟨_, _, _, _, rfl⟩
  · exact .refl c

/-! ## The operations of the store -/

/-- An operation on the store. -/
inductive Op
  | packet (p : Packet)
  | poll (ips : Option (Finset IpAddr)) (socks : List SockEntry) (procs : List ProcInfo)
  | clear
  | learn (ip : IpAddr) (name : String) (ttl : ℕ)
  | enrich (lang : Lang)
  | whois (known : IpAddr → Option Whois)
  | resolved (ip : IpAddr) (w : Whois)

/-- An operation with the clock readings and iteration orders it meets. -/
structure Event where
  op : Op
  clock : Clock
  connOrder : HashOrder ConnKey := .stored
  ipOrder : HashOrder IpAddr := .stored

namespace Store

/-- One operation of the store. -/
def step (st : Store) (e : Event) : Store :=
  match e.op with
  | .packet p => (st.applyPacket e.connOrder e.ipOrder e.clock p).2
  | .poll ips socks procs =>
      (st.setLocalIps ips).applySockets e.connOrder e.clock socks (procMap procs)
  | .clear => st.clear
  | .learn ip name ttl =>
      { st with
        dns := rememberNameFor e.ipOrder (e.clock.read 0) (st.conns.keys.map ConnKey.remote)
          st.dns ip name ttl }
  | .enrich lang => st.enrichNames e.connOrder lang e.clock
  | .whois known => st.applyWhois known
  | .resolved ip w => st.whoisDone ip w

/-- The store as a transition system: every operation can always run. -/
def system : System Store Event := .ofFun step

/-- The store under a clock that never steps back. -/
def timedSystem : System (Store × ℕ) Event := system.timed Event.clock

end Store

end SocketTrail.State
