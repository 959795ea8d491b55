/-
# Confirmed ownership and the loss of the history

Clearing or evicting a row must not lose the owner of its packets. A UDP row
that comes back is recognised by the generation of its socket. A TCP row that
comes back is not: it has a new creation time, and until a poll has shown its
socket it has no owner, either of which the next merge takes for a reuse of the
tuple. `Reopens` is the operation that brings such a row. The memory of the
recording is no assumption: once a merge has met the confirmed row, the memory
has the tuple and keeps it, whether the history has a row of it or not.
-/

import SocketTrail.Attribution.Tcp
import SocketTrail.Recording.Session

namespace SocketTrail.Recording

open SocketTrail.Foundation SocketTrail.Net SocketTrail.State SocketTrail.Attribution

/-- What identifies one socket: its owner, the socket of the UDP table, and of a
TCP socket the inode and the creation time of its row. -/
structure Sighting where
  id : Identity
  owner : UdpOwner
  cookie : Option ℕ
  opened : ℕ

/-- If the act is a poll, it shows the same socket on the tuple, open and not
shared, with the same owner: for UDP the same socket of the table as the only
match, for TCP a row with the same process, start time and inode. -/
def ShowsSame (k : ConnKey) (x : Sighting) (s : Session) (a : Act) : Prop :=
  ∀ e ips socks procs, a = .store e → e.op = .poll ips socks procs →
    (k.proto = .udp → (s.store.step e).udpOwner k = .unique x.owner) ∧
    (k.proto = .tcp → rowsOf socks k ≠ [] ∧ ∀ row ∈ rowsOf socks k,
      row.pid = some x.id.pid ∧ startedOf (procMap procs) row.pid = some x.id.started ∧
        row.ambiguous = false ∧ row.cookie = x.cookie ∧ row.state.terminal = false)

/-- The ownership of the tuple is confirmed: its live row is undisputed, stands on
the socket `x` and belongs to a process of the group. -/
structure Confirmed (k : ConnKey) (x : Sighting) (s : Session) : Prop where
  member : x.id ∈ s.dumpMeta.instances
  table : k.proto = .udp → s.store.udpOwner k = .unique x.owner ∧
    x.owner.pid = some x.id.pid ∧ x.owner.started = some x.id.started
  live : ∃ c, s.store.conns.lookup k = some c ∧ c.ownerAmbiguous = false ∧
    c.pid = some x.id.pid ∧ c.ownerStarted = some x.id.started ∧
    (k.proto = .udp → c.udpGeneration = some x.owner.generation) ∧
    (k.proto = .tcp → c.firstSeen = x.opened ∧ c.closed = false ∧
      (c.tcpCookie = none ∨ c.tcpCookie = x.cookie))

/-- The operation opens a row of the tuple that the history did not have, or had
lost before the operation was over. -/
def Reopens (k : ConnKey) (st : Store) (e : Event) : Prop :=
  (∃ c, (st.step e).conns.lookup k = some c) ∧ (st.conns.lookup k = none ∨ Removes k st e)

/-- The history has a row of the tuple and has seen it since the recording
began. -/
def SeenRow (k : ConnKey) (s : Session) : Prop :=
  ∃ c, s.store.conns.lookup k = some c ∧ s.dumpMeta.started ≤ c.lastSeen

/-! ## Rows of the socket -/

/-- A UDP row of the socket is bound to it and has its owner. -/
structure UdpLive (x : Sighting) (c : Conn) : Prop where
  clean : c.ownerAmbiguous = false
  bound : c.udpGeneration = some x.owner.generation
  since : x.owner.since ≤ c.firstSeen
  pid : c.pid = some x.id.pid
  started : c.ownerStarted = some x.id.started

/-- A TCP row of the socket is the one that was confirmed: it is open and has its
owner. -/
structure TcpLive (x : Sighting) (c : Conn) : Prop where
  clean : c.ownerAmbiguous = false
  pid : c.pid = some x.id.pid
  started : c.ownerStarted = some x.id.started
  cookie : c.tcpCookie = none ∨ c.tcpCookie = x.cookie
  opened : c.firstSeen = x.opened
  isOpen : c.closed = false

/-- A live row of the tuple is a row of the socket. -/
def LiveRow (k : ConnKey) (x : Sighting) (c : Conn) : Prop :=
  (k.proto = .udp → UdpLive x c) ∧ (k.proto = .tcp → TcpLive x c)

/-- The recorded row belongs to the socket. -/
structure Recorded (k : ConnKey) (x : Sighting) (r : Conn) : Prop where
  clean : r.ownerAmbiguous = false
  pid : r.pid = some x.id.pid
  started : r.ownerStarted = some x.id.started
  bound : k.proto = .udp → r.udpGeneration = some x.owner.generation
  opened : k.proto = .tcp → r.firstSeen = x.opened

/-- Attribution gives a row that may belong to the socket its owner. -/
theorem udpLive_attribute {x : Sighting} {c : Conn} (hclean : c.ownerAmbiguous = false)
    (hsince : x.owner.since ≤ c.firstSeen)
    (hbound : c.udpGeneration = none ∨ c.udpGeneration = some x.owner.generation)
    (hpid : x.owner.pid = some x.id.pid) (hstarted : x.owner.started = some x.id.started)
    (procs : Option (ℤ → Option ProcInfo)) :
    UdpLive x (attributeUdp c (.unique x.owner) procs) := by
  have hfits : c.udpGeneration.all (· == x.owner.generation) = true := by
    rcases hbound with h | h <;> simp [h]
  have heq : attributeUdp c (.unique x.owner) procs =
      { c with
        udpGeneration := some x.owner.generation
        pid := some x.id.pid
        ownerStarted := some x.id.started
        pname := (attributeUdp c (.unique x.owner) procs).pname } := by
    simp [attributeUdp, hclean, hsince, hfits, hpid, hstarted]
  rw [heq]
  exact ⟨hclean, rfl, hsince, rfl, rfl⟩

/-- A socket that agrees with the row is no evidence of reuse. -/
theorem tcpReused_eq_false {x : Sighting} {c : Conn} {s : SockEntry} {procs : ProcMap}
    (h : TcpLive x c) (hpid : s.pid = some x.id.pid)
    (hstarted : startedOf procs s.pid = some x.id.started) (hclear : s.ambiguous = false)
    (hcookie : s.cookie = x.cookie) : Store.tcpReused procs s c = false := by
  have hpid' : contradicts c.pid s.pid = false := by
    simp [h.pid, hpid, contradicts]
  have hstarted' : contradicts c.ownerStarted (startedOf procs s.pid) = false := by
    simp [h.started, hstarted, contradicts]
  have hcookie' : contradicts c.tcpCookie s.cookie = false := by
    rcases h.cookie with hnone | hsome
    · simp [hnone]
    · rw [hsome, hcookie]
      cases x.cookie <;> simp [contradicts]
  simp [Store.tcpReused, hpid', hstarted', hclear, hcookie', h.isOpen]

/-- Showing the socket on a TCP row gives the row its owner. -/
theorem TcpLive.show {x : Sighting} {c : Conn} {s : SockEntry} {procs : ProcMap}
    (h : TcpLive x c) (htcp : s.proto = .tcp) (hpid : s.pid = some x.id.pid)
    (hstarted : startedOf procs s.pid = some x.id.started) (hclear : s.ambiguous = false)
    (hcookie : s.cookie = x.cookie) (hopen : s.state.terminal = false) (t : ℕ)
    (owner : UdpMatch) : TcpLive x (Store.showSocket procs t s owner c) := by
  have hfits := tcpReused_eq_false h hpid hstarted hclear hcookie
  obtain ⟨hreused, -⟩ | ⟨-, hdispute, -⟩ | ⟨-, -, hclean, hpid', hstarted', hcookie', hclosed, -⟩ :=
    showSocket_tcp_cases htcp procs t owner c
  · rw [hfits] at hreused
    contradiction
  · rw [h.clean] at hdispute
    contradiction
  · obtain ⟨hfirst, -, -⟩ := showSocket_sameCounts procs t s owner c
    refine ⟨hclean, ?_, ?_, ?_, hfirst.trans h.opened, hclosed.trans hopen⟩
    · rw [hpid', hpid]
      rfl
    · rw [hstarted', hstarted]
      rfl
    · rw [hcookie', hcookie]
      cases hx : x.cookie with
      | none => simpa [hx] using h.cookie
      | some cookie => exact .inr rfl

/-! ## The store -/

section Store

variable {k : ConnKey} {x : Sighting} {st : Store} {now : ℕ} {e : Event}

/-- A UDP row stays a row of the socket as long as the table shows the socket
as the only match of the tuple; a row that comes back becomes one at once. -/
theorem udpLive_step (hudp : k.proto = .udp) (hpid : x.owner.pid = some x.id.pid)
    (hstarted : x.owner.started = some x.id.started) (hpast : TablePast st now)
    (hle : now ≤ e.clock.start) (hbefore : st.udpOwner k = .unique x.owner)
    (hafter : (st.step e).udpOwner k = .unique x.owner)
    (hrows : ∀ c, st.conns.lookup k = some c → UdpLive x c) {c : Conn}
    (hrow : (st.step e).conns.lookup k = some c) : UdpLive x c := by
  cases Store.step_row hrow with
  | packet p c₀ hop hkey hbase =>
      have hproto : p.proto = .udp := by
        rw [← hudp, hkey, Store.packetKey_proto]
      have hattr : UdpLive x (attributeUdp c₀ (.unique x.owner) none) := by
        rcases hbase with hold | ⟨-, rfl⟩
        · have hc₀ := hrows c₀ hold
          exact udpLive_attribute hc₀.clean hc₀.since (.inr hc₀.bound) hpid hstarted none
        · refine udpLive_attribute rfl ?_ (.inl rfl) hpid hstarted none
          obtain ⟨u, hu, -, -, -, hsince, -, -⟩ := Store.mem_table_of_udpOwner_unique hbefore
          have hu' := hpast.since _ u hu
          rw [hsince] at hu'
          exact (hu'.trans hle).trans (e.clock.start_le_read _)
      obtain ⟨hclean, hpid', hstarted', hbound⟩ := countPacket_udp hproto (st.outbound p)
        (st.udpOwner k) (e.clock.read (p.dnsAddrs.length + 1)) c₀
      obtain ⟨hfirst, -⟩ := countPacket_counts p (st.outbound p)
        (st.udpOwner k) (e.clock.read (p.dnsAddrs.length + 1)) c₀
      obtain ⟨hfirst', -, -⟩ := attributeUdp_sameCounts c₀ (.unique x.owner) none
      rw [hbefore] at hclean hpid' hstarted' hbound hfirst ⊢
      exact ⟨hclean.trans hattr.clean, hbound.trans hattr.bound,
        by rw [hfirst, ← hfirst']; exact hattr.since, hpid'.trans hattr.pid,
        hstarted'.trans hattr.started⟩
  | poll ips socks procs _ hop hpolled =>
      have howner : (st.polled ips socks procs e.clock.start).udpOwner k = .unique x.owner := by
        rw [← st.step_udpOwner_of_poll hop]
        exact hafter
      have hsince : x.owner.since ≤ e.clock.start := by
        obtain ⟨u, hu, -, -, -, hsince, -, -⟩ := Store.mem_table_of_udpOwner_unique howner
        rw [← hsince]
        exact (hpast.polled_since hu).trans hle
      refine Store.applySockets_invariant (R := fun k' c => k' = k → UdpLive x c)
        ?_ ?_ ?_ ?_ hpolled rfl
      · rintro k' c hold rfl
        have hold' : st.conns.lookup k' = some c := by cases ips <;> exact hold
        exact hrows c hold'
      · rintro row - - i hkey
        have hproto : row.proto = .udp := by
          rw [← hudp, ← hkey]
          rfl
        unfold Store.showSocket
        rw [hproto, hkey]
        change UdpLive x (attributeUdp _ ((st.polled ips socks procs e.clock.start).udpOwner k) _)
        rw [howner]
        exact udpLive_attribute rfl (hsince.trans (e.clock.start_le_read i)) (.inl rfl) hpid
          hstarted _
      · rintro row - - c hc hkey
        have hproto : row.proto = .udp := by
          rw [← hudp, ← hkey]
          rfl
        have hlive := hc hkey
        unfold Store.showSocket
        rw [hproto, hkey]
        change UdpLive x (attributeUdp _ ((st.polled ips socks procs e.clock.start).udpOwner k) _)
        rw [howner]
        exact udpLive_attribute (c := Store.markShown _ row c) hlive.clean hlive.since
          (.inr hlive.bound) hpid hstarted _
      · rintro k' c shown hc rfl
        have hlive := hc rfl
        obtain heq | ⟨state, heq⟩ | ⟨-, -, -, -, heq⟩ := settle_cases (procMap procs)
          (e.clock.read 0) shown k' ((st.polled ips socks procs e.clock.start).udpOwner k') c
        · change UdpLive x (Store.settle _ _ shown k'
            ((st.polled ips socks procs e.clock.start).udpOwner k') c)
          rw [heq]
          exact hlive
        · change UdpLive x (Store.settle _ _ shown k'
            ((st.polled ips socks procs e.clock.start).udpOwner k') c)
          rw [heq]
          exact ⟨hlive.clean, hlive.bound, hlive.since, hlive.pid, hlive.started⟩
        · change UdpLive x (Store.settle _ _ shown k'
            ((st.polled ips socks procs e.clock.start).udpOwner k') c)
          rw [heq, howner]
          have hattr := udpLive_attribute hlive.clean hlive.since (.inr hlive.bound) hpid hstarted
            (some (procMap procs))
          exact ⟨hattr.clean, hattr.bound, hattr.since, hattr.pid, hattr.started⟩
  | kept c₀ _ hold hnames _ _ =>
      obtain ⟨domain, ptr, asn, owner, rfl⟩ := hnames
      have hlive := hrows c₀ hold
      exact ⟨hlive.clean, hlive.bound, hlive.since, hlive.pid, hlive.started⟩

/-- A TCP row stays a row of the socket as long as the polls show the socket and
no other row is opened in its place. -/
theorem tcpLive_step (htcp : k.proto = .tcp)
    (hshows : ∀ ips socks procs, e.op = .poll ips socks procs → rowsOf socks k ≠ [] ∧
      ∀ row ∈ rowsOf socks k, row.pid = some x.id.pid ∧
        startedOf (procMap procs) row.pid = some x.id.started ∧ row.ambiguous = false ∧
        row.cookie = x.cookie ∧ row.state.terminal = false)
    (hkept : ¬Reopens k st e) (hrows : ∀ c, st.conns.lookup k = some c → TcpLive x c) {c : Conn}
    (hrow : (st.step e).conns.lookup k = some c) : TcpLive x c := by
  cases Store.step_row hrow with
  | packet p c₀ hop hkey hbase =>
      have hproto : p.proto = .tcp := by
        rw [← htcp, hkey, Store.packetKey_proto]
      have hc₀ : TcpLive x c₀ := by
        rcases hbase with hold | ⟨hnone, -⟩
        · exact hrows c₀ hold
        · exact absurd ⟨⟨_, hrow⟩, .inl hnone⟩ hkept
      obtain ⟨hclean, hpid, hstarted, -⟩ := countPacket_tcp hproto (st.outbound p)
        (st.udpOwner k) (e.clock.read (p.dnsAddrs.length + 1)) c₀
      obtain ⟨hcookie, hopen⟩ := countPacket_tcp_socket hproto (st.outbound p)
        (st.udpOwner k) (e.clock.read (p.dnsAddrs.length + 1)) hc₀.isOpen
      obtain ⟨hfirst, -⟩ := countPacket_counts p (st.outbound p)
        (st.udpOwner k) (e.clock.read (p.dnsAddrs.length + 1)) c₀
      exact ⟨hclean.trans hc₀.clean, hpid.trans hc₀.pid, hstarted.trans hc₀.started,
        hcookie ▸ hc₀.cookie, hfirst.trans hc₀.opened, hopen⟩
  | poll ips socks procs _ hop hpolled =>
      obtain ⟨hpresent, hsame⟩ := hshows ips socks procs hop
      have hmem : ∀ {done row}, done ++ [row] <+: socks → row.key = k → row.rport ≠ 0 →
          row ∈ rowsOf socks k := by
        intro done row hdone hkey hport
        exact mem_rowsOf.mpr
          ⟨hdone.subset (List.mem_append_right done (List.mem_singleton_self row)), hkey, hport⟩
      refine Store.applySockets_induction (R := fun _ k' c => k' = k → TcpLive x c)
        (Q := fun k' c => k' = k → TcpLive x c) ?_ ?_ ?_ ?_ ?_ hpolled rfl
      · rintro k' c hold rfl
        have hold' : st.conns.lookup k' = some c := by cases ips <;> exact hold
        exact hrows c hold'
      · rintro done row hdone hport habsent i hkey
        rw [hkey] at habsent
        refine absurd ⟨⟨_, hrow⟩, .inr ?_⟩ hkept
        rw [Removes, hop]
        exact ⟨done, (List.prefix_append done [row]).trans hdone, habsent⟩
      · rintro done row hdone hport c hc hkey
        obtain ⟨hpid, hstarted, hclear, hcookie, hopen⟩ := hsame row (hmem hdone hkey hport)
        have hproto : row.proto = .tcp := by
          rw [← htcp, ← hkey]
          rfl
        exact (hc hkey).show hproto hpid hstarted hclear hcookie hopen _ _
      · rintro done row - k' c - hc rfl
        exact hc rfl
      · rintro k' c shown hshown hc rfl
        obtain ⟨row, hrow⟩ := List.exists_mem_of_ne_nil _ hpresent
        obtain ⟨hin, hkey, hport⟩ := mem_rowsOf.mp hrow
        have hwait : row.state ≠ .timeWait := by
          intro hstate
          have hopen := (hsame row hrow).2.2.2.2
          rw [hstate] at hopen
          contradiction
        rw [hshown row hin hkey hport hwait, settle_tcp_shown htcp]
        exact hc rfl
  | kept c₀ _ hold hnames _ _ =>
      obtain ⟨domain, ptr, asn, owner, rfl⟩ := hnames
      have hlive := hrows c₀ hold
      exact ⟨hlive.clean, hlive.pid, hlive.started, hlive.cookie, hlive.opened, hlive.isOpen⟩

end Store

/-! ## The merge -/

/-- A live row of the socket is a row to remember. -/
theorem LiveRow.recorded {k : ConnKey} {x : Sighting} {c : Conn} (hc : LiveRow k x c) :
    Recorded k x c := by
  cases hproto : k.proto with
  | udp =>
      have hlive := hc.1 hproto
      have htcp : k.proto ≠ .tcp := by simp [hproto]
      exact ⟨hlive.clean, hlive.pid, hlive.started, fun _ => hlive.bound, fun h => absurd h htcp⟩
  | tcp =>
      have hlive := hc.2 hproto
      have hudp : k.proto ≠ .udp := by simp [hproto]
      exact ⟨hlive.clean, hlive.pid, hlive.started, fun h => absurd h hudp, fun _ => hlive.opened⟩

/-- A remembered row and a live row of one socket do not disagree, and their
merge is a remembered row of the socket. -/
theorem Recorded.merge {k : ConnKey} {x : Sighting} {r c : Conn} (hr : Recorded k x r)
    (hok : RowOk k r) (hc : LiveRow k x c) : Recorded k x (r.updateRecording c) := by
  have hlive := hc.recorded
  have hagree : r.versionsDisagree c = false := by
    cases hproto : k.proto with
    | udp =>
        simp [Conn.versionsDisagree, Conn.sameUdpSocket, hr.clean, hlive.clean, hr.pid, hlive.pid,
          hr.started, hlive.started, hr.bound hproto, hlive.bound hproto]
    | tcp =>
        simp [Conn.versionsDisagree, hr.clean, hlive.clean, hr.pid, hlive.pid, hr.started,
          hlive.started, hr.opened hproto, hlive.opened hproto, hok.unbound hproto]
  rw [Conn.updateRecording, hagree]
  exact hlive

/-- What a confirmed tuple keeps along a recording. -/
structure Held (k : ConnKey) (x : Sighting) (s : Session) : Prop where
  member : x.id ∈ s.dumpMeta.instances
  table : k.proto = .udp → s.store.udpOwner k = .unique x.owner ∧
    x.owner.pid = some x.id.pid ∧ x.owner.started = some x.id.started
  past : TablePast s.store s.now
  rows : ∀ c, s.store.conns.lookup k = some c → LiveRow k x c
  recorded : ∀ r, s.dumpMeta.conns.lookup k = some r → Recorded k x r

theorem Held.dumpOwns {k : ConnKey} {x : Sighting} {s : Session} (h : Held k x s) {c : Conn}
    (hc : Recorded k x c) : dumpOwns s.dumpMeta c = true :=
  dumpOwns_eq_true.mpr ⟨x.id, h.member, hc.pid, hc.started⟩

/-- If the act is an operation of the store, it opens no TCP row of the tuple. -/
def OpensNoTcp (k : ConnKey) (s : Session) (a : Act) : Prop :=
  k.proto = .tcp → ∀ e, a = .store e → ¬Reopens k s.store e

/-- An operation of the store keeps a confirmed tuple, if every poll shows the
socket and no other TCP row is opened. -/
theorem Held.store {k : ConnKey} {x : Sighting} {s : Session} (h : Held k x s) {e : Event}
    (hle : s.now ≤ e.clock.start) (hshows : ShowsSame k x s (.store e))
    (hopens : OpensNoTcp k s (.store e)) :
    Held k x { s with store := s.store.step e, now := e.clock.finish } := by
  have howner : k.proto = .udp → (s.store.step e).udpOwner k = .unique x.owner := by
    intro hudp
    by_cases hpoll : ∃ ips socks procs, e.op = .poll ips socks procs
    · obtain ⟨ips, socks, procs, hop⟩ := hpoll
      exact (hshows e ips socks procs rfl hop).1 hudp
    · have hnot : ∀ ips socks procs, e.op ≠ .poll ips socks procs :=
        fun ips socks procs hop => hpoll ⟨ips, socks, procs, hop⟩
      obtain ⟨htable, hips, -, -⟩ := s.store.step_table_of_not_poll hnot
      rw [Store.udpOwner_congr hips htable]
      exact (h.table hudp).1
  refine ⟨h.member, fun hudp => ⟨howner hudp, (h.table hudp).2⟩, h.past.step hle, ?_, h.recorded⟩
  intro c hrow
  refine ⟨fun hudp => ?_, fun htcp => ?_⟩
  · obtain ⟨hbefore, hpid, hstarted⟩ := h.table hudp
    exact udpLive_step hudp hpid hstarted h.past hle hbefore (howner hudp)
      (fun c hold => (h.rows c hold).1 hudp) hrow
  · exact tcpLive_step htcp (fun ips socks procs hop => (hshows e ips socks procs rfl hop).2 htcp)
      (hopens htcp e rfl) (fun c hold => (h.rows c hold).2 htcp) hrow

/-- A merge keeps a confirmed tuple. -/
theorem Held.merge {k : ConnKey} {x : Sighting} {s : Session} (h : Held k x s) (hok : s.Ok)
    {m : DumpMeta} (hsame : SameRecording s.dumpMeta m)
    (hmerge : m.conns.lookup k = s.dumpMeta.conns.lookup k ∨
      Merge s.dumpMeta s.store.conns k (m.conns.lookup k)) :
    Held k x { s with dumpMeta := m } := by
  refine ⟨hsame.instances_eq ▸ h.member, h.table, h.past, h.rows, fun r hentry => ?_⟩
  dsimp only at hentry
  rcases hmerge with hkept | hmerged
  · exact h.recorded r (hkept ▸ hentry)
  · rw [hentry] at hmerged
    generalize hresult : some r = result at hmerged
    cases hmerged with
    | kept _ => exact h.recorded r hresult.symm
    | merged old c hold hrow _ =>
        rw [Option.some.injEq] at hresult
        rw [hresult]
        exact (h.recorded old hold).merge (hok.entries k old hold).1 (h.rows c hrow)
    | entered c _ hrow _ _ =>
        rw [Option.some.injEq] at hresult
        rw [hresult]
        exact (h.rows c hrow).recorded
    | refused c _ _ _ => contradiction

/-- Every act keeps a confirmed tuple. -/
theorem Held.step {k : ConnKey} {x : Sighting} {s s' : Session} {a : Act} (h : Held k x s)
    (hok : s.Ok) (hshows : ShowsSame k x s a) (hopens : OpensNoTcp k s a)
    (fires : Session.system.step s a = some s') : Held k x s' := by
  cases Session.stepKind fires with
  | store e hle => exact h.store hle hshows hopens
  | merge _ m _ hsame hmerge => exact h.merge hok hsame ((hmerge k).imp_right And.right)
  | other _ m attached _ hconns hstarted honly hinstances =>
      refine ⟨hinstances _ h.member, h.table, h.past, h.rows, ?_⟩
      intro r hentry
      exact h.recorded r (hconns ▸ hentry)

/-! ## The memory -/

/-- The memory of a recording never forgets a tuple. -/
theorem Session.remembered_step {k : ConnKey} {s s' : Session} {a : Act}
    (h : (s.dumpMeta.conns.lookup k).isSome) (fires : Session.system.step s a = some s') :
    (s'.dumpMeta.conns.lookup k).isSome := by
  cases Session.stepKind fires with
  | store e _ => exact h
  | merge _ m _ _ hmerge =>
      dsimp only
      rcases hmerge k with hkept | ⟨-, hmerged⟩
      · rwa [hkept]
      · generalize m.conns.lookup k = entry at hmerged
        cases hmerged with
        | kept _ => exact h
        | merged _ _ _ _ _ => rfl
        | entered _ _ _ _ _ => rfl
        | refused _ hnone _ _ =>
            rw [hnone] at h
            contradiction
  | other _ m _ _ hconns _ _ _ =>
      dsimp only
      rwa [hconns]

/-- A merge that meets the confirmed row, seen since the recording began,
remembers the tuple. -/
theorem Held.remembers {k : ConnKey} {x : Sighting} {s s' : Session} {a : Act} (h : Held k x s)
    (hmerges : a.Merges k) (hseen : SeenRow k s)
    (hroom : HasRoom s.dumpMeta s.store.conns k) (fires : Session.system.step s a = some s') :
    (s'.dumpMeta.conns.lookup k).isSome := by
  obtain ⟨c, hrow, hseen⟩ := hseen
  have howned := h.dumpOwns (h.rows c hrow).recorded
  cases a with
  | record order =>
      obtain ⟨-, rfl⟩ := Option.ite_none_right_eq_some.mp fires |>.imp_right Option.some.inj
      exact rememberAll_isSome order hrow hseen howned hroom
  | recordKey key =>
      obtain ⟨-, rfl⟩ := Option.ite_none_right_eq_some.mp fires |>.imp_right Option.some.inj
      obtain rfl : key = k := hmerges
      exact rememberKey_isSome hrow hseen howned (hroom.size_lt [])
  | account order =>
      obtain ⟨-, fires⟩ := Option.ite_none_left_eq_some.mp fires
      obtain rfl := Option.some.inj fires
      exact rememberAll_isSome order hrow hseen howned hroom
  | store | track | take => contradiction

/-- A confirmed tuple is held throughout the rest of the recording, and from the
first merge that meets its row the memory has it. -/
theorem held_run {k : ConnKey} {x : Sighting} {s₁ s₂ : Session} {hist : History Session Act}
    (hstart : Held k x s₁) (hok : s₁.Ok) (run : Run Session.system s₁ hist s₂)
    (hshows : ∀ entry ∈ hist, ShowsSame k x entry.1 entry.2)
    (hopens : ∀ entry ∈ hist, OpensNoTcp k entry.1 entry.2) :
    (Held k x s₂ ∧ s₂.Ok) ∧
      ((∃ entry ∈ hist, entry.2.Merges k ∧ SeenRow k entry.1 ∧
        HasRoom entry.1.dumpMeta entry.1.store.conns k) →
        (s₂.dumpMeta.conns.lookup k).isSome) := by
  induction run with
  | start =>
      refine ⟨⟨hstart, hok⟩, ?_⟩
      rintro ⟨entry, hentry, -⟩
      contradiction
  | @next hist s s' a prior fires ih =>
      obtain ⟨⟨hheld, hok⟩, hremembered⟩ := ih
        (fun entry hentry => hshows entry (List.mem_cons_of_mem _ hentry))
        (fun entry hentry => hopens entry (List.mem_cons_of_mem _ hentry))
      have hshows' := hshows (s, a) (List.mem_cons_self ..)
      have hopens' := hopens (s, a) (List.mem_cons_self ..)
      refine ⟨⟨hheld.step hok hshows' hopens' fires, hok.step fires⟩, ?_⟩
      rintro ⟨entry, hentry, hmerges, hseen, hroom⟩
      rcases List.mem_cons.mp hentry with rfl | hpast
      · exact hheld.remembers hmerges hseen hroom fires
      · exact Session.remembered_step (hremembered ⟨entry, hpast, hmerges, hseen, hroom⟩) fires

/-- At the end a tuple that is still held is kept, if the memory or the history
has it. -/
theorem Held.planKeeps {k : ConnKey} {x : Sighting} {s : Session} (h : Held k x s) (hok : s.Ok)
    (hpresent : (s.dumpMeta.conns.lookup k).isSome ∨ SeenRow k s) (g : PlanInput)
    (path : String) : PlanKeeps (s.plan g path) k := by
  rw [Session.plan, planKeeps_iff]
  dsimp only
  cases hentry : s.dumpMeta.conns.lookup k with
  | none =>
      rw [hentry] at hpresent
      obtain ⟨c, hrow, hseen⟩ := hpresent.resolve_left Bool.false_ne_true
      rw [hrow]
      exact ⟨c, by simp [mergedRow, not_lt.mpr hseen], hseen,
        h.dumpOwns (h.rows c hrow).recorded⟩
  | some r =>
      have hr := h.recorded r hentry
      obtain ⟨hrok, hrseen⟩ := hok.entries k r hentry
      cases hrow : s.store.conns.lookup k with
      | none => exact ⟨r, rfl, hrseen, h.dumpOwns hr⟩
      | some c =>
          by_cases hseen : s.dumpMeta.started ≤ c.lastSeen
          · have hmerged := hr.merge hrok (h.rows c hrow)
            refine ⟨_, by simp only [mergedRow, if_neg (not_lt.mpr hseen)], ?_,
              h.dumpOwns hmerged⟩
            rw [Session.updateRecording_lastSeen]
            exact hseen
          · exact ⟨r, by simp only [mergedRow, if_pos (not_le.mp hseen)], hrseen, h.dumpOwns hr⟩

/-! ## The result -/

/-- A confirmed tuple that the recording holds no doubt about is held. -/
theorem Confirmed.held {t₀ t : ℕ} {boot : Trace} {k : ConnKey} {x : Sighting} {s : Session}
    (h : Confirmed k x s) (run : Run Store.timedSystem (Store.empty t₀, t₀) boot (s.store, t))
    (hle : t ≤ s.now)
    (hundisputed : ∀ r, s.dumpMeta.conns.lookup k = some r → Recorded k x r) : Held k x s := by
  have hpast : TablePast s.store s.now := (tablePast_run run).mono hle
  refine ⟨h.member, h.table, hpast, fun c hrow => ?_, hundisputed⟩
  obtain ⟨c', hrow', hclean, hpid, hstarted, hudp, htcp⟩ := h.live
  rw [hrow, Option.some.injEq] at hrow'
  subst hrow'
  refine ⟨fun hproto => ?_, fun hproto => ?_⟩
  · -- the row was bound when its socket could be its own, and a generation has one birth
    obtain ⟨htable, hrows⟩ := udpRow_run run
    obtain ⟨birth, hborn, hbirth⟩ := (hrows k c hproto hrow).born hclean _ (hudp hproto)
    have hborn' := (htable.ownerOk k).born x.owner (h.table hproto).1
    have hsince : x.owner.since ≤ c.firstSeen := (hborn'.unique hborn).le.trans hbirth
    exact ⟨hclean, hudp hproto, hsince, hpid, hstarted⟩
  · obtain ⟨hopened, hopen, hcookie⟩ := htcp hproto
    exact ⟨hclean, hpid, hstarted, hcookie, hopened, hopen⟩

/-- **Confirmed ownership survives the loss of the history**, if no TCP row of the
tuple is opened anew. A tuple is confirmed at some moment of a process-only
recording that holds no doubt about it, and from then on every poll shows the
same socket. If the row, seen since the recording began, is met by one merge
that has room for it, or is there at the end, the plan keeps the tuple, whatever
else happens to the history. -/
theorem confirmed_kept {t₀ now : ℕ} {boot : Trace} {st : Store} {dumpMeta : DumpMeta}
    {hist₁ hist₂ : History Session Act} {s₁ s₂ : Session} {k : ConnKey} {x : Sighting}
    (program : Run Store.timedSystem (Store.empty t₀, t₀) boot (st, now))
    (before : Run Session.system (Session.begin st now dumpMeta) hist₁ s₁)
    (hconfirmed : Confirmed k x s₁)
    (hundisputed : ∀ r, s₁.dumpMeta.conns.lookup k = some r → Recorded k x r)
    (after : Run Session.system s₁ hist₂ s₂)
    (hshows : ∀ entry ∈ hist₂, ShowsSame k x entry.1 entry.2)
    (hopens : ∀ entry ∈ hist₂, OpensNoTcp k entry.1 entry.2)
    (hmet : (∃ entry ∈ hist₂, entry.2.Merges k ∧ SeenRow k entry.1 ∧
      HasRoom entry.1.dumpMeta entry.1.store.conns k) ∨ SeenRow k s₂)
    (g : PlanInput) (path : String) : PlanKeeps (s₂.plan g path) k := by
  have hok : s₁.Ok := Session.ok_run (Session.ok_begin dumpMeta program) before
  obtain ⟨trace, t, hle, run⟩ := Session.programRun program before
  have hheld : Held k x s₁ := hconfirmed.held run hle hundisputed
  obtain ⟨⟨hheld₂, hok₂⟩, hremembered⟩ := held_run hheld hok after hshows hopens
  exact hheld₂.planKeeps hok₂ (hmet.imp_left hremembered) g path

/-- The socket of process 7; the row of its TCP tuple was opened at 10. -/
def sampleSighting : Sighting where
  id := { pid := 7, started := 100 }
  owner := { generation := 1, since := 0, pid := some 7, started := some 100 }
  cookie := some 2
  opened := 10

/-- The store after a poll at 10 that shows the UDP socket of process 7. -/
def udpStore : Store :=
  (Store.empty 0).step (pollAt 10 [sampleUdp (some 7) false] [sampleProc 7 100])

/-- A packet of the socket comes at 20. -/
def udpConfirmed : History Session Act × Session :=
  Session.system.play [] (Session.begin udpStore 10 sampleMeta) [.store (packetAt 20 .udp)]

/-- The packet is remembered and the history cleared at 30; a poll at 40 shows the
socket, and at 50 the history is cleared for good. -/
def udpEnd : History Session Act × Session :=
  Session.system.play [] udpConfirmed.2
    [.recordKey (sampleKey .udp), .store { op := .clear, clock := .still 30 },
      .store (pollAt 40 [sampleUdp (some 7) false] [sampleProc 7 100]), .record .stored,
      .store { op := .clear, clock := .still 50 }]

/-- The store after a poll at 10 that shows the TCP socket of process 7. -/
def tcpStore : Store :=
  (Store.empty 0).step (pollAt 10 [sampleTcp (some 7)] [sampleProc 7 100])

/-- The TCP row is remembered, and the history cleared at 20 for good. -/
def tcpCleared : History Session Act × Session :=
  Session.system.play [] (Session.begin tcpStore 10 sampleMeta)
    [.record .stored, .store { op := .clear, clock := .still 20 }]

/-- The UDP owner survives the clearing of the history twice over, and the TCP
owner that of a row that does not come back; in the end the history is empty. -/
theorem confirmed_kept_sample :
    (udpEnd.2.store.conns.keys = [] ∧
      PlanKeeps (udpEnd.2.plan sampleInput "dump.pcapng") (sampleKey .udp)) ∧
    (tcpCleared.2.store.conns.keys = [] ∧
      PlanKeeps (tcpCleared.2.plan sampleInput "dump.pcapng") (sampleKey .tcp)) := by
  refine ⟨⟨rfl, ?_⟩, rfl, ?_⟩
  · have program : Run Store.timedSystem (Store.empty 0, 0)
        [((Store.empty 0, 0), pollAt 10 [sampleUdp (some 7) false] [sampleProc 7 100])]
        (udpStore, 10) := Run.start.next rfl
    have hconfirmed : Confirmed (sampleKey .udp) sampleSighting udpConfirmed.2 :=
      ⟨by decide, fun _ => by decide, ⟨_, rfl, rfl, rfl, rfl, fun _ => rfl, by decide⟩⟩
    refine confirmed_kept program (Run.play .start _) hconfirmed ?_ (Run.play .start _) ?_ ?_ ?_ _ _
    · intro r hentry
      contradiction
    · intro entry hentry e ips socks procs hact hop
      change entry ∈ [_, _, _, _, _] at hentry
      simp only [List.mem_cons, List.not_mem_nil, or_false] at hentry
      rcases hentry with rfl | rfl | rfl | rfl | rfl <;> cases hact <;> cases hop
      exact ⟨fun _ => by decide, fun htcp => by contradiction⟩
    · intro entry _ htcp
      contradiction
    · exact .inl ⟨_, .tail _ (.tail _ (.tail _ (.tail _ (.head _)))), rfl, ⟨_, rfl, by decide⟩,
        .of_size (by decide)⟩
  · have program : Run Store.timedSystem (Store.empty 0, 0)
        [((Store.empty 0, 0), pollAt 10 [sampleTcp (some 7)] [sampleProc 7 100])]
        (tcpStore, 10) := Run.start.next rfl
    have hconfirmed : Confirmed (sampleKey .tcp) sampleSighting
        (Session.begin tcpStore 10 sampleMeta) :=
      ⟨by decide, fun hudp => by contradiction,
        ⟨_, rfl, rfl, rfl, rfl, fun hudp => by contradiction, by decide⟩⟩
    refine confirmed_kept program .start hconfirmed ?_ (Run.play .start _) ?_ ?_ ?_ _ _
    · intro r hentry
      contradiction
    · intro entry hentry e ips socks procs hact hop
      change entry ∈ [_, _] at hentry
      simp only [List.mem_cons, List.not_mem_nil, or_false] at hentry
      rcases hentry with rfl | rfl
      · cases hact
        contradiction
      · contradiction
    · intro entry hentry _ e hact
      change entry ∈ [_, _] at hentry
      simp only [List.mem_cons, List.not_mem_nil, or_false] at hentry
      rcases hentry with rfl | rfl <;> cases hact
      rintro ⟨⟨c, hrow⟩, -⟩
      contradiction
    · exact .inl ⟨_, .tail _ (.head _), trivial, ⟨_, rfl, by decide⟩, .of_size (by decide)⟩

/-- The TCP row is remembered. -/
def tcpConfirmed : History Session Act × Session :=
  Session.system.play [] (Session.begin tcpStore 10 sampleMeta) [.record .stored]

/-- The history is cleared at 20, and the poll at 30 shows the same socket. -/
def tcpEnd : History Session Act × Session :=
  Session.system.play [] tcpConfirmed.2
    [.store { op := .clear, clock := .still 20 },
      .store (pollAt 30 [sampleTcp (some 7)] [sampleProc 7 100]), .record .stored]

/-- The TCP owner does not survive the clearing of the history if its row comes
back: the row that the next poll opens for the same socket has a new creation
time. -/
theorem cleared_tcp_owner_lost :
    Run Store.timedSystem (Store.empty 0, 0)
        [((Store.empty 0, 0), pollAt 10 [sampleTcp (some 7)] [sampleProc 7 100])] (tcpStore, 10) ∧
      Run Session.system (Session.begin tcpStore 10 sampleMeta) tcpConfirmed.1 tcpConfirmed.2 ∧
      sampleMeta.onlyGroup = true ∧ Confirmed (sampleKey .tcp) sampleSighting tcpConfirmed.2 ∧
      (∀ r, tcpConfirmed.2.dumpMeta.conns.lookup (sampleKey .tcp) = some r →
        Recorded (sampleKey .tcp) sampleSighting r) ∧
      Run Session.system tcpConfirmed.2 tcpEnd.1 tcpEnd.2 ∧
      (∀ entry ∈ tcpEnd.1, ShowsSame (sampleKey .tcp) sampleSighting entry.1 entry.2) ∧
      ¬PlanKeeps (tcpEnd.2.plan sampleInput "dump.pcapng") (sampleKey .tcp) := by
  refine ⟨Run.start.next rfl, Run.play .start _, rfl, ⟨by decide, fun hudp => by contradiction,
    ⟨_, rfl, rfl, rfl, rfl, fun hudp => by contradiction, by decide⟩⟩, ?_, Run.play .start _, ?_, ?_⟩
  · rintro r ⟨⟩
    exact ⟨rfl, rfl, rfl, fun hudp => by contradiction, fun _ => rfl⟩
  · intro entry hentry e ips socks procs hact hop
    change entry ∈ [_, _, _] at hentry
    simp only [List.mem_cons, List.not_mem_nil, or_false] at hentry
    rcases hentry with rfl | rfl | rfl <;> cases hact <;> cases hop
    exact ⟨fun hudp => by contradiction, fun _ => by decide⟩
  · rintro ⟨owner, hlookup, hkeep⟩
    cases hlookup
    contradiction

end SocketTrail.Recording
