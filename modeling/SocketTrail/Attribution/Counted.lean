/-
# The packets counted on a row

The attribution results speak about the past of a row: which packets were
counted on it since it was created, when, and what the socket table said at
that moment. All of this is read off the history of a run. A row numbers its
own packets, so the packets counted on it are the newest ones of its tuple, as
many as its counters say.
-/

import SocketTrail.State.UdpTable

namespace SocketTrail.Attribution

open SocketTrail.Foundation SocketTrail.Net SocketTrail.State

/-- One entry of a trace: the store and the end of its last step, and the event
that fired there. -/
abbrev Moment : Type := (Store × ℕ) × Event

/-- The history of the store under its clock, newest moment first. -/
abbrev Trace : Type := List Moment

namespace Moment

/-- The store before the event. -/
def before (m : Moment) : Store := m.1.1

/-- The store after the event. -/
def after (m : Moment) : Store := m.1.1.step m.2

/-- The event is a packet of the tuple. -/
def isPacketOf (k : ConnKey) (m : Moment) : Bool :=
  match m.2.op with
  | .packet p => m.before.packetKey p = k
  | _ => false

/-- The instant at which a packet reaches its row. -/
def countedAt (m : Moment) : ℕ :=
  match m.2.op with
  | .packet p => m.2.clock.read p.dnsAddrs.length
  | _ => m.2.clock.start

theorem start_le_countedAt (m : Moment) : m.2.clock.start ≤ m.countedAt := by
  unfold countedAt
  split
  · exact m.2.clock.start_le_read _
  · exact le_rfl

end Moment

/-- The instant of the last poll of a trace, or of the program start. -/
def lastPoll (t₀ : ℕ) : Trace → ℕ
  | [] => t₀
  | m :: earlier =>
      match m.2.op with
      | .poll .. => m.2.clock.start
      | _ => lastPoll t₀ earlier

theorem lastPoll_cons_of_poll {t₀ : ℕ} {hist : Trace} {m : Moment} {ips : Option (Finset IpAddr)}
    {socks : List SockEntry} {procs : List ProcInfo} (hop : m.2.op = .poll ips socks procs) :
    lastPoll t₀ (m :: hist) = m.2.clock.start := by
  simp [lastPoll, hop]

theorem lastPoll_cons_of_not_poll {t₀ : ℕ} {hist : Trace} {m : Moment}
    (hnot : ∀ ips socks procs, m.2.op ≠ .poll ips socks procs) :
    lastPoll t₀ (m :: hist) = lastPoll t₀ hist := by
  rw [lastPoll]
  split
  · rename_i ips socks procs hop
    exact absurd hop (hnot ips socks procs)
  · rfl

/-- The packets counted on the row `c` of the tuple `k`, newest first. -/
def counted (hist : Trace) (k : ConnKey) (c : Conn) : Trace :=
  (hist.filter (Moment.isPacketOf k)).take (c.txPkts + c.rxPkts)

/-- A row without packets counts none. -/
theorem counted_of_zero {hist : Trace} {k : ConnKey} {c : Conn} (h : c.txPkts + c.rxPkts = 0) :
    counted hist k c = [] := by
  simp [counted, h]

/-- Rows with the same counters count the same packets. -/
theorem counted_congr {hist : Trace} {k : ConnKey} {c c' : Conn} (htx : c'.txPkts = c.txPkts)
    (hrx : c'.rxPkts = c.rxPkts) : counted hist k c' = counted hist k c := by
  rw [counted, counted, htx, hrx]

/-- A step that is no packet of the tuple adds nothing. -/
theorem counted_cons_of_not {hist : Trace} {k : ConnKey} {c : Conn} {m : Moment}
    (h : m.isPacketOf k = false) : counted (m :: hist) k c = counted hist k c := by
  simp [counted, h]

/-- A packet of the tuple that raises the row's count by one is the newest
packet counted. -/
theorem counted_cons_of_packet (hist : Trace) {k : ConnKey} {c c' : Conn} {m : Moment}
    (h : m.isPacketOf k = true) (hcount : c'.txPkts + c'.rxPkts = c.txPkts + c.rxPkts + 1) :
    counted (m :: hist) k c' = m :: counted hist k c := by
  simp [counted, h, hcount]

/-! ## Counting step by step -/

/-- How a step changes the packets counted on a row: it keeps them, it adds the
packet it is, or it opens the row anew. -/
inductive CountStep (hist : Trace) (m : Moment) (k : ConnKey) (c : Conn) : Prop
  | kept (c₀ : Conn) (hrow : m.before.conns.lookup k = some c₀) (hsame : SameCounts c₀ c)
      (hnot : m.isPacketOf k = false)
      (hcounted : counted (m :: hist) k c = counted hist k c₀)
  | packet (c₀ : Conn) (hrow : m.before.conns.lookup k = some c₀)
      (hfirst : c.firstSeen = c₀.firstSeen) (hpacket : m.isPacketOf k = true)
      (hcount : c.txPkts + c.rxPkts = c₀.txPkts + c₀.rxPkts + 1)
      (hcounted : counted (m :: hist) k c = m :: counted hist k c₀)
  | opened (hrow : m.before.conns.lookup k = none) (hfirst : c.firstSeen = m.countedAt)
      (hpacket : m.isPacketOf k = true) (hcount : c.txPkts + c.rxPkts = 1)
      (hcounted : counted (m :: hist) k c = [m])
  | shown (hfirst : ∃ i, c.firstSeen = m.2.clock.read i) (hcount : c.txPkts + c.rxPkts = 0)
      (hcounted : counted (m :: hist) k c = [])

theorem countStep (hist : Trace) (m : Moment) {k : ConnKey} {c : Conn}
    (h : m.after.conns.lookup k = some c) : CountStep hist m k c := by
  cases Store.step_row h with
  | packet p c₀ hop hkey hbase =>
      have hpacket : m.isPacketOf k = true := by
        simp [Moment.isPacketOf, hop, hkey, Moment.before]
      obtain ⟨hfirst, hcount⟩ := countPacket_counts p (m.1.1.outbound p) (m.1.1.udpOwner k)
        (m.2.clock.read (p.dnsAddrs.length + 1)) c₀
      have hcounted := counted_cons_of_packet hist hpacket hcount
      obtain hrow | ⟨hrow, rfl⟩ := hbase
      · exact .packet c₀ hrow hfirst hpacket hcount hcounted
      · have hzero : counted hist k (Store.freshConn k true
            (m.2.clock.read p.dnsAddrs.length)) = [] := counted_of_zero rfl
        refine .opened hrow ?_ hpacket hcount (by rw [hcounted, hzero])
        rw [hfirst]
        simp [Moment.countedAt, hop, Store.freshConn]
  | poll ips socks procs _ hop hrow =>
      have hnot : m.isPacketOf k = false := by simp [Moment.isPacketOf, hop]
      obtain ⟨c₀, hold, hsame⟩ | ⟨hfirst, hzero⟩ := Store.applySockets_counts hrow
      · refine .kept c₀ ?_ hsame hnot ?_
        · cases ips <;> exact hold
        · rw [counted_cons_of_not hnot, counted_congr hsame.2.1 hsame.2.2]
      · exact .shown hfirst hzero (counted_of_zero hzero)
  | kept c₀ _ hrow hnames _ hpacket =>
      have hnot : m.isPacketOf k = false := by
        unfold Moment.isPacketOf
        split
        · rename_i p hop
          simpa using fun heq => hpacket p hop heq.symm
        · rfl
      have hsame := hnames.sameCounts
      refine .kept c₀ hrow hsame hnot ?_
      rw [counted_cons_of_not hnot, counted_congr hsame.2.1 hsame.2.2]

/-! ## Rows and the clock -/

/-- The packets counted on a row are as many as its counters say, and the row
was there when the first of them arrived. -/
structure CountsSince (hist : Trace) (now : ℕ) (k : ConnKey) (c : Conn) : Prop where
  length : (counted hist k c).length = c.txPkts + c.rxPkts
  created : c.firstSeen ≤ now
  since : ∀ m ∈ counted hist k c, c.firstSeen ≤ m.countedAt

/-- One step under a clock that never steps back. -/
theorem timedStep {s s' : Store × ℕ} {e : Event} (h : Store.timedSystem.step s e = some s') :
    s.2 ≤ e.clock.start ∧ s'.1 = s.1.step e ∧ s'.2 = e.clock.finish := by
  obtain ⟨hle, hstep, hfinish⟩ := System.timed_step_eq_some h
  refine ⟨hle, ?_, hfinish⟩
  simpa [Store.system, eq_comm] using hstep

/-- Every row counts its packets faithfully, in every run. -/
theorem countsSince_run {t₀ : ℕ} {hist : Trace} {s : Store × ℕ}
    (run : Run Store.timedSystem (Store.empty t₀, t₀) hist s) :
    ∀ k c, s.1.conns.lookup k = some c → CountsSince hist s.2 k c := by
  refine run.historyInvariant
    (P := fun hist s => ∀ k c, s.1.conns.lookup k = some c → CountsSince hist s.2 k c) ?_ ?_
  · intro k c hrow
    simp [Store.empty] at hrow
  · intro hist s e s' _ ih fires k c hrow
    obtain ⟨hle, hnext, hfinish⟩ := timedStep fires
    rw [hnext] at hrow
    rw [hfinish]
    have hread := e.clock.read_le_finish
    have hstart : s.2 ≤ e.clock.finish := hle.trans e.clock.start_le_finish
    have hstep : CountStep hist (s, e) k c := countStep hist (s, e) hrow
    cases hstep with
    | kept c₀ hold hsame hnot hcounted =>
        have hbefore := ih k c₀ hold
        refine ⟨?_, ?_, ?_⟩
        · rw [hcounted, hbefore.length, hsame.2.1, hsame.2.2]
        · rw [hsame.1]
          exact hbefore.created.trans hstart
        · rw [hcounted, hsame.1]
          exact hbefore.since
    | packet c₀ hold hfirst _ hcount hcounted =>
        have hbefore := ih k c₀ hold
        refine ⟨?_, ?_, ?_⟩
        · rw [hcounted, List.length_cons, hbefore.length, hcount]
        · rw [hfirst]
          exact hbefore.created.trans hstart
        · rw [hcounted, hfirst]
          intro m hm
          rcases List.mem_cons.mp hm with rfl | hm
          · exact (hbefore.created.trans hle).trans (Moment.start_le_countedAt (s, e))
          · exact hbefore.since m hm
    | opened _ hfirst _ hcount hcounted =>
        refine ⟨by rw [hcounted, hcount]; rfl, ?_, ?_⟩
        · rw [hfirst, Moment.countedAt]
          split
          · exact hread _
          · exact e.clock.start_le_finish
        · rw [hcounted, hfirst]
          intro m hm
          rw [List.mem_singleton.mp hm]
    | shown hfirst hcount hcounted =>
        obtain ⟨i, hfirst⟩ := hfirst
        refine ⟨by rw [hcounted, hcount]; rfl, by rw [hfirst]; exact hread i, ?_⟩
        rw [hcounted]
        intro m hm
        contradiction

/-! ## A sample host

One host, one remote endpoint and one local port, for the concrete runs of this
development. -/

/-- A process of the sample host. -/
def sampleProc (pid : ℤ) (started : ℕ) : ProcInfo where
  pid := pid
  started := started
  ppid := 1
  comm := "client"
  name := "client"
  cmdline := "client"
  proton := false

/-- The tuple of the sample host. -/
def sampleKey (proto : Proto) : ConnKey where
  proto := proto
  «local» := .ofOctets 10 0 0 1
  lport := 5000
  remote := .ofOctets 1 1 1 1
  rport := 443

/-- An unconnected UDP socket on the sample port. -/
def sampleUdp (pid : Option ℤ) (ambiguous : Bool) : SockEntry where
  proto := .udp
  «local» := .ofOctets 10 0 0 1
  lport := 5000
  remote := .ofOctets 0 0 0 0
  rport := 0
  state := .unconnected
  pid := pid
  ambiguous := ambiguous
  cookie := some 1

/-- A connected TCP socket on the sample tuple. -/
def sampleTcp (pid : Option ℤ) : SockEntry where
  proto := .tcp
  «local» := .ofOctets 10 0 0 1
  lport := 5000
  remote := .ofOctets 1 1 1 1
  rport := 443
  state := .established
  pid := pid
  ambiguous := false
  cookie := some 2

/-- A packet that the sample host sends on the sample tuple. -/
def samplePacket (proto : Proto) : Packet where
  proto := proto
  src := .ofOctets 10 0 0 1
  sport := 5000
  dst := .ofOctets 1 1 1 1
  dport := 443
  bytes := 60
  sni := none
  dnsAddrs := []

/-- A poll at an instant. -/
def pollAt (t : ℕ) (socks : List SockEntry) (procs : List ProcInfo) : Event where
  op := .poll none socks procs
  clock := .still t

/-- A packet of the sample tuple at an instant. -/
def packetAt (t : ℕ) (proto : Proto) : Event where
  op := .packet (samplePacket proto)
  clock := .still t

end SocketTrail.Attribution
