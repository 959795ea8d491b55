/-
# Soundness of UDP attribution

A UDP row with an owner is bound to one socket generation. Two invariants carry
the result along a run: `TableOk` ties the sockets of the table to the polls of
the history, and `UdpRow` ties a row to the packets counted on it.
`UdpRow.attribute` is the step lemma of the second one; packets and polls use it
for every attribution they make.
-/

import SocketTrail.Attribution.Counted

namespace SocketTrail.Attribution

open SocketTrail.Foundation SocketTrail.Net SocketTrail.State

/-! ## What the history says about a generation -/

/-- The table of the store holds a socket of the generation. -/
def Shows (st : Store) (g : ℕ) : Prop :=
  ∃ port, ∃ u ∈ st.udpSockets port, u.generation = g

/-- The poll before the first poll that shows generation `g` was at `birth`. -/
def BornAfter (t₀ : ℕ) (hist : Trace) (g birth : ℕ) : Prop :=
  ∃ later m earlier, hist = later ++ m :: earlier ∧
    (∃ ips socks procs, m.2.op = .poll ips socks procs) ∧ Shows m.after g ∧
    (∀ m' ∈ earlier, ¬Shows m'.after g) ∧ birth = lastPoll t₀ earlier

/-- A poll reported `p` in the very row of the snapshot that the socket of
generation `g` stands for. -/
def Reported (hist : Trace) (g : ℕ) (p : ℤ) : Prop :=
  ∃ m ∈ hist, ∃ ips socks procs, m.2.op = .poll ips socks procs ∧
    ∃ port, ∃ pair ∈ (Store.udpRows socks port).zip (m.after.udpSockets port),
      pair.2.generation = g ∧ pair.1.pid = some p

theorem BornAfter.cons {t₀ : ℕ} {hist : Trace} {g birth : ℕ} (h : BornAfter t₀ hist g birth)
    (m : Moment) : BornAfter t₀ (m :: hist) g birth := by
  obtain ⟨later, first, earlier, rfl, hfirst⟩ := h
  exact ⟨m :: later, first, earlier, rfl, hfirst⟩

theorem Reported.cons {hist : Trace} {g : ℕ} {p : ℤ} (h : Reported hist g p) (m : Moment) :
    Reported (m :: hist) g p := by
  obtain ⟨poll, hmem, hreport⟩ := h
  exact ⟨poll, List.mem_cons_of_mem m hmem, hreport⟩

/-- A generation is born once. -/
theorem BornAfter.unique {t₀ : ℕ} {hist : Trace} {g birth birth' : ℕ}
    (h : BornAfter t₀ hist g birth) (h' : BornAfter t₀ hist g birth') : birth = birth' := by
  obtain ⟨later, m, earlier, heq, -, hshows, hnone, rfl⟩ := h
  obtain ⟨later', m', earlier', heq', -, hshows', hnone', rfl⟩ := h'
  rw [heq] at heq'
  rcases List.append_eq_append_iff.mp heq' with ⟨gap, -, hgap⟩ | ⟨gap, -, hgap⟩
  · cases gap with
    | nil =>
        obtain ⟨-, rfl⟩ := List.cons.inj hgap
        rfl
    | cons first rest =>
        obtain ⟨-, rfl⟩ := List.cons.inj hgap
        exact absurd hshows' (hnone m' (by simp))
  · cases gap with
    | nil =>
        obtain ⟨-, rfl⟩ := List.cons.inj hgap
        rfl
    | cons first rest =>
        obtain ⟨-, rfl⟩ := List.cons.inj hgap
        exact absurd hshows (hnone' m (by simp))

/-! ## The table along a run -/

/-- No instant that the table remembers lies after the end of the last step. -/
structure TablePast (st : Store) (now : ℕ) : Prop where
  polled : st.socketsAt ≤ now
  since : ∀ port, ∀ u ∈ st.udpSockets port, u.since ≤ now

theorem TablePast.mono {st : Store} {now later : ℕ} (h : TablePast st now) (hle : now ≤ later) :
    TablePast st later :=
  ⟨h.polled.trans hle, fun port u hu => (h.since port u hu).trans hle⟩

/-- A poll gives its sockets instants from before the poll. -/
theorem TablePast.polled_since {st : Store} {now : ℕ} (h : TablePast st now)
    {ips : Option (Finset IpAddr)} {socks : List SockEntry} {procs : List ProcInfo} {t : ℕ}
    {port : UInt16} {u : UdpSocket} (hu : u ∈ (st.polled ips socks procs t).udpSockets port) :
    u.since ≤ now := by
  obtain ⟨s, -, -, horigin⟩ := Store.exists_row_of_mem_polled hu
  cases horigin with
  | carried old hold _ => exact h.since s.lport old hold
  | fresh generation _ _ => exact h.polled

theorem TablePast.step {st : Store} {now : ℕ} (h : TablePast st now) {e : Event}
    (hle : now ≤ e.clock.start) : TablePast (st.step e) e.clock.finish := by
  have hend : now ≤ e.clock.finish := hle.trans e.clock.start_le_finish
  by_cases hpoll : ∃ ips socks procs, e.op = .poll ips socks procs
  · obtain ⟨ips, socks, procs, hop⟩ := hpoll
    refine ⟨?_, fun port u hu => ?_⟩
    · rw [st.step_socketsAt_of_poll hop]
      exact e.clock.start_le_finish
    · rw [st.step_udpSockets_of_poll hop] at hu
      exact (h.polled_since hu).trans hend
  · have hnot : ∀ ips socks procs, e.op ≠ .poll ips socks procs :=
      fun ips socks procs hop => hpoll ⟨ips, socks, procs, hop⟩
    obtain ⟨htable, -, -, hat⟩ := st.step_table_of_not_poll hnot
    refine ⟨by rw [hat]; exact h.polled.trans hend, fun port u hu => ?_⟩
    rw [htable] at hu
    exact (h.since port u hu).trans hend

theorem tablePast_run {t₀ : ℕ} {hist : Trace} {s : Store × ℕ}
    (run : Run Store.timedSystem (Store.empty t₀, t₀) hist s) : TablePast s.1 s.2 := by
  refine run.invariant (P := fun s => TablePast s.1 s.2) ⟨le_rfl, ?_⟩ ?_
  · intro port u hu
    contradiction
  · intro s e s' h fires
    obtain ⟨hle, hnext, hfinish⟩ := timedStep fires
    rw [hnext, hfinish]
    exact h.step hle

/-- The table agrees with the history that led to it. -/
structure TableOk (t₀ : ℕ) (hist : Trace) (st : Store) : Prop where
  polled : st.socketsAt = lastPoll t₀ hist
  bound : ∀ port, ∀ u ∈ st.udpSockets port, u.generation ≤ st.socketGeneration
  seen : ∀ m ∈ hist, ∀ g, Shows m.after g → g ≤ st.socketGeneration
  born : ∀ port, ∀ u ∈ st.udpSockets port, BornAfter t₀ hist u.generation u.since
  reported : ∀ port, ∀ u ∈ st.udpSockets port, ∀ p, u.entry.pid = some p →
    Reported hist u.generation p

theorem tableOk_empty (t₀ : ℕ) : TableOk t₀ [] (Store.empty t₀) where
  polled := rfl
  bound port u hu := by simp [Store.empty] at hu
  seen m hm := by simp at hm
  born port u hu := by simp [Store.empty] at hu
  reported port u hu := by simp [Store.empty] at hu

/-- A poll keeps the table in agreement with the history: the sockets carried on
were in agreement, and a new socket is shown for the first time. -/
theorem TableOk.step_poll {t₀ : ℕ} {hist : Trace} {s : Store × ℕ} (h : TableOk t₀ hist s.1)
    {e : Event} {ips : Option (Finset IpAddr)} {socks : List SockEntry} {procs : List ProcInfo}
    (hop : e.op = .poll ips socks procs) : TableOk t₀ ((s, e) :: hist) (s.1.step e) := by
  have htable := s.1.step_udpSockets_of_poll hop
  have hgeneration := s.1.step_socketGeneration_of_poll hop
  have hgrow := s.1.le_polled_generation ips socks procs e.clock.start
  have hbound : ∀ port, ∀ u ∈ (s.1.step e).udpSockets port,
      u.generation ≤ (s.1.step e).socketGeneration := by
    intro port u hu
    rw [htable] at hu
    rw [hgeneration]
    obtain ⟨row, -, -, horigin⟩ := Store.exists_row_of_mem_polled hu
    cases horigin with
    | carried old hold _ => exact (h.bound row.lport old hold).trans hgrow
    | fresh generation _ hle => exact hle
  refine ⟨?_, hbound, ?_, ?_, ?_⟩
  · rw [s.1.step_socketsAt_of_poll hop]
    exact (lastPoll_cons_of_poll (m := (s, e)) hop).symm
  · intro m hm g hshows
    rcases List.mem_cons.mp hm with rfl | hm
    · obtain ⟨port, u, hu, rfl⟩ := hshows
      exact hbound port u hu
    · rw [hgeneration]
      exact (h.seen m hm g hshows).trans hgrow
  · intro port u hu
    have hu' := hu
    rw [htable] at hu'
    obtain ⟨row, -, -, horigin⟩ := Store.exists_row_of_mem_polled hu'
    cases horigin with
    | carried old hold _ => exact (h.born row.lport old hold).cons (s, e)
    | fresh generation hlt _ =>
        -- a new generation exceeds every generation shown so far
        refine ⟨[], (s, e), hist, rfl, ⟨ips, socks, procs, hop⟩, ⟨port, _, hu, rfl⟩, ?_, h.polled⟩
        intro m hm hshows
        have hseen := h.seen m hm _ hshows
        simp only [UdpSocket.fresh] at hseen
        omega
  · intro port u hu p hpid
    have hu' := hu
    rw [htable] at hu'
    obtain ⟨row, hport, hpair, horigin⟩ := Store.exists_row_of_mem_polled hu'
    rw [← htable] at hpair
    have hreport : row.pid = some p → Reported ((s, e) :: hist) u.generation p := by
      intro hrow
      exact ⟨(s, e), List.mem_cons_self .., ips, socks, procs, hop, port, (row, u), hpair, rfl,
        hrow⟩
    cases horigin with
    | carried old hold _ =>
        simp only [UdpSocket.carry] at hpid
        split at hpid
        · contradiction
        · rcases Option.or_eq_some_iff.mp hpid with hrow | ⟨-, hknown⟩
          · exact hreport hrow
          · exact (h.reported row.lport old hold p hknown).cons (s, e)
    | fresh generation _ _ => exact hreport hpid

/-- Between polls the table stands still. -/
theorem TableOk.step_of_not_poll {t₀ : ℕ} {hist : Trace} {s : Store × ℕ}
    (h : TableOk t₀ hist s.1) {e : Event} (hnot : ∀ ips socks procs, e.op ≠ .poll ips socks procs) :
    TableOk t₀ ((s, e) :: hist) (s.1.step e) := by
  obtain ⟨htable, -, hgeneration, hat⟩ := s.1.step_table_of_not_poll hnot
  refine ⟨?_, ?_, ?_, ?_, ?_⟩
  · rw [hat, h.polled, lastPoll_cons_of_not_poll hnot]
  · rw [htable, hgeneration]
    exact h.bound
  · intro m hm g hshows
    rw [hgeneration]
    rcases List.mem_cons.mp hm with rfl | hm
    · obtain ⟨port, u, hu, rfl⟩ := hshows
      have hu' : u ∈ s.1.udpSockets port := by rwa [← htable]
      exact h.bound port u hu'
    · exact h.seen m hm g hshows
  · rw [htable]
    exact fun port u hu => (h.born port u hu).cons (s, e)
  · rw [htable]
    exact fun port u hu p hp => (h.reported port u hu p hp).cons (s, e)

/-- Every step keeps the table in agreement with the history. -/
theorem TableOk.step {t₀ : ℕ} {hist : Trace} {s : Store × ℕ} (h : TableOk t₀ hist s.1)
    (e : Event) : TableOk t₀ ((s, e) :: hist) (s.1.step e) := by
  by_cases hpoll : ∃ ips socks procs, e.op = .poll ips socks procs
  · obtain ⟨ips, socks, procs, hop⟩ := hpoll
    exact h.step_poll hop
  · exact h.step_of_not_poll fun ips socks procs hop => hpoll ⟨ips, socks, procs, hop⟩

/-- What a table in agreement with the history says about the owner of a tuple. -/
structure OwnerOk (t₀ : ℕ) (hist : Trace) (owner : UdpMatch) : Prop where
  born : ∀ o, owner = .unique o → BornAfter t₀ hist o.generation o.since
  reported : ∀ o, owner = .unique o → ∀ p, o.pid = some p → Reported hist o.generation p

theorem TableOk.ownerOk {t₀ : ℕ} {hist : Trace} {st : Store} (h : TableOk t₀ hist st)
    (k : ConnKey) : OwnerOk t₀ hist (st.udpOwner k) where
  born o ho := by
    obtain ⟨u, hu, -, -, hgeneration, hsince, -, -⟩ := Store.mem_table_of_udpOwner_unique ho
    rw [← hgeneration, ← hsince]
    exact h.born _ u hu
  reported o ho p hp := by
    obtain ⟨u, hu, -, -, hgeneration, -, hpid, -⟩ := Store.mem_table_of_udpOwner_unique ho
    rw [← hgeneration]
    exact h.reported _ u hu p (hpid.trans hp)

/-! ## A row along a run -/

/-- What the table said when a packet of the row was counted: it never matched
several sockets or a shared one, the one socket it matched is the one the row is
bound to, and from the binding on it did match one. -/
structure Matched (k : ConnKey) (bound : Option ℕ) (m : Moment) : Prop where
  clear : m.before.udpOwner k ≠ .ambiguous
  own : ∀ o, m.before.udpOwner k = .unique o → bound = some o.generation
  present : ∀ c, m.after.conns.lookup k = some c → c.udpGeneration.isSome →
    ∃ o, m.before.udpOwner k = .unique o

/-- An undisputed UDP row agrees with the history that led to it. -/
structure UdpRow (t₀ : ℕ) (hist : Trace) (k : ConnKey) (c : Conn) : Prop where
  disputed : c.ownerAmbiguous = true → c.pid = none
  born : c.ownerAmbiguous = false → ∀ g, c.udpGeneration = some g →
    ∃ birth, BornAfter t₀ hist g birth ∧ birth ≤ c.firstSeen
  matched : c.ownerAmbiguous = false → ∀ m ∈ counted hist k c, Matched k c.udpGeneration m
  reported : c.ownerAmbiguous = false → ∀ p, c.pid = some p →
    ∃ g, c.udpGeneration = some g ∧ Reported hist g p

/-- The rows agree in everything that attribution looks at. -/
def SameBinding (c c' : Conn) : Prop :=
  SameCounts c c' ∧ c'.ownerAmbiguous = c.ownerAmbiguous ∧ c'.pid = c.pid ∧
    c'.udpGeneration = c.udpGeneration

theorem UdpRow.congr {t₀ : ℕ} {hist : Trace} {k : ConnKey} {c c' : Conn}
    (h : UdpRow t₀ hist k c) (hsame : SameBinding c c') : UdpRow t₀ hist k c' := by
  obtain ⟨⟨hfirst, htx, hrx⟩, hdispute, hpid, hgen⟩ := hsame
  refine ⟨?_, ?_, ?_, ?_⟩
  · rw [hdispute, hpid]
    exact h.disputed
  · rw [hdispute, hgen, hfirst]
    exact h.born
  · rw [hdispute, hgen, counted_congr htx hrx]
    exact h.matched
  · rw [hdispute, hpid, hgen]
    exact h.reported

theorem udpRow_dispute (t₀ : ℕ) (hist : Trace) (k : ConnKey) (c : Conn) :
    UdpRow t₀ hist k c.dispute where
  disputed _ := rfl
  born h := by simp at h
  matched h := by simp at h
  reported h := by simp at h

/-- A row that was just opened has no owner and no packets. -/
theorem udpRow_fresh (t₀ : ℕ) (hist : Trace) (k : ConnKey) (fromPackets : Bool) (now : ℕ) :
    UdpRow t₀ hist k (Store.freshConn k fromPackets now) where
  disputed _ := rfl
  born _ g hg := by simp [Store.freshConn] at hg
  matched _ m hm := by
    rw [counted_of_zero rfl] at hm
    contradiction
  reported _ p hp := by simp [Store.freshConn] at hp

/-- Attribution keeps a row in agreement with the history. -/
theorem UdpRow.attribute {t₀ : ℕ} {hist : Trace} {k : ConnKey} {c : Conn} {owner : UdpMatch}
    (h : UdpRow t₀ hist k c) (howner : OwnerOk t₀ hist owner)
    (procs : Option (ℤ → Option ProcInfo)) : UdpRow t₀ hist k (attributeUdp c owner procs) := by
  by_cases hc : c.ownerAmbiguous = true
  · rw [attributeUdp_of_ambiguous hc]
    exact h
  rw [Bool.not_eq_true] at hc
  obtain ⟨-, -, heq⟩ | ⟨o, ho, hsince, hgen, pname, heq⟩ | heq :=
    attributeUdp_cases c owner procs hc
  · rw [heq]
    exact h
  · rw [heq]
    refine ⟨fun hdisputed => ?_, ?_, ?_, ?_⟩
    · rw [hc] at hdisputed
      contradiction
    · intro _ g hg
      rw [Option.some.injEq] at hg
      exact ⟨o.since, hg ▸ howner.born o ho, hsince⟩
    · intro _ m hm
      have hbefore := h.matched hc m hm
      refine ⟨hbefore.clear, fun o' ho' => ?_, hbefore.present⟩
      -- a row that was bound is bound to the same generation
      have hbound := hbefore.own o' ho'
      rcases hgen with hnone | hsome
      · rw [hnone] at hbound
        contradiction
      · rwa [hsome] at hbound
    · intro _ p hp
      refine ⟨o.generation, rfl, ?_⟩
      rcases Option.or_eq_some_iff.mp hp with hnew | ⟨-, hold⟩
      · exact howner.reported o ho p hnew
      · obtain ⟨g, hg, hreport⟩ := h.reported hc p hold
        rcases hgen with hnone | hsome
        · rw [hnone] at hg
          contradiction
        · rw [hsome, Option.some.injEq] at hg
          rwa [hg]
  · rw [heq]
    exact udpRow_dispute t₀ hist k c

/-- A step that is no packet of the tuple leaves the past of its rows as it is. -/
theorem UdpRow.cons {t₀ : ℕ} {hist : Trace} {k : ConnKey} {c : Conn} {m : Moment}
    (h : UdpRow t₀ hist k c) (hnot : m.isPacketOf k = false) : UdpRow t₀ (m :: hist) k c where
  disputed := h.disputed
  born hc g hg := by
    obtain ⟨birth, hborn, hle⟩ := h.born hc g hg
    exact ⟨birth, hborn.cons m, hle⟩
  matched hc := by
    rw [counted_cons_of_not hnot]
    exact h.matched hc
  reported hc p hp := by
    obtain ⟨g, hg, hreport⟩ := h.reported hc p hp
    exact ⟨g, hg, hreport.cons m⟩

/-- A packet keeps its row in agreement with the history. -/
theorem UdpRow.packet {t₀ : ℕ} {hist : Trace} {s : Store × ℕ} {e : Event} {k : ConnKey}
    {p : Packet} {c₀ : Conn} {now : ℕ} (h : UdpRow t₀ hist k c₀) (hop : e.op = .packet p)
    (hudp : k.proto = .udp) (hkey : k = s.1.packetKey p) (howner : OwnerOk t₀ hist (s.1.udpOwner k))
    (hrow : (s.1.step e).conns.lookup k =
      some (Store.countPacket p (s.1.outbound p) (s.1.udpOwner k) now c₀)) :
    UdpRow t₀ ((s, e) :: hist) k
      (Store.countPacket p (s.1.outbound p) (s.1.udpOwner k) now c₀) := by
  have hproto : p.proto = .udp := by
    rw [← hudp, hkey, Store.packetKey_proto]
  obtain ⟨hfirst, hcount⟩ := countPacket_counts p (s.1.outbound p) (s.1.udpOwner k) now c₀
  obtain ⟨hdispute, hpid, -, hgen⟩ :=
    countPacket_udp hproto (s.1.outbound p) (s.1.udpOwner k) now c₀
  obtain ⟨hfirst', htx, hrx⟩ := attributeUdp_sameCounts c₀ (s.1.udpOwner k) none
  have hpacket : Moment.isPacketOf k (s, e) = true := by
    simp [Moment.isPacketOf, hop, hkey, Moment.before]
  have hattr : UdpRow t₀ hist k (attributeUdp c₀ (s.1.udpOwner k) none) := h.attribute howner none
  refine ⟨?_, ?_, ?_, ?_⟩
  · rw [hdispute, hpid]
    exact hattr.disputed
  · rw [hdispute, hgen, hfirst, ← hfirst']
    intro hc g hg
    obtain ⟨birth, hborn, hle⟩ := hattr.born hc g hg
    exact ⟨birth, hborn.cons _, hle⟩
  · rw [hdispute, counted_cons_of_packet hist hpacket hcount, hgen]
    intro hc m hm
    rcases List.mem_cons.mp hm with rfl | hm
    · -- the packet itself: its match decides what the row is bound to
      have hc₀ : c₀.ownerAmbiguous = false := by
        by_contra hdisputed
        rw [Bool.not_eq_false] at hdisputed
        rw [attributeUdp_of_ambiguous hdisputed, hdisputed] at hc
        contradiction
      obtain ⟨hmiss, hnone, heq⟩ | ⟨o, ho, -, -, pname, heq⟩ | heq :=
        attributeUdp_cases c₀ (s.1.udpOwner k) none hc₀
      · refine ⟨by simp [Moment.before, hmiss], by simp [Moment.before, hmiss], ?_⟩
        intro c hlookup hbound
        change (s.1.step e).conns.lookup k = some c at hlookup
        rw [hrow, Option.some.injEq] at hlookup
        subst hlookup
        rw [hgen, heq, hnone] at hbound
        contradiction
      · refine ⟨by simp [Moment.before, ho], ?_, fun _ _ _ => ⟨o, ho⟩⟩
        intro o' ho'
        change s.1.udpOwner k = .unique o' at ho'
        rw [ho, UdpMatch.unique.injEq] at ho'
        rw [heq, ho']
      · rw [heq] at hc
        contradiction
    · rw [← counted_congr htx hrx] at hm
      exact hattr.matched hc m hm
  · rw [hdispute, hpid, hgen]
    intro hc p' hp'
    obtain ⟨g, hg, hreport⟩ := hattr.reported hc p' hp'
    exact ⟨g, hg, hreport.cons _⟩

/-- Showing a socket on a row and settling it at the end of a poll keep it in
agreement with the history. -/
theorem UdpRow.show {t₀ : ℕ} {hist : Trace} {s : SockEntry} {c : Conn} {owner : UdpMatch}
    (h : UdpRow t₀ hist s.key c) (hudp : s.key.proto = .udp) (howner : OwnerOk t₀ hist owner)
    (procs : ProcMap) (t : ℕ) : UdpRow t₀ hist s.key (Store.showSocket procs t s owner c) := by
  have hproto : s.proto = .udp := hudp
  have hshown : UdpRow t₀ hist s.key (Store.markShown t s c) :=
    h.congr ⟨⟨rfl, rfl, rfl⟩, rfl, rfl, rfl⟩
  unfold Store.showSocket
  rw [hproto]
  exact hshown.attribute howner (some procs)

theorem UdpRow.settle {t₀ : ℕ} {hist : Trace} {k : ConnKey} {c : Conn} {owner : UdpMatch}
    (h : UdpRow t₀ hist k c) (howner : OwnerOk t₀ hist owner) (procs : ProcMap) (t : ℕ)
    (shown : Bool) : UdpRow t₀ hist k (Store.settle procs t shown k owner c) := by
  obtain heq | ⟨state, heq⟩ | ⟨-, -, -, -, heq⟩ := settle_cases procs t shown k owner c
  · rw [heq]
    exact h
  · rw [heq]
    exact h.congr ⟨⟨rfl, rfl, rfl⟩, rfl, rfl, rfl⟩
  · rw [heq]
    exact (h.attribute howner (some procs)).congr ⟨⟨rfl, rfl, rfl⟩, rfl, rfl, rfl⟩

theorem NamesOnly.sameBinding {c c' : Conn} (h : NamesOnly c c') : SameBinding c c' := by
  obtain ⟨domain, ptr, asn, owner, rfl⟩ := h
  exact ⟨⟨rfl, rfl, rfl⟩, rfl, rfl, rfl⟩

/-- The table and every UDP row agree with the history, in every run. -/
theorem udpRow_run {t₀ : ℕ} {hist : Trace} {s : Store × ℕ}
    (run : Run Store.timedSystem (Store.empty t₀, t₀) hist s) :
    TableOk t₀ hist s.1 ∧
      ∀ k c, k.proto = .udp → s.1.conns.lookup k = some c → UdpRow t₀ hist k c := by
  refine run.historyInvariant (P := fun hist s => TableOk t₀ hist s.1 ∧
    ∀ k c, k.proto = .udp → s.1.conns.lookup k = some c → UdpRow t₀ hist k c) ?_ ?_
  · refine ⟨tableOk_empty t₀, fun k c _ hrow => ?_⟩
    simp [Store.empty] at hrow
  · rintro hist s e s' - ⟨htable, hrows⟩ fires
    obtain ⟨-, hnext, -⟩ := timedStep fires
    have htable' := htable.step e
    rw [hnext]
    refine ⟨htable', fun k c hudp hrow => ?_⟩
    cases Store.step_row hrow with
    | packet p c₀ hop hkey hbase =>
        have hc₀ : UdpRow t₀ hist k c₀ := by
          rcases hbase with hold | ⟨-, rfl⟩
          · exact hrows k c₀ hudp hold
          · exact udpRow_fresh t₀ hist k _ _
        exact hc₀.packet hop hudp hkey (htable.ownerOk k) hrow
    | poll ips socks procs _ hop hpolled =>
        have hnot : ∀ k, Moment.isPacketOf k (s, e) = false := by
          intro k
          simp [Moment.isPacketOf, hop]
        have howner : ∀ k, OwnerOk t₀ ((s, e) :: hist)
            ((s.1.polled ips socks procs e.clock.start).udpOwner k) := by
          intro k
          rw [← s.1.step_udpOwner_of_poll hop]
          exact htable'.ownerOk k
        refine Store.applySockets_invariant
          (R := fun k c => k.proto = .udp → UdpRow t₀ ((s, e) :: hist) k c) ?_ ?_ ?_ ?_ hpolled hudp
        · intro k c hold hudp
          have hold' : s.1.conns.lookup k = some c := by cases ips <;> exact hold
          exact (hrows k c hudp hold').cons (hnot k)
        · intro row _ _ i hudp
          exact (udpRow_fresh t₀ _ row.key false _).show hudp (howner row.key) _ _
        · intro row _ _ c hc hudp
          exact (hc hudp).show hudp (howner row.key) _ _
        · intro k c shown hc hudp
          exact (hc hudp).settle (howner k) _ _ shown
    | kept c₀ _ hold hnames _ hpacket =>
        have hnot : Moment.isPacketOf k (s, e) = false := by
          unfold Moment.isPacketOf
          split
          · rename_i p hop
            simpa using fun heq => hpacket p hop heq.symm
          · rfl
        exact ((hrows k c₀ hudp hold).cons hnot).congr (NamesOnly.sameBinding hnames)

/-! ## The result -/

/-- **Soundness of UDP attribution.** In every run, a UDP row with an owner is
bound to one socket generation `g`:

* no packet counted on the row is older than the poll before the first poll
  that shows `g`;
* every packet counted after the binding found the socket of `g` as the only
  one in the table that covers the tuple;
* no packet of the row matched a shared socket, several sockets or another
  generation;
* a poll reported the owner for the socket of `g`. -/
theorem udpAttribution_sound {t₀ : ℕ} {hist : Trace} {s : Store × ℕ} {k : ConnKey} {c : Conn}
    {p : ℤ} (run : Run Store.timedSystem (Store.empty t₀, t₀) hist s)
    (hudp : k.proto = .udp) (hrow : s.1.conns.lookup k = some c) (hpid : c.pid = some p) :
    ∃ g, c.udpGeneration = some g ∧
      (∃ birth, BornAfter t₀ hist g birth ∧ ∀ m ∈ counted hist k c, birth ≤ m.countedAt) ∧
      (∀ m ∈ counted hist k c,
        (∃ c', m.after.conns.lookup k = some c' ∧ c'.udpGeneration.isSome) →
          ∃ u, ((m.before.udpSockets k.lport).filter fun u => Store.covers u.entry k) = [u] ∧
            u.entry.ambiguous = false ∧ u.generation = g) ∧
      (∀ m ∈ counted hist k c, m.before.udpOwner k ≠ .ambiguous ∧
        ∀ o, m.before.udpOwner k = .unique o → o.generation = g) ∧
      Reported hist g p := by
  obtain ⟨-, hrows⟩ := udpRow_run run
  have hinv := hrows k c hudp hrow
  have hcounts := countsSince_run run k c hrow
  have hclean : c.ownerAmbiguous = false := by
    by_contra hdisputed
    rw [Bool.not_eq_false] at hdisputed
    rw [hinv.disputed hdisputed] at hpid
    contradiction
  obtain ⟨g, hg, hreported⟩ := hinv.reported hclean p hpid
  obtain ⟨birth, hborn, hbirth⟩ := hinv.born hclean g hg
  have hgeneration : ∀ m ∈ counted hist k c, ∀ o, m.before.udpOwner k = .unique o →
      o.generation = g := by
    intro m hm o ho
    have hown := (hinv.matched hclean m hm).own o ho
    rw [hg, Option.some.injEq] at hown
    exact hown.symm
  refine ⟨g, hg, ⟨birth, hborn, ?_⟩, ?_, ?_, hreported⟩
  · intro m hm
    exact hbirth.trans (hcounts.since m hm)
  · intro m hm ⟨c', hrow', hbound⟩
    obtain ⟨o, ho⟩ := (hinv.matched hclean m hm).present c' hrow' hbound
    obtain ⟨-, u, hfilter, hshared, heq⟩ := Store.udpOwner_eq_unique ho
    have hgen := hgeneration m hm o ho
    rw [heq] at hgen
    exact ⟨u, hfilter, hshared, hgen⟩
  · intro m hm
    exact ⟨(hinv.matched hclean m hm).clear, hgeneration m hm⟩

/-- A poll at 10 shows the socket of process 7, and a packet of it comes at 20. -/
def sampleUdpTrace : Trace :=
  let st := Store.empty 0
  let poll := pollAt 10 [sampleUdp (some 7) false] [sampleProc 7 100]
  [((st.step poll, 10), packetAt 20 .udp), ((st, 0), poll)]

/-- The sample run attributes its row to process 7, for a good reason. -/
theorem udpAttribution_sound_sample :
    ∃ c g, ((Store.empty 0).step (pollAt 10 [sampleUdp (some 7) false] [sampleProc 7 100]) |>.step
        (packetAt 20 .udp)).conns.lookup (sampleKey .udp) = some c ∧
      c.udpGeneration = some g ∧ Reported sampleUdpTrace g 7 := by
  have run : Run Store.timedSystem (Store.empty 0, 0) sampleUdpTrace
      ((Store.empty 0).step (pollAt 10 [sampleUdp (some 7) false] [sampleProc 7 100]) |>.step
        (packetAt 20 .udp), 20) :=
    (Run.start.next rfl).next rfl
  obtain ⟨c, hrow, hpid⟩ : ∃ c, ((Store.empty 0).step
      (pollAt 10 [sampleUdp (some 7) false] [sampleProc 7 100]) |>.step
        (packetAt 20 .udp)).conns.lookup (sampleKey .udp) = some c ∧ c.pid = some 7 :=
    ⟨_, rfl, rfl⟩
  obtain ⟨g, hg, -, -, -, hreported⟩ := udpAttribution_sound run rfl hrow hpid
  exact ⟨c, g, hrow, hg, hreported⟩

end SocketTrail.Attribution
