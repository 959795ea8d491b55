/-
# Where the owner of a row comes from

An operation keeps the process of a row, drops it, or takes it from a socket: one
of the snapshot or one of the UDP table. `OwnerStep` says so for the functions
that rewrite a row, `OwnerAfter` for the rows after an operation. A socket that
bears a listed process bears the start time of the list, so that a row never
takes over a number without the process behind it.
-/

import SocketTrail.State.UdpTable

namespace SocketTrail.State

open SocketTrail.Foundation SocketTrail.Net

/-- What a function that rewrites a row does to its owner: it keeps it, drops it,
or takes a process from `source`, with the start time when `source` knows it. -/
inductive OwnerStep (source : ℤ → Option ℕ → Prop) (c c' : Conn) : Prop
  | kept (hpid : c'.pid = c.pid) (hstarted : c'.ownerStarted = c.ownerStarted)
  | dropped (hpid : c'.pid = none)
  | taken (q : ℤ) (started : Option ℕ) (hsource : source q started) (hpid : c'.pid = some q)
      (hstarted : ∀ t, started = some t → c'.ownerStarted = some t)

/-- Only the owner of the two rows counts, and a wider source says less. -/
theorem OwnerStep.congr {source source' : ℤ → Option ℕ → Prop} {c₀ c c' c₁ : Conn}
    (h : OwnerStep source c c') (hsource : ∀ q started, source q started → source' q started)
    (hbefore : c.pid = c₀.pid ∧ c.ownerStarted = c₀.ownerStarted)
    (hafter : c₁.pid = c'.pid ∧ c₁.ownerStarted = c'.ownerStarted) : OwnerStep source' c₀ c₁ := by
  cases h with
  | kept hpid hstarted =>
      exact .kept (hafter.1.trans (hpid.trans hbefore.1))
        (hafter.2.trans (hstarted.trans hbefore.2))
  | dropped hpid => exact .dropped (hafter.1.trans hpid)
  | taken q started htaken hpid hstarted =>
      exact .taken q started (hsource q started htaken) (hafter.1.trans hpid) fun t ht =>
        hafter.2.trans (hstarted t ht)

/-- The matching socket of a tuple bears the process. -/
def UdpMatch.Bears (owner : UdpMatch) (q : ℤ) (started : Option ℕ) : Prop :=
  ∃ o, owner = .unique o ∧ o.pid = some q ∧ o.started = started

theorem attributeUdp_ownerStep (c : Conn) (owner : UdpMatch)
    (procs : Option (ℤ → Option ProcInfo)) :
    OwnerStep owner.Bears c (attributeUdp c owner procs) := by
  by_cases hc : c.ownerAmbiguous = true
  · rw [attributeUdp_of_ambiguous hc]
    exact .kept rfl rfl
  · rw [Bool.not_eq_true] at hc
    obtain ⟨-, -, heq⟩ | ⟨o, howner, -, -, pname, heq⟩ | heq := attributeUdp_cases c owner procs hc
    · rw [heq]
      exact .kept rfl rfl
    · rw [heq]
      cases hpid : o.pid with
      | none => exact .kept rfl rfl
      | some q => exact .taken q o.started ⟨o, howner, hpid, rfl⟩ rfl (by simp +contextual)
    · rw [heq]
      exact .dropped rfl

/-- The process of a snapshot row, with its start time in the process list. -/
def ShownBy (procs : ProcMap) (s : SockEntry) (q : ℤ) (started : Option ℕ) : Prop :=
  s.pid = some q ∧ started = startedOf procs (some q)

theorem takeOwner_ownerStep (procs : ProcMap) (s : SockEntry) (c : Conn) :
    OwnerStep (ShownBy procs s) c (Store.takeOwner procs s c) := by
  unfold Store.takeOwner
  split
  · rename_i htakes
    cases hpid : s.pid with
    | none => simp [hpid] at htakes
    | some q => exact .taken q _ ⟨hpid, rfl⟩ rfl (by simp +contextual)
  · exact .kept rfl rfl

theorem checkReuse_owner (procs : ProcMap) (s : SockEntry) (c : Conn) :
    ((Store.checkReuse procs s c).pid = c.pid ∧
      (Store.checkReuse procs s c).ownerStarted = c.ownerStarted) ∨
    (Store.checkReuse procs s c).pid = none := by
  unfold Store.checkReuse
  split
  · exact .inr rfl
  · exact .inl ⟨rfl, rfl⟩

/-- A socket shown on a row gives it the process of the snapshot row, or that of
the matching UDP socket. -/
theorem showSocket_ownerStep (procs : ProcMap) (t : ℕ) (s : SockEntry) (owner : UdpMatch)
    (c : Conn) :
    OwnerStep (fun q started => ShownBy procs s q started ∨ owner.Bears q started) c
      (Store.showSocket procs t s owner c) := by
  unfold Store.showSocket
  cases s.proto with
  | udp =>
      dsimp only
      exact (attributeUdp_ownerStep (Store.markShown t s c) owner (some procs)).congr
        (fun _ _ => .inr) ⟨rfl, rfl⟩ ⟨rfl, rfl⟩
  | tcp =>
      dsimp only
      cases takeOwner_ownerStep procs s (Store.markShown t s (Store.checkReuse procs s c)) with
      | dropped hpid => exact .dropped hpid
      | kept hpid hstarted =>
          obtain ⟨hpid', hstarted'⟩ | hpid' := checkReuse_owner procs s c
          · exact .kept (hpid.trans hpid') (hstarted.trans hstarted')
          · exact .dropped (hpid.trans hpid')
      | taken q started hsource hpid hstarted =>
          exact .taken q started (.inl hsource) hpid hstarted

theorem settle_ownerStep (procs : ProcMap) (t : ℕ) (shown : Bool) (k : ConnKey) (owner : UdpMatch)
    (c : Conn) : OwnerStep owner.Bears c (Store.settle procs t shown k owner c) := by
  obtain heq | ⟨state, heq⟩ | ⟨-, -, -, -, heq⟩ := settle_cases procs t shown k owner c
  · rw [heq]
    exact .kept rfl rfl
  · rw [heq]
    exact .kept rfl rfl
  · rw [heq]
    exact (attributeUdp_ownerStep c owner (some procs)).congr (fun _ _ => id) ⟨rfl, rfl⟩ ⟨rfl, rfl⟩

/-- A packet gives a row the process of the matching UDP socket, if any. -/
theorem countPacket_ownerStep (p : Packet) (outgoing : Bool) (owner : UdpMatch) (now : ℕ)
    (c : Conn) : OwnerStep owner.Bears c (Store.countPacket p outgoing owner now c) := by
  obtain ⟨base, state, closed, hbase, heq⟩ := countPacket_eq p outgoing owner now c
  rw [heq]
  split at hbase
  · subst hbase
    exact (attributeUdp_ownerStep c owner none).congr (fun _ _ => id) ⟨rfl, rfl⟩ ⟨rfl, rfl⟩
  · subst hbase
    exact .kept rfl rfl

/-! ## The UDP table and the process list -/

/-- A socket of the table bears the process number. -/
def Borne (table : UdpTable) (q : ℤ) : Prop :=
  ∃ port, ∃ u ∈ table port, u.entry.pid = some q

/-- Every socket of the table that bears a listed process bears its start time
in the list. -/
def Listed (procs : ProcMap) (table : UdpTable) : Prop :=
  ∀ port, ∀ u ∈ table port, ∀ q info, u.entry.pid = some q → procs q = some info →
    u.ownerStarted = some info.started

/-- The process that a snapshot brings along. -/
def Brought (socks : List SockEntry) (table : UdpTable) (q : ℤ) : Prop :=
  (∃ s ∈ socks, s.pid = some q) ∨ Borne table q

/-- The process of a socket carried on is that of the snapshot row or the one known
before. -/
theorem UdpSocket.carry_eq_some {procs : ProcMap} {s : SockEntry} {old : UdpSocket} {q : ℤ}
    (h : (old.carry procs s).entry.pid = some q) : s.pid.or old.entry.pid = some q := by
  unfold UdpSocket.carry at h
  dsimp only at h
  split at h
  · contradiction
  · exact h

section Polled

variable {st : Store} {ips : Option (Finset IpAddr)} {socks : List SockEntry}
  {procs : List ProcInfo} {t : ℕ}

/-- A poll brings the table in line with its process list. -/
theorem listed_polled : Listed (procMap procs) (st.polled ips socks procs t).udpSockets := by
  intro port u hu q info hpid hinfo
  obtain ⟨s, -, -, horigin⟩ := Store.exists_row_of_mem_polled hu
  have hstarted : startedOf (procMap procs) (some q) = some info.started := by
    simp [startedOf, hinfo]
  cases horigin with
  | carried old _ _ =>
      unfold UdpSocket.carry
      dsimp only
      rw [UdpSocket.carry_eq_some hpid, hstarted]
      rfl
  | fresh _ _ _ =>
      have hentry : s.pid = some q := hpid
      unfold UdpSocket.fresh
      dsimp only
      rw [hentry, hstarted]

/-- The processes of the table after a poll were there before or come from the
snapshot. -/
theorem brought_of_borne_polled {q : ℤ} (h : Borne (st.polled ips socks procs t).udpSockets q) :
    Brought socks st.udpSockets q := by
  obtain ⟨port, u, hu, hpid⟩ := h
  obtain ⟨s, -, hzip, horigin⟩ := Store.exists_row_of_mem_polled hu
  have hsock : s ∈ socks := by
    have hrow : s ∈ Store.udpRows socks port := (List.of_mem_zip hzip).1
    exact List.mem_of_mem_filter (List.mem_of_mem_filter hrow)
  cases horigin with
  | carried old hold _ =>
      rcases Option.or_eq_some_iff.mp (UdpSocket.carry_eq_some hpid) with hs | ⟨-, hold'⟩
      · exact .inl ⟨s, hsock, hs⟩
      · exact .inr ⟨_, old, hold, hold'⟩
  | fresh _ _ _ => exact .inl ⟨s, hsock, hpid⟩

end Polled

/-- The process of a unique match stands in the table. -/
theorem UdpMatch.Bears.borne {st : Store} {k : ConnKey} {q : ℤ} {started : Option ℕ}
    (h : (st.udpOwner k).Bears q started) : Borne st.udpSockets q := by
  obtain ⟨o, howner, hpid, -⟩ := h
  obtain ⟨u, hu, -, -, -, -, hentry, -⟩ := Store.mem_table_of_udpOwner_unique howner
  exact ⟨_, u, hu, hentry.trans hpid⟩

/-- A unique match knows the start time of a listed process. -/
theorem UdpMatch.Bears.started {st : Store} {procs : ProcMap} (hlisted : Listed procs st.udpSockets)
    {k : ConnKey} {q : ℤ} {started : Option ℕ} (h : (st.udpOwner k).Bears q started)
    {info : ProcInfo} (hinfo : procs q = some info) : started = some info.started := by
  obtain ⟨o, howner, hpid, hstarted⟩ := h
  obtain ⟨u, hu, -, -, -, -, hentry, htable⟩ := Store.mem_table_of_udpOwner_unique howner
  rw [← hstarted, ← htable]
  exact hlisted _ u hu q info (hentry.trans hpid) hinfo

/-! ## Rows after an operation -/

/-- The owner of a row after an operation on the store: that of the row before
it, none, or a process that `borne` allows, with its start time when the process
list has it. -/
inductive OwnerAfter (st : Store) (borne : ℤ → Prop) (procs : ProcMap) (k : ConnKey) (c : Conn) :
    Prop
  | kept (c₀ : Conn) (hrow : st.conns.lookup k = some c₀) (hpid : c.pid = c₀.pid)
      (hstarted : c.ownerStarted = c₀.ownerStarted)
  | unowned (hpid : c.pid = none)
  | named (q : ℤ) (hpid : c.pid = some q) (hborne : borne q)
      (hlisted : ∀ info, procs q = some info → c.ownerStarted = some info.started)

theorem OwnerAfter.step {st : Store} {borne : ℤ → Prop} {procs : ProcMap} {k : ConnKey}
    {source : ℤ → Option ℕ → Prop} {c c' : Conn} (h : OwnerAfter st borne procs k c)
    (hstep : OwnerStep source c c')
    (hsource : ∀ q started, source q started → borne q ∧
      ∀ info, procs q = some info → started = some info.started) :
    OwnerAfter st borne procs k c' := by
  cases hstep with
  | dropped hpid => exact .unowned hpid
  | taken q started htaken hpid hstarted =>
      obtain ⟨hborne, hlisted⟩ := hsource q started htaken
      exact .named q hpid hborne fun info hinfo => hstarted _ (hlisted info hinfo)
  | kept hpid hstarted =>
      cases h with
      | kept c₀ hrow hpid₀ hstarted₀ =>
          exact .kept c₀ hrow (hpid.trans hpid₀) (hstarted.trans hstarted₀)
      | unowned hpid₀ => exact .unowned (hpid.trans hpid₀)
      | named q hpid₀ hborne hlisted =>
          refine .named q (hpid.trans hpid₀) hborne fun info hinfo => ?_
          exact hstarted.trans (hlisted info hinfo)

/-- The rows after a packet. -/
theorem applyPacket_ownerAfter {conns : HashOrder ConnKey} {ips : HashOrder IpAddr} {clock : Clock}
    {st : Store} {p : Packet} {procs : ProcMap} (hlisted : Listed procs st.udpSockets)
    {k : ConnKey} {c : Conn} (h : (st.applyPacket conns ips clock p).2.conns.lookup k = some c) :
    OwnerAfter st (Borne st.udpSockets) procs k c := by
  obtain ⟨-, hrow⟩ | ⟨-, c₀, hbase, rfl⟩ := Store.applyPacket_cases h
  · exact .kept c hrow rfl rfl
  · have hbefore : OwnerAfter st (Borne st.udpSockets) procs k c₀ := by
      obtain hrow | ⟨-, rfl⟩ := hbase
      · exact .kept c₀ hrow rfl rfl
      · exact .unowned rfl
    apply hbefore.step (countPacket_ownerStep ..)
    intro q started hbears
    exact ⟨hbears.borne, fun info hinfo => hbears.started hlisted hinfo⟩

/-- The rows after a poll. -/
theorem poll_ownerAfter {st : Store} {e : Event} {ips : Option (Finset IpAddr)}
    {socks : List SockEntry} {procs : List ProcInfo} (hop : e.op = .poll ips socks procs)
    {k : ConnKey} {c : Conn} (h : (st.step e).conns.lookup k = some c) :
    OwnerAfter st (Brought socks st.udpSockets) (procMap procs) k c := by
  unfold Store.step at h
  rw [hop] at h
  dsimp only at h
  have hbears (k : ConnKey) (q : ℤ) (started : Option ℕ)
      (hq : ((st.polled ips socks procs (e.clock.read 0)).udpOwner k).Bears q started) :
      Brought socks st.udpSockets q ∧
        ∀ info, procMap procs q = some info → started = some info.started :=
    ⟨brought_of_borne_polled hq.borne, fun info hinfo => hq.started listed_polled hinfo⟩
  have hshown (s : SockEntry) (hs : s ∈ socks) (k : ConnKey) (q : ℤ) (started : Option ℕ)
      (hq : ShownBy (procMap procs) s q started ∨
        ((st.polled ips socks procs (e.clock.read 0)).udpOwner k).Bears q started) :
      Brought socks st.udpSockets q ∧
        ∀ info, procMap procs q = some info → started = some info.started := by
    rcases hq with ⟨hpid, hstarted⟩ | hq
    · refine ⟨.inl ⟨s, hs, hpid⟩, fun info hinfo => ?_⟩
      rw [hstarted]
      simp [startedOf, hinfo]
    · exact hbears k q started hq
  apply Store.applySockets_invariant _ _ _ _ h
  · intro k c hrow
    have hrow' : st.conns.lookup k = some c := by cases ips <;> exact hrow
    exact .kept c hrow' rfl rfl
  · intro s hs _ i
    apply OwnerAfter.step (c := Store.freshConn s.key false (e.clock.read i)) (.unowned rfl)
      (showSocket_ownerStep ..)
    exact hshown s hs s.key
  · intro s hs _ c hc
    exact hc.step (showSocket_ownerStep ..) (hshown s hs s.key)
  · intro k c shown hc
    exact hc.step (settle_ownerStep ..) (hbears k)

end SocketTrail.State
