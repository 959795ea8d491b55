/-
# Foreign rows and process-only dumps

A dump is filtered by tuple over the whole file, so a tuple whose row belonged
to a process outside of the group, or was disputed, at any moment of the
recording must not be kept. While the row lives it carries the doubt itself:
`ForeignAt.step` says that a foreign row stays foreign. Once the row is gone the
doubt survives in the recording only if a merge has put it there, and a
process-only recording merges no row of another process into an empty place.
`ForgetsDoubt` is the step at which the doubt is lost. `Restamps` is the other
way out: a poll that gives the process kept for a UDP socket a new start time
makes another process instance of the old owner.
-/

import SocketTrail.Recording.Session

namespace SocketTrail.Recording

open SocketTrail.Foundation SocketTrail.Net SocketTrail.State SocketTrail.Attribution

/-- The row is disputed, or its owner is no process of the group. An owner whose
start time is not known is none if the group has nobody of its number. -/
def Foreign (group : List Identity) (c : Conn) : Prop :=
  c.ownerAmbiguous = true ∨ ∃ pid, c.pid = some pid ∧
    ∀ id ∈ group, id.pid = pid → ∃ started, c.ownerStarted = some started ∧ started ≠ id.started

/-- The history has a foreign row of the tuple. -/
def ForeignAt (group : List Identity) (k : ConnKey) (st : Store) : Prop :=
  ∃ c, st.conns.lookup k = some c ∧ Foreign group c

/-- The event is a poll that carries on the socket of the tuple's undisputed row
and knows another start time for the process that was kept for it. -/
def Restamps (k : ConnKey) (st : Store) (e : Event) : Prop :=
  ∃ ips socks procs, e.op = .poll ips socks procs ∧
    ∃ s ∈ Store.udpRows socks k.lport, ∃ u ∈ st.udpSockets k.lport,
      u.continues (procMap procs) s = true ∧ u.entry.ambiguous = false ∧
      (∃ c, st.conns.lookup k = some c ∧ c.ownerAmbiguous = false ∧
        c.udpGeneration = some u.generation) ∧
      contradicts u.ownerStarted (startedOf (procMap procs) u.entry.pid) = true

/-! ## Rows and the table -/

/-- An undisputed row with an owner is bound to a socket, and if the table still
has that socket for the tuple, it names the same owner. -/
structure Stands (table : List UdpSocket) (k : ConnKey) (c : Conn) : Prop where
  bound : c.ownerAmbiguous = false → c.pid.isSome → c.udpGeneration.isSome
  named : c.ownerAmbiguous = false → c.ownerStarted.isSome → c.pid.isSome
  owner : c.ownerAmbiguous = false → ∀ u ∈ table, Store.covers u.entry k = true →
    u.entry.ambiguous = false → c.udpGeneration = some u.generation →
    ∀ p, c.pid = some p → u.entry.pid = some p ∧
      ∀ t, c.ownerStarted = some t → u.ownerStarted = some t

theorem stands_dispute (table : List UdpSocket) (k : ConnKey) (c : Conn) :
    Stands table k c.dispute where
  bound h := by simp at h
  named h := by simp at h
  owner h := by simp at h

theorem stands_fresh (table : List UdpSocket) (k : ConnKey) (fromPackets : Bool) (now : ℕ) :
    Stands table k (Store.freshConn k fromPackets now) where
  bound _ h := by simp [Store.freshConn] at h
  named _ h := by simp [Store.freshConn] at h
  owner _ u _ _ _ hgen := by simp [Store.freshConn] at hgen

/-- The rows agree in their ownership. -/
def SameOwnership (c c' : Conn) : Prop :=
  c'.ownerAmbiguous = c.ownerAmbiguous ∧ c'.pid = c.pid ∧ c'.ownerStarted = c.ownerStarted ∧
    c'.udpGeneration = c.udpGeneration

theorem SameOwnership.foreign {group : List Identity} {c c' : Conn} (h : SameOwnership c c')
    (hc : Foreign group c) : Foreign group c' := by
  obtain ⟨hdispute, hpid, hstarted, -⟩ := h
  rwa [Foreign, hdispute, hpid, hstarted]

theorem Stands.congr {table : List UdpSocket} {k : ConnKey} {c c' : Conn}
    (h : Stands table k c) (hsame : SameOwnership c c') : Stands table k c' := by
  obtain ⟨hdispute, hpid, hstarted, hgen⟩ := hsame
  constructor
  · rw [hdispute, hpid, hgen]
    exact h.bound
  · rw [hdispute, hstarted, hpid]
    exact h.named
  · rw [hdispute, hpid, hstarted, hgen]
    exact h.owner

theorem NamesOnly.sameOwnership {c c' : Conn} (h : NamesOnly c c') : SameOwnership c c' := by
  obtain ⟨domain, ptr, asn, owner, rfl⟩ := h
  exact ⟨rfl, rfl, rfl, rfl⟩

section Attribute

variable {st : Store} {k : ConnKey} {c : Conn} {group : List Identity}
  (procs : Option (ℤ → Option ProcInfo))

/-- A row that stands by the table has no other owner than the socket it is
matched to. -/
theorem Stands.agrees (h : Stands (st.udpSockets k.lport) k c) (hc : c.ownerAmbiguous = false)
    {o : UdpOwner} (ho : st.udpOwner k = .unique o)
    (hgen : c.udpGeneration = none ∨ c.udpGeneration = some o.generation) {p : ℤ}
    (hp : c.pid = some p) : o.pid = some p ∧ ∀ t, c.ownerStarted = some t → o.started = some t := by
  have hbound := h.bound hc (by rw [hp]; rfl)
  rcases hgen with hnone | hsome
  · rw [hnone] at hbound
    contradiction
  · obtain ⟨u, hu, hcovers, hclear, hgeneration, -, hpid, hstarted⟩ :=
      Store.mem_table_of_udpOwner_unique ho
    rw [← hgeneration] at hsome
    rw [← hpid, ← hstarted]
    exact h.owner hc u hu hcovers hclear hsome p hp

/-- Attribution to a socket of the table leaves a row that stands by the table. -/
theorem Stands.attribute (h : Stands (st.udpSockets k.lport) k c) :
    Stands (st.udpSockets k.lport) k (attributeUdp c (st.udpOwner k) procs) := by
  by_cases hc : c.ownerAmbiguous = true
  · rw [attributeUdp_of_ambiguous hc]
    exact h
  rw [Bool.not_eq_true] at hc
  obtain ⟨-, -, heq⟩ | ⟨o, ho, -, hgen, pname, heq⟩ | heq :=
    attributeUdp_cases c (st.udpOwner k) procs hc
  · rw [heq]
    exact h
  · have howner : ∀ p, o.pid.or c.pid = some p → o.pid = some p := by
      intro p hp
      rcases Option.or_eq_some_iff.mp hp with hnew | ⟨-, hold⟩
      · exact hnew
      · exact (h.agrees hc ho hgen hold).1
    rw [heq]
    refine ⟨fun _ _ => rfl, fun _ hstarted => ?_, fun _ u hu hcovers hclear _ p hp => ?_⟩
    · dsimp only at hstarted ⊢
      cases hpid : o.pid with
      | some q => rfl
      | none =>
          rw [hpid] at hstarted
          exact h.named hc hstarted
    · -- the one socket that covers the tuple is the one the owner was read from
      obtain ⟨-, v, hfilter, -, hread⟩ := Store.udpOwner_eq_unique ho
      have huv : u = v := by
        have hmem : u ∈ (st.udpSockets k.lport).filter fun s => Store.covers s.entry k :=
          List.mem_filter.mpr ⟨hu, hcovers⟩
        rw [hfilter] at hmem
        exact List.mem_singleton.mp hmem
      have hpid : o.pid = u.entry.pid := by rw [huv, hread]
      have hstarted : o.started = u.ownerStarted := by rw [huv, hread]
      have hp' := howner p hp
      rw [← hpid, ← hstarted]
      refine ⟨hp', fun t ht => ?_⟩
      dsimp only at ht
      rw [hp', Option.isSome_some, if_pos rfl] at ht
      rcases Option.or_eq_some_iff.mp ht with hnew | ⟨-, hold⟩
      · exact hnew
      · obtain ⟨q, hq⟩ := Option.isSome_iff_exists.mp (h.named hc (by rw [hold]; rfl))
        exact (h.agrees hc ho hgen hq).2 t hold
  · rw [heq]
    exact stands_dispute _ k c

/-- Attribution leaves a foreign row foreign. -/
theorem Foreign.attribute (hc : Foreign group c) (h : Stands (st.udpSockets k.lport) k c) :
    Foreign group (attributeUdp c (st.udpOwner k) procs) := by
  by_cases hdispute : c.ownerAmbiguous = true
  · rw [attributeUdp_of_ambiguous hdispute]
    exact hc
  · obtain ⟨pid, hpid, hothers⟩ := hc.resolve_left hdispute
    rw [Bool.not_eq_true] at hdispute
    obtain ⟨-, -, heq⟩ | ⟨o, ho, -, hgen, pname, heq⟩ | heq :=
      attributeUdp_cases c (st.udpOwner k) procs hdispute
    · rw [heq]
      exact .inr ⟨pid, hpid, hothers⟩
    · obtain ⟨hopid, hostarted⟩ := h.agrees hdispute ho hgen hpid
      rw [heq]
      refine .inr ⟨pid, by simp [hopid], fun id hid hsame => ?_⟩
      obtain ⟨started, hstarted, hne⟩ := hothers id hid hsame
      exact ⟨started, by simp [hopid, hostarted _ hstarted], hne⟩
    · rw [heq]
      exact .inl rfl

end Attribute

/-- What a TCP socket shows leaves a foreign row foreign: another owner disputes
the row. -/
theorem Foreign.showTcp {group : List Identity} {c : Conn} (hc : Foreign group c) {s : SockEntry}
    (htcp : s.proto = .tcp) (procs : ProcMap) (t : ℕ) (owner : UdpMatch) :
    Foreign group (Store.showSocket procs t s owner c) := by
  obtain ⟨-, hdispute, -⟩ | ⟨-, -, hdispute, -⟩ | ⟨hfits, hclean, -, hpid, hstarted, -⟩ :=
    showSocket_tcp_cases htcp procs t owner c
  · exact .inl hdispute
  · exact .inl hdispute
  · rcases hc with hdispute | ⟨pid, hpid', hothers⟩
    · rw [hclean] at hdispute
      contradiction
    · simp only [Store.tcpReused, Bool.or_eq_false_iff] at hfits
      obtain ⟨⟨⟨⟨hsamePid, hsameStart⟩, -⟩, -⟩, -⟩ := hfits
      rw [hpid'] at hsamePid
      refine .inr ⟨pid, ?_, fun id hid hsame => ?_⟩
      · rw [hpid, hpid']
        exact or_of_not_contradicts hsamePid
      · obtain ⟨started, hknown, hne⟩ := hothers id hid hsame
        rw [hknown] at hsameStart
        refine ⟨started, ?_, hne⟩
        rw [hstarted, hknown]
        exact or_of_not_contradicts hsameStart

section Show

variable {st : Store} {row : SockEntry} {c : Conn} {group : List Identity} (procs : ProcMap) (t : ℕ)

theorem Stands.show (h : Stands (st.udpSockets row.key.lport) row.key c)
    (hudp : row.proto = .udp) :
    Stands (st.udpSockets row.key.lport) row.key
      (Store.showSocket procs t row (st.udpOwner row.key) c) := by
  have hshown : Stands (st.udpSockets row.key.lport) row.key (Store.markShown t row c) :=
    h.congr ⟨rfl, rfl, rfl, rfl⟩
  unfold Store.showSocket
  rw [hudp]
  exact hshown.attribute _

theorem Foreign.show (hc : Foreign group c)
    (h : row.proto = .udp → Stands (st.udpSockets row.key.lport) row.key c) :
    Foreign group (Store.showSocket procs t row (st.udpOwner row.key) c) := by
  cases hproto : row.proto with
  | tcp => exact hc.showTcp hproto procs t _
  | udp =>
      have hshown : Stands (st.udpSockets row.key.lport) row.key (Store.markShown t row c) :=
        (h hproto).congr ⟨rfl, rfl, rfl, rfl⟩
      have hmarked : Foreign group (Store.markShown t row c) := hc
      unfold Store.showSocket
      rw [hproto]
      exact hmarked.attribute _ hshown

variable {k : ConnKey} (shown : Bool)

theorem Stands.settle (h : Stands (st.udpSockets k.lport) k c) :
    Stands (st.udpSockets k.lport) k (Store.settle procs t shown k (st.udpOwner k) c) := by
  obtain heq | ⟨state, heq⟩ | ⟨-, -, -, -, heq⟩ := settle_cases procs t shown k (st.udpOwner k) c
  · rw [heq]
    exact h
  · rw [heq]
    exact h.congr ⟨rfl, rfl, rfl, rfl⟩
  · rw [heq]
    exact (h.attribute (some procs)).congr ⟨rfl, rfl, rfl, rfl⟩

theorem Foreign.settle (hc : Foreign group c)
    (h : k.proto = .udp → Stands (st.udpSockets k.lport) k c) :
    Foreign group (Store.settle procs t shown k (st.udpOwner k) c) := by
  obtain heq | ⟨state, heq⟩ | ⟨hudp, -, -, -, heq⟩ :=
    settle_cases procs t shown k (st.udpOwner k) c
  · rw [heq]
    exact hc
  · rw [heq]
    exact hc
  · rw [heq]
    exact hc.attribute (some procs) (h hudp)

end Show

/-! ## Polls -/

section Poll

variable {t₀ t : ℕ} {hist : Trace} {st : Store} {k : ConnKey} {e : Event}
  {ips : Option (Finset IpAddr)} {socks : List SockEntry} {procs : List ProcInfo}

/-- A row from before a poll stands by the refreshed table, unless the poll gives
the owner of its socket a new start time. -/
theorem Stands.polled (run : Run Store.timedSystem (Store.empty t₀, t₀) hist (st, t))
    (hudp : k.proto = .udp) (hop : e.op = .poll ips socks procs) (hstamps : ¬Restamps k st e)
    {c : Conn} (hrow : st.conns.lookup k = some c) (h : Stands (st.udpSockets k.lport) k c) :
    Stands ((st.polled ips socks procs e.clock.start).udpSockets k.lport) k c := by
  refine ⟨h.bound, h.named, fun hc u hu hcovers hclear hgen p hp => ?_⟩
  obtain ⟨s, hport, hpair, horigin⟩ := Store.exists_row_of_mem_polled hu
  cases horigin with
  | carried old hold hcontinues =>
      rw [hport] at hold
      have hclear' : s.ambiguous = false ∧ old.entry.ambiguous = false :=
        Bool.or_eq_false_iff.mp hclear
      rw [UdpSocket.covers_carry hcontinues] at hcovers
      obtain ⟨hpid, hstarted⟩ := h.owner hc old hold hcovers hclear'.2 hgen p hp
      obtain ⟨hpid', hstarted'⟩ := UdpSocket.carry_pid hcontinues hclear hpid
      refine ⟨hpid', fun started hknown => ?_⟩
      have hfits : contradicts old.ownerStarted (startedOf (procMap procs) old.entry.pid) =
          false := by
        by_contra hnew
        rw [Bool.not_eq_false] at hnew
        exact hstamps ⟨ips, socks, procs, hop, s, (List.of_mem_zip hpair).1, old, hold, hcontinues,
          hclear'.2, ⟨c, hrow, hc, hgen⟩, hnew⟩
      rw [hstarted started hknown, hpid] at hfits
      rw [hstarted', hstarted started hknown]
      exact or_of_not_contradicts hfits
  | fresh generation hlt _ =>
      -- a new generation is none that the row could be bound to
      obtain ⟨htable, hrows⟩ := udpRow_run run
      obtain ⟨birth, ⟨later, m, earlier, heq, -, hshows, -⟩, -⟩ :=
        (hrows k c hudp hrow).born hc _ hgen
      have hseen := htable.seen m (by rw [heq]; simp) _ hshows
      simp only [UdpSocket.fresh] at hseen
      omega

/-- After a poll every row stands by the table, and if the row of the tuple was
foreign and was not removed, it still is. -/
theorem pollRow (group : List Identity)
    (run : Run Store.timedSystem (Store.empty t₀, t₀) hist (st, t))
    (hop : e.op = .poll ips socks procs) (hstamps : ¬Restamps k st e)
    (hrows : k.proto = .udp → ∀ c, st.conns.lookup k = some c →
      Stands (st.udpSockets k.lport) k c) {c : Conn}
    (hrow : (st.step e).conns.lookup k = some c) :
    (k.proto = .udp → Stands ((st.step e).udpSockets k.lport) k c) ∧
      (¬Removes k st e → ForeignAt group k st → Foreign group c) := by
  have hpolled : ((st.setLocalIps ips).applySockets e.connOrder e.clock socks
      (procMap procs)).conns.lookup k = some c := by
    rw [Store.step, hop] at hrow
    exact hrow
  rw [st.step_udpSockets_of_poll hop]
  refine Store.applySockets_induction
    (R := fun _ k' c => k' = k →
      (k.proto = .udp →
        Stands ((st.polled ips socks procs e.clock.start).udpSockets k.lport) k c) ∧
      (¬Removes k st e → ForeignAt group k st → Foreign group c))
    (Q := fun k' c => k' = k →
      (k.proto = .udp →
        Stands ((st.polled ips socks procs e.clock.start).udpSockets k.lport) k c) ∧
      (¬Removes k st e → ForeignAt group k st → Foreign group c))
    ?_ ?_ ?_ ?_ ?_ hpolled rfl
  · rintro k' c hold rfl
    have hold' : st.conns.lookup k' = some c := by cases ips <;> exact hold
    refine ⟨fun hudp => (hrows hudp c hold').polled run hudp hop hstamps hold', ?_⟩
    rintro - ⟨c', hrow', hforeign⟩
    rw [hold', Option.some.injEq] at hrow'
    rwa [hrow']
  · rintro done row hdone hport habsent i rfl
    refine ⟨fun hudp => (stands_fresh _ row.key false _).show _ _ hudp, fun hkept _ => ?_⟩
    refine absurd ?_ hkept
    rw [Removes, hop]
    exact ⟨done, (List.prefix_append done [row]).trans hdone, habsent⟩
  · rintro done row - - c hc rfl
    obtain ⟨hstands, hforeign⟩ := hc rfl
    refine ⟨fun hudp => (hstands hudp).show _ _ hudp, fun hkept hbefore => ?_⟩
    exact (hforeign hkept hbefore).show _ _ hstands
  · rintro done row - k' c - hc rfl
    exact hc rfl
  · rintro k' c shown - hc rfl
    obtain ⟨hstands, hforeign⟩ := hc rfl
    refine ⟨fun hudp => (hstands hudp).settle _ _ shown, fun hkept hbefore => ?_⟩
    exact (hforeign hkept hbefore).settle _ _ shown hstands

end Poll

/-! ## One operation -/

section Step

variable {t₀ t : ℕ} {hist : Trace} {st : Store} {k : ConnKey} {e : Event} {group : List Identity}

/-- Every operation leaves the rows of a UDP tuple standing by the table. -/
theorem standsStep (run : Run Store.timedSystem (Store.empty t₀, t₀) hist (st, t))
    (hudp : k.proto = .udp) (hstamps : ¬Restamps k st e)
    (hrows : ∀ c, st.conns.lookup k = some c → Stands (st.udpSockets k.lport) k c) {c : Conn}
    (hrow : (st.step e).conns.lookup k = some c) :
    Stands ((st.step e).udpSockets k.lport) k c := by
  cases Store.step_row hrow with
  | packet p c₀ hop hkey hbase =>
      have hproto : p.proto = .udp := by
        rw [← hudp, hkey, Store.packetKey_proto]
      have hc₀ : Stands (st.udpSockets k.lport) k c₀ := by
        rcases hbase with hold | ⟨-, rfl⟩
        · exact hrows c₀ hold
        · exact stands_fresh _ k _ _
      obtain ⟨htable, -, -, -⟩ := st.step_table_of_not_poll (e := e) (by simp [hop])
      rw [htable]
      exact (hc₀.attribute none).congr (countPacket_udp hproto _ _ _ c₀)
  | poll ips socks procs _ hop _ =>
      exact (pollRow [] run hop hstamps (fun _ => hrows) hrow).1 hudp
  | kept c₀ _ hold hnames hpoll _ =>
      obtain ⟨htable, -, -, -⟩ := st.step_table_of_not_poll hpoll
      rw [htable]
      exact (hrows c₀ hold).congr (NamesOnly.sameOwnership hnames)

/-- An operation that does not remove the row of a tuple leaves it a row. -/
theorem exists_row_of_not_removes {c : Conn} (hrow : st.conns.lookup k = some c)
    (hkept : ¬Removes k st e) : ∃ c', (st.step e).conns.lookup k = some c' := by
  unfold Removes at hkept
  unfold Store.step at hkept ⊢
  cases hop : e.op with
  | packet p =>
      rw [hop] at hkept
      exact Option.ne_none_iff_exists'.mp hkept
  | poll ips socks procs =>
      rw [hop] at hkept
      have hpresent : (Store.midPoll e.connOrder e.clock (st.setLocalIps ips) socks (procMap procs)
          socks).1.conns.lookup k ≠ none := fun habsent =>
        hkept ⟨socks, List.prefix_refl socks, habsent⟩
      obtain ⟨c', hc'⟩ := Option.ne_none_iff_exists'.mp hpresent
      exact ⟨_, KeyedMap.lookup_mapValues_of_lookup _ hc'⟩
  | clear =>
      rw [hop] at hkept
      exact absurd trivial hkept
  | learn ip name ttl => exact ⟨c, hrow⟩
  | enrich lang => exact ⟨_, KeyedMap.lookup_mapValues_of_lookup _ hrow⟩
  | whois known => exact ⟨_, KeyedMap.lookup_mapValues_of_lookup _ hrow⟩
  | resolved ip w => exact ⟨_, KeyedMap.lookup_mapValues_of_lookup _ hrow⟩

/-- A foreign row that is not removed stays foreign. -/
theorem ForeignAt.step (hforeign : ForeignAt group k st)
    (run : Run Store.timedSystem (Store.empty t₀, t₀) hist (st, t))
    (hstamps : ¬Restamps k st e)
    (hrows : k.proto = .udp → ∀ c, st.conns.lookup k = some c →
      Stands (st.udpSockets k.lport) k c)
    (hkept : ¬Removes k st e) : ForeignAt group k (st.step e) := by
  obtain ⟨c, hrow, hc⟩ := hforeign
  obtain ⟨c', hrow'⟩ := exists_row_of_not_removes hrow hkept
  refine ⟨c', hrow', ?_⟩
  cases Store.step_row hrow' with
  | packet p c₀ hop hkey hbase =>
      rw [hrow] at hbase
      obtain hold | ⟨hnone, -⟩ := hbase
      · rw [Option.some.injEq] at hold
        subst hold
        cases hproto : p.proto with
        | udp =>
            have hudp : k.proto = .udp := by rw [hkey, Store.packetKey_proto, hproto]
            have hattr := hc.attribute none (hrows hudp c hrow)
            exact SameOwnership.foreign (countPacket_udp hproto _ _ _ c) hattr
        | tcp => exact SameOwnership.foreign (countPacket_tcp hproto _ _ _ c) hc
      · contradiction
  | poll ips socks procs _ hop _ =>
      exact (pollRow _ run hop hstamps hrows hrow').2 hkept ⟨c, hrow, hc⟩
  | kept c₀ _ hold hnames _ _ =>
      rw [hrow, Option.some.injEq] at hold
      subst hold
      exact (NamesOnly.sameOwnership hnames).foreign hc

end Step

/-! ## The recording -/

/-- What holds of a tuple throughout a recording. -/
structure Watched (k : ConnKey) (s : Session) : Prop where
  rows : k.proto = .udp → ∀ c, s.store.conns.lookup k = some c →
    Stands (s.store.udpSockets k.lport) k c
  started : s.dumpMeta.started ≤ s.now
  /-- The row of a remembered tuple was seen during the recording. -/
  seen : (s.dumpMeta.conns.lookup k).isSome → ∀ c, s.store.conns.lookup k = some c →
    s.dumpMeta.started ≤ c.lastSeen

/-- The doubt about a tuple is on record, or its live row carries it. -/
def Tainted (group : List Identity) (k : ConnKey) (s : Session) : Prop :=
  (∃ r, s.dumpMeta.conns.lookup k = some r ∧ r.ownerAmbiguous = true) ∨
    ForeignAt group k s.store

/-- The act removes a foreign row of the tuple while the recording holds no doubt
about it. -/
def ForgetsDoubt (group : List Identity) (k : ConnKey) (s : Session) (a : Act) : Prop :=
  ∃ e, a = .store e ∧ ForeignAt group k s.store ∧ Removes k s.store e ∧
    ¬∃ r, s.dumpMeta.conns.lookup k = some r ∧ r.ownerAmbiguous = true

/-- The act is a poll that gives the owner kept for the tuple's socket a new
start time. -/
def RestampsOwner (k : ConnKey) (s : Session) (a : Act) : Prop :=
  ∃ e, a = .store e ∧ Restamps k s.store e

section Session

variable {t₀ t : ℕ} {trace : Trace} {k : ConnKey} {s s' : Session} {a : Act}
  {group : List Identity}

theorem updateRecording_disputed {old : Conn} (h : old.ownerAmbiguous = true) (c : Conn) :
    (old.updateRecording c).ownerAmbiguous = true := by
  have hdoubt : old.versionsDisagree c = true := by simp [Conn.versionsDisagree, h]
  rw [Conn.updateRecording, hdoubt]
  rfl

/-- A merge with a foreign row leaves a foreign row. -/
theorem Foreign.updateRecording (old : Conn) {c : Conn} (hc : Foreign group c) :
    Foreign group (old.updateRecording c) := by
  unfold Conn.updateRecording
  split
  · exact .inl rfl
  · exact hc

theorem Watched.step (h : Watched k s)
    (run : Run Store.timedSystem (Store.empty t₀, t₀) trace (s.store, t))
    (hstamps : ¬RestampsOwner k s a) (fires : Session.system.step s a = some s') :
    Watched k s' := by
  cases Session.stepKind fires with
  | store e hle =>
      have hstamps' : ¬Restamps k s.store e := fun hnew => hstamps ⟨e, rfl, hnew⟩
      refine ⟨fun hudp c hrow => standsStep run hudp hstamps' (h.rows hudp) hrow, ?_, ?_⟩
      · exact h.started.trans (hle.trans e.clock.start_le_finish)
      · intro hentry c hrow
        exact Store.seen_step (h.started.trans hle) (h.seen hentry) hrow
  | merge _ m _ hsame hmerge =>
      refine ⟨h.rows, by rw [hsame.started_eq]; exact h.started, fun hentry c hrow => ?_⟩
      dsimp only at hentry hrow ⊢
      rw [hsame.started_eq]
      rcases hmerge k with hkept | ⟨-, hmerged⟩
      · exact h.seen (by rwa [hkept] at hentry) c hrow
      · generalize m.conns.lookup k = entry at hentry hmerged
        cases hmerged with
        | kept _ => exact h.seen hentry c hrow
        | merged old _ hold _ _ => exact h.seen (by rw [hold]; rfl) c hrow
        | entered c' _ hrow' hseen _ =>
            rw [hrow, Option.some.injEq] at hrow'
            rwa [hrow']
        | refused _ _ _ _ => contradiction
  | other _ m attached _ hconns hstarted _ _ =>
      refine ⟨h.rows, by rw [hstarted]; exact h.started, fun hentry c hrow => ?_⟩
      dsimp only at hentry hrow ⊢
      rw [hstarted]
      exact h.seen (by rwa [hconns] at hentry) c hrow

/-- The doubt about a tuple stays, unless an act forgets it. -/
theorem Tainted.step (h : Tainted group k s) (hwatched : Watched k s)
    (run : Run Store.timedSystem (Store.empty t₀, t₀) trace (s.store, t))
    (hstamps : ¬RestampsOwner k s a) (hdoubt : ¬ForgetsDoubt group k s a)
    (fires : Session.system.step s a = some s') : Tainted group k s' := by
  cases Session.stepKind fires with
  | store e hle =>
      rcases h with hentry | hforeign
      · exact .inl hentry
      · by_cases hentry : ∃ r, s.dumpMeta.conns.lookup k = some r ∧ r.ownerAmbiguous = true
        · exact .inl hentry
        · right
          apply hforeign.step run
          · exact fun hnew => hstamps ⟨e, rfl, hnew⟩
          · exact hwatched.rows
          · exact fun hremoves => hdoubt ⟨e, rfl, hforeign, hremoves, hentry⟩
  | merge _ m _ _ hmerge =>
      rcases h with ⟨r, hentry, hdispute⟩ | hforeign
      · left
        dsimp only
        rcases hmerge k with hkept | ⟨-, hmerged⟩
        · exact ⟨r, hkept.trans hentry, hdispute⟩
        · generalize m.conns.lookup k = entry at hmerged
          cases hmerged with
          | kept _ => exact ⟨r, hentry, hdispute⟩
          | merged old c hold _ _ =>
              rw [hentry, Option.some.injEq] at hold
              subst hold
              exact ⟨_, rfl, updateRecording_disputed hdispute c⟩
          | entered c hnone _ _ _ =>
              rw [hentry] at hnone
              contradiction
          | refused c hnone _ _ =>
              rw [hentry] at hnone
              contradiction
      · exact .inr hforeign
  | other _ m attached _ hconns _ _ _ =>
      rcases h with ⟨r, hentry, hdispute⟩ | hforeign
      · exact .inl ⟨r, by rw [← hentry, ← hconns], hdispute⟩
      · exact .inr hforeign

/-- A foreign row does not belong to the group. -/
theorem Foreign.not_dumpOwns {m : DumpMeta} {c : Conn} (hc : Foreign m.instances c)
    (hok : RowOk k c) : dumpOwns m c ≠ true := by
  intro howned
  obtain ⟨id, hid, hpid, hstarted⟩ := dumpOwns_eq_true.mp howned
  rcases hc with hdispute | ⟨pid, hpid', hothers⟩
  · rw [hok.disputed hdispute] at hpid
    contradiction
  · rw [hpid, Option.some.injEq] at hpid'
    obtain ⟨started, hknown, hne⟩ := hothers id hid hpid'
    rw [hstarted, Option.some.injEq] at hknown
    exact hne hknown.symm

/-- A tuple in doubt is not kept. -/
theorem Tainted.not_planKeeps (h : Tainted s.dumpMeta.instances k s) (hwatched : Watched k s)
    (hok : s.Ok) (g : PlanInput) (path : String) : ¬PlanKeeps (s.plan g path) k := by
  rw [Session.plan, planKeeps_iff]
  rintro ⟨c, hmerged, -, howned⟩
  dsimp only at hmerged
  have hforeign : Foreign s.dumpMeta.instances c ∧ RowOk k c := by
    cases hrow : s.store.conns.lookup k with
    | none =>
        rw [hrow] at hmerged
        obtain ⟨r, hentry, hdispute⟩ | ⟨live, hrow', -⟩ := h
        · rw [hentry, mergedRow, Option.some.injEq] at hmerged
          exact hmerged ▸ ⟨.inl hdispute, (hok.entries k r hentry).1⟩
        · rw [hrow] at hrow'
          contradiction
    | some live =>
        have hlive : ForeignAt s.dumpMeta.instances k s.store →
            Foreign s.dumpMeta.instances live := by
          rintro ⟨live', hrow', hforeign⟩
          rw [hrow, Option.some.injEq] at hrow'
          rwa [hrow']
        rw [hrow] at hmerged
        cases hentry : s.dumpMeta.conns.lookup k with
        | none =>
            rw [hentry] at hmerged
            obtain ⟨r, hentry', -⟩ | hforeign := h
            · rw [hentry] at hentry'
              contradiction
            · unfold mergedRow at hmerged
              dsimp only at hmerged
              split at hmerged
              · contradiction
              · rw [Option.some.injEq] at hmerged
                exact hmerged ▸ ⟨hlive hforeign, hok.rows k live hrow⟩
        | some old =>
            have hseen := hwatched.seen (by rw [hentry]; rfl) live hrow
            rw [hentry, mergedRow, if_neg (not_lt.mpr hseen), Option.some.injEq] at hmerged
            subst hmerged
            refine ⟨?_, Session.rowOk_updateRecording old (hok.rows k live hrow)⟩
            obtain ⟨r, hentry', hdispute⟩ | hforeign := h
            · rw [hentry, Option.some.injEq] at hentry'
              subst hentry'
              exact .inl (updateRecording_disputed hdispute live)
            · exact (hlive hforeign).updateRecording old
  exact hforeign.1.not_dumpOwns hforeign.2 howned

end Session

/-! ## The result -/

/-- In a run of the program in which no poll gives the owner of a socket of the
tuple a new start time, the rows of the tuple stand by the table. -/
theorem stands_run {t₀ : ℕ} {hist : Trace} {s : Store × ℕ} {k : ConnKey}
    (run : Run Store.timedSystem (Store.empty t₀, t₀) hist s) (hudp : k.proto = .udp)
    (hstamps : ∀ m ∈ hist, ¬Restamps k m.before m.2) :
    ∀ c, s.1.conns.lookup k = some c → Stands (s.1.udpSockets k.lport) k c := by
  revert hstamps
  refine run.historyInvariant (P := fun (hist : Trace) s => (∀ m ∈ hist, ¬Restamps k m.before m.2) →
    ∀ c, s.1.conns.lookup k = some c → Stands (s.1.udpSockets k.lport) k c) ?_ ?_
  · intro _ c hrow
    simp [Store.empty] at hrow
  · intro hist s e s' prior ih fires hstamps c hrow
    obtain ⟨-, hnext, -⟩ := timedStep fires
    rw [hnext] at hrow ⊢
    apply standsStep prior hudp
    · exact hstamps (s, e) (List.mem_cons_self ..)
    · exact ih fun m hm => hstamps m (List.mem_cons_of_mem _ hm)
    · exact hrow

/-- Every foreign row of the past leaves a doubt about its tuple, in every
recording in which no act forgets it. -/
theorem watched_run {t₀ now : ℕ} {boot : Trace} {st : Store} {dumpMeta : DumpMeta} {s : Session}
    {hist : History Session Act} {k : ConnKey} {group : List Identity}
    (program : Run Store.timedSystem (Store.empty t₀, t₀) boot (st, now))
    (hboot : ∀ m ∈ boot, ¬Restamps k m.before m.2)
    (run : Run Session.system (Session.begin st now dumpMeta) hist s)
    (hstamps : ∀ entry ∈ hist, ¬RestampsOwner k entry.1 entry.2)
    (hdoubt : ∀ entry ∈ hist, ¬ForgetsDoubt group k entry.1 entry.2) :
    Watched k s ∧ ((∃ entry ∈ hist, ForeignAt group k entry.1.store) → Tainted group k s) := by
  revert hstamps hdoubt
  refine run.historyInvariant (P := fun hist s =>
    (∀ entry ∈ hist, ¬RestampsOwner k entry.1 entry.2) →
    (∀ entry ∈ hist, ¬ForgetsDoubt group k entry.1 entry.2) →
      Watched k s ∧ ((∃ entry ∈ hist, ForeignAt group k entry.1.store) → Tainted group k s)) ?_ ?_
  · intro _ _
    refine ⟨⟨fun hudp => stands_run program hudp hboot, le_max_right .., ?_⟩, ?_⟩
    · intro hentry
      simp [Session.begin] at hentry
    · rintro ⟨entry, hentry, -⟩
      contradiction
  · intro hist s a s' prior ih fires hstamps hdoubt
    obtain ⟨hwatched, htainted⟩ := ih
      (fun entry hentry => hstamps entry (List.mem_cons_of_mem _ hentry))
      (fun entry hentry => hdoubt entry (List.mem_cons_of_mem _ hentry))
    obtain ⟨trace, t, -, run⟩ := Session.programRun program prior
    have hstamps' := hstamps (s, a) (List.mem_cons_self ..)
    have hdoubt' := hdoubt (s, a) (List.mem_cons_self ..)
    refine ⟨hwatched.step run hstamps' fires, ?_⟩
    rintro ⟨entry, hentry, hforeign⟩
    have hbefore : Tainted group k s := by
      rcases List.mem_cons.mp hentry with rfl | hpast
      · exact .inr hforeign
      · exact htainted ⟨entry, hpast, hforeign⟩
    exact hbefore.step hwatched run hstamps' hdoubt' fires

/-- **A process-only dump keeps no foreign tuple**, in every recording in which
no act forgets a doubt about the tuple and no poll gives the owner kept for its
socket a new start time: if the plan keeps the tuple, its live row was at no
moment of the recording disputed or owned by a process outside of the group. -/
theorem kept_never_foreign {t₀ now : ℕ} {boot : Trace} {st : Store} {dumpMeta : DumpMeta}
    {s : Session} {hist : History Session Act} {k : ConnKey} {g : PlanInput} {path : String}
    (program : Run Store.timedSystem (Store.empty t₀, t₀) boot (st, now))
    (hboot : ∀ m ∈ boot, ¬Restamps k m.before m.2)
    (run : Run Session.system (Session.begin st now dumpMeta) hist s)
    (hstamps : ∀ entry ∈ hist, ¬RestampsOwner k entry.1 entry.2)
    (hdoubt : ∀ entry ∈ hist, ¬ForgetsDoubt s.dumpMeta.instances k entry.1 entry.2)
    (hkeeps : PlanKeeps (s.plan g path) k) :
    (∀ entry ∈ hist, ¬ForeignAt s.dumpMeta.instances k entry.1.store) ∧
      ¬ForeignAt s.dumpMeta.instances k s.store := by
  obtain ⟨hwatched, htainted⟩ := watched_run program hboot run hstamps hdoubt
  have hok : s.Ok := Session.ok_run (Session.ok_begin dumpMeta program) run
  have hclear : ¬Tainted s.dumpMeta.instances k s :=
    fun htaint => htaint.not_planKeeps hwatched hok g path hkeeps
  constructor
  · intro entry hentry hforeign
    exact hclear (htainted ⟨entry, hentry, hforeign⟩)
  · intro hforeign
    exact hclear (.inr hforeign)

/-- A recording of process 7 in which a poll at 20 shows its TCP socket and a
packet of it comes at 30. -/
def ownRecording : History Session Act × Session :=
  Session.system.play [] (Session.begin (Store.empty 0) 0 sampleMeta)
    [.store (pollAt 20 [sampleTcp (some 7)] [sampleProc 7 100]), .record .stored,
      .store (packetAt 30 .tcp), .recordKey (sampleKey .tcp)]

/-- The tuple that this recording keeps was never foreign. -/
theorem kept_never_foreign_sample :
    PlanKeeps (ownRecording.2.plan sampleInput "dump.pcapng") (sampleKey .tcp) ∧
      ¬ForeignAt ownRecording.2.dumpMeta.instances (sampleKey .tcp) ownRecording.2.store := by
  have hkeeps : PlanKeeps (ownRecording.2.plan sampleInput "dump.pcapng") (sampleKey .tcp) :=
    ⟨_, rfl, rfl⟩
  refine ⟨hkeeps, (kept_never_foreign .start (by simp) (Run.play .start _) ?_ ?_ hkeeps).2⟩
  · intro entry hentry
    change entry ∈ [_, _, _, _] at hentry
    simp only [List.mem_cons, List.not_mem_nil, or_false] at hentry
    rcases hentry with rfl | rfl | rfl | rfl <;> rintro ⟨e, ⟨⟩, ips, socks, procs, ⟨⟩, s, hs, -⟩
    contradiction
  · intro entry hentry
    change entry ∈ [_, _, _, _] at hentry
    simp only [List.mem_cons, List.not_mem_nil, or_false] at hentry
    rcases hentry with rfl | rfl | rfl | rfl <;> rintro ⟨e, ⟨⟩, ⟨c, hrow, -⟩, hremoves, -⟩
    · contradiction
    · contradiction

/-- A recording of process 7. A poll at 20 shows a TCP socket of process 9, the
history is cleared at 30, and a poll at 40 shows a socket of process 7 on the
same tuple. -/
def reusedTuple : History Session Act × Session :=
  Session.system.play [] (Session.begin (Store.empty 0) 0 sampleMeta)
    [.store (pollAt 20 [sampleTcp (some 9)] [sampleProc 9 50]), .record .stored,
      .store { op := .clear, clock := .still 30 },
      .store (pollAt 40 [{ sampleTcp (some 7) with cookie := some 3 }] [sampleProc 7 100]),
      .record .stored]

/-- The dump keeps the tuple, with the packets of process 9 on it. -/
theorem reused_tuple_kept :
    Run Session.system (Session.begin (Store.empty 0) 0 sampleMeta) reusedTuple.1 reusedTuple.2 ∧
      sampleMeta.onlyGroup = true ∧
      PlanKeeps (reusedTuple.2.plan sampleInput "dump.pcapng") (sampleKey .tcp) ∧
      ∃ entry ∈ reusedTuple.1,
        ForeignAt reusedTuple.2.dumpMeta.instances (sampleKey .tcp) entry.1.store := by
  refine ⟨Run.play .start _, rfl, ⟨_, rfl, rfl⟩, ?_⟩
  -- the moment at which the history is cleared
  refine ⟨_, .tail _ (.tail _ (.head _)), _, rfl, .inr ⟨9, rfl, fun id hid hsame => ?_⟩⟩
  obtain rfl := List.mem_singleton.mp hid
  contradiction

end SocketTrail.Recording
