/-
# Generations are given out once

Every UDP socket of the table, and every row bound to one, has a generation that
was given out already. A socket that is seen for the first time is therefore
never taken for one that some row is bound to.
-/

import SocketTrail.State.UdpTable

namespace SocketTrail.State

open SocketTrail.Foundation SocketTrail.Net

/-- No generation in use is ahead of the counter. -/
structure GenerationsBounded (st : Store) : Prop where
  table : ∀ port, ∀ u ∈ st.udpSockets port, u.generation ≤ st.socketGeneration
  rows : ∀ k c, st.conns.lookup k = some c → ∀ g, c.udpGeneration = some g →
    g ≤ st.socketGeneration

/-! ## Binding a row -/

/-- A row is bound to the socket it was bound to, or to the one matching now. -/
theorem attributeUdp_generation {c : Conn} {owner : UdpMatch}
    {procs : Option (ℤ → Option ProcInfo)} {g : ℕ}
    (h : (attributeUdp c owner procs).udpGeneration = some g) :
    c.udpGeneration = some g ∨ ∃ o, owner = .unique o ∧ o.generation = g := by
  by_cases hc : c.ownerAmbiguous = true
  · rw [attributeUdp_of_ambiguous hc] at h
    exact .inl h
  · rw [Bool.not_eq_true] at hc
    obtain ⟨-, -, heq⟩ | ⟨o, howner, -, -, pname, heq⟩ | heq := attributeUdp_cases c owner procs hc
    · rw [heq] at h
      exact .inl h
    · rw [heq, Option.some.injEq] at h
      exact .inr ⟨o, howner, h⟩
    · rw [heq] at h
      exact .inl h

theorem showSocket_generation {procs : ProcMap} {t : ℕ} {s : SockEntry} {owner : UdpMatch}
    {c : Conn} {g : ℕ} (h : (Store.showSocket procs t s owner c).udpGeneration = some g) :
    c.udpGeneration = some g ∨ ∃ o, owner = .unique o ∧ o.generation = g := by
  cases hproto : s.proto with
  | tcp =>
      rw [showSocket_tcp_generation hproto] at h
      exact .inl h
  | udp =>
      rw [Store.showSocket_udp hproto] at h
      rcases attributeUdp_generation h with hold | hnew
      · exact .inl hold
      · exact .inr hnew

theorem settle_generation {procs : ProcMap} {t : ℕ} {shown : Bool} {k : ConnKey}
    {owner : UdpMatch} {c : Conn} {g : ℕ}
    (h : (Store.settle procs t shown k owner c).udpGeneration = some g) :
    c.udpGeneration = some g ∨ ∃ o, owner = .unique o ∧ o.generation = g := by
  obtain heq | ⟨state, heq⟩ | ⟨-, -, -, -, heq⟩ := settle_cases procs t shown k owner c
  · rw [heq] at h
    exact .inl h
  · rw [heq] at h
    exact .inl h
  · rw [heq] at h
    exact attributeUdp_generation h

theorem countPacket_generation {p : Packet} {outgoing : Bool} {owner : UdpMatch} {now : ℕ}
    {c : Conn} {g : ℕ} (h : (Store.countPacket p outgoing owner now c).udpGeneration = some g) :
    c.udpGeneration = some g ∨ ∃ o, owner = .unique o ∧ o.generation = g := by
  obtain ⟨base, state, closed, hbase, heq⟩ := countPacket_eq p outgoing owner now c
  rw [heq] at h
  change base.udpGeneration = some g at h
  rw [hbase] at h
  split at h
  · exact attributeUdp_generation h
  · exact .inl h

/-! ## The store -/

namespace GenerationsBounded

variable {st : Store}

theorem empty (now : ℕ) : GenerationsBounded (Store.empty now) where
  table port u hu := by simp [Store.empty] at hu
  rows k c hrow := by simp [Store.empty] at hrow

/-- The generation of a matching socket was given out. -/
theorem owner (h : GenerationsBounded st) {k : ConnKey} {o : UdpOwner}
    (howner : st.udpOwner k = .unique o) : o.generation ≤ st.socketGeneration := by
  obtain ⟨u, hu, -, -, hgen, -⟩ := Store.mem_table_of_udpOwner_unique howner
  rw [← hgen]
  exact h.table k.lport u hu

theorem startPoll (h : GenerationsBounded st) (socks : List SockEntry) (procs : ProcMap) (t : ℕ) :
    GenerationsBounded (st.startPoll socks procs t) := by
  have hgrow := st.le_startPoll_generation socks procs t
  refine ⟨fun port u hu => ?_, fun k c hrow g hg => (h.rows k c hrow g hg).trans hgrow⟩
  obtain ⟨s, -, -, horigin⟩ := Store.exists_row_of_mem_startPoll hu
  cases horigin with
  | carried old hold _ => exact (h.table _ old hold).trans hgrow
  | fresh generation _ hle => exact hle

/-- A row that is bound to its old socket or to the matching one stays bounded. -/
theorem rebound (h : GenerationsBounded st) {k : ConnKey} {c : Conn} {g : ℕ}
    (hc : ∀ g, c.udpGeneration = some g → g ≤ st.socketGeneration)
    (hg : c.udpGeneration = some g ∨ ∃ o, st.udpOwner k = .unique o ∧ o.generation = g) :
    g ≤ st.socketGeneration := by
  rcases hg with hold | ⟨o, howner, rfl⟩
  · exact hc g hold
  · exact h.owner howner

theorem applySockets (h : GenerationsBounded st) (order : HashOrder ConnKey) (clock : Clock)
    (socks : List SockEntry) (procs : ProcMap) :
    GenerationsBounded (st.applySockets order clock socks procs) := by
  have hstart := h.startPoll socks procs (clock.read 0)
  refine ⟨?_, ?_⟩
  · rw [Store.applySockets_udpSockets, Store.applySockets_socketGeneration]
    exact hstart.table
  · intro k c hrow
    rw [Store.applySockets_socketGeneration]
    obtain ⟨bound, hbound⟩ : ∃ bound,
        bound = (st.startPoll socks procs (clock.read 0)).socketGeneration := ⟨_, rfl⟩
    have hrebound : ∀ {k : ConnKey} {c : Conn} {g : ℕ},
        (∀ g, c.udpGeneration = some g → g ≤ bound) →
        (c.udpGeneration = some g ∨
          ∃ o, (st.startPoll socks procs (clock.read 0)).udpOwner k = .unique o ∧
            o.generation = g) → g ≤ bound := by
      rw [hbound]
      exact hstart.rebound
    rw [← hbound]
    refine Store.applySockets_invariant
      (R := fun _ c => ∀ g, c.udpGeneration = some g → g ≤ bound) ?_ ?_ ?_ ?_ hrow
    · rw [hbound]
      exact hstart.rows
    · intro s _ _ i g hg
      exact hrebound (by simp [Store.freshConn]) (showSocket_generation hg)
    · intro s _ _ c hc g hg
      exact hrebound hc (showSocket_generation hg)
    · intro k c shown hc g hg
      exact hrebound hc (settle_generation hg)

theorem setLocalIps (h : GenerationsBounded st) (ips : Option (Finset IpAddr)) :
    GenerationsBounded (st.setLocalIps ips) := by
  cases ips <;> exact ⟨h.table, h.rows⟩

private theorem renamed {f : ConnKey → Conn → Conn} (h : GenerationsBounded st)
    (hf : ∀ k c, (f k c).udpGeneration = c.udpGeneration) :
    GenerationsBounded { st with conns := st.conns.mapValues f } := by
  refine ⟨h.table, fun k c hrow g hg => ?_⟩
  rw [KeyedMap.lookup_mapValues, Option.map_eq_some_iff] at hrow
  obtain ⟨c₀, hold, rfl⟩ := hrow
  exact h.rows k c₀ hold g ((hf k c₀).symm.trans hg)

theorem step (h : GenerationsBounded st) (e : Event) : GenerationsBounded (st.step e) := by
  have hnames : ∀ {c c' : Conn}, NamesOnly c c' → c'.udpGeneration = c.udpGeneration := by
    rintro c c' ⟨domain, ptr, asn, owner, rfl⟩
    rfl
  unfold Store.step
  cases e.op with
  | packet p =>
      obtain ⟨rows, heq⟩ := Store.applyPacket_frame e.connOrder e.ipOrder e.clock st p
      refine ⟨?_, fun k c hrow g hg => ?_⟩
      · dsimp only
        rw [heq]
        exact h.table
      · have hgeneration :
            (st.applyPacket e.connOrder e.ipOrder e.clock p).2.socketGeneration =
              st.socketGeneration := by
          rw [heq]
          rfl
        dsimp only at hrow ⊢
        rw [hgeneration]
        obtain ⟨-, hold⟩ | ⟨-, c₀, hbase, rfl⟩ := Store.applyPacket_cases hrow
        · exact h.rows k c hold g hg
        · rcases countPacket_generation hg with hold | ⟨o, howner, rfl⟩
          · rcases hbase with hrow₀ | ⟨-, rfl⟩
            · exact h.rows k c₀ hrow₀ g hold
            · simp [Store.freshConn] at hold
          · exact h.owner howner
  | poll ips socks procs => exact (h.setLocalIps ips).applySockets _ _ _ _
  | clear => exact ⟨h.table, fun k c hrow => by simp [Store.clear] at hrow⟩
  | learn ip name ttl => exact ⟨h.table, h.rows⟩
  | enrich lang => exact h.renamed fun k c => hnames (enrichName_namesOnly lang st.dns _ k c)
  | whois known => exact h.renamed fun k c => hnames (applyWhoisRow_namesOnly known k c)
  | resolved ip w => exact h.renamed fun k c => hnames (whoisRow_namesOnly ip w k c)

/-- No generation is ever ahead of the counter. -/
theorem run {start : Store} {hist : History Store Event} (hstart : GenerationsBounded start)
    (run : Run Store.system start hist st) : GenerationsBounded st := by
  apply Run.invariant (P := GenerationsBounded) hstart _ run
  intro s e s' h fires
  obtain rfl : s.step e = s' := Option.some.inj fires
  exact h.step e

end GenerationsBounded

end SocketTrail.State
