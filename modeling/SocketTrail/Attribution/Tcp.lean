/-
# TCP rows and the lifetime of their sockets

A UDP row refuses a socket that appeared after its first packet, because it
compares its creation with the `since` stamp of the socket. A TCP row makes no
such comparison: a row opened by packets alone is handed to whatever socket the
table shows on its tuple later. `lifetimes` reads from the history since when
the sockets of a tuple have been shown; a row with an owner counts only packets
of that lifetime as long as no poll hands an older row to a new socket.
-/

import SocketTrail.Attribution.Counted

namespace SocketTrail.Attribution

open SocketTrail.Foundation SocketTrail.Net SocketTrail.State

/-! ## Lifetimes in the history -/

/-- A socket that the last poll showed on a tuple: its row, the known start time
of its owner, and the instant of the poll before the first poll that showed it. -/
structure Lifetime where
  row : SockEntry
  started : Option ℕ
  since : ℕ

/-- The snapshot row may be the socket of this lifetime: nothing known about the
two differs, and the socket was not gone in between. -/
def Lifetime.continuesIn (l : Lifetime) (procs : ProcMap) (s : SockEntry) : Bool :=
  !contradicts l.row.pid s.pid && !contradicts l.started (startedOf procs s.pid) &&
    !contradicts l.row.cookie s.cookie && !(l.row.state.terminal && !s.state.terminal)

/-- The rows of a snapshot on a tuple. -/
def rowsOf (socks : List SockEntry) (k : ConnKey) : List SockEntry :=
  socks.filter fun s => s.key = k ∧ s.rport ≠ 0

theorem mem_rowsOf {socks : List SockEntry} {k : ConnKey} {s : SockEntry} :
    s ∈ rowsOf socks k ↔ s ∈ socks ∧ s.key = k ∧ s.rport ≠ 0 := by
  simp [rowsOf]

/-- The sockets that the last poll of a trace showed on a tuple. -/
def lifetimes (t₀ : ℕ) (k : ConnKey) : Trace → List Lifetime
  | [] => []
  | m :: earlier =>
      match m.2.op with
      | .poll _ socks procs =>
          (rowsOf socks k).map fun s =>
            { row := s
              started := startedOf (procMap procs) s.pid
              since := (((lifetimes t₀ k earlier).filter fun l =>
                l.continuesIn (procMap procs) s).map Lifetime.since).foldr min
                  (lastPoll t₀ earlier) }
      | _ => lifetimes t₀ k earlier

/-- The sockets of the last poll that reported `p` as the owner of a socket on
the tuple. -/
def takenFrom (t₀ : ℕ) (k : ConnKey) (p : ℤ) : Trace → List Lifetime
  | [] => []
  | m :: earlier =>
      match m.2.op with
      | .poll .. =>
          match (lifetimes t₀ k (m :: earlier)).filter fun l => l.row.pid = some p with
          | [] => takenFrom t₀ k p earlier
          | reported => reported
      | _ => takenFrom t₀ k p earlier

/-- No packet counted on the row `c` is older than the lifetime of the socket
from which its owner `p` was taken. -/
def WithinLifetime (t₀ : ℕ) (hist : Trace) (k : ConnKey) (c : Conn) (p : ℤ) : Prop :=
  ∃ l ∈ takenFrom t₀ k p hist, ∀ m ∈ counted hist k c, l.since ≤ m.countedAt

instance (t₀ : ℕ) (hist : Trace) (k : ConnKey) (c : Conn) (p : ℤ) :
    Decidable (WithinLifetime t₀ hist k c p) := by
  unfold WithinLifetime
  infer_instance

/-- The poll hands an older row to a new socket: the previous poll did not show
the socket, the undisputed row of its tuple counts a packet from before that
poll, and nothing about the socket tells the program that the tuple was reused. -/
def AdoptsOlderRow (t₀ : ℕ) (earlier : Trace) (m : Moment) : Prop :=
  ∃ ips socks procs, m.2.op = .poll ips socks procs ∧
    ∃ s ∈ socks, s.proto = .tcp ∧ s.rport ≠ 0 ∧
      (∀ l ∈ lifetimes t₀ s.key earlier, l.continuesIn (procMap procs) s = false) ∧
      ∃ c, m.before.conns.lookup s.key = some c ∧ c.ownerAmbiguous = false ∧
        Store.tcpReused (procMap procs) s c = false ∧
        ∃ m' ∈ counted earlier s.key c, m'.countedAt < lastPoll t₀ earlier

section Lifetimes

variable {t₀ : ℕ} {hist : Trace} {m : Moment} {k : ConnKey} {p : ℤ}

theorem lifetimes_cons_of_not_poll (hnot : ∀ ips socks procs, m.2.op ≠ .poll ips socks procs) :
    lifetimes t₀ k (m :: hist) = lifetimes t₀ k hist := by
  rw [lifetimes]
  split
  · rename_i ips socks procs hop
    exact absurd hop (hnot ips socks procs)
  · rfl

theorem takenFrom_cons_of_not_poll (hnot : ∀ ips socks procs, m.2.op ≠ .poll ips socks procs) :
    takenFrom t₀ k p (m :: hist) = takenFrom t₀ k p hist := by
  rw [takenFrom]
  split
  · rename_i ips socks procs hop
    exact absurd hop (hnot ips socks procs)
  · rfl

theorem foldr_min_le (bounds : List ℕ) (limit : ℕ) : bounds.foldr min limit ≤ limit := by
  induction bounds with
  | nil => exact le_rfl
  | cons bound rest ih => exact (min_le_right _ _).trans ih

theorem foldr_min_le_of_mem {bounds : List ℕ} {limit bound : ℕ} (h : bound ∈ bounds) :
    bounds.foldr min limit ≤ bound := by
  induction bounds with
  | nil => contradiction
  | cons first rest ih =>
      rcases List.mem_cons.mp h with rfl | hrest
      · exact min_le_left _ _
      · exact (min_le_right _ _).trans (ih hrest)

/-- A lifetime of the newest poll belongs to a row of its snapshot. It starts no
later than the lifetime of any socket that continues in that row, and no later
than the poll before. -/
theorem mem_lifetimes_of_poll {ips : Option (Finset IpAddr)} {socks : List SockEntry}
    {procs : List ProcInfo} {l : Lifetime} (hop : m.2.op = .poll ips socks procs)
    (hl : l ∈ lifetimes t₀ k (m :: hist)) :
    l.row ∈ rowsOf socks k ∧ l.since ≤ lastPoll t₀ hist ∧
      ∀ l' ∈ lifetimes t₀ k hist, l'.continuesIn (procMap procs) l.row = true →
        l.since ≤ l'.since := by
  rw [lifetimes, hop] at hl
  obtain ⟨s, hs, rfl⟩ := List.mem_map.mp hl
  refine ⟨hs, foldr_min_le _ _, ?_⟩
  intro l' hl' hcontinues
  apply foldr_min_le_of_mem
  exact List.mem_map.mpr ⟨l', List.mem_filter.mpr ⟨hl', hcontinues⟩, rfl⟩

/-- Every row of the newest snapshot on the tuple has its lifetime. -/
theorem exists_lifetime_of_poll (t₀ : ℕ) (hist : Trace) {ips : Option (Finset IpAddr)}
    {socks : List SockEntry} {procs : List ProcInfo} {s : SockEntry}
    (hop : m.2.op = .poll ips socks procs)
    (hs : s ∈ rowsOf socks k) : ∃ l ∈ lifetimes t₀ k (m :: hist), l.row = s := by
  rw [lifetimes, hop]
  exact ⟨_, List.mem_map.mpr ⟨s, hs, rfl⟩, rfl⟩

/-- The sockets an owner was taken from are those of the newest poll, if it
reported the owner, and else those of an earlier one. -/
theorem takenFrom_cons_of_poll (t₀ : ℕ) (hist : Trace) (k : ConnKey) (p : ℤ)
    {ips : Option (Finset IpAddr)} {socks : List SockEntry} {procs : List ProcInfo}
    (hop : m.2.op = .poll ips socks procs) :
    (∃ l ∈ lifetimes t₀ k (m :: hist), l.row.pid = some p ∧
      l ∈ takenFrom t₀ k p (m :: hist)) ∨
    ((∀ s ∈ rowsOf socks k, s.pid ≠ some p) ∧
      takenFrom t₀ k p (m :: hist) = takenFrom t₀ k p hist) := by
  cases hreported : (lifetimes t₀ k (m :: hist)).filter fun l => l.row.pid = some p with
  | nil =>
      refine .inr ⟨fun s hs hpid => ?_, ?_⟩
      · obtain ⟨l, hl, rfl⟩ := exists_lifetime_of_poll t₀ hist hop hs
        have hmem : l ∈ (lifetimes t₀ k (m :: hist)).filter fun l => l.row.pid = some p :=
          List.mem_filter.mpr ⟨hl, by simpa using hpid⟩
        rw [hreported] at hmem
        contradiction
      · rw [takenFrom, hop]
        simp only [hreported]
  | cons l rest =>
      have hmem : l ∈ (lifetimes t₀ k (m :: hist)).filter fun l => l.row.pid = some p := by
        rw [hreported]
        exact List.mem_cons_self ..
      obtain ⟨hl, hpid⟩ := List.mem_filter.mp hmem
      refine .inl ⟨l, hl, by simpa using hpid, ?_⟩
      rw [takenFrom, hop]
      simp only [hreported]
      exact List.mem_cons_self ..

end Lifetimes

/-! ## A row during one poll -/

/-- Where a TCP row stands after the snapshot rows `done` of a poll that began
with the store `st`: an undisputed row with packets is a row from before the
poll on which none of these rows showed evidence of reuse, and its owner was
reported by one of them or was there before. -/
structure PollRow (st : Store) (procs : ProcMap) (done : List SockEntry) (k : ConnKey)
    (c : Conn) : Prop where
  disputed : c.ownerAmbiguous = true → c.pid = none
  sprung : c.ownerAmbiguous = false → c.txPkts + c.rxPkts = 0 ∨
    ∃ c₀, st.conns.lookup k = some c₀ ∧ c₀.ownerAmbiguous = false ∧ SameCounts c₀ c ∧
      (∀ s, Store.tcpReused procs s c₀ = true → Store.tcpReused procs s c = true) ∧
      ∀ s ∈ rowsOf done k, Store.tcpReused procs s c₀ = false
  owner : ∀ p, c.pid = some p → (∃ s ∈ rowsOf done k, s.pid = some p) ∨
    ∃ c₀, st.conns.lookup k = some c₀ ∧ c₀.pid = some p ∧ SameCounts c₀ c

section PollRow

variable {st : Store} {procs : ProcMap} {done : List SockEntry} {s : SockEntry} {k : ConnKey}
  {c : Conn}

theorem pollRow_of_lookup (hrow : st.conns.lookup k = some c)
    (hdisputed : c.ownerAmbiguous = true → c.pid = none) : PollRow st procs [] k c where
  disputed := hdisputed
  sprung hclean := .inr ⟨c, hrow, hclean, .refl c, fun _ h => h, by simp [rowsOf]⟩
  owner p hp := .inr ⟨c, hrow, hp, .refl c⟩

theorem rowsOf_append (k : ConnKey) :
    rowsOf (done ++ [s]) k = rowsOf done k ++ if s.key = k ∧ s.rport ≠ 0 then [s] else [] := by
  by_cases h : s.key = k ∧ s.rport ≠ 0
  · simp [rowsOf, List.filter_append, h]
  · rw [if_neg h, rowsOf, List.filter_append, List.filter_cons_of_neg (by simpa using h)]
    rfl

theorem mem_rowsOf_append {row : SockEntry} (h : row ∈ rowsOf done k) :
    row ∈ rowsOf (done ++ [s]) k := by
  rw [rowsOf_append]
  exact List.mem_append_left _ h

/-- A snapshot row of another tuple does not concern the row. -/
theorem PollRow.skip (h : PollRow st procs done k c) (hother : s.key ≠ k ∨ s.rport = 0) :
    PollRow st procs (done ++ [s]) k c := by
  have hrows : rowsOf (done ++ [s]) k = rowsOf done k := by
    rw [rowsOf_append, if_neg (by tauto), List.append_nil]
  exact ⟨h.disputed, by rw [hrows]; exact h.sprung, by rw [hrows]; exact h.owner⟩

/-- A row opened by a snapshot row has no packets and at most its owner. -/
theorem pollRow_fresh (htcp : s.proto = .tcp) (hport : s.rport ≠ 0) (t now : ℕ)
    (owner : UdpMatch) :
    PollRow st procs (done ++ [s]) s.key
      (Store.showSocket procs t s owner (Store.freshConn s.key false now)) := by
  obtain ⟨-, htx, hrx⟩ := showSocket_sameCounts procs t s owner (Store.freshConn s.key false now)
  have hself : s ∈ rowsOf (done ++ [s]) s.key := by simp [mem_rowsOf, hport]
  refine ⟨fun hdispute => ?_, fun _ => .inl (by rw [htx, hrx]; rfl), fun p hp => .inl ?_⟩
  · obtain ⟨-, -, hpid, -⟩ | ⟨-, -, -, hpid, -⟩ | ⟨-, -, hclean, -⟩ :=
      showSocket_tcp_cases htcp procs t owner (Store.freshConn s.key false now)
    · exact hpid
    · exact hpid
    · rw [hclean] at hdispute
      contradiction
  · obtain ⟨-, -, hpid, -⟩ | ⟨-, -, -, hpid, -⟩ | ⟨-, -, -, hpid, -⟩ :=
      showSocket_tcp_cases htcp procs t owner (Store.freshConn s.key false now)
    · rw [hpid] at hp
      contradiction
    · rw [hpid] at hp
      contradiction
    · rw [hpid, Option.or_eq_some_iff] at hp
      rcases hp with hp | ⟨-, hp⟩
      · exact ⟨s, hself, hp⟩
      · contradiction

/-- Showing a socket of the tuple on the row. -/
theorem PollRow.show (h : PollRow st procs done s.key c) (htcp : s.proto = .tcp)
    (hport : s.rport ≠ 0) (t : ℕ) (owner : UdpMatch) :
    PollRow st procs (done ++ [s]) s.key (Store.showSocket procs t s owner c) := by
  have hsame := showSocket_sameCounts procs t s owner c
  have hself : s ∈ rowsOf (done ++ [s]) s.key := by simp [mem_rowsOf, hport]
  have hrows : ∀ row ∈ rowsOf (done ++ [s]) s.key, row ∈ rowsOf done s.key ∨ row = s := by
    intro row hrow
    rw [rowsOf_append, if_pos ⟨rfl, hport⟩, List.mem_append, List.mem_singleton] at hrow
    exact hrow
  obtain ⟨-, hdispute, hpid, -⟩ | ⟨-, hdispute₀, hdispute, hpid, -⟩ |
    ⟨hfits, hclean₀, hclean, hpid, -⟩ := showSocket_tcp_cases htcp procs t owner c
  · refine ⟨fun _ => hpid, fun hclean => ?_, fun p hp => ?_⟩
    · rw [hdispute] at hclean
      contradiction
    · rw [hpid] at hp
      contradiction
  · have hnone := h.disputed hdispute₀
    refine ⟨fun _ => hpid.trans hnone, fun hclean => ?_, fun p hp => ?_⟩
    · rw [hdispute] at hclean
      contradiction
    · rw [hpid, hnone] at hp
      contradiction
  · refine ⟨fun hdispute => ?_, fun _ => ?_, fun p hp => ?_⟩
    · rw [hclean] at hdispute
      contradiction
    · rcases h.sprung hclean₀ with hzero | ⟨c₀, hrow, hclean', hcounts, hfirm, hdone⟩
      · exact .inl (by rw [hsame.2.1, hsame.2.2]; exact hzero)
      · refine .inr ⟨c₀, hrow, hclean', hcounts.trans hsame, ?_, ?_⟩
        · intro s' hs'
          exact tcpReused_showSocket htcp hclean (hfirm s' hs')
        · intro row hmem
          rcases hrows row hmem with hmem | rfl
          · exact hdone row hmem
          · by_contra hreused
            rw [Bool.not_eq_false] at hreused
            rw [hfirm row hreused] at hfits
            contradiction
    · rw [hpid, Option.or_eq_some_iff] at hp
      rcases hp with hp | ⟨-, hp⟩
      · exact .inl ⟨s, hself, hp⟩
      · rcases h.owner p hp with ⟨row, hmem, hrow⟩ | ⟨c₀, hrow, hold, hcounts⟩
        · exact .inl ⟨row, mem_rowsOf_append hmem, hrow⟩
        · exact .inr ⟨c₀, hrow, hold, hcounts.trans hsame⟩

/-- Settling closes a TCP row at most. -/
theorem PollRow.settle (h : PollRow st procs done k c) (htcp : k.proto = .tcp) (t : ℕ)
    (shown : Bool) (owner : UdpMatch) :
    PollRow st procs done k (Store.settle procs t shown k owner c) := by
  obtain heq | ⟨state, heq⟩ | ⟨hudp, -⟩ := settle_cases procs t shown k owner c
  · rw [heq]
    exact h
  · rw [heq]
    refine ⟨h.disputed, fun hclean => ?_, h.owner⟩
    rcases h.sprung hclean with hzero | ⟨c₀, hrow, hclean', hcounts, hfirm, hdone⟩
    · exact .inl hzero
    · refine .inr ⟨c₀, hrow, hclean', hcounts, fun s hs => ?_, hdone⟩
      have hbefore := hfirm s hs
      simp only [Store.tcpReused, Bool.or_eq_true, Bool.and_eq_true] at hbefore ⊢
      tauto
  · rw [htcp] at hudp
    contradiction

end PollRow

/-! ## A row along a run -/

/-- A TCP row counts only packets of the lifetimes it was shown in. -/
structure TcpRow (t₀ : ℕ) (hist : Trace) (k : ConnKey) (c : Conn) : Prop where
  disputed : c.ownerAmbiguous = true → c.pid = none
  lived : c.ownerAmbiguous = false → ∀ l ∈ lifetimes t₀ k hist, ∀ m ∈ counted hist k c,
    l.since ≤ m.countedAt
  taken : ∀ p, c.pid = some p → WithinLifetime t₀ hist k c p

/-- No instant that the history tells of lies after the end of the last step. -/
structure LifetimesPast (t₀ : ℕ) (hist : Trace) (now : ℕ) : Prop where
  polled : lastPoll t₀ hist ≤ now
  shown : ∀ k, ∀ l ∈ lifetimes t₀ k hist, l.since ≤ now
  taken : ∀ k p, ∀ l ∈ takenFrom t₀ k p hist, l.since ≤ now

theorem LifetimesPast.step {t₀ : ℕ} {hist : Trace} {s : Store × ℕ} {e : Event}
    (h : LifetimesPast t₀ hist s.2) (hle : s.2 ≤ e.clock.start) :
    LifetimesPast t₀ ((s, e) :: hist) e.clock.finish := by
  have hend : s.2 ≤ e.clock.finish := hle.trans e.clock.start_le_finish
  by_cases hpoll : ∃ ips socks procs, e.op = .poll ips socks procs
  · obtain ⟨ips, socks, procs, hop⟩ := hpoll
    have hshown : ∀ k, ∀ l ∈ lifetimes t₀ k ((s, e) :: hist), l.since ≤ e.clock.finish := by
      intro k l hl
      obtain ⟨-, hsince, -⟩ := mem_lifetimes_of_poll hop hl
      exact (hsince.trans h.polled).trans hend
    refine ⟨?_, hshown, fun k p l hl => ?_⟩
    · rw [lastPoll_cons_of_poll (m := (s, e)) hop]
      exact e.clock.start_le_finish
    · rw [takenFrom, hop] at hl
      dsimp only at hl
      split at hl
      · exact (h.taken k p l hl).trans hend
      · exact hshown k l (List.mem_of_mem_filter hl)
  · have hnot : ∀ ips socks procs, e.op ≠ .poll ips socks procs :=
      fun ips socks procs hop => hpoll ⟨ips, socks, procs, hop⟩
    refine ⟨?_, fun k l hl => ?_, fun k p l hl => ?_⟩
    · rw [lastPoll_cons_of_not_poll hnot]
      exact h.polled.trans hend
    · rw [lifetimes_cons_of_not_poll hnot] at hl
      exact (h.shown k l hl).trans hend
    · rw [takenFrom_cons_of_not_poll hnot] at hl
      exact (h.taken k p l hl).trans hend

/-- The rows agree in everything that the lifetime of an owner depends on. -/
theorem TcpRow.congr {t₀ : ℕ} {hist : Trace} {k : ConnKey} {c c' : Conn} (h : TcpRow t₀ hist k c)
    (hsame : SameCounts c c') (hdispute : c'.ownerAmbiguous = c.ownerAmbiguous)
    (hpid : c'.pid = c.pid) : TcpRow t₀ hist k c' := by
  have hcounted : counted hist k c' = counted hist k c := counted_congr hsame.2.1 hsame.2.2
  refine ⟨?_, ?_, ?_⟩
  · rw [hdispute, hpid]
    exact h.disputed
  · rw [hdispute, hcounted]
    exact h.lived
  · rw [hpid]
    intro p hp
    obtain ⟨l, hl, hwithin⟩ := h.taken p hp
    exact ⟨l, hl, by rw [hcounted]; exact hwithin⟩

/-- A TCP packet comes after every lifetime the history tells of. -/
theorem TcpRow.packet {t₀ : ℕ} {hist : Trace} {s : Store × ℕ} {e : Event} {k : ConnKey}
    {p : Packet} {c₀ : Conn} {now : ℕ} (h : TcpRow t₀ hist k c₀)
    (hpast : LifetimesPast t₀ hist s.2) (hle : s.2 ≤ e.clock.start) (hop : e.op = .packet p)
    (htcp : k.proto = .tcp) (hkey : k = s.1.packetKey p) :
    TcpRow t₀ ((s, e) :: hist) k
      (Store.countPacket p (s.1.outbound p) (s.1.udpOwner k) now c₀) := by
  have hproto : p.proto = .tcp := by
    rw [← htcp, hkey, Store.packetKey_proto]
  obtain ⟨-, hcount⟩ := countPacket_counts p (s.1.outbound p) (s.1.udpOwner k) now c₀
  obtain ⟨hdispute, hpid, -, -⟩ :=
    countPacket_tcp hproto (s.1.outbound p) (s.1.udpOwner k) now c₀
  have hpacket : Moment.isPacketOf k (s, e) = true := by
    simp [Moment.isPacketOf, hop, hkey, Moment.before]
  have hnot : ∀ ips socks procs, e.op ≠ .poll ips socks procs := by simp [hop]
  have hat : s.2 ≤ Moment.countedAt (s, e) := hle.trans (Moment.start_le_countedAt (s, e))
  refine ⟨?_, ?_, ?_⟩
  · rw [hdispute, hpid]
    exact h.disputed
  · rw [hdispute, lifetimes_cons_of_not_poll hnot, counted_cons_of_packet hist hpacket hcount]
    intro hclean l hl m hm
    rcases List.mem_cons.mp hm with rfl | hm
    · exact (hpast.shown k l hl).trans hat
    · exact h.lived hclean l hl m hm
  · rw [hpid]
    intro p' hp'
    obtain ⟨l, hl, hwithin⟩ := h.taken p' hp'
    refine ⟨l, by rwa [takenFrom_cons_of_not_poll hnot], ?_⟩
    rw [counted_cons_of_packet hist hpacket hcount]
    intro m hm
    rcases List.mem_cons.mp hm with rfl | hm
    · exact (hpast.taken k p' l hl).trans hat
    · exact hwithin m hm

/-- A poll that hands no older row to a new socket keeps every row within the
lifetimes of its sockets. -/
theorem TcpRow.of_pollRow {t₀ : ℕ} {hist : Trace} {s : Store × ℕ} {e : Event} {k : ConnKey}
    {c : Conn} {ips : Option (Finset IpAddr)} {socks : List SockEntry} {procs : List ProcInfo}
    (hop : e.op = .poll ips socks procs) (htcp : k.proto = .tcp)
    (hsteady : ¬AdoptsOlderRow t₀ hist (s, e))
    (hrows : ∀ c₀, s.1.conns.lookup k = some c₀ → TcpRow t₀ hist k c₀)
    (h : PollRow s.1 (procMap procs) socks k c) : TcpRow t₀ ((s, e) :: hist) k c := by
  have hnot : Moment.isPacketOf k (s, e) = false := by simp [Moment.isPacketOf, hop]
  have hcounted : ∀ c₀, SameCounts c₀ c → counted ((s, e) :: hist) k c = counted hist k c₀ := by
    intro c₀ hsame
    rw [counted_cons_of_not hnot, counted_congr hsame.2.1 hsame.2.2]
  have hlived : c.ownerAmbiguous = false → ∀ l ∈ lifetimes t₀ k ((s, e) :: hist),
      ∀ m ∈ counted ((s, e) :: hist) k c, l.since ≤ m.countedAt := by
    intro hclean l hl m hm
    obtain ⟨hrow, hsince, hcontinued⟩ := mem_lifetimes_of_poll hop hl
    rcases h.sprung hclean with hzero | ⟨c₀, hold, hclean₀, hsame, -, hfits⟩
    · rw [counted_of_zero hzero] at hm
      contradiction
    · rw [hcounted c₀ hsame] at hm
      by_cases hcontinues : ∃ l' ∈ lifetimes t₀ k hist, l'.continuesIn (procMap procs) l.row = true
      · obtain ⟨l', hl', hcontinues⟩ := hcontinues
        exact (hcontinued l' hl' hcontinues).trans ((hrows c₀ hold).lived hclean₀ l' hl' m hm)
      · -- the socket is new, so the row must not count anything older
        obtain ⟨hmem, hkey, hport⟩ := mem_rowsOf.mp hrow
        by_contra hlate
        apply hsteady
        refine ⟨ips, socks, procs, hop, l.row, hmem, ?_, hport, ?_, c₀, ?_, hclean₀,
          hfits l.row hrow, m, ?_, by omega⟩
        · rw [← htcp, ← hkey]
          rfl
        · intro l' hl'
          rw [hkey] at hl'
          by_contra hcontinues'
          rw [Bool.not_eq_false] at hcontinues'
          exact hcontinues ⟨l', hl', hcontinues'⟩
        · rwa [hkey]
        · rwa [hkey]
  refine ⟨h.disputed, hlived, fun p hp => ?_⟩
  have hclean : c.ownerAmbiguous = false := by
    by_contra hdispute
    rw [Bool.not_eq_false] at hdispute
    rw [h.disputed hdispute] at hp
    contradiction
  obtain ⟨l, hl, -, htaken⟩ | ⟨hunreported, htaken⟩ :=
    takenFrom_cons_of_poll t₀ hist k p (m := (s, e)) hop
  · exact ⟨l, htaken, hlived hclean l hl⟩
  · rcases h.owner p hp with ⟨row, hrow, hpid⟩ | ⟨c₀, hold, hpid, hsame⟩
    · exact absurd hpid (hunreported row hrow)
    · obtain ⟨l, hl, hwithin⟩ := (hrows c₀ hold).taken p hpid
      refine ⟨l, by rwa [htaken], ?_⟩
      rw [hcounted c₀ hsame]
      exact hwithin

/-- No poll of the trace hands an older row to a new socket. -/
def NeverAdopts (t₀ : ℕ) : Trace → Prop
  | [] => True
  | m :: earlier => ¬AdoptsOlderRow t₀ earlier m ∧ NeverAdopts t₀ earlier

/-- Every TCP row stays within the lifetimes of its sockets, in every run that
never hands an older row to a new socket. -/
theorem tcpRow_run {t₀ : ℕ} {hist : Trace} {s : Store × ℕ}
    (run : Run Store.timedSystem (Store.empty t₀, t₀) hist s) (hsteady : NeverAdopts t₀ hist) :
    ∀ k c, k.proto = .tcp → s.1.conns.lookup k = some c → TcpRow t₀ hist k c := by
  suffices hinv : LifetimesPast t₀ hist s.2 ∧ (NeverAdopts t₀ hist →
      ∀ k c, k.proto = .tcp → s.1.conns.lookup k = some c → TcpRow t₀ hist k c) from
    hinv.2 hsteady
  refine run.historyInvariant (P := fun hist s => LifetimesPast t₀ hist s.2 ∧
    (NeverAdopts t₀ hist → ∀ k c, k.proto = .tcp → s.1.conns.lookup k = some c →
      TcpRow t₀ hist k c)) ?_ ?_
  · refine ⟨⟨le_rfl, by simp [lifetimes], by simp [takenFrom]⟩, fun _ k c _ hrow => ?_⟩
    simp [Store.empty] at hrow
  · rintro hist s e s' - ⟨hpast, ih⟩ fires
    obtain ⟨hle, hnext, hfinish⟩ := timedStep fires
    rw [hnext, hfinish]
    refine ⟨hpast.step hle, ?_⟩
    rintro ⟨hnow, hbefore⟩ k c htcp hrow
    have hrows := fun k c => ih hbefore k c
    cases Store.step_row hrow with
    | packet p c₀ hop hkey hbase =>
        have hc₀ : TcpRow t₀ hist k c₀ := by
          rcases hbase with hold | ⟨-, rfl⟩
          · exact hrows k c₀ htcp hold
          · refine ⟨fun _ => rfl, fun _ l _ m hm => ?_, fun p hp => ?_⟩
            · rw [counted_of_zero rfl] at hm
              contradiction
            · simp [Store.freshConn] at hp
        exact hc₀.packet hpast hle hop htcp hkey
    | poll ips socks procs _ hop hpolled =>
        refine TcpRow.of_pollRow hop htcp hnow (fun c₀ hold => hrows k c₀ htcp hold) ?_
        refine Store.applySockets_induction
          (R := fun done k c => k.proto = .tcp → PollRow s.1 (procMap procs) done k c)
          (Q := fun k c => k.proto = .tcp → PollRow s.1 (procMap procs) socks k c)
          ?_ ?_ ?_ ?_ ?_ hpolled htcp
        · intro k c hold htcp
          have hold' : s.1.conns.lookup k = some c := by cases ips <;> exact hold
          exact pollRow_of_lookup hold' (hrows k c htcp hold').disputed
        · intro done row _ hport _ i htcp
          exact pollRow_fresh htcp hport _ _ _
        · intro done row _ hport c hc htcp
          exact (hc htcp).show htcp hport _ _
        · intro done row _ k c hother hc htcp
          exact (hc htcp).skip hother
        · intro k c shown _ hc htcp
          exact (hc htcp).settle htcp _ shown _
    | kept c₀ _ hold hnames hpoll hpacket =>
        have hnot : Moment.isPacketOf k (s, e) = false := by
          unfold Moment.isPacketOf
          split
          · rename_i p hop
            simpa using fun heq => hpacket p hop heq.symm
          · rfl
        have hc₀ := hrows k c₀ htcp hold
        have hstill : TcpRow t₀ ((s, e) :: hist) k c₀ := by
          refine ⟨hc₀.disputed, ?_, fun p hp => ?_⟩
          · rw [lifetimes_cons_of_not_poll hpoll, counted_cons_of_not hnot]
            exact hc₀.lived
          · obtain ⟨l, hl, hwithin⟩ := hc₀.taken p hp
            refine ⟨l, by rwa [takenFrom_cons_of_not_poll hpoll], ?_⟩
            rw [counted_cons_of_not hnot]
            exact hwithin
        obtain ⟨domain, ptr, asn, owner, rfl⟩ := hnames
        exact hstill.congr ⟨rfl, rfl, rfl⟩ rfl rfl

/-! ## The result -/

/-- A TCP row with an owner counts no packet from before the lifetime of the
socket that the owner was taken from, in every run in which no poll hands an
older row to a new socket. -/
theorem withinLifetime_of_neverAdopts {t₀ : ℕ} {hist : Trace} {s : Store × ℕ} {k : ConnKey}
    {c : Conn} {p : ℤ} (run : Run Store.timedSystem (Store.empty t₀, t₀) hist s)
    (hsteady : NeverAdopts t₀ hist) (htcp : k.proto = .tcp)
    (hrow : s.1.conns.lookup k = some c) (hpid : c.pid = some p) :
    WithinLifetime t₀ hist k c p :=
  (tcpRow_run run hsteady k c htcp hrow).taken p hpid

/-- A poll at 10 shows the socket of process 7, and a packet of it comes at 20. -/
def sampleTcpTrace : Trace :=
  let st := Store.empty 0
  let poll := pollAt 10 [sampleTcp (some 7)] [sampleProc 7 100]
  [((st.step poll, 10), packetAt 20 .tcp), ((st, 0), poll)]

/-- A socket that is shown before its packets come is handed no older row. -/
theorem withinLifetime_of_neverAdopts_sample :
    ∃ c, ((Store.empty 0).step (pollAt 10 [sampleTcp (some 7)] [sampleProc 7 100]) |>.step
        (packetAt 20 .tcp)).conns.lookup (sampleKey .tcp) = some c ∧
      WithinLifetime 0 sampleTcpTrace (sampleKey .tcp) c 7 := by
  have run : Run Store.timedSystem (Store.empty 0, 0) sampleTcpTrace
      ((Store.empty 0).step (pollAt 10 [sampleTcp (some 7)] [sampleProc 7 100]) |>.step
        (packetAt 20 .tcp), 20) :=
    (Run.start.next rfl).next rfl
  have hsteady : NeverAdopts 0 sampleTcpTrace := by
    refine ⟨fun hadopts => ?_, fun hadopts => ?_, trivial⟩
    · obtain ⟨ips, socks, procs, hop, -⟩ := hadopts
      cases hop
    · obtain ⟨ips, socks, procs, -, s, -, -, -, -, c, hrow, -⟩ := hadopts
      simp [Moment.before, Store.empty] at hrow
  obtain ⟨c, hrow, hpid⟩ : ∃ c, ((Store.empty 0).step
      (pollAt 10 [sampleTcp (some 7)] [sampleProc 7 100]) |>.step
        (packetAt 20 .tcp)).conns.lookup (sampleKey .tcp) = some c ∧ c.pid = some 7 :=
    ⟨_, rfl, rfl⟩
  exact ⟨c, hrow, withinLifetime_of_neverAdopts run hsteady rfl hrow hpid⟩

/-- A packet comes at 10 and opens a row. The poll at 20 shows no socket on its
tuple; the poll at 30 does. -/
def lateSocketTrace : Trace :=
  let st := Store.empty 0
  let opened := st.step (packetAt 10 .tcp)
  let poll := pollAt 20 [] []
  [((opened.step poll, 20), pollAt 30 [sampleTcp (some 7)] [sampleProc 7 100]),
    ((opened, 10), poll), ((st, 0), packetAt 10 .tcp)]

/-- The socket that appears at 30 claims the packet from before the poll at 20. -/
theorem lateSocket_claims_older_packet :
    ∃ s c, Run Store.timedSystem (Store.empty 0, 0) lateSocketTrace s ∧
      s.1.conns.lookup (sampleKey .tcp) = some c ∧ c.pid = some 7 ∧
      ¬WithinLifetime 0 lateSocketTrace (sampleKey .tcp) c 7 := by
  refine ⟨_, _, ((Run.start.next rfl).next rfl).next rfl, rfl, rfl, ?_⟩
  decide

end SocketTrail.Attribution
