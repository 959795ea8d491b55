/-
# Shared UDP sockets

A socket that a scan found in several processes is marked, and the mark is
carried on as long as the table recognises the socket. Recognition also compares
the start time of whatever process the current scan reports: a partial scan that
meets another holder of the socket finds a different start time, takes the
socket for a new one and loses the mark. `Recognised` is the condition under
which this cannot happen, and `SharedOnly` the invariant that it keeps.
-/

import SocketTrail.Attribution.Counted

namespace SocketTrail.Attribution

open SocketTrail.Foundation SocketTrail.Net SocketTrail.State

theorem SameSocket.trans {a b c : SockEntry} (hab : SameSocket a b) (hbc : SameSocket b c) :
    SameSocket a c := by
  obtain ⟨h₁, h₂, h₃, h₄, h₅⟩ := hab
  obtain ⟨h₁', h₂', h₃', h₄', h₅'⟩ := hbc
  exact ⟨h₁.trans h₁', h₂.trans h₂', h₃.trans h₃', h₄.trans h₄', h₅.trans h₅'⟩

theorem SameSocket.symm {a b : SockEntry} (h : SameSocket a b) : SameSocket b a :=
  ⟨h.1.symm, h.2.1.symm, h.2.2.1.symm, h.2.2.2.1.symm, h.2.2.2.2.symm⟩

/-- The rows of a snapshot that describe the UDP socket `i`. -/
def rowsOfSocket (i : SockEntry) (socks : List SockEntry) : List SockEntry :=
  (socks.filter fun s => s.proto = .udp).filter fun s => SameSocket i s

theorem mem_rowsOfSocket {i s : SockEntry} {socks : List SockEntry} :
    s ∈ rowsOfSocket i socks ↔ (s ∈ socks ∧ s.proto = .udp) ∧ SameSocket i s := by
  simp only [rowsOfSocket, List.mem_filter, decide_eq_true_eq]

/-- The poll shows the socket; any other operation shows nothing. -/
def Present (i : SockEntry) (e : Event) : Prop :=
  ∀ ips socks procs, e.op = .poll ips socks procs → rowsOfSocket i socks ≠ []

/-- The poll reports the socket as shared, in every row it has of it. -/
def ReportsShared (i : SockEntry) (e : Event) : Prop :=
  ∃ ips socks procs, e.op = .poll ips socks procs ∧ rowsOfSocket i socks ≠ [] ∧
    ∀ s ∈ rowsOfSocket i socks, s.ambiguous = true

/-- The table recognises the socket in the snapshot of a poll: every row of the
socket is marked as shared, or there is one row and the process and the start
time it reports differ from nothing that the table remembers of the socket. -/
def Recognised (i : SockEntry) (st : Store) (e : Event) : Prop :=
  ∀ ips socks procs, e.op = .poll ips socks procs →
    (∀ s ∈ rowsOfSocket i socks, s.ambiguous = true) ∨
    ∃ s, rowsOfSocket i socks = [s] ∧
      ∃ u ∈ st.udpSockets i.lport, SameSocket i u.entry ∧
        contradicts u.ownerStarted (startedOf (procMap procs) s.pid) = false ∧
        contradicts s.pid u.entry.pid = false

/-- The table holds the socket `i`, and holds it as shared only. -/
structure SharedOnly (i : SockEntry) (st : Store) : Prop where
  port : ∀ u ∈ st.udpSockets i.lport, u.entry.lport = i.lport
  present : ∃ u ∈ st.udpSockets i.lport, SameSocket i u.entry
  shared : ∀ u ∈ st.udpSockets i.lport, SameSocket i u.entry → u.entry.ambiguous = true

/-! ## The refresh keeps the mark -/

theorem sameSocket_of_continues {procs : ProcMap} {i s : SockEntry} {u : UdpSocket}
    (h : u.continues procs s = true) (hport : s.lport = i.lport) :
    SameSocket i u.entry → SameSocket i s := by
  intro hsame
  simp only [UdpSocket.continues, Bool.and_eq_true, decide_eq_true_eq] at h
  obtain ⟨⟨⟨⟨⟨hlocal, hremote⟩, hrport⟩, hcookie⟩, -⟩, -⟩ := h
  obtain ⟨h₁, -, h₃, h₄, h₅⟩ := hsame
  exact ⟨h₁.trans hlocal, hport.symm, h₃.trans hremote, h₄.trans hrport, h₅.trans hcookie⟩

theorem sameSocket_entry_of_continues {procs : ProcMap} {i s : SockEntry} {u : UdpSocket}
    (h : u.continues procs s = true) (hport : u.entry.lport = i.lport) :
    SameSocket i s → SameSocket i u.entry := by
  intro hsame
  simp only [UdpSocket.continues, Bool.and_eq_true, decide_eq_true_eq] at h
  obtain ⟨⟨⟨⟨⟨hlocal, hremote⟩, hrport⟩, hcookie⟩, -⟩, -⟩ := h
  obtain ⟨h₁, -, h₃, h₄, h₅⟩ := hsame
  exact ⟨h₁.trans hlocal.symm, hport.symm, h₃.trans hremote.symm, h₄.trans hrport.symm,
    h₅.trans hcookie.symm⟩

/-- A row of another socket leaves the socket `i` for the rows to come. -/
theorem mem_previous_step {procs : ProcMap} {since : ℕ} {r : Refresh} {i s : SockEntry}
    {u : UdpSocket} (hu : u ∈ r.previous i.lport) (hsame : SameSocket i u.entry)
    (hother : ¬SameSocket i s) : u ∈ (Refresh.step procs since r s).previous i.lport := by
  unfold Refresh.step
  dsimp only
  split
  · rename_i old hfound
    dsimp only
    by_cases hport : i.lport = s.lport
    · rw [hport, Function.update_self]
      rw [hport] at hu
      apply mem_swapRemove_of_mem hu (getElem?_findIdx_of_find? hfound)
      rintro rfl
      exact hother (sameSocket_of_continues (List.find?_some hfound) hport.symm hsame)
    · rwa [Function.update_of_ne hport]
  · exact hu

/-- A row that continues a shared socket leaves a shared socket in the table. -/
theorem Refresh.step_shared {procs : ProcMap} {since : ℕ} {r : Refresh} {i s : SockEntry}
    (hport : ∀ u ∈ r.previous i.lport, u.entry.lport = i.lport)
    (hshared : ∀ u ∈ r.previous i.lport, SameSocket i u.entry → u.entry.ambiguous = true)
    (htable : ∀ u ∈ r.table i.lport, SameSocket i u.entry → u.entry.ambiguous = true)
    (hknown : SameSocket i s → ∃ u ∈ r.previous i.lport, u.continues procs s = true) :
    ∀ u ∈ (Refresh.step procs since r s).table i.lport, SameSocket i u.entry →
      u.entry.ambiguous = true := by
  intro u hu hsame
  unfold Refresh.step at hu
  dsimp only at hu
  split at hu
  · rename_i old hfound
    dsimp only at hu
    by_cases hlport : i.lport = s.lport
    · rw [hlport, Function.update_self, List.mem_append, List.mem_singleton] at hu
      rw [← hlport] at hu hfound
      rcases hu with hu | rfl
      · exact htable u hu hsame
      · have hold := List.mem_of_find?_eq_some hfound
        have hsame' : SameSocket i s := hsame
        have hmark := hshared old hold (sameSocket_entry_of_continues (List.find?_some hfound)
          (hport old hold) hsame')
        simp [UdpSocket.carry, hmark]
    · rw [Function.update_of_ne hlport] at hu
      exact htable u hu hsame
  · rename_i hunfound
    dsimp only at hu
    by_cases hlport : i.lport = s.lport
    · rw [hlport, Function.update_self, List.mem_append, List.mem_singleton] at hu
      rw [← hlport] at hu hunfound
      rcases hu with hu | rfl
      · exact htable u hu hsame
      · obtain ⟨old, hold, hcontinues⟩ := hknown hsame
        exact absurd hcontinues (List.find?_eq_none.mp hunfound old hold)
    · rw [Function.update_of_ne hlport] at hu
      exact htable u hu hsame

/-- With at most one row of the socket in the snapshot, and that row recognised,
the new table holds the socket as shared only. -/
theorem Refresh.foldl_shared {procs : ProcMap} {since : ℕ} {i : SockEntry} (rows : List SockEntry)
    (r : Refresh) (hport : ∀ u ∈ r.previous i.lport, u.entry.lport = i.lport)
    (hshared : ∀ u ∈ r.previous i.lport, SameSocket i u.entry → u.entry.ambiguous = true)
    (htable : ∀ u ∈ r.table i.lport, SameSocket i u.entry → u.entry.ambiguous = true)
    (hone : (rows.filter fun s => SameSocket i s).length ≤ 1)
    (hknown : ∀ s ∈ rows, SameSocket i s →
      ∃ u ∈ r.previous i.lport, SameSocket i u.entry ∧ u.continues procs s = true) :
    ∀ u ∈ (rows.foldl (Refresh.step procs since) r).table i.lport, SameSocket i u.entry →
      u.entry.ambiguous = true := by
  induction rows generalizing r with
  | nil => exact htable
  | cons s rest ih =>
      have htable' : ∀ u ∈ (Refresh.step procs since r s).table i.lport, SameSocket i u.entry →
          u.entry.ambiguous = true := by
        apply Refresh.step_shared hport hshared htable
        intro hsame
        obtain ⟨u, hu, -, hcontinues⟩ := hknown s (List.mem_cons_self ..) hsame
        exact ⟨u, hu, hcontinues⟩
      apply ih (Refresh.step procs since r s)
      · exact fun u hu => hport u (Refresh.mem_previous_of_mem_step procs since hu)
      · exact fun u hu => hshared u (Refresh.mem_previous_of_mem_step procs since hu)
      · exact htable'
      · by_cases hsame : SameSocket i s
        · rw [List.filter_cons_of_pos (by simpa using hsame), List.length_cons] at hone
          omega
        · rwa [List.filter_cons_of_neg (by simpa using hsame)] at hone
      · intro s' hs' hsame'
        by_cases hsame : SameSocket i s
        · -- the one row of the socket has been used up
          rw [List.filter_cons_of_pos (by simpa using hsame), List.length_cons] at hone
          have hempty : (rest.filter fun s => SameSocket i s) = [] :=
            List.length_eq_zero_iff.mp (by omega)
          have hmem : s' ∈ rest.filter fun s => SameSocket i s :=
            List.mem_filter.mpr ⟨hs', by simpa using hsame'⟩
          rw [hempty] at hmem
          contradiction
        · obtain ⟨u, hu, husame, hcontinues⟩ := hknown s' (List.mem_cons_of_mem _ hs') hsame'
          exact ⟨u, mem_previous_step hu husame hsame, husame, hcontinues⟩

/-! ## One poll -/

section Poll

variable {i : SockEntry} {st : Store} {e : Event} {ips : Option (Finset IpAddr)}
  {socks : List SockEntry} {procs : List ProcInfo}

/-- The socket of a bucket is described by the row that it comes from. -/
theorem origin_entry {procs : ProcMap} {since before after : ℕ} {previous : UdpTable}
    {s : SockEntry} {u : UdpSocket} (h : Origin procs since previous before after s u) :
    SameSocket s u.entry ∧ u.entry.lport = s.lport ∧
      (s.ambiguous = true → u.entry.ambiguous = true) := by
  cases h with
  | carried old _ _ =>
      refine ⟨⟨rfl, rfl, rfl, rfl, rfl⟩, rfl, fun hmark => ?_⟩
      simp [UdpSocket.carry, hmark]
  | fresh generation _ _ => exact ⟨⟨rfl, rfl, rfl, rfl, rfl⟩, rfl, fun hmark => hmark⟩

/-- A poll that shows the socket leaves it in the table, in its bucket. -/
theorem present_of_poll (st : Store) (hop : e.op = .poll ips socks procs)
    (hrows : rowsOfSocket i socks ≠ []) :
    (∃ u ∈ (st.step e).udpSockets i.lport, SameSocket i u.entry) ∧
      ∀ u ∈ (st.step e).udpSockets i.lport, u.entry.lport = i.lport := by
  have htable := st.step_udpSockets_of_poll hop
  have hpairs := st.polled_forall₂ ips socks procs e.clock.start i.lport
  rw [← htable] at hpairs
  constructor
  · obtain ⟨s, hs⟩ := List.exists_mem_of_ne_nil _ hrows
    obtain ⟨hudp, hsame⟩ := mem_rowsOfSocket.mp hs
    have hmem : s ∈ Store.udpRows socks i.lport := by
      simp only [Store.udpRows, List.mem_filter, decide_eq_true_eq]
      exact ⟨hudp, hsame.2.1.symm⟩
    obtain ⟨j, hj, rfl⟩ := List.mem_iff_getElem.mp hmem
    have hlength := hpairs.length_eq
    have horigin := List.forall₂_iff_get.mp hpairs |>.2 j hj (by omega)
    obtain ⟨hentry, -, -⟩ := origin_entry horigin
    exact ⟨_, List.get_mem _ ⟨j, by omega⟩, SameSocket.trans hsame hentry⟩
  · intro u hu
    rw [htable] at hu
    obtain ⟨s, hport, -, horigin⟩ := Store.exists_row_of_mem_polled hu
    exact (origin_entry horigin).2.1.trans hport

/-- A poll that marks every row of the socket leaves it in the table as shared
only, whatever the table held before. -/
theorem sharedOnly_of_flagged (hop : e.op = .poll ips socks procs)
    (hrows : rowsOfSocket i socks ≠ [])
    (hflagged : ∀ s ∈ rowsOfSocket i socks, s.ambiguous = true) : SharedOnly i (st.step e) := by
  obtain ⟨hpresent, hport⟩ := present_of_poll st hop hrows
  refine ⟨hport, hpresent, fun u hu hsame => ?_⟩
  rw [st.step_udpSockets_of_poll hop] at hu
  obtain ⟨s, -, hpair, horigin⟩ := Store.exists_row_of_mem_polled hu
  obtain ⟨hentry, -, hmark⟩ := origin_entry horigin
  apply hmark
  apply hflagged
  have hmem : s ∈ Store.udpRows socks i.lport := (List.of_mem_zip hpair).1
  simp only [Store.udpRows, List.mem_filter, decide_eq_true_eq] at hmem
  exact mem_rowsOfSocket.mpr ⟨hmem.1, SameSocket.trans hsame (SameSocket.symm hentry)⟩

/-- A poll that shows the socket and recognises it keeps it shared. -/
theorem SharedOnly.step_poll (h : SharedOnly i st) (hop : e.op = .poll ips socks procs)
    (hpresent : Present i e) (hrecognised : Recognised i st e) : SharedOnly i (st.step e) := by
  have hrows := hpresent ips socks procs hop
  rcases hrecognised ips socks procs hop with hflagged | ⟨s, hone, u, hu, hsame, hstart, hpid⟩
  · exact sharedOnly_of_flagged hop hrows hflagged
  · obtain ⟨hpresent', hport⟩ := present_of_poll st hop hrows
    refine ⟨hport, hpresent', ?_⟩
    have hs : s ∈ rowsOfSocket i socks := by
      rw [hone]
      exact List.mem_singleton_self s
    have hrow := (mem_rowsOfSocket.mp hs).2
    have hcontinues : u.continues (procMap procs) s = true := by
      obtain ⟨h₁, -, h₃, h₄, h₅⟩ := SameSocket.trans (SameSocket.symm hsame) hrow
      simp [UdpSocket.continues, h₁, h₃, h₄, h₅, hstart, hpid]
    have htable : (st.step e).udpSockets = (((socks.filter fun s => s.proto = .udp).foldl
        (Refresh.step (procMap procs) st.socketsAt)
        { previous := st.udpSockets, table := fun _ => [],
          generation := st.socketGeneration }).table) := by
      rw [st.step_udpSockets_of_poll hop]
      cases ips <;> rfl
    rw [htable]
    refine Refresh.foldl_shared (socks.filter fun s => s.proto = .udp) _ h.port h.shared ?_ ?_ ?_
    · intro u hu
      contradiction
    · have hlength := congrArg List.length hone
      exact hlength.le
    · intro s' hs' hsame'
      have hmem : s' ∈ rowsOfSocket i socks := List.mem_filter.mpr ⟨hs', by simpa using hsame'⟩
      rw [hone, List.mem_singleton] at hmem
      subst hmem
      exact ⟨u, hu, hsame, hcontinues⟩

end Poll

/-- Every operation keeps a shared socket shared, as long as the polls show it
and recognise it. -/
theorem SharedOnly.step {i : SockEntry} {st : Store} {e : Event} (h : SharedOnly i st)
    (hpresent : Present i e) (hrecognised : Recognised i st e) : SharedOnly i (st.step e) := by
  by_cases hpoll : ∃ ips socks procs, e.op = .poll ips socks procs
  · obtain ⟨ips, socks, procs, hop⟩ := hpoll
    exact h.step_poll hop hpresent hrecognised
  · have hnot : ∀ ips socks procs, e.op ≠ .poll ips socks procs :=
      fun ips socks procs hop => hpoll ⟨ips, socks, procs, hop⟩
    obtain ⟨htable, -, -, -⟩ := st.step_table_of_not_poll hnot
    exact ⟨by rw [htable]; exact h.port, by rw [htable]; exact h.present,
      by rw [htable]; exact h.shared⟩

/-! ## Owners of the tuples of a shared socket -/

/-- The tuple lies on the endpoint of the socket. -/
def OnEndpoint (i : SockEntry) (k : ConnKey) : Prop :=
  k.proto = .udp ∧ k.lport = i.lport ∧ Store.covers i k = true

theorem covers_congr {a b : SockEntry} (h : SameSocket a b) (k : ConnKey) :
    Store.covers a k = Store.covers b k := by
  obtain ⟨hlocal, -, hremote, hrport, -⟩ := h
  unfold Store.covers
  rw [hlocal, hremote, hrport]

/-- No tuple on the endpoint of a shared socket has a unique owner. -/
theorem SharedOnly.udpOwner_ne_unique {i : SockEntry} {st : Store} (h : SharedOnly i st)
    {k : ConnKey} (hk : OnEndpoint i k) (o : UdpOwner) : st.udpOwner k ≠ .unique o := by
  intro howner
  obtain ⟨-, u, hfilter, hclear, -⟩ := Store.udpOwner_eq_unique howner
  obtain ⟨-, hport, hcovers⟩ := hk
  obtain ⟨shared, hmem, hsame⟩ := h.present
  rw [hport] at hfilter
  have hmatch : shared ∈ (st.udpSockets i.lport).filter fun s => Store.covers s.entry k := by
    rw [List.mem_filter]
    exact ⟨hmem, by rwa [← covers_congr hsame k]⟩
  rw [hfilter, List.mem_singleton] at hmatch
  subst hmatch
  rw [h.shared shared hmem hsame] at hclear
  contradiction

/-- Without a unique owner attribution gives a row no owner. -/
theorem attributeUdp_pid_of_not_unique {c : Conn} {owner : UdpMatch}
    {procs : Option (ℤ → Option ProcInfo)} (howner : ∀ o, owner ≠ .unique o) {p : ℤ}
    (hp : (attributeUdp c owner procs).pid = some p) : c.pid = some p := by
  by_cases hc : c.ownerAmbiguous = true
  · rwa [attributeUdp_of_ambiguous hc] at hp
  · rw [Bool.not_eq_true] at hc
    obtain ⟨-, -, heq⟩ | ⟨o, ho, -⟩ | heq := attributeUdp_cases c owner procs hc
    · rwa [heq] at hp
    · exact absurd ho (howner o)
    · rw [heq] at hp
      contradiction

/-- Neither does a snapshot row that is shown on a UDP row. -/
theorem showSocket_pid_of_not_unique {s : SockEntry} {c : Conn} {owner : UdpMatch}
    {procs : ProcMap} {t : ℕ} (hudp : s.proto = .udp) (howner : ∀ o, owner ≠ .unique o) {p : ℤ}
    (hp : (Store.showSocket procs t s owner c).pid = some p) : c.pid = some p := by
  rw [Store.showSocket_udp hudp] at hp
  exact attributeUdp_pid_of_not_unique (c := Store.markShown t s c) howner hp

/-- Neither does the end of a poll. -/
theorem settle_pid_of_not_unique {k : ConnKey} {c : Conn} {owner : UdpMatch} {procs : ProcMap}
    {t : ℕ} {shown : Bool} (howner : ∀ o, owner ≠ .unique o) {p : ℤ}
    (hp : (Store.settle procs t shown k owner c).pid = some p) : c.pid = some p := by
  obtain heq | ⟨state, heq⟩ | ⟨-, -, -, -, heq⟩ := settle_cases procs t shown k owner c
  · rwa [heq] at hp
  · rwa [heq] at hp
  · rw [heq] at hp
    exact attributeUdp_pid_of_not_unique howner hp

/-- A row with an owner on the endpoint of a socket had the same owner before
the step. -/
def NoneAttributed (i : SockEntry) (st : Store) (e : Event) : Prop :=
  ∀ k c p, OnEndpoint i k → (st.step e).conns.lookup k = some c → c.pid = some p →
    ∃ c₀, st.conns.lookup k = some c₀ ∧ c₀.pid = some p

/-- No step attributes a row through a shared socket. -/
theorem SharedOnly.noneAttributed {i : SockEntry} {st : Store} {e : Event}
    (h : SharedOnly i st) (hnext : SharedOnly i (st.step e)) : NoneAttributed i st e := by
  intro k c p hk hrow hp
  have hudp := hk.1
  cases Store.step_row hrow with
  | packet packet c₀ hop hkey hbase =>
      have hproto : packet.proto = .udp := by
        rw [← hudp, hkey, Store.packetKey_proto]
      obtain ⟨-, hpid, -, -⟩ := countPacket_udp hproto (st.outbound packet) (st.udpOwner k)
        (e.clock.read (packet.dnsAddrs.length + 1)) c₀
      rw [hpid] at hp
      have hold := attributeUdp_pid_of_not_unique (h.udpOwner_ne_unique hk) hp
      rcases hbase with hlookup | ⟨-, rfl⟩
      · exact ⟨c₀, hlookup, hold⟩
      · contradiction
  | poll ips socks procs _ hop hpolled =>
      have howner : ∀ o, (st.polled ips socks procs e.clock.start).udpOwner k ≠ .unique o := by
        rw [← Store.step_udpOwner_of_poll _ hop]
        exact hnext.udpOwner_ne_unique hk
      refine Store.applySockets_invariant
        (R := fun k' c => k' = k → ∀ p, c.pid = some p →
          ∃ c₀, st.conns.lookup k = some c₀ ∧ c₀.pid = some p) ?_ ?_ ?_ ?_ hpolled rfl p hp
      · rintro k' c hold rfl p hp
        have hold' : st.conns.lookup k' = some c := by cases ips <;> exact hold
        exact ⟨c, hold', hp⟩
      · rintro row - - j hkey p hp
        have hproto : row.proto = .udp := by
          rw [← hudp, ← hkey]
          rfl
        rw [hkey] at hp
        have hfresh := showSocket_pid_of_not_unique hproto howner hp
        contradiction
      · rintro row - - c hc hkey p hp
        have hproto : row.proto = .udp := by
          rw [← hudp, ← hkey]
          rfl
        rw [hkey] at hp
        exact hc hkey p (showSocket_pid_of_not_unique hproto howner hp)
      · rintro k' c shown hc rfl p hp
        exact hc rfl p (settle_pid_of_not_unique howner hp)
  | kept c₀ _ hlookup hnames _ _ =>
      obtain ⟨domain, ptr, asn, owner, rfl⟩ := hnames
      exact ⟨c₀, hlookup, hp⟩

/-! ## The result -/

/-- Once a poll has reported a UDP socket as shared, its endpoint has no unique
owner and no step attributes a row through it, in every run whose polls all show
the socket and recognise it. -/
theorem shared_stays_unowned {i : SockEntry} {st₀ st : Store} {report : Event}
    {hist : History Store Event} (hreport : ReportsShared i report)
    (run : Run Store.system (st₀.step report) hist st)
    (hpresent : ∀ entry ∈ hist, Present i entry.2)
    (hrecognised : ∀ entry ∈ hist, Recognised i entry.1 entry.2) :
    (∀ k, OnEndpoint i k → ∀ o, st.udpOwner k ≠ .unique o) ∧
      ∀ entry ∈ hist, NoneAttributed i entry.1 entry.2 := by
  obtain ⟨ips, socks, procs, hop, hrows, hflagged⟩ := hreport
  suffices hinv : SharedOnly i st ∧ ∀ entry ∈ hist, NoneAttributed i entry.1 entry.2 from
    ⟨fun k hk => hinv.1.udpOwner_ne_unique hk, hinv.2⟩
  induction run with
  | start => exact ⟨sharedOnly_of_flagged hop hrows hflagged, by simp⟩
  | @next earlier s s' e _ fires ih =>
      obtain ⟨hbefore, hpast⟩ := ih
        (fun entry hentry => hpresent entry (List.mem_cons_of_mem _ hentry))
        (fun entry hentry => hrecognised entry (List.mem_cons_of_mem _ hentry))
      have hnext : s.step e = s' := by simpa [Store.system] using fires
      have hafter : SharedOnly i (s.step e) := hbefore.step
        (hpresent (s, e) (List.mem_cons_self ..)) (hrecognised (s, e) (List.mem_cons_self ..))
      refine ⟨hnext ▸ hafter, fun entry hentry => ?_⟩
      rcases List.mem_cons.mp hentry with rfl | hentry
      · exact hbefore.noneAttributed hafter
      · exact hpast entry hentry

/-- A scan of both holders reports the sample socket as shared. -/
def sharedReport : Event :=
  pollAt 10 [sampleUdp none true] [sampleProc 7 100, sampleProc 8 200]

/-- A later scan that meets one of the two holders. -/
def partialScan (t : ℕ) (p : ℤ) : Event :=
  pollAt t [sampleUdp (some p) false] [sampleProc 7 100, sampleProc 8 200]

theorem sharedReport_reportsShared : ReportsShared (sampleUdp none true) sharedReport := by
  refine ⟨_, _, _, rfl, ?_, ?_⟩ <;> decide

theorem partialScan_present (t : ℕ) (p : ℤ) : Present (sampleUdp none true) (partialScan t p) := by
  intro ips socks procs hop
  cases hop
  exact List.cons_ne_nil _ _

/-- One partial scan leaves the sample socket without an owner. -/
theorem shared_stays_unowned_sample :
    ¬ ∃ o, (((Store.empty 0).step sharedReport).step (partialScan 20 7)).udpOwner (sampleKey .udp) =
      .unique o := by
  rintro ⟨o, hunique⟩
  have run : Run Store.system ((Store.empty 0).step sharedReport)
      [((Store.empty 0).step sharedReport, partialScan 20 7)]
      (((Store.empty 0).step sharedReport).step (partialScan 20 7)) :=
    Run.start.next rfl
  refine (shared_stays_unowned sharedReport_reportsShared run ?_ ?_).1 (sampleKey .udp)
    ⟨rfl, rfl, rfl⟩ o hunique
  · intro entry hentry
    rw [List.mem_singleton] at hentry
    subst hentry
    exact partialScan_present 20 7
  · intro entry hentry
    rw [List.mem_singleton] at hentry
    subst hentry
    intro ips socks procs hop
    cases hop
    exact .inr ⟨sampleUdp (some 7) false, rfl, _, .head _, ⟨rfl, rfl, rfl, rfl, rfl⟩, rfl, rfl⟩

/-- The second partial scan meets the other holder, whose start time is another:
the socket is taken for a new one and belongs to process 8 alone. -/
theorem sharedSocket_claimed_by_other_holder :
    ∃ hist s o, ReportsShared (sampleUdp none true) sharedReport ∧
      Run Store.system ((Store.empty 0).step sharedReport) hist s ∧
      (∀ entry ∈ hist, Present (sampleUdp none true) entry.2) ∧
      OnEndpoint (sampleUdp none true) (sampleKey .udp) ∧
      s.udpOwner (sampleKey .udp) = .unique o ∧ o.pid = some 8 := by
  refine ⟨_, _, _, sharedReport_reportsShared,
    (Run.start.next (e := partialScan 20 7) rfl).next (e := partialScan 30 8) rfl, ?_,
    ⟨rfl, rfl, rfl⟩, rfl, rfl⟩
  intro entry hentry
  simp only [List.mem_cons, List.not_mem_nil, or_false] at hentry
  rcases hentry with rfl | rfl
  · exact partialScan_present 30 8
  · exact partialScan_present 20 7

end SocketTrail.Attribution
