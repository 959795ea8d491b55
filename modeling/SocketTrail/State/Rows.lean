/-
# What one operation does to the rows

Each operation of the store is described once, by what it can do to the row of
one tuple; the invariants of later modules are case analyses on these
descriptions and never unfold an operation.

* `entry` and `evict` only ever remove rows other than the one they are asked
  for, and never change a surviving row.
* `applyPacket_cases`: a packet rewrites the row of its tuple with
  `countPacket` and leaves every surviving row alone.
* `applySockets_induction` and `applySockets_invariant`: after a poll, every row
  came out of the old row or a new one by the snapshot rows of its tuple and by
  `settle`.
-/

import SocketTrail.State.Enrich

namespace SocketTrail.State

open SocketTrail.Foundation SocketTrail.Net

namespace Store

/-! ## Eviction and entries -/

/-- Eviction removes rows and touches nothing else. -/
theorem evict_eq (order : HashOrder ConnKey) (st : Store) :
    ∃ keys, st.evict order = { st with conns := KeyedMap.eraseAll keys st.conns } := by
  unfold evict
  split
  · exact ⟨[], rfl⟩
  · dsimp only
    split
    · exact ⟨_ ++ _, congrArg (fun conns => { st with conns := conns })
        (KeyedMap.eraseAll_append _ _ _).symm⟩
    · exact ⟨_, rfl⟩

/-- A row that survives eviction is unchanged. -/
theorem lookup_of_lookup_evict {order : HashOrder ConnKey} {st : Store} {k : ConnKey} {c : Conn}
    (h : (st.evict order).conns.lookup k = some c) : st.conns.lookup k = some c := by
  obtain ⟨keys, heq⟩ := st.evict_eq order
  rw [heq] at h
  exact KeyedMap.lookup_of_lookup_eraseAll h

section Entry

variable (order : HashOrder ConnKey) (now : ℕ) (k : ConnKey) (fromPackets : Bool)
  (f : Conn → Conn) (st : Store)

/-- Rewriting one row touches the rows only. -/
theorem entry_frame :
    ∃ conns, st.entry order now k fromPackets f = { st with conns := conns } := by
  obtain ⟨keys, heq⟩ := st.evict_eq order
  unfold entry
  dsimp only
  split
  · exact ⟨_, rfl⟩
  · rw [heq]
    exact ⟨_, rfl⟩

/-- The row asked for is the old row or a new one, rewritten. -/
theorem entry_lookup_self :
    (st.entry order now k fromPackets f).conns.lookup k =
      some (f ((st.conns.lookup k).getD (freshConn k fromPackets now))) := by
  unfold entry
  dsimp only
  rw [AList.lookup_insert]
  split
  · rfl
  · rename_i habsent
    have hnone : st.conns.lookup k = none := AList.lookup_eq_none.mpr habsent
    have hevicted : (st.evict order).conns.lookup k = none := by
      cases hrow : (st.evict order).conns.lookup k with
      | none => rfl
      | some c => simp [lookup_of_lookup_evict hrow] at hnone
    rw [hnone, hevicted]

variable {order now k fromPackets f st}

/-- Every other surviving row is unchanged. -/
theorem lookup_of_lookup_entry {k' : ConnKey} {c : Conn} (hne : k' ≠ k)
    (h : (st.entry order now k fromPackets f).conns.lookup k' = some c) :
    st.conns.lookup k' = some c := by
  unfold entry at h
  dsimp only at h
  rw [AList.lookup_insert_ne hne] at h
  split at h
  · exact h
  · exact lookup_of_lookup_evict h

/-- A row that is present never costs another row its place. -/
theorem entry_lookup_of_mem {k' : ConnKey} (hmem : k ∈ st.conns) (hne : k' ≠ k) :
    (st.entry order now k fromPackets f).conns.lookup k' = st.conns.lookup k' := by
  unfold entry
  dsimp only
  rw [AList.lookup_insert_ne hne, if_pos hmem]

end Entry

/-! ## Ownership queries -/

/-- The owner of a tuple depends on the local addresses and the UDP table. -/
theorem udpOwner_congr {st st' : Store} (hips : st'.localIps = st.localIps)
    (htable : st'.udpSockets = st.udpSockets) (k : ConnKey) :
    st'.udpOwner k = st.udpOwner k := by
  unfold udpOwner
  rw [hips, htable]

/-- What a unique match says: the local address is this host's, and the socket
is the only one in the table that covers the tuple. -/
theorem udpOwner_eq_unique {st : Store} {k : ConnKey} {o : UdpOwner}
    (h : st.udpOwner k = .unique o) :
    k.local ∈ st.localIps ∧ ∃ s,
      ((st.udpSockets k.lport).filter fun s => covers s.entry k) = [s] ∧
      s.entry.ambiguous = false ∧
      o = { generation := s.generation, since := s.since, pid := s.entry.pid
            started := s.ownerStarted } := by
  unfold udpOwner at h
  split at h
  · simp at h
  · rename_i hlocal
    refine ⟨not_not.mp hlocal, ?_⟩
    split at h
    · simp at h
    · rename_i s rest hmatching
      split at h
      · simp at h
      · rename_i hsingle
        simp only [Bool.or_eq_true, Bool.not_eq_true', not_or, Bool.not_eq_true,
          Bool.not_eq_false, List.isEmpty_iff] at hsingle
        obtain ⟨hambiguous, rfl⟩ := hsingle
        simp only [UdpMatch.unique.injEq] at h
        exact ⟨s, hmatching, hambiguous, h.symm⟩

/-- The socket of a unique match stands in the table. -/
theorem mem_table_of_udpOwner_unique {st : Store} {k : ConnKey} {o : UdpOwner}
    (h : st.udpOwner k = .unique o) :
    ∃ s ∈ st.udpSockets k.lport, covers s.entry k = true ∧ s.entry.ambiguous = false ∧
      s.generation = o.generation ∧ s.since = o.since ∧ s.entry.pid = o.pid ∧
      s.ownerStarted = o.started := by
  obtain ⟨-, s, hfilter, hambiguous, rfl⟩ := udpOwner_eq_unique h
  have hmem : s ∈ (st.udpSockets k.lport).filter fun s => covers s.entry k := by
    rw [hfilter]
    exact List.mem_singleton_self s
  rw [List.mem_filter] at hmem
  exact ⟨s, hmem.1, hmem.2, hambiguous, rfl, rfl, rfl, rfl⟩

/-! ## Packets -/

section Packet

variable {conns : HashOrder ConnKey} {ips : HashOrder IpAddr} {clock : Clock} {st : Store}
  {p : Packet}

theorem applyPacket_key : (st.applyPacket conns ips clock p).1 = st.packetKey p := rfl

variable (conns ips clock st p) in
/-- Beyond the names and the packet count, a packet touches the rows only. -/
theorem applyPacket_frame :
    ∃ rows, (st.applyPacket conns ips clock p).2 = { st.hear ips clock p with conns := rows } :=
  entry_frame _ _ _ _ _ (st.hear ips clock p)

theorem applyPacket_packetsSeen :
    (st.applyPacket conns ips clock p).2.packetsSeen = st.packetsSeen + 1 := by
  obtain ⟨rows, heq⟩ := applyPacket_frame conns ips clock st p
  rw [heq]
  rfl

/-- The row that a packet is counted on. -/
theorem applyPacket_lookup_self :
    (st.applyPacket conns ips clock p).2.conns.lookup (st.packetKey p) =
      some (countPacket p (st.outbound p) (st.udpOwner (st.packetKey p))
        (clock.read (p.dnsAddrs.length + 1))
        ((st.conns.lookup (st.packetKey p)).getD
          (freshConn (st.packetKey p) (decide (st.packetKey p ∉ st.conns))
            (clock.read p.dnsAddrs.length)))) := by
  exact entry_lookup_self _ _ _ _ _ (st.hear ips clock p)

/-- After a packet, a row is an unchanged row of another tuple, or the row of
the packet's tuple with the packet counted on it. -/
theorem applyPacket_cases {k : ConnKey} {c : Conn}
    (h : (st.applyPacket conns ips clock p).2.conns.lookup k = some c) :
    (k ≠ st.packetKey p ∧ st.conns.lookup k = some c) ∨
    (k = st.packetKey p ∧ ∃ c₀,
      (st.conns.lookup k = some c₀ ∨
        (st.conns.lookup k = none ∧ c₀ = freshConn k true (clock.read p.dnsAddrs.length))) ∧
      c = countPacket p (st.outbound p) (st.udpOwner k) (clock.read (p.dnsAddrs.length + 1)) c₀) := by
  by_cases hkey : k = st.packetKey p
  · right
    subst hkey
    rw [applyPacket_lookup_self, Option.some.injEq] at h
    refine ⟨rfl, _, ?_, h.symm⟩
    cases hrow : st.conns.lookup (st.packetKey p) with
    | none =>
        have habsent : st.packetKey p ∉ st.conns := AList.lookup_eq_none.mp hrow
        exact .inr ⟨rfl, by simp [habsent]⟩
    | some c₀ => exact .inl rfl
  · left
    have hheard : (st.hear ips clock p).conns.lookup k = some c := lookup_of_lookup_entry hkey h
    exact ⟨hkey, hheard⟩

end Packet

/-! ## Polls -/

section Poll

variable {order : HashOrder ConnKey} {procs : ProcMap} {t : ℕ}

@[simp]
theorem startPoll_conns (st : Store) (socks : List SockEntry) :
    (st.startPoll socks procs t).conns = st.conns := rfl

@[simp]
theorem startPoll_socketsAt (st : Store) (socks : List SockEntry) :
    (st.startPoll socks procs t).socketsAt = t := rfl

/-- One snapshot row touches the rows only. -/
theorem applySocket_frame (order : HashOrder ConnKey) (procs : ProcMap) (t : ℕ)
    (acc : Store × Finset ConnKey) (now : ℕ) (s : SockEntry) :
    ∃ conns, (applySocket order procs t acc now s).1 = { acc.1 with conns := conns } := by
  unfold applySocket
  split
  · exact ⟨_, rfl⟩
  · split
    · exact ⟨_, rfl⟩
    · exact entry_frame ..

/-- After one snapshot row, a row is an unchanged row, or the row of the
snapshot row's tuple with the socket shown on it. -/
theorem applySocket_cases {acc : Store × Finset ConnKey} {now : ℕ} {s : SockEntry} {k : ConnKey}
    {c : Conn} (h : (applySocket order procs t acc now s).1.conns.lookup k = some c) :
    (acc.1.conns.lookup k = some c ∧ (s.key ≠ k ∨ s.rport = 0)) ∨
    (k = s.key ∧ s.rport ≠ 0 ∧ ∃ c₀,
      (acc.1.conns.lookup k = some c₀ ∨
        (acc.1.conns.lookup k = none ∧ c₀ = freshConn k false now)) ∧
      c = showSocket procs t s (acc.1.udpOwner k) c₀) := by
  unfold applySocket at h
  split at h
  · rename_i hport
    exact .inl ⟨h, .inr hport⟩
  · rename_i hport
    split at h
    · rename_i hwait
      refine .inl ⟨h, .inl ?_⟩
      rintro rfl
      simp [AList.lookup_eq_none.mpr hwait.2] at h
    · by_cases hkey : k = s.key
      · subst hkey
        rw [entry_lookup_self, Option.some.injEq] at h
        refine .inr ⟨rfl, hport, _, ?_, h.symm⟩
        cases hrow : acc.1.conns.lookup s.key with
        | none => exact .inr ⟨rfl, rfl⟩
        | some c₀ => exact .inl rfl
      · exact .inl ⟨lookup_of_lookup_entry hkey h, .inl (Ne.symm hkey)⟩

/-- The tuples shown so far only become more. -/
theorem mem_applySocket_snd {acc : Store × Finset ConnKey} {now : ℕ} {s : SockEntry}
    {k : ConnKey} (h : k ∈ acc.2) : k ∈ (applySocket order procs t acc now s).2 := by
  unfold applySocket
  split
  · exact h
  · split
    · exact h
    · exact Finset.mem_insert_of_mem h

/-- A row of the snapshot that is not passed over shows its tuple. -/
theorem key_mem_applySocket_snd (acc : Store × Finset ConnKey) (now : ℕ) {s : SockEntry}
    (hport : s.rport ≠ 0) (hwait : s.state ≠ .timeWait) :
    s.key ∈ (applySocket order procs t acc now s).2 := by
  unfold applySocket
  rw [if_neg hport, if_neg (by simp [hwait])]
  exact Finset.mem_insert_self ..

theorem applyRows_concat {clock : ℕ → ℕ} (done : List SockEntry) (s : SockEntry) (i : ℕ)
    (acc : Store × Finset ConnKey) :
    applyRows order procs clock t i (done ++ [s]) acc =
      applySocket order procs t (applyRows order procs clock t i done acc)
        (clock (i + done.length)) s := by
  induction done generalizing i acc with
  | nil => rfl
  | cons first rest ih =>
      rw [List.cons_append, applyRows, ih, applyRows, List.length_cons]
      congr 2
      omega

/-- The induction principle of the snapshot rows: `P done` is carried from the
store before the snapshot through the store after every first part of it. -/
theorem applyRows_induction {P : List SockEntry → Store × Finset ConnKey → Prop}
    {clock : ℕ → ℕ} {socks : List SockEntry} {i : ℕ} {acc : Store × Finset ConnKey}
    (hstart : P [] acc)
    (hstep : ∀ done s, done ++ [s] <+: socks → P done (applyRows order procs clock t i done acc) →
      P (done ++ [s]) (applySocket order procs t (applyRows order procs clock t i done acc)
        (clock (i + done.length)) s)) :
    P socks (applyRows order procs clock t i socks acc) := by
  suffices hfront : ∀ done, done <+: socks → P done (applyRows order procs clock t i done acc) from
    hfront socks (List.prefix_refl socks)
  intro done
  induction done using List.reverseRecOn with
  | nil =>
      intro _
      exact hstart
  | append_singleton done s ih =>
      intro hdone
      rw [applyRows_concat]
      exact hstep done s hdone (ih ((List.prefix_append done [s]).trans hdone))

/-- What every snapshot row keeps holds after all of them. -/
theorem applyRows_invariant {P : Store × Finset ConnKey → Prop} {clock : ℕ → ℕ}
    {socks : List SockEntry} {i : ℕ} {acc : Store × Finset ConnKey} (hstart : P acc)
    (hstep : ∀ acc s now, P acc → P (applySocket order procs t acc now s)) :
    P (applyRows order procs clock t i socks acc) :=
  applyRows_induction (P := fun _ => P) hstart fun _ s _ hacc => hstep _ s _ hacc

/-- All snapshot rows together touch the rows only. -/
theorem applyRows_frame (order : HashOrder ConnKey) (procs : ProcMap) (clock : ℕ → ℕ) (t : ℕ)
    (socks : List SockEntry) (i : ℕ) (acc : Store × Finset ConnKey) :
    ∃ conns, (applyRows order procs clock t i socks acc).1 = { acc.1 with conns := conns } := by
  apply applyRows_invariant (P := fun acc' => ∃ conns, acc'.1 = { acc.1 with conns := conns })
  · exact ⟨_, rfl⟩
  · rintro acc' s now ⟨conns, hacc⟩
    obtain ⟨conns', hstep⟩ := applySocket_frame order procs t acc' now s
    rw [hstep, hacc]
    exact ⟨_, rfl⟩

theorem applyRows_udpOwner {clock : ℕ → ℕ} (socks : List SockEntry) (i : ℕ)
    (acc : Store × Finset ConnKey) (k : ConnKey) :
    (applyRows order procs clock t i socks acc).1.udpOwner k = acc.1.udpOwner k := by
  obtain ⟨conns, hrows⟩ := applyRows_frame order procs clock t socks i acc
  rw [hrows]
  rfl

/-- Every row after a poll satisfies `Q`, if `R done` is carried along the
snapshot: the rows before the poll satisfy `R []`; a snapshot row that opens a
row, is shown on it, or does not concern it, leads to `R` of one more row; and
settling leads from `R` of the whole snapshot to `Q`. The owners asked for are
those of the refreshed table. -/
theorem applySockets_induction {clock : Clock} {st : Store} {socks : List SockEntry}
    {R : List SockEntry → ConnKey → Conn → Prop} {Q : ConnKey → Conn → Prop}
    (hold : ∀ k c, st.conns.lookup k = some c → R [] k c)
    (hfresh : ∀ done s, done ++ [s] <+: socks → s.rport ≠ 0 →
      (midPoll order clock st socks procs done).1.conns.lookup s.key = none →
      ∀ i, R (done ++ [s]) s.key
        (showSocket procs (clock.read 0) s
          ((st.startPoll socks procs (clock.read 0)).udpOwner s.key)
          (freshConn s.key false (clock.read i))))
    (hshow : ∀ done s, done ++ [s] <+: socks → s.rport ≠ 0 → ∀ c, R done s.key c →
      R (done ++ [s]) s.key
        (showSocket procs (clock.read 0) s
          ((st.startPoll socks procs (clock.read 0)).udpOwner s.key) c))
    (hother : ∀ done s, done ++ [s] <+: socks → ∀ k c, s.key ≠ k ∨ s.rport = 0 → R done k c →
      R (done ++ [s]) k c)
    (hsettle : ∀ k c shown,
      (∀ s ∈ socks, s.key = k → s.rport ≠ 0 → s.state ≠ .timeWait → shown = true) →
      R socks k c → Q k
        (settle procs (clock.read 0) shown k
          ((st.startPoll socks procs (clock.read 0)).udpOwner k) c))
    {k : ConnKey} {c : Conn}
    (h : (st.applySockets order clock socks procs).conns.lookup k = some c) : Q k c := by
  have howners : ∀ done k, (midPoll order clock st socks procs done).1.udpOwner k =
      (st.startPoll socks procs (clock.read 0)).udpOwner k :=
    fun done k => applyRows_udpOwner done 1 _ k
  have hrows : (∀ k c, (midPoll order clock st socks procs socks).1.conns.lookup k = some c →
        R socks k c) ∧
      ∀ s ∈ socks, s.rport ≠ 0 → s.state ≠ .timeWait →
        s.key ∈ (midPoll order clock st socks procs socks).2 := by
    refine applyRows_induction
      (P := fun done acc => (∀ k c, acc.1.conns.lookup k = some c → R done k c) ∧
        ∀ s ∈ done, s.rport ≠ 0 → s.state ≠ .timeWait → s.key ∈ acc.2) ⟨hold, by simp⟩ ?_
    intro done s hdone ⟨hbefore, hshown⟩
    refine ⟨fun k c hlookup => ?_, fun s' hs' hport hwait => ?_⟩
    · obtain ⟨hsame, hother'⟩ | ⟨rfl, hport, c₀, hbase, rfl⟩ := applySocket_cases hlookup
      · exact hother done s hdone k c hother' (hbefore k c hsame)
      · have howner := howners done s.key
        rw [midPoll] at howner
        rw [howner]
        obtain hpresent | ⟨habsent, rfl⟩ := hbase
        · exact hshow done s hdone hport c₀ (hbefore s.key c₀ hpresent)
        · exact hfresh done s hdone hport habsent _
    · rcases List.mem_append.mp hs' with hmem | hself
      · exact mem_applySocket_snd (hshown s' hmem hport hwait)
      · obtain rfl := List.mem_singleton.mp hself
        exact key_mem_applySocket_snd _ _ hport hwait
  unfold applySockets at h
  simp only [KeyedMap.lookup_mapValues, Option.map_eq_some_iff] at h
  obtain ⟨c₁, hrow, rfl⟩ := h
  rw [howners]
  apply hsettle
  · rintro s hs rfl hport hwait
    simpa using hrows.2 s hs hport hwait
  · exact hrows.1 k c₁ hrow

/-- Every row after a poll satisfies `R`, if the rows before it do, a new row
does once its socket is shown on it, and showing a socket and settling keep
`R`. -/
theorem applySockets_invariant {clock : Clock} {st : Store} {socks : List SockEntry}
    {R : ConnKey → Conn → Prop}
    (hold : ∀ k c, st.conns.lookup k = some c → R k c)
    (hfresh : ∀ s ∈ socks, s.rport ≠ 0 → ∀ i, R s.key
      (showSocket procs (clock.read 0) s
        ((st.startPoll socks procs (clock.read 0)).udpOwner s.key)
        (freshConn s.key false (clock.read i))))
    (hshow : ∀ s ∈ socks, s.rport ≠ 0 → ∀ c, R s.key c → R s.key
      (showSocket procs (clock.read 0) s
        ((st.startPoll socks procs (clock.read 0)).udpOwner s.key) c))
    (hsettle : ∀ k c shown, R k c → R k
      (settle procs (clock.read 0) shown k
        ((st.startPoll socks procs (clock.read 0)).udpOwner k) c))
    {k : ConnKey} {c : Conn}
    (h : (st.applySockets order clock socks procs).conns.lookup k = some c) : R k c := by
  have hmem : ∀ {done s}, done ++ [s] <+: socks → s ∈ socks := by
    intro done s hdone
    exact hdone.subset (List.mem_append_right done (List.mem_singleton_self s))
  refine applySockets_induction (R := fun _ => R) (Q := R) hold ?_ ?_ ?_ ?_ h
  · intro done s hdone hport _ i
    exact hfresh s (hmem hdone) hport i
  · intro done s hdone hport c hc
    exact hshow s (hmem hdone) hport c hc
  · intro done s _ k c _ hc
    exact hc
  · intro k c shown _ hc
    exact hsettle k c shown hc

section Frame

variable (order : HashOrder ConnKey) (clock : Clock) (st : Store) (socks : List SockEntry)
  (procs : ProcMap)

/-- Once the local addresses and the UDP table are refreshed, a poll touches the
rows only. -/
theorem applySockets_frame :
    ∃ conns, st.applySockets order clock socks procs =
      { st.startPoll socks procs (clock.read 0) with conns := conns } := by
  obtain ⟨conns, hrows⟩ := applyRows_frame order procs clock.read (clock.read 0) socks 1
    (st.startPoll socks procs (clock.read 0), ∅)
  unfold applySockets midPoll
  dsimp only
  rw [hrows]
  exact ⟨_, rfl⟩

theorem applySockets_localIps :
    (st.applySockets order clock socks procs).localIps =
      (st.startPoll socks procs (clock.read 0)).localIps := by
  obtain ⟨conns, heq⟩ := applySockets_frame order clock st socks procs
  rw [heq]

theorem applySockets_udpSockets :
    (st.applySockets order clock socks procs).udpSockets =
      (st.startPoll socks procs (clock.read 0)).udpSockets := by
  obtain ⟨conns, heq⟩ := applySockets_frame order clock st socks procs
  rw [heq]

theorem applySockets_socketGeneration :
    (st.applySockets order clock socks procs).socketGeneration =
      (st.startPoll socks procs (clock.read 0)).socketGeneration := by
  obtain ⟨conns, heq⟩ := applySockets_frame order clock st socks procs
  rw [heq]

theorem applySockets_packetsSeen :
    (st.applySockets order clock socks procs).packetsSeen = st.packetsSeen := by
  obtain ⟨conns, heq⟩ := applySockets_frame order clock st socks procs
  rw [heq]
  rfl

theorem applySockets_dns : (st.applySockets order clock socks procs).dns = st.dns := by
  obtain ⟨conns, heq⟩ := applySockets_frame order clock st socks procs
  rw [heq]
  rfl

theorem applySockets_socketsAt :
    (st.applySockets order clock socks procs).socketsAt = clock.read 0 := by
  obtain ⟨conns, heq⟩ := applySockets_frame order clock st socks procs
  rw [heq]
  rfl

end Frame

/-- After a poll the owner of a tuple is the one found during the poll. -/
theorem applySockets_udpOwner (order : HashOrder ConnKey) (clock : Clock) (st : Store)
    (socks : List SockEntry) (procs : ProcMap) (k : ConnKey) :
    (st.applySockets order clock socks procs).udpOwner k =
      (st.startPoll socks procs (clock.read 0)).udpOwner k :=
  udpOwner_congr (applySockets_localIps ..) (applySockets_udpSockets ..) k

end Poll

end Store

/-! ## Counters and creation times -/

/-- The rows were created at one instant and have counted the same packets. -/
def SameCounts (c c' : Conn) : Prop :=
  c'.firstSeen = c.firstSeen ∧ c'.txPkts = c.txPkts ∧ c'.rxPkts = c.rxPkts

theorem SameCounts.refl (c : Conn) : SameCounts c c := ⟨rfl, rfl, rfl⟩

theorem SameCounts.trans {a b c : Conn} (hab : SameCounts a b) (hbc : SameCounts b c) :
    SameCounts a c :=
  ⟨hbc.1.trans hab.1, hbc.2.1.trans hab.2.1, hbc.2.2.trans hab.2.2⟩

theorem NamesOnly.sameCounts {c c' : Conn} (h : NamesOnly c c') : SameCounts c c' := by
  obtain ⟨domain, ptr, asn, owner, rfl⟩ := h
  exact ⟨rfl, rfl, rfl⟩

theorem attributeUdp_sameCounts (c : Conn) (owner : UdpMatch)
    (procs : Option (ℤ → Option ProcInfo)) : SameCounts c (attributeUdp c owner procs) := by
  by_cases hc : c.ownerAmbiguous = true
  · rw [attributeUdp_of_ambiguous hc]
    exact .refl c
  · rw [Bool.not_eq_true] at hc
    obtain ⟨-, -, heq⟩ | ⟨o, -, -, -, pname, heq⟩ | heq := attributeUdp_cases c owner procs hc
    · rw [heq]
      exact .refl c
    · rw [heq]
      exact ⟨rfl, rfl, rfl⟩
    · rw [heq]
      exact ⟨rfl, rfl, rfl⟩

theorem checkReuse_sameCounts (procs : ProcMap) (s : SockEntry) (c : Conn) :
    SameCounts c (Store.checkReuse procs s c) := by
  unfold Store.checkReuse
  dsimp only
  split <;> exact ⟨rfl, rfl, rfl⟩

theorem takeOwner_sameCounts (procs : ProcMap) (s : SockEntry) (c : Conn) :
    SameCounts c (Store.takeOwner procs s c) := by
  unfold Store.takeOwner
  split <;> exact ⟨rfl, rfl, rfl⟩

theorem showSocket_sameCounts (procs : ProcMap) (t : ℕ) (s : SockEntry) (owner : UdpMatch)
    (c : Conn) : SameCounts c (Store.showSocket procs t s owner c) := by
  unfold Store.showSocket
  split
  · have hreuse := checkReuse_sameCounts procs s c
    have howner := takeOwner_sameCounts procs s
      (Store.markShown t s (Store.checkReuse procs s c))
    exact hreuse.trans howner
  · exact attributeUdp_sameCounts (Store.markShown t s c) owner (some procs)

/-- What showing a TCP socket does to the ownership of its row: evidence of reuse
disputes it, a disputed row stays disputed, and else the row takes over what the
socket says. -/
theorem showSocket_tcp_cases {s : SockEntry} (htcp : s.proto = .tcp) (procs : ProcMap) (t : ℕ)
    (owner : UdpMatch) (c : Conn) :
    (Store.tcpReused procs s c = true ∧
      (Store.showSocket procs t s owner c).ownerAmbiguous = true ∧
      (Store.showSocket procs t s owner c).pid = none ∧
      (Store.showSocket procs t s owner c).ownerStarted = none) ∨
    (Store.tcpReused procs s c = false ∧ c.ownerAmbiguous = true ∧
      (Store.showSocket procs t s owner c).ownerAmbiguous = true ∧
      (Store.showSocket procs t s owner c).pid = c.pid ∧
      (Store.showSocket procs t s owner c).ownerStarted = c.ownerStarted) ∨
    (Store.tcpReused procs s c = false ∧ c.ownerAmbiguous = false ∧
      (Store.showSocket procs t s owner c).ownerAmbiguous = false ∧
      (Store.showSocket procs t s owner c).pid = s.pid.or c.pid ∧
      (Store.showSocket procs t s owner c).ownerStarted =
        (startedOf procs s.pid).or c.ownerStarted ∧
      (Store.showSocket procs t s owner c).tcpCookie = s.cookie.or c.tcpCookie ∧
      (Store.showSocket procs t s owner c).closed = s.state.terminal ∧
      (Store.showSocket procs t s owner c).fromPacketsOnly = false) := by
  rw [Store.showSocket_tcp htcp]
  cases hreused : Store.tcpReused procs s c with
  | true =>
      refine .inl ⟨rfl, ?_⟩
      simp [Store.takeOwner, Store.markShown, Store.checkReuse, hreused]
  | false =>
      cases hdispute : c.ownerAmbiguous with
      | true =>
          refine .inr (.inl ⟨rfl, rfl, ?_⟩)
          simp [Store.takeOwner, Store.markShown, Store.checkReuse, hreused, hdispute]
      | false =>
          refine .inr (.inr ⟨rfl, rfl, ?_⟩)
          cases hpid : s.pid with
          | none =>
              simp [Store.takeOwner, Store.markShown, Store.checkReuse, hreused, hdispute, hpid]
          | some p =>
              simp [Store.takeOwner, Store.markShown, Store.checkReuse, hreused, hdispute, hpid]

/-- A TCP socket binds its row to no UDP socket. -/
theorem showSocket_tcp_generation {s : SockEntry} (htcp : s.proto = .tcp) (procs : ProcMap)
    (t : ℕ) (owner : UdpMatch) (c : Conn) :
    (Store.showSocket procs t s owner c).udpGeneration = c.udpGeneration := by
  rw [Store.showSocket_tcp htcp]
  simp only [Store.takeOwner, Store.markShown, Store.checkReuse]
  split <;> split <;> rfl

theorem contradicts_or {α : Type*} [DecidableEq α] {old new x : Option α}
    (h : contradicts old x = true) (hnew : contradicts old new = false) :
    contradicts (new.or old) x = true := by
  cases old with
  | none => simp at h
  | some a =>
      cases new with
      | none => simpa using h
      | some b =>
          have hab : a = b := by simpa [contradicts] using hnew
          simpa [hab] using h

/-- A new value that contradicts nothing is the known one. -/
theorem or_of_not_contradicts {α : Type*} [DecidableEq α] {a : α} {new : Option α}
    (h : contradicts (some a) new = false) : new.or (some a) = some a := by
  cases new with
  | none => rfl
  | some b =>
      have hab : a = b := by simpa [contradicts] using h
      rw [hab]
      rfl

/-- A row that has taken over a socket sees every reuse that it saw before. -/
theorem tcpReused_showSocket {s s' : SockEntry} (htcp : s.proto = .tcp) {procs : ProcMap} {t : ℕ}
    {owner : UdpMatch} {c : Conn}
    (hclean : (Store.showSocket procs t s owner c).ownerAmbiguous = false)
    (h : Store.tcpReused procs s' c = true) :
    Store.tcpReused procs s' (Store.showSocket procs t s owner c) = true := by
  obtain ⟨-, hdispute, -⟩ | ⟨-, -, hdispute, -⟩ |
    ⟨hfits, -, -, hpid, hstarted, hcookie, hclosed, honly⟩ :=
    showSocket_tcp_cases htcp procs t owner c
  · rw [hdispute] at hclean
    contradiction
  · rw [hdispute] at hclean
    contradiction
  · simp only [Store.tcpReused, Bool.or_eq_false_iff] at hfits
    obtain ⟨⟨⟨⟨hpid', hstarted'⟩, -⟩, hcookie'⟩, hopen⟩ := hfits
    simp only [Store.tcpReused, Bool.or_eq_true] at h ⊢
    rw [hpid, hstarted, hcookie, hclosed, honly]
    rcases h with (((h | h) | h) | h) | h
    · exact .inl (.inl (.inl (.inl (contradicts_or h hpid'))))
    · exact .inl (.inl (.inl (.inr (contradicts_or h hstarted'))))
    · exact .inl (.inl (.inr h))
    · exact .inl (.inr (contradicts_or h hcookie'))
    · -- a closed row that accepts a socket accepts only one that is gone too
      simp only [Bool.and_eq_true, Bool.not_eq_true'] at h
      simp only [h.1.1, h.2, Bool.not_false, Bool.and_true, Bool.true_and,
        Bool.not_eq_false'] at hopen
      simp [hopen, h.1.2]

/-- The end of a poll leaves a row alone, closes it, or lets a UDP row that was
not shown follow its live socket. -/
theorem settle_cases (procs : ProcMap) (t : ℕ) (shown : Bool) (k : ConnKey) (owner : UdpMatch)
    (c : Conn) :
    Store.settle procs t shown k owner c = c ∨
    (∃ state, Store.settle procs t shown k owner c = { c with closed := true, state := state }) ∨
    (k.proto = .udp ∧ shown = false ∧ c.closed = false ∧ Store.udpActive owner c = true ∧
      Store.settle procs t shown k owner c =
        { attributeUdp c owner (some procs) with state := .active }) := by
  unfold Store.settle
  split
  · rename_i hudp
    split
    · rename_i hactive
      split
      · exact .inl rfl
      · rename_i hopen
        exact .inr (.inr ⟨hudp.1, by simpa using hudp.2, by simpa using hopen, hactive, rfl⟩)
    · exact .inr (.inl ⟨_, rfl⟩)
  · split
    · exact .inl rfl
    · split
      · exact .inr (.inl ⟨_, rfl⟩)
      · split
        · exact .inr (.inl ⟨_, rfl⟩)
        · exact .inl rfl

/-- A TCP row that was shown is left alone. -/
theorem settle_tcp_shown {k : ConnKey} (htcp : k.proto = .tcp) (procs : ProcMap) (t : ℕ)
    (owner : UdpMatch) (c : Conn) : Store.settle procs t true k owner c = c := by
  simp [Store.settle, htcp]

theorem settle_sameCounts (procs : ProcMap) (t : ℕ) (shown : Bool) (k : ConnKey)
    (owner : UdpMatch) (c : Conn) : SameCounts c (Store.settle procs t shown k owner c) := by
  obtain heq | ⟨state, heq⟩ | ⟨-, -, -, -, heq⟩ := settle_cases procs t shown k owner c
  · rw [heq]
    exact .refl c
  · rw [heq]
    exact ⟨rfl, rfl, rfl⟩
  · rw [heq]
    exact attributeUdp_sameCounts c owner (some procs)

theorem attributeUdp_lastSeen (c : Conn) (owner : UdpMatch)
    (procs : Option (ℤ → Option ProcInfo)) :
    (attributeUdp c owner procs).lastSeen = c.lastSeen := by
  by_cases hc : c.ownerAmbiguous = true
  · rw [attributeUdp_of_ambiguous hc]
  · rw [Bool.not_eq_true] at hc
    obtain ⟨-, -, heq⟩ | ⟨o, -, -, -, pname, heq⟩ | heq := attributeUdp_cases c owner procs hc
    · rw [heq]
    · rw [heq]
    · rw [heq]
      rfl

/-- Showing a socket stamps its row. -/
theorem showSocket_lastSeen (procs : ProcMap) (t : ℕ) (s : SockEntry) (owner : UdpMatch)
    (c : Conn) : (Store.showSocket procs t s owner c).lastSeen = t := by
  unfold Store.showSocket
  split
  · unfold Store.takeOwner
    split <;> rfl
  · exact attributeUdp_lastSeen _ owner _

theorem settle_lastSeen (procs : ProcMap) (t : ℕ) (shown : Bool) (k : ConnKey)
    (owner : UdpMatch) (c : Conn) :
    (Store.settle procs t shown k owner c).lastSeen = c.lastSeen := by
  obtain heq | ⟨state, heq⟩ | ⟨-, -, -, -, heq⟩ := settle_cases procs t shown k owner c
  · rw [heq]
  · rw [heq]
  · rw [heq]
    exact attributeUdp_lastSeen c owner _

/-- What a packet does to its row, as one record: a UDP row follows its socket,
one direction counts, and an SNI names the row. -/
theorem countPacket_eq (p : Packet) (outgoing : Bool) (owner : UdpMatch) (now : ℕ) (c : Conn) :
    ∃ base state closed, base = (if p.proto = .udp then attributeUdp c owner none else c) ∧
      Store.countPacket p outgoing owner now c =
        { base with
          state := state
          closed := closed
          lastSeen := now
          txBytes := if outgoing then base.txBytes + p.bytes else base.txBytes
          txPkts := if outgoing then base.txPkts + 1 else base.txPkts
          rxBytes := if outgoing then base.rxBytes else base.rxBytes + p.bytes
          rxPkts := if outgoing then base.rxPkts else base.rxPkts + 1
          sni := p.sni.or base.sni
          domain := p.sni.or base.domain } := by
  have hbase : ∃ state closed,
      (if p.proto = .udp then
          { attributeUdp c owner none with closed := false, state := .new }
        else if c.closed && c.fromPacketsOnly then { c with closed := false, state := .new }
        else c) =
      { (if p.proto = .udp then attributeUdp c owner none else c) with
        state := state, closed := closed } := by
    by_cases hudp : p.proto = .udp
    · exact ⟨.new, false, by rw [if_pos hudp, if_pos hudp]⟩
    · rw [if_neg hudp, if_neg hudp]
      split
      · exact ⟨.new, false, rfl⟩
      · exact ⟨c.state, c.closed, rfl⟩
  obtain ⟨state, closed, hbase⟩ := hbase
  refine ⟨_, state, closed, rfl, ?_⟩
  unfold Store.countPacket
  dsimp only
  rw [hbase]
  cases p.sni <;> cases outgoing <;> rfl

/-- A packet raises the count of its row by one. -/
theorem countPacket_counts (p : Packet) (outgoing : Bool) (owner : UdpMatch) (now : ℕ)
    (c : Conn) :
    (Store.countPacket p outgoing owner now c).firstSeen = c.firstSeen ∧
      (Store.countPacket p outgoing owner now c).txPkts +
        (Store.countPacket p outgoing owner now c).rxPkts = c.txPkts + c.rxPkts + 1 := by
  obtain ⟨base, state, closed, hbase, heq⟩ := countPacket_eq p outgoing owner now c
  have hsame : SameCounts c base := by
    rw [hbase]
    split
    · exact attributeUdp_sameCounts c owner none
    · exact .refl c
  obtain ⟨hfirst, htx, hrx⟩ := hsame
  rw [heq]
  refine ⟨hfirst, ?_⟩
  dsimp only
  rw [htx, hrx]
  split <;> omega

/-- A UDP packet leaves the ownership of its row to attribution. -/
theorem countPacket_udp {p : Packet} (hudp : p.proto = .udp) (outgoing : Bool)
    (owner : UdpMatch) (now : ℕ) (c : Conn) :
    (Store.countPacket p outgoing owner now c).ownerAmbiguous =
        (attributeUdp c owner none).ownerAmbiguous ∧
      (Store.countPacket p outgoing owner now c).pid = (attributeUdp c owner none).pid ∧
      (Store.countPacket p outgoing owner now c).ownerStarted =
        (attributeUdp c owner none).ownerStarted ∧
      (Store.countPacket p outgoing owner now c).udpGeneration =
        (attributeUdp c owner none).udpGeneration := by
  obtain ⟨base, state, closed, hbase, heq⟩ := countPacket_eq p outgoing owner now c
  rw [if_pos hudp] at hbase
  rw [heq, hbase]
  exact ⟨rfl, rfl, rfl, rfl⟩

/-- A TCP packet leaves the ownership of its row alone. -/
theorem countPacket_tcp {p : Packet} (htcp : p.proto = .tcp) (outgoing : Bool)
    (owner : UdpMatch) (now : ℕ) (c : Conn) :
    (Store.countPacket p outgoing owner now c).ownerAmbiguous = c.ownerAmbiguous ∧
      (Store.countPacket p outgoing owner now c).pid = c.pid ∧
      (Store.countPacket p outgoing owner now c).ownerStarted = c.ownerStarted ∧
      (Store.countPacket p outgoing owner now c).udpGeneration = c.udpGeneration := by
  obtain ⟨base, state, closed, hbase, heq⟩ := countPacket_eq p outgoing owner now c
  rw [if_neg (by simp [htcp])] at hbase
  rw [heq, hbase]
  exact ⟨rfl, rfl, rfl, rfl⟩

/-- A TCP packet neither closes its row nor changes its inode. -/
theorem countPacket_tcp_socket {p : Packet} (htcp : p.proto = .tcp) (outgoing : Bool)
    (owner : UdpMatch) (now : ℕ) {c : Conn} (hopen : c.closed = false) :
    (Store.countPacket p outgoing owner now c).tcpCookie = c.tcpCookie ∧
      (Store.countPacket p outgoing owner now c).closed = false := by
  have hudp : p.proto ≠ .udp := by simp [htcp]
  unfold Store.countPacket
  rw [if_neg hudp]
  simp only [hopen, Bool.false_and, Bool.false_eq_true, if_false]
  split <;> split <;> exact ⟨rfl, rfl⟩

/-- A packet stamps its row. -/
theorem countPacket_lastSeen (p : Packet) (outgoing : Bool) (owner : UdpMatch) (now : ℕ)
    (c : Conn) : (Store.countPacket p outgoing owner now c).lastSeen = now := by
  obtain ⟨base, state, closed, -, heq⟩ := countPacket_eq p outgoing owner now c
  rw [heq]

@[simp]
theorem Store.packetKey_proto (st : Store) (p : Packet) : (st.packetKey p).proto = p.proto := by
  unfold Store.packetKey
  split <;> rfl

/-! ## One step -/

/-- How a row of the store after a step came about. -/
inductive StepRow (st : Store) (e : Event) (k : ConnKey) : Conn → Prop
  | packet (p : Packet) (c₀ : Conn) (hop : e.op = .packet p) (hkey : k = st.packetKey p)
      (hbase : st.conns.lookup k = some c₀ ∨
        (st.conns.lookup k = none ∧
          c₀ = Store.freshConn k true (e.clock.read p.dnsAddrs.length))) :
      StepRow st e k (Store.countPacket p (st.outbound p) (st.udpOwner k)
        (e.clock.read (p.dnsAddrs.length + 1)) c₀)
  | poll (ips : Option (Finset IpAddr)) (socks : List SockEntry) (procs : List ProcInfo)
      (c : Conn) (hop : e.op = .poll ips socks procs)
      (hrow : ((st.setLocalIps ips).applySockets e.connOrder e.clock socks
        (procMap procs)).conns.lookup k = some c) : StepRow st e k c
  | kept (c₀ c : Conn) (hrow : st.conns.lookup k = some c₀) (hnames : NamesOnly c₀ c)
      (hpoll : ∀ ips socks procs, e.op ≠ .poll ips socks procs)
      (hpacket : ∀ p, e.op = .packet p → k ≠ st.packetKey p) : StepRow st e k c

private theorem namesOnly_of_mapValues {f : ConnKey → Conn → Conn} {conns : KeyedMap ConnKey Conn}
    {k : ConnKey} {c : Conn} (hf : ∀ k c, NamesOnly c (f k c))
    (h : (KeyedMap.mapValues f conns).lookup k = some c) :
    ∃ c₀, conns.lookup k = some c₀ ∧ NamesOnly c₀ c := by
  rw [KeyedMap.lookup_mapValues, Option.map_eq_some_iff] at h
  obtain ⟨c₀, hrow, rfl⟩ := h
  exact ⟨c₀, hrow, hf k c₀⟩

/-- Every row after a step came about in one of three ways. -/
theorem Store.step_row {st : Store} {e : Event} {k : ConnKey} {c : Conn}
    (h : (st.step e).conns.lookup k = some c) : StepRow st e k c := by
  unfold Store.step at h
  cases hop : e.op with
  | packet p =>
      rw [hop] at h
      obtain ⟨hne, hrow⟩ | ⟨hkey, c₀, hbase, rfl⟩ := applyPacket_cases h
      · refine .kept c c hrow (.refl c) (by simp [hop]) fun p' hp' => ?_
        rw [hop, Op.packet.injEq] at hp'
        subst hp'
        exact hne
      · exact .packet p c₀ hop hkey hbase
  | poll ips socks procs =>
      rw [hop] at h
      exact .poll ips socks procs c hop h
  | clear =>
      rw [hop] at h
      simp [clear] at h
  | learn ip name ttl =>
      rw [hop] at h
      exact .kept c c h (.refl c) (by simp [hop]) (by simp [hop])
  | enrich lang =>
      rw [hop] at h
      obtain ⟨c₀, hrow, hnames⟩ :=
        namesOnly_of_mapValues (fun k c => enrichName_namesOnly lang st.dns _ k c) h
      exact .kept c₀ c hrow hnames (by simp [hop]) (by simp [hop])
  | whois known =>
      rw [hop] at h
      obtain ⟨c₀, hrow, hnames⟩ := namesOnly_of_mapValues (applyWhoisRow_namesOnly known) h
      exact .kept c₀ c hrow hnames (by simp [hop]) (by simp [hop])
  | resolved ip w =>
      rw [hop] at h
      obtain ⟨c₀, hrow, hnames⟩ := namesOnly_of_mapValues (whoisRow_namesOnly ip w) h
      exact .kept c₀ c hrow hnames (by simp [hop]) (by simp [hop])

namespace Store

/-- After a poll a row has the counters of its old row, or it is new and counts
nothing yet. -/
theorem applySockets_counts {order : HashOrder ConnKey} {clock : Clock} {st : Store}
    {socks : List SockEntry} {procs : ProcMap} {k : ConnKey} {c : Conn}
    (h : (st.applySockets order clock socks procs).conns.lookup k = some c) :
    (∃ c₀, st.conns.lookup k = some c₀ ∧ SameCounts c₀ c) ∨
      ((∃ i, c.firstSeen = clock.read i) ∧ c.txPkts + c.rxPkts = 0) := by
  refine applySockets_invariant
    (R := fun k c => (∃ c₀, st.conns.lookup k = some c₀ ∧ SameCounts c₀ c) ∨
      ((∃ i, c.firstSeen = clock.read i) ∧ c.txPkts + c.rxPkts = 0)) ?_ ?_ ?_ ?_ h
  · intro k c hrow
    exact .inl ⟨c, hrow, .refl c⟩
  · intro s _ _ i
    obtain ⟨hfirst, htx, hrx⟩ := showSocket_sameCounts procs (clock.read 0) s
      ((st.startPoll socks procs (clock.read 0)).udpOwner s.key)
      (freshConn s.key false (clock.read i))
    exact .inr ⟨⟨i, hfirst⟩, by rw [htx, hrx]; rfl⟩
  · intro s _ _ c hc
    obtain ⟨hfirst, htx, hrx⟩ := showSocket_sameCounts procs (clock.read 0) s
      ((st.startPoll socks procs (clock.read 0)).udpOwner s.key) c
    obtain ⟨c₀, hrow, hcounts⟩ | ⟨⟨i, hnew⟩, hzero⟩ := hc
    · exact .inl ⟨c₀, hrow, hcounts.trans ⟨hfirst, htx, hrx⟩⟩
    · exact .inr ⟨⟨i, hfirst.trans hnew⟩, by rw [htx, hrx]; exact hzero⟩
  · intro k c shown hc
    obtain ⟨hfirst, htx, hrx⟩ := settle_sameCounts procs (clock.read 0) shown k
      ((st.startPoll socks procs (clock.read 0)).udpOwner k) c
    obtain ⟨c₀, hrow, hcounts⟩ | ⟨⟨i, hnew⟩, hzero⟩ := hc
    · exact .inl ⟨c₀, hrow, hcounts.trans ⟨hfirst, htx, hrx⟩⟩
    · exact .inr ⟨⟨i, hfirst.trans hnew⟩, by rw [htx, hrx]; exact hzero⟩

end Store

/-! ## Rows stay well formed -/

/-- A disputed row has no owner, and a TCP row is bound to no UDP socket. -/
structure RowOk (k : ConnKey) (c : Conn) : Prop where
  disputed : c.ownerAmbiguous = true → c.pid = none
  unbound : k.proto = .tcp → c.udpGeneration = none

theorem rowOk_fresh (k : ConnKey) (fromPackets : Bool) (now : ℕ) :
    RowOk k (Store.freshConn k fromPackets now) where
  disputed _ := rfl
  unbound _ := rfl

theorem RowOk.attribute {k : ConnKey} {c : Conn} (h : RowOk k c) (hudp : k.proto = .udp)
    (owner : UdpMatch) (procs : Option (ℤ → Option ProcInfo)) :
    RowOk k (attributeUdp c owner procs) := by
  have htcp : k.proto ≠ .tcp := by simp [hudp]
  refine ⟨fun hdispute => ?_, fun h => absurd h htcp⟩
  by_cases hc : c.ownerAmbiguous = true
  · rw [attributeUdp_of_ambiguous hc]
    exact h.disputed hc
  · rw [Bool.not_eq_true] at hc
    obtain ⟨-, -, heq⟩ | ⟨o, -, -, -, pname, heq⟩ | heq := attributeUdp_cases c owner procs hc
    · rw [heq, hc] at hdispute
      contradiction
    · rw [heq] at hdispute
      dsimp only at hdispute
      rw [hc] at hdispute
      contradiction
    · rw [heq]
      rfl

theorem RowOk.packet {k : ConnKey} {c : Conn} {p : Packet} (h : RowOk k c)
    (hproto : k.proto = p.proto) (outgoing : Bool) (owner : UdpMatch) (now : ℕ) :
    RowOk k (Store.countPacket p outgoing owner now c) := by
  cases hp : p.proto with
  | udp =>
      obtain ⟨hdispute, hpid, -, hgen⟩ := countPacket_udp hp outgoing owner now c
      have hattr := h.attribute (hproto.trans hp) owner none
      exact ⟨by rw [hdispute, hpid]; exact hattr.disputed, by rw [hgen]; exact hattr.unbound⟩
  | tcp =>
      obtain ⟨hdispute, hpid, -, hgen⟩ := countPacket_tcp hp outgoing owner now c
      exact ⟨by rw [hdispute, hpid]; exact h.disputed, by rw [hgen]; exact h.unbound⟩

theorem RowOk.show {s : SockEntry} {c : Conn} (h : RowOk s.key c) (procs : ProcMap) (t : ℕ)
    (owner : UdpMatch) : RowOk s.key (Store.showSocket procs t s owner c) := by
  cases hproto : s.proto with
  | udp =>
      have hshown : RowOk s.key (Store.markShown t s c) := ⟨h.disputed, h.unbound⟩
      unfold Store.showSocket
      rw [hproto]
      exact hshown.attribute hproto owner (some procs)
  | tcp =>
      refine ⟨fun hdispute => ?_, fun htcp => ?_⟩
      · obtain ⟨-, -, hpid, -⟩ | ⟨-, hbefore, -, hpid, -⟩ | ⟨-, -, hclean, -⟩ :=
          showSocket_tcp_cases hproto procs t owner c
        · exact hpid
        · exact hpid.trans (h.disputed hbefore)
        · rw [hclean] at hdispute
          contradiction
      · rw [showSocket_tcp_generation hproto]
        exact h.unbound htcp

theorem RowOk.settle {k : ConnKey} {c : Conn} (h : RowOk k c) (procs : ProcMap) (t : ℕ)
    (shown : Bool) (owner : UdpMatch) : RowOk k (Store.settle procs t shown k owner c) := by
  obtain heq | ⟨state, heq⟩ | ⟨hudp, -, -, -, heq⟩ := settle_cases procs t shown k owner c
  · rw [heq]
    exact h
  · rw [heq]
    exact ⟨h.disputed, h.unbound⟩
  · rw [heq]
    have hattr := h.attribute hudp owner (some procs)
    exact ⟨hattr.disputed, hattr.unbound⟩

/-- Every operation keeps the rows well formed. -/
theorem Store.rowOk_step {st : Store} (h : ∀ k c, st.conns.lookup k = some c → RowOk k c)
    (e : Event) : ∀ k c, (st.step e).conns.lookup k = some c → RowOk k c := by
  intro k c hrow
  cases step_row hrow with
  | packet p c₀ _ hkey hbase =>
      have hc₀ : RowOk k c₀ := by
        rcases hbase with hold | ⟨-, rfl⟩
        · exact h k c₀ hold
        · exact rowOk_fresh k _ _
      have hproto : k.proto = p.proto := by rw [hkey, packetKey_proto]
      exact hc₀.packet hproto _ _ _
  | poll ips socks procs _ _ hpolled =>
      refine applySockets_invariant (R := RowOk) ?_ ?_ ?_ ?_ hpolled
      · intro k c hold
        have hold' : st.conns.lookup k = some c := by cases ips <;> exact hold
        exact h k c hold'
      · intro s _ _ i
        exact (rowOk_fresh s.key false _).show _ _ _
      · intro s _ _ c hc
        exact hc.show _ _ _
      · intro k c shown hc
        exact hc.settle _ _ shown _
  | kept c₀ _ hold hnames _ _ =>
      obtain ⟨domain, ptr, asn, owner, rfl⟩ := hnames
      have hc₀ := h k c₀ hold
      exact ⟨hc₀.disputed, hc₀.unbound⟩

/-- A row that was seen since some instant before an operation, or is opened by
the operation, has been seen since that instant. -/
theorem Store.seen_step {st : Store} {e : Event} {k : ConnKey} {since : ℕ}
    (hle : since ≤ e.clock.start)
    (hrows : ∀ c, st.conns.lookup k = some c → since ≤ c.lastSeen) {c : Conn}
    (hrow : (st.step e).conns.lookup k = some c) : since ≤ c.lastSeen := by
  cases step_row hrow with
  | packet p c₀ _ _ _ =>
      rw [countPacket_lastSeen]
      exact hle.trans (e.clock.start_le_read _)
  | poll ips socks procs _ _ hpolled =>
      refine applySockets_invariant (R := fun k' c => k' = k → since ≤ c.lastSeen)
        ?_ ?_ ?_ ?_ hpolled rfl
      · rintro k' c hold rfl
        have hold' : st.conns.lookup k' = some c := by cases ips <;> exact hold
        exact hrows c hold'
      · intro s _ _ i _
        rw [showSocket_lastSeen]
        exact hle
      · intro s _ _ c _ _
        rw [showSocket_lastSeen]
        exact hle
      · intro k' c shown hc hkey
        rw [settle_lastSeen]
        exact hc hkey
  | kept c₀ _ hold hnames _ _ =>
      obtain ⟨domain, ptr, asn, owner, rfl⟩ := hnames
      exact hrows c₀ hold

end SocketTrail.State
