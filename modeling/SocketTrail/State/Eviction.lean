/-
# Which rows make room

A full history throws rows out when it opens another one. `Store.Evicts` says
which rows an operation throws out, a poll at whichever of its snapshot rows;
every row that is not thrown out can be followed through the operation, forward
in time, where the descriptions of the previous module look back.
-/

import SocketTrail.State.Rows

namespace SocketTrail.State

open SocketTrail.Foundation SocketTrail.Net

namespace Store

/-- Opening the row of `k` throws the row of `gone` out of a full history. -/
def Displaces (order : HashOrder ConnKey) (st : Store) (k gone : ConnKey) : Prop :=
  k ∉ st.conns ∧ gone ∈ st.conns ∧ gone ∉ (st.evict order).conns

/-- The snapshot row is shown on the row of its tuple, and not passed over. -/
def Admits (st : Store) (s : SockEntry) : Prop :=
  s.rport ≠ 0 ∧ ¬ (s.state = .timeWait ∧ s.key ∉ st.conns)

/-- Some row of the snapshot, when its turn comes, throws the row of `gone` out. -/
def PollEvicts (order : HashOrder ConnKey) (clock : Clock) (st : Store) (socks : List SockEntry)
    (procs : ProcMap) (gone : ConnKey) : Prop :=
  ∃ done s, done ++ [s] <+: socks ∧ Admits (midPoll order clock st socks procs done).1 s ∧
    Displaces order (midPoll order clock st socks procs done).1 s.key gone

/-- The operation throws the row of `gone` out of the history. -/
def Evicts (st : Store) (e : Event) (gone : ConnKey) : Prop :=
  match e.op with
  | .packet p => Displaces e.connOrder st (st.packetKey p) gone
  | .poll ips socks procs =>
      PollEvicts e.connOrder e.clock (st.setLocalIps ips) socks (procMap procs) gone
  | _ => False

/-! ## Nothing is evicted below the ceiling -/

/-- A history below its ceiling keeps every row. -/
theorem evict_of_size_lt (order : HashOrder ConnKey) {st : Store} (h : st.conns.size < maxConns) :
    st.evict order = st := by
  unfold evict
  rw [if_pos h]

theorem not_displaces_of_size_lt (order : HashOrder ConnKey) {st : Store} {k gone : ConnKey}
    (h : st.conns.size < maxConns) : ¬ Displaces order st k gone := by
  rintro ⟨-, hmem, hgone⟩
  rw [evict_of_size_lt order h] at hgone
  exact hgone hmem

/-- What eviction keeps is decided by the rows alone. -/
theorem evict_conns_congr (order : HashOrder ConnKey) {st st' : Store}
    (h : st'.conns = st.conns) : (st'.evict order).conns = (st.evict order).conns := by
  simp only [evict, apply_ite Store.conns, h]

/-! ## Following a row forward -/

/-- Rewriting one row leaves every other row in place that is not thrown out. -/
theorem entry_lookup_of_not_displaces {order : HashOrder ConnKey} {now : ℕ} {k : ConnKey}
    {fromPackets : Bool} {f : Conn → Conn} {st : Store} {k' : ConnKey} (hne : k' ≠ k)
    (hkept : ¬ Displaces order st k k') :
    (st.entry order now k fromPackets f).conns.lookup k' = st.conns.lookup k' := by
  by_cases hmem : k ∈ st.conns
  · exact entry_lookup_of_mem hmem hne
  · unfold entry
    dsimp only
    rw [AList.lookup_insert_ne hne, if_neg hmem]
    cases hrow : (st.evict order).conns.lookup k' with
    | some c => exact (lookup_of_lookup_evict hrow).symm
    | none =>
        have hgone : k' ∉ (st.evict order).conns := AList.lookup_eq_none.mp hrow
        have habsent : k' ∉ st.conns := fun hold => hkept ⟨hmem, hold, hgone⟩
        exact (AList.lookup_eq_none.mpr habsent).symm

section Packet

variable {conns : HashOrder ConnKey} {ips : HashOrder IpAddr} {clock : Clock} {st : Store}
  {p : Packet}

/-- A packet leaves every other row in place that it does not throw out. -/
theorem applyPacket_lookup_of_ne {k : ConnKey} (hne : k ≠ st.packetKey p)
    (hkept : ¬ Displaces conns st (st.packetKey p) k) :
    (st.applyPacket conns ips clock p).2.conns.lookup k = st.conns.lookup k := by
  have hheard : ¬ Displaces conns (st.hear ips clock p) (st.packetKey p) k := by
    rintro ⟨habsent, hmem, hgone⟩
    have hconns : ((st.hear ips clock p).evict conns).conns = (st.evict conns).conns :=
      evict_conns_congr conns rfl
    rw [hconns] at hgone
    exact hkept ⟨habsent, hmem, hgone⟩
  exact entry_lookup_of_not_displaces hne hheard

end Packet

section Poll

variable {order : HashOrder ConnKey} {procs : ProcMap} {clock : Clock} {st : Store}
  {socks : List SockEntry}

/-- The induction principle of the snapshot rows, for a poll under way. -/
theorem midPoll_induction {P : List SockEntry → Store × Finset ConnKey → Prop}
    (hstart : P [] (st.startPoll socks procs (clock.read 0), ∅))
    (hstep : ∀ done s, done ++ [s] <+: socks → P done (midPoll order clock st socks procs done) →
      P (done ++ [s]) (applySocket order procs (clock.read 0)
        (midPoll order clock st socks procs done) (clock.read (1 + done.length)) s)) :
    P socks (midPoll order clock st socks procs socks) :=
  applyRows_induction hstart hstep

/-- After one snapshot row, a row that is not thrown out is as it was, or the
socket is shown on it; the tuple counts as shown from then on. -/
theorem applySocket_follow (procs : ProcMap) (t now : ℕ) {acc : Store × Finset ConnKey}
    {s : SockEntry} {k : ConnKey} {c : Conn} (hrow : acc.1.conns.lookup k = some c)
    (hkept : Admits acc.1 s → ¬ Displaces order acc.1 s.key k) :
    ((s.key ≠ k ∨ s.rport = 0) ∧
        (applySocket order procs t acc now s).1.conns.lookup k = some c ∧
        (k ∈ (applySocket order procs t acc now s).2 ↔ k ∈ acc.2)) ∨
      (s.key = k ∧ s.rport ≠ 0 ∧
        (applySocket order procs t acc now s).1.conns.lookup k =
          some (showSocket procs t s (acc.1.udpOwner k) c) ∧
        k ∈ (applySocket order procs t acc now s).2) := by
  unfold applySocket
  split
  · rename_i hport
    exact .inl ⟨.inr hport, hrow, Iff.rfl⟩
  · rename_i hport
    split
    · rename_i hwait
      refine .inl ⟨.inl ?_, hrow, Iff.rfl⟩
      rintro rfl
      rw [AList.lookup_eq_none.mpr hwait.2] at hrow
      contradiction
    · rename_i hwait
      by_cases hkey : k = s.key
      · subst hkey
        refine .inr ⟨rfl, hport, ?_, Finset.mem_insert_self ..⟩
        rw [entry_lookup_self, hrow, Option.getD_some]
      · refine .inl ⟨.inl (Ne.symm hkey), ?_, ?_⟩
        · rw [entry_lookup_of_not_displaces hkey (hkept ⟨hport, hwait⟩)]
          exact hrow
        · rw [Finset.mem_insert, or_iff_right hkey]

/-- A row that a poll does not throw out is there after it, settled, and has
every property `R` that is carried along the snapshot: `R done` holds once the
snapshot rows `done` are applied. The tuple is shown when a row of the snapshot
is on it. -/
theorem applySockets_followRows {k : ConnKey} {c : Conn} {R : List SockEntry → Conn → Prop}
    (hrow : st.conns.lookup k = some c) (hkept : ¬ PollEvicts order clock st socks procs k)
    (hstart : R [] c)
    (hshow : ∀ done s, done ++ [s] <+: socks → s.key = k → s.rport ≠ 0 → ∀ c,
      (midPoll order clock st socks procs done).1.conns.lookup k = some c → R done c →
        R (done ++ [s]) (showSocket procs (clock.read 0) s
          ((st.startPoll socks procs (clock.read 0)).udpOwner k) c))
    (hother : ∀ done s, done ++ [s] <+: socks → s.key ≠ k ∨ s.rport = 0 → ∀ c, R done c →
      R (done ++ [s]) c) :
    ∃ c' shown, (st.applySockets order clock socks procs).conns.lookup k =
        some (settle procs (clock.read 0) shown k
          ((st.startPoll socks procs (clock.read 0)).udpOwner k) c') ∧
      R socks c' ∧ (shown = true ↔ ∃ s ∈ socks, s.key = k ∧ s.rport ≠ 0) := by
  have howners : ∀ done, (midPoll order clock st socks procs done).1.udpOwner k =
      (st.startPoll socks procs (clock.read 0)).udpOwner k :=
    fun done => applyRows_udpOwner done 1 _ k
  have hrows : ∃ c', (midPoll order clock st socks procs socks).1.conns.lookup k = some c' ∧
      R socks c' ∧ (k ∈ (midPoll order clock st socks procs socks).2 ↔
        ∃ s ∈ socks, s.key = k ∧ s.rport ≠ 0) := by
    apply midPoll_induction (P := fun done acc => ∃ c', acc.1.conns.lookup k = some c' ∧
      R done c' ∧ (k ∈ acc.2 ↔ ∃ s ∈ done, s.key = k ∧ s.rport ≠ 0))
    · exact ⟨c, hrow, hstart, by simp⟩
    · intro done s hdone hbefore
      obtain ⟨c', hrow', hc', hshown⟩ := hbefore
      have hfollow := applySocket_follow procs (clock.read 0)
        (clock.read (1 + done.length)) hrow'
        (fun hadmits hdisplaces => hkept ⟨done, s, hdone, hadmits, hdisplaces⟩)
      rcases hfollow with ⟨hskip, hsame, halive⟩ | ⟨hkey, hport, hlookup, halive⟩
      · refine ⟨c', hsame, hother done s hdone hskip c' hc', halive.trans (hshown.trans ?_)⟩
        constructor
        · rintro ⟨s', hs', hrest⟩
          exact ⟨s', List.mem_append_left _ hs', hrest⟩
        · rintro ⟨s', hs', hkey, hport⟩
          rcases List.mem_append.mp hs' with hdone' | hself
          · exact ⟨s', hdone', hkey, hport⟩
          · obtain rfl := List.mem_singleton.mp hself
            exact absurd hskip (by simp [hkey, hport])
      · rw [howners done] at hlookup
        refine ⟨_, hlookup, hshow done s hdone hkey hport c' hrow' hc', iff_of_true halive ?_⟩
        exact ⟨s, List.mem_append_right _ (List.mem_singleton_self s), hkey, hport⟩
  obtain ⟨c', hrow', hc', hshown⟩ := hrows
  refine ⟨c', decide (k ∈ (midPoll order clock st socks procs socks).2), ?_, hc', ?_⟩
  · unfold applySockets
    simp only [KeyedMap.lookup_mapValues]
    rw [hrow', howners]
    rfl
  · rw [decide_eq_true_iff]
    exact hshown

/-- A row that a poll does not throw out is there after it, and has every
property that showing its sockets, one snapshot row after the other, and
settling keep. -/
theorem applySockets_follow {k : ConnKey} {c : Conn} {R : Conn → Prop}
    (hrow : st.conns.lookup k = some c) (hkept : ¬ PollEvicts order clock st socks procs k)
    (hstart : R c)
    (hshow : ∀ done s, done ++ [s] <+: socks → s.key = k → s.rport ≠ 0 → ∀ c,
      (midPoll order clock st socks procs done).1.conns.lookup k = some c → R c →
        R (showSocket procs (clock.read 0) s
          ((st.startPoll socks procs (clock.read 0)).udpOwner k) c))
    (hsettle : ∀ c shown, R c →
      R (settle procs (clock.read 0) shown k
        ((st.startPoll socks procs (clock.read 0)).udpOwner k) c)) :
    ∃ c', (st.applySockets order clock socks procs).conns.lookup k = some c' ∧ R c' := by
  obtain ⟨c', shown, hrow', hc', -⟩ := applySockets_followRows (R := fun _ => R) hrow hkept hstart
    hshow (fun _ _ _ _ _ hc => hc)
  exact ⟨_, hrow', hsettle c' shown hc'⟩

end Poll

/-! ## Room for the rows of an operation -/

theorem evict_size_le (order : HashOrder ConnKey) (st : Store) :
    (st.evict order).conns.size ≤ st.conns.size := by
  obtain ⟨keys, heq⟩ := st.evict_eq order
  rw [heq]
  exact KeyedMap.size_eraseAll_le keys st.conns

theorem entry_size_le (order : HashOrder ConnKey) (now : ℕ) (k : ConnKey) (fromPackets : Bool)
    (f : Conn → Conn) (st : Store) :
    (st.entry order now k fromPackets f).conns.size ≤ st.conns.size + 1 := by
  unfold entry
  dsimp only
  apply (KeyedMap.size_insert_le _ _ _).trans
  apply Nat.add_le_add_right
  split
  · exact le_rfl
  · exact evict_size_le order st

theorem applySocket_size_le (order : HashOrder ConnKey) (procs : ProcMap) (t now : ℕ)
    (acc : Store × Finset ConnKey) (s : SockEntry) :
    (applySocket order procs t acc now s).1.conns.size ≤ acc.1.conns.size + 1 := by
  unfold applySocket
  split
  · exact Nat.le_succ _
  · split
    · exact Nat.le_succ _
    · exact entry_size_le ..

/-- Every snapshot row opens one row at most. -/
theorem midPoll_size_le (order : HashOrder ConnKey) (clock : Clock) (st : Store)
    (socks : List SockEntry) (procs : ProcMap) (done : List SockEntry) :
    (midPoll order clock st socks procs done).1.conns.size ≤ st.conns.size + done.length := by
  apply applyRows_induction
    (P := fun done acc => acc.1.conns.size ≤ st.conns.size + done.length)
  · exact le_rfl
  · intro done s _ hbefore
    have hrow := applySocket_size_le order procs (clock.read 0) (clock.read (1 + done.length))
      (applyRows order procs clock.read (clock.read 0) 1 done
        (st.startPoll socks procs (clock.read 0), ∅)) s
    rw [List.length_append, List.length_singleton]
    omega

/-- A history with room for a snapshot loses no row to it. -/
theorem not_pollEvicts_of_room {order : HashOrder ConnKey} {clock : Clock} {st : Store}
    {socks : List SockEntry} {procs : ProcMap} (h : st.conns.size + socks.length ≤ maxConns)
    (k : ConnKey) : ¬ PollEvicts order clock st socks procs k := by
  rintro ⟨done, s, hfront, -, hdisplaces⟩
  have hlength := hfront.length_le
  rw [List.length_append, List.length_singleton] at hlength
  have hsize := midPoll_size_le order clock st socks procs done
  apply not_displaces_of_size_lt order _ hdisplaces
  omega

/-- The rows that an operation can open. -/
def opened : Op → ℕ
  | .packet _ => 1
  | .poll _ socks _ => socks.length
  | _ => 0

/-- A history with room for the rows of an operation loses none to it. -/
theorem not_evicts_of_room {st : Store} {e : Event} (h : st.conns.size + opened e.op ≤ maxConns)
    (k : ConnKey) : ¬ st.Evicts e k := by
  unfold Evicts
  cases hop : e.op with
  | packet p =>
      rw [hop] at h
      exact not_displaces_of_size_lt _ (Nat.lt_of_succ_le h)
  | poll ips socks procs =>
      rw [hop] at h
      have hips : (st.setLocalIps ips).conns = st.conns := by cases ips <;> rfl
      apply not_pollEvicts_of_room
      rw [hips]
      exact h
  | clear => exact not_false
  | learn ip name ttl => exact not_false
  | enrich lang => exact not_false
  | whois known => exact not_false
  | resolved ip w => exact not_false

end Store

end SocketTrail.State
