/-
# Properties of single rows

Most invariants of the history speak about one row and its tuple. `RowStable`
collects what such a property has to survive: every function that rewrites a
row. `RowStable.step` carries it to all rows of the next store, and
`RowStable.follow` along the life of one row until it is thrown out or the
history is forgotten.
-/

import SocketTrail.State.Eviction

namespace SocketTrail.State

open SocketTrail.Foundation SocketTrail.Net

/-- The property survives every function that rewrites a row. -/
structure RowStable (R : ConnKey → Conn → Prop) : Prop where
  packet : ∀ {k c}, R k c → ∀ p outgoing owner now, k.proto = p.proto →
    R k (Store.countPacket p outgoing owner now c)
  shown : ∀ {s c}, R (SockEntry.key s) c → ∀ procs t owner,
    R (SockEntry.key s) (Store.showSocket procs t s owner c)
  settled : ∀ {k c}, R k c → ∀ procs t shown owner, R k (Store.settle procs t shown k owner c)
  enriched : ∀ {k c}, R k c → ∀ lang dns now, R k (enrichName lang dns now k c)
  whois : ∀ {k c}, R k c → ∀ known, R k (applyWhoisRow known k c)
  resolved : ∀ {k c}, R k c → ∀ ip w, R k (whoisRow ip w k c)

namespace RowStable

variable {R : ConnKey → Conn → Prop}

private theorem mapValues {f : ConnKey → Conn → Conn} {conns : KeyedMap ConnKey Conn}
    (hf : ∀ k c, R k c → R k (f k c)) (hrows : ∀ k c, conns.lookup k = some c → R k c) :
    ∀ k c, (conns.mapValues f).lookup k = some c → R k c := by
  intro k c hrow
  rw [KeyedMap.lookup_mapValues, Option.map_eq_some_iff] at hrow
  obtain ⟨c₀, hold, rfl⟩ := hrow
  exact hf k c₀ (hrows k c₀ hold)

/-- A stable property that new rows have is kept by every operation. -/
theorem step (h : RowStable R)
    (hfresh : ∀ k fromPackets now, R k (Store.freshConn k fromPackets now)) {st : Store}
    (hrows : ∀ k c, st.conns.lookup k = some c → R k c) (e : Event) :
    ∀ k c, (st.step e).conns.lookup k = some c → R k c := by
  unfold Store.step
  cases e.op with
  | packet p =>
      intro k c hrow
      obtain ⟨-, hold⟩ | ⟨hkey, c₀, hbase, rfl⟩ := Store.applyPacket_cases hrow
      · exact hrows k c hold
      · have hproto : k.proto = p.proto := by rw [hkey, Store.packetKey_proto]
        have hc₀ : R k c₀ := by
          rcases hbase with hold | ⟨-, rfl⟩
          · exact hrows k c₀ hold
          · exact hfresh k _ _
        exact h.packet hc₀ p _ _ _ hproto
  | poll ips socks procs =>
      intro k c hrow
      have hrows' : ∀ k c, (st.setLocalIps ips).conns.lookup k = some c → R k c := by
        cases ips <;> exact hrows
      apply Store.applySockets_invariant hrows' _ _ _ hrow
      · intro s _ _ i
        exact h.shown (hfresh s.key _ _) _ _ _
      · intro s _ _ c hc
        exact h.shown hc _ _ _
      · intro k c shown hc
        exact h.settled hc _ _ _ _
  | clear =>
      intro k c hrow
      simp [Store.clear] at hrow
  | learn ip name ttl => exact hrows
  | enrich lang => exact mapValues (fun k c hc => h.enriched hc lang st.dns _) hrows
  | whois known => exact mapValues (fun k c hc => h.whois hc known) hrows
  | resolved ip w => exact mapValues (fun k c hc => h.resolved hc ip w) hrows

/-- A stable property that new rows have holds of every row of every run. -/
theorem run (h : RowStable R)
    (hfresh : ∀ k fromPackets now, R k (Store.freshConn k fromPackets now)) {now : ℕ}
    {hist : History Store Event} {st : Store}
    (run : Run Store.system (Store.empty now) hist st) :
    ∀ k c, st.conns.lookup k = some c → R k c := by
  apply Run.invariant (P := fun st => ∀ k c, st.conns.lookup k = some c → R k c) _ _ run
  · intro k c hrow
    simp [Store.empty] at hrow
  · intro s e s' hrows fires
    have hnext : s.step e = s' := by simpa [Store.system] using fires
    rw [← hnext]
    exact h.step hfresh hrows e

private theorem lookup_mapValues_follow {f : ConnKey → Conn → Conn}
    {conns : KeyedMap ConnKey Conn} {k : ConnKey} {c : Conn} (hf : R k c → R k (f k c))
    (hrow : conns.lookup k = some c) (hc : R k c) :
    ∃ c', (conns.mapValues f).lookup k = some c' ∧ R k c' :=
  ⟨f k c, KeyedMap.lookup_mapValues_of_lookup f hrow, hf hc⟩

/-- A row with a stable property that an operation neither throws out nor
forgets is there afterwards, and still has the property. -/
theorem follow (h : RowStable R) {st : Store} {e : Event} {k : ConnKey} {c : Conn}
    (hrow : st.conns.lookup k = some c) (hc : R k c) (hclear : e.op ≠ .clear)
    (hkept : ¬ st.Evicts e k) :
    ∃ c', (st.step e).conns.lookup k = some c' ∧ R k c' := by
  unfold Store.step
  unfold Store.Evicts at hkept
  cases hop : e.op with
  | packet p =>
      rw [hop] at hkept
      by_cases hkey : k = st.packetKey p
      · subst hkey
        refine ⟨_, Store.applyPacket_lookup_self, ?_⟩
        rw [hrow, Option.getD_some]
        exact h.packet hc p _ _ _ (Store.packetKey_proto st p)
      · refine ⟨c, ?_, hc⟩
        exact (Store.applyPacket_lookup_of_ne hkey hkept).trans hrow
  | poll ips socks procs =>
      rw [hop] at hkept
      have hrow' : (st.setLocalIps ips).conns.lookup k = some c := by cases ips <;> exact hrow
      apply Store.applySockets_follow (R := R k) hrow' hkept hc
      · rintro done s - rfl - c - hc
        exact h.shown hc _ _ _
      · intro c shown hc
        exact h.settled hc _ _ _ _
  | clear => exact absurd hop hclear
  | learn ip name ttl => exact ⟨c, hrow, hc⟩
  | enrich lang => exact lookup_mapValues_follow (fun hc => h.enriched hc lang st.dns _) hrow hc
  | whois known => exact lookup_mapValues_follow (fun hc => h.whois hc known) hrow hc
  | resolved ip w => exact lookup_mapValues_follow (fun hc => h.resolved hc ip w) hrow hc

/-- And so along every run during which the row is neither thrown out nor
forgotten. -/
theorem follow_run (h : RowStable R) {st st' : Store} {hist : History Store Event} {k : ConnKey}
    {c : Conn} (hrow : st.conns.lookup k = some c) (hc : R k c)
    (run : Run Store.system st hist st')
    (hkept : ∀ entry ∈ hist, entry.2.op ≠ .clear ∧ ¬ entry.1.Evicts entry.2 k) :
    ∃ c', st'.conns.lookup k = some c' ∧ R k c' := by
  apply Run.invariant_of_guard (P := fun st => ∃ c', st.conns.lookup k = some c' ∧ R k c')
    (G := fun st e => e.op ≠ .clear ∧ ¬ st.Evicts e k) ⟨c, hrow, hc⟩ _ run hkept
  intro s e s' hbefore hguard fires
  obtain ⟨c', hrow', hc'⟩ := hbefore
  have hnext : s.step e = s' := by simpa [Store.system] using fires
  rw [← hnext]
  exact h.follow hrow' hc' hguard.1 hguard.2

end RowStable

end SocketTrail.State
