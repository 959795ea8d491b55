/-
# Accounting and dump filtering agree on every packet

The history counts a packet under the tuple that its set of local addresses
says; a plan, which knows no local addresses, tries the sender's tuple first and
then the receiver's. Both find the same row because of the tuples that the
history can hold: `Oriented` is the invariant, `lookup_agrees` the result.
-/

import SocketTrail.Annotate.Apply
import SocketTrail.Pcap.Live
import SocketTrail.Pcap.QuicHello
import SocketTrail.State.RowRule

namespace SocketTrail.Annotate

open SocketTrail.Foundation SocketTrail.Net SocketTrail.Pcap SocketTrail.State

/-! ## The tuples of the history -/

/-- A tuple from the side of this host, or one that does not touch this host. -/
def Oriented (ips : Finset IpAddr) (k : ConnKey) : Prop := k.local ∈ ips ∨ k.remote ∉ ips

/-- An address that may count as one of this host. -/
def IsSpecific (ip : IpAddr) : Prop := !ip.isUnspecified && !ip.isMulticast

/-- The operation does not forget the history, and a poll finds sockets of the
given local addresses only, the connected ones on a specific address. -/
structure Within (ips : Finset IpAddr) (e : Event) : Prop where
  remembers : e.op ≠ .clear
  found : ∀ found socks procs, e.op = .poll (some found) socks procs →
    found.filter (fun ip => !ip.isUnspecified && !ip.isMulticast) = ips
  contains : ∀ found socks procs, e.op = .poll found socks procs →
    ∀ s ∈ socks, IsSpecific s.local → s.local ∈ ips
  connected : ∀ found socks procs, e.op = .poll found socks procs →
    ∀ s ∈ socks, s.rport ≠ 0 → IsSpecific s.local

/-- The local addresses are the given ones, and all tuples are oriented by them. -/
structure Located (ips : Finset IpAddr) (st : Store) : Prop where
  localIps : st.localIps = ips
  oriented : ∀ k ∈ st.conns, Oriented ips k

theorem oriented_packetKey (st : Store) (p : Packet) : Oriented st.localIps (st.packetKey p) := by
  unfold Store.packetKey Store.outbound Oriented
  by_cases hsrc : p.src ∈ st.localIps
  · rw [if_pos (by simp [hsrc])]
    exact .inl hsrc
  · by_cases hdst : p.dst ∈ st.localIps
    · rw [if_neg (by simp [hsrc, hdst])]
      exact .inl hdst
    · rw [if_pos (by simp [hdst])]
      exact .inr hdst

namespace Located

variable {ips : Finset IpAddr} {st : Store} {e : Event}

theorem setLocalIps (h : Located ips st) {found : Option (Finset IpAddr)} {socks : List SockEntry}
    {procs : List ProcInfo} (hop : e.op = .poll found socks procs) (hwithin : Within ips e) :
    (st.setLocalIps found).localIps = ips := by
  cases found with
  | none => exact h.localIps
  | some found => exact hwithin.found found socks procs hop

/-- Every operation leaves the local addresses as they are. -/
theorem step_localIps (h : Located ips st) (hwithin : Within ips e) :
    (st.step e).localIps = ips := by
  unfold Store.step
  cases hop : e.op with
  | packet p =>
      obtain ⟨rows, heq⟩ := Store.applyPacket_frame e.connOrder e.ipOrder e.clock st p
      dsimp only
      rw [heq]
      exact h.localIps
  | poll found socks procs =>
      dsimp only
      rw [Store.applySockets_localIps]
      change (st.setLocalIps found).localIps ∪ _ = ips
      rw [h.setLocalIps hop hwithin, Finset.union_eq_left]
      intro ip hip
      simp only [List.mem_toFinset, List.mem_map, List.mem_filter] at hip
      obtain ⟨s, ⟨hs, hspecific⟩, rfl⟩ := hip
      exact hwithin.contains found socks procs hop s hs hspecific
  | clear => exact absurd hop hwithin.remembers
  | learn ip name ttl => exact h.localIps
  | enrich lang => exact h.localIps
  | whois known => exact h.localIps
  | resolved ip w => exact h.localIps

theorem step (h : Located ips st) (hwithin : Within ips e) : Located ips (st.step e) := by
  refine ⟨h.step_localIps hwithin, fun k hk => ?_⟩
  obtain ⟨c, hrow⟩ := KeyedMap.mem_iff_exists_lookup.mp hk
  cases Store.step_row hrow with
  | packet p c₀ hop hkey hbase =>
      rw [hkey, ← h.localIps]
      exact oriented_packetKey st p
  | poll found socks procs c hop hpolled =>
      have hold : ∀ k c, (st.setLocalIps found).conns.lookup k = some c → Oriented ips k := by
        intro k c hrow
        have hrow' : st.conns.lookup k = some c := by cases found <;> exact hrow
        exact h.oriented k (KeyedMap.mem_iff_exists_lookup.mpr ⟨c, hrow'⟩)
      have hshown : ∀ s ∈ socks, s.rport ≠ 0 → Oriented ips s.key := by
        intro s hs hport
        left
        exact hwithin.contains found socks procs hop s hs
          (hwithin.connected found socks procs hop s hs hport)
      exact Store.applySockets_invariant (R := fun k _ => Oriented ips k) hold
        (fun s hs hport _ => hshown s hs hport) (fun s hs hport _ _ => hshown s hs hport)
        (fun _ _ _ hk => hk) hpolled
  | kept c₀ c hold hnames hpoll hpacket =>
      exact h.oriented k (KeyedMap.mem_iff_exists_lookup.mpr ⟨c₀, hold⟩)

/-- The tuples stay oriented along a run. -/
theorem run {st₀ : Store} {hist : History Store Event} (h : Located ips st₀)
    (run : Run Store.system st₀ hist st) (hwithin : ∀ entry ∈ hist, Within ips entry.2) :
    Located ips st := by
  apply Run.invariant_of_guard (G := fun _ e => Within ips e) h _ run hwithin
  intro s e s' hbefore hguard fires
  have hnext : s.step e = s' := by simpa [Store.system] using fires
  rw [← hnext]
  exact hbefore.step hguard

end Located

/-! ## Looking a packet up -/

/-- The plan knows every row of the history, and nothing else. -/
def Covers (plan : Plan) (st : Store) : Prop := ∀ k, k ∈ plan.owners ↔ k ∈ st.conns

/-- The name and the announcements of a packet are no part of its tuple. -/
theorem lookup_congr (plan : Plan) {p q : Packet} (h : Agrees p q) :
    plan.lookup q = plan.lookup p := by
  have hforward : q.forward = p.forward := by
    simp only [Packet.forward, h.proto, h.src, h.sport, h.dst, h.dport]
  have hbackward : q.backward = p.backward := by
    simp only [Packet.backward, h.proto, h.src, h.sport, h.dst, h.dport]
  rw [Plan.lookup, Plan.lookup, hforward, hbackward]

/-- While the tuples are oriented, a plan finds the row that a packet is counted
on. -/
theorem lookup_of_row {ips : Finset IpAddr} {st st' : Store} (h : Located ips st') {plan : Plan}
    (hcovers : Covers plan st') (hips : st.localIps = ips) {p : Packet}
    (hrow : st.packetKey p ∈ st'.conns) :
    ∃ o, plan.lookup p = some o ∧ plan.owners.lookup (st.packetKey p) = some o := by
  obtain ⟨o, howner⟩ := KeyedMap.mem_iff_exists_lookup.mp ((hcovers _).mpr hrow)
  refine ⟨o, ?_, howner⟩
  unfold Plan.lookup
  unfold Store.packetKey at howner
  by_cases hout : st.outbound p = true
  · rw [if_pos hout] at howner
    rw [howner]
    rfl
  · rw [if_neg hout] at howner
    rw [Store.outbound, Bool.or_eq_true, decide_eq_true_eq, decide_eq_true_eq, not_or,
      not_not] at hout
    -- the other tuple would have this host as the remote side
    have habsent : plan.owners.lookup p.forward = none := by
      apply AList.lookup_eq_none.mpr
      rw [hcovers]
      intro hmem
      rcases h.oriented _ hmem with hlocal | hremote
      · exact hout.1 (hips ▸ hlocal)
      · exact hremote (hips ▸ hout.2)
    rw [habsent, Option.none_or, howner]

/-- The row of a packet stays in the history. -/
theorem row_kept {st₀ st st' : Store} {later : History Store Event} {e : Event}
    (run : Run Store.system st₀ later st') {p : Packet} (hop : e.op = .packet p)
    (hnext : st.step e = st₀)
    (hkept : ∀ entry ∈ later, entry.2.op ≠ .clear ∧
      ¬ entry.1.Evicts entry.2 (st.packetKey p)) :
    st.packetKey p ∈ st'.conns := by
  have hstable : RowStable fun _ _ => True := by
    constructor <;> intros <;> trivial
  have hrow : ∃ c, st₀.conns.lookup (st.packetKey p) = some c := by
    rw [← hnext, Store.step, hop]
    exact ⟨_, Store.applyPacket_lookup_self⟩
  obtain ⟨c, hrow⟩ := hrow
  obtain ⟨c', hrow', -⟩ := hstable.follow_run hrow trivial run hkept
  exact KeyedMap.mem_iff_exists_lookup.mpr ⟨c', hrow'⟩

/-- The plan judges a frame by the entry that its packet is looked up at. -/
theorem judge_eq {plan : Plan} {c : Quic.Ciphers} {s : Surroundings} {linktype : UInt16}
    {frame : Bytes} {q : Packet} (hpacket : parseLinkPacket c s linktype frame = some q)
    {o : Owner} (hlookup : plan.lookup q = some o) :
    plan.judge linktype frame = (!plan.onlyGroup || o.keep, o.label) := by
  rcases parseLinkPacket_cases c s linktype frame with ⟨-, hnone⟩ | ⟨g, sni, hsegment, hsome⟩
  · rw [hnone] at hpacket
    cases hpacket
  · obtain rfl := Option.some.inj (hsome.symm.trans hpacket)
    have hbare : plan.lookup (g.packet none []) = some o := hlookup
    rw [Plan.judge, hsegment]
    dsimp only
    rw [hbare]

/-- **Live accounting and dump filtering agree on every packet.** A frame is
accepted in a capture exactly when it is accepted on its own, and the two packets
differ in the host name at most. For a fixed set of local addresses and without
eviction, a plan over all rows finds for every frame that was counted the entry of
the tuple that it was counted under. -/
theorem lookup_agrees :
    (∀ c s s' linktype d parsers,
      Option.Rel Agrees (parseLinkLive c s linktype d parsers).1
        (parseLinkPacket c s' linktype d)) ∧
    ∀ ips st₀ hist st, st₀.conns = ∅ → st₀.localIps = ips → Run Store.system st₀ hist st →
      (∀ entry ∈ hist, Within ips entry.2 ∧ ∀ k, ¬ entry.1.Evicts entry.2 k) →
      ∀ plan, Covers plan st → ∀ before e, (before, e) ∈ hist →
        ∀ c s linktype frame parsers p, e.op = .packet p →
          (parseLinkLive c s linktype frame parsers).1 = some p →
          ∀ s', ∃ q o, parseLinkPacket c s' linktype frame = some q ∧
            plan.lookup q = some o ∧
            plan.owners.lookup (before.applyPacket e.connOrder e.ipOrder e.clock p).1 = some o ∧
            plan.judge linktype frame = (!plan.onlyGroup || o.keep, o.label) := by
  refine ⟨parseLinkLive_agrees, ?_⟩
  intro ips st₀ hist st hempty hips run hall plan hcovers before e hentry c s linktype frame parsers
    p hop hlive s'
  have hstart : Located ips st₀ := by
    refine ⟨hips, fun k hk => ?_⟩
    rw [hempty] at hk
    exact absurd hk (AList.notMem_empty k)
  have hlocated := hstart.run run fun entry hmem => (hall entry hmem).1
  obtain ⟨later, earlier, rfl⟩ := List.append_of_mem hentry
  obtain ⟨next, hrunEarlier, hrunLater⟩ := run.split
  cases hrunEarlier with
  | next hprior fires =>
      have hnext : before.step e = next := by simpa [Store.system] using fires
      have hbefore := hstart.run hprior fun entry hmem =>
        (hall entry (List.mem_append_right _ (List.mem_cons_of_mem _ hmem))).1
      have hrow := row_kept hrunLater hop hnext fun entry hmem =>
        ⟨(hall entry (List.mem_append_left _ hmem)).1.remembers,
          (hall entry (List.mem_append_left _ hmem)).2 _⟩
      obtain ⟨o, hlookup, howner⟩ := lookup_of_row hlocated hcovers hbefore.localIps hrow
      have hread := parseLinkLive_agrees c s s' linktype frame parsers
      rw [hlive] at hread
      cases hpacket : parseLinkPacket c s' linktype frame with
      | none =>
          rw [hpacket] at hread
          cases hread
      | some q =>
          rw [hpacket] at hread
          cases hread with
          | some hagrees =>
              have hfound := (lookup_congr plan hagrees).trans hlookup
              rw [Store.applyPacket_key]
              exact ⟨q, o, rfl, hfound, howner, judge_eq hpacket hfound⟩

/-- The history of the host `10.0.0.1` before its first packet. -/
def sampleStore : Store := { Store.empty 0 with localIps := {.ofOctets 10 0 0 1} }

def sampleEvent : Event := { op := .packet samplePacket, clock := .still 0 }

/-- A plan over the row of the packet, which the receiving side names. -/
def samplePlan : Plan where
  owners := AList.singleton samplePacket.backward { label := some "client [7]", keep := true }
  onlyGroup := true
  comment := ""

/-- The sample frame is judged by the row that its packet was counted on. -/
theorem lookup_agrees_sample :
    samplePlan.judge 101 sampleFrame = (true, some "client [7]") := by
  have run : Run Store.system sampleStore [(sampleStore, sampleEvent)]
      (sampleStore.step sampleEvent) := Run.start.next rfl
  have hwithin : Within {.ofOctets 10 0 0 1} sampleEvent := by
    constructor <;> simp [sampleEvent]
  have hroom : ∀ k, ¬ sampleStore.Evicts sampleEvent k :=
    Store.not_evicts_of_room (by decide)
  have hcovers : Covers samplePlan (sampleStore.step sampleEvent) := by
    have hkeys : samplePlan.owners.keys = (sampleStore.step sampleEvent).conns.keys := by decide
    intro k
    rw [AList.mem_keys, AList.mem_keys, hkeys]
  obtain ⟨q, o, -, -, howner, hjudge⟩ := lookup_agrees.2 {.ofOctets 10 0 0 1} sampleStore _ _ rfl
    rfl run (by simpa using ⟨hwithin, hroom⟩) samplePlan hcovers sampleStore sampleEvent
    (List.mem_singleton_self _) Quic.sampleCiphers sampleSurroundings 101 sampleFrame
    { quic := { flows := ∅ }, tcp := { flows := ∅ } } samplePacket rfl (by decide +kernel)
    sampleSurroundings
  have ho : o = { label := some "client [7]", keep := true } := by
    have hkey : samplePlan.owners.lookup (sampleStore.applyPacket sampleEvent.connOrder
      sampleEvent.ipOrder sampleEvent.clock samplePacket).1 =
        some { label := some "client [7]", keep := true } := by decide
    exact Option.some.inj (howner.symm.trans hkey)
  rw [hjudge, ho]
  rfl

end SocketTrail.Annotate
