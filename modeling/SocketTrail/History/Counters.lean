/-
# Conservation of the traffic counters

The store counts every packet twice: once in `packetsSeen`, and once on the row
of its tuple. `Counters` is what a row counts and `Store.counters` reads it for
any tuple, zero where there is no row. A packet counts once on the row of the
key it returns, every other operation but `clear` counts nothing, so the two
counts agree as long as no row is thrown out.
-/

import SocketTrail.Attribution.Counted
import SocketTrail.State.Eviction

namespace SocketTrail.History

open SocketTrail.Foundation SocketTrail.Net SocketTrail.State SocketTrail.Attribution

/-- What a row has counted. -/
structure Counters where
  txBytes : ℕ
  rxBytes : ℕ
  txPkts : ℕ
  rxPkts : ℕ
  deriving DecidableEq, Repr

namespace Counters

/-- Nothing counted yet. -/
def zero : Counters := ⟨0, 0, 0, 0⟩

def packets (c : Counters) : ℕ := c.txPkts + c.rxPkts

def bytes (c : Counters) : ℕ := c.txBytes + c.rxBytes

/-- Count one packet in one direction. -/
def count (outgoing : Bool) (size : ℕ) (c : Counters) : Counters :=
  if outgoing then { c with txBytes := c.txBytes + size, txPkts := c.txPkts + 1 }
  else { c with rxBytes := c.rxBytes + size, rxPkts := c.rxPkts + 1 }

@[simp]
theorem packets_count (outgoing : Bool) (size : ℕ) (c : Counters) :
    (c.count outgoing size).packets = c.packets + 1 := by
  cases outgoing <;> simp only [count, packets] <;> simp <;> omega

@[simp]
theorem bytes_count (outgoing : Bool) (size : ℕ) (c : Counters) :
    (c.count outgoing size).bytes = c.bytes + size := by
  cases outgoing <;> simp only [count, bytes] <;> simp <;> omega

end Counters

/-- The counters of a row. -/
def rowCounters (c : Conn) : Counters where
  txBytes := c.txBytes
  rxBytes := c.rxBytes
  txPkts := c.txPkts
  rxPkts := c.rxPkts

/-- The counters of a tuple, zero where the history has no row. -/
def counters (st : Store) (k : ConnKey) : Counters :=
  ((st.conns.lookup k).map rowCounters).getD .zero

theorem counters_of_lookup {st : Store} {k : ConnKey} {c : Conn}
    (h : st.conns.lookup k = some c) : counters st k = rowCounters c := by
  rw [counters, h]
  rfl

theorem counters_of_absent {st : Store} {k : ConnKey} (h : st.conns.lookup k = none) :
    counters st k = .zero := by
  rw [counters, h]
  rfl

/-! ## What changes the counters of a row -/

theorem rowCounters_fresh (k : ConnKey) (fromPackets : Bool) (now : ℕ) :
    rowCounters (Store.freshConn k fromPackets now) = .zero := rfl

/-- A dispute of the owner counts nothing. -/
theorem rowCounters_dispute (c : Conn) : rowCounters c.dispute = rowCounters c := rfl

theorem rowCounters_attributeUdp (c : Conn) (owner : UdpMatch)
    (procs : Option (ℤ → Option ProcInfo)) :
    rowCounters (attributeUdp c owner procs) = rowCounters c := by
  by_cases hc : c.ownerAmbiguous = true
  · rw [attributeUdp_of_ambiguous hc]
  · rw [Bool.not_eq_true] at hc
    obtain ⟨-, -, heq⟩ | ⟨o, -, -, -, pname, heq⟩ | heq := attributeUdp_cases c owner procs hc
    · rw [heq]
    · rw [heq]
      rfl
    · rw [heq]
      exact rowCounters_dispute c

theorem rowCounters_checkReuse (procs : ProcMap) (s : SockEntry) (c : Conn) :
    rowCounters (Store.checkReuse procs s c) = rowCounters c := by
  unfold Store.checkReuse
  dsimp only
  split <;> rfl

theorem rowCounters_takeOwner (procs : ProcMap) (s : SockEntry) (c : Conn) :
    rowCounters (Store.takeOwner procs s c) = rowCounters c := by
  unfold Store.takeOwner
  split <;> rfl

/-- A socket of the table counts nothing. -/
theorem rowCounters_showSocket (procs : ProcMap) (t : ℕ) (s : SockEntry) (owner : UdpMatch)
    (c : Conn) : rowCounters (Store.showSocket procs t s owner c) = rowCounters c := by
  unfold Store.showSocket
  split
  · rw [rowCounters_takeOwner]
    exact rowCounters_checkReuse procs s c
  · rw [rowCounters_attributeUdp]
    rfl

/-- The end of a poll counts nothing. -/
theorem rowCounters_settle (procs : ProcMap) (t : ℕ) (shown : Bool) (k : ConnKey)
    (owner : UdpMatch) (c : Conn) :
    rowCounters (Store.settle procs t shown k owner c) = rowCounters c := by
  obtain heq | ⟨state, heq⟩ | ⟨-, -, -, -, heq⟩ := settle_cases procs t shown k owner c
  · rw [heq]
  · rw [heq]
    rfl
  · rw [heq]
    exact rowCounters_attributeUdp c owner (some procs)

theorem rowCounters_of_namesOnly {c c' : Conn} (h : NamesOnly c c') :
    rowCounters c' = rowCounters c := by
  obtain ⟨domain, ptr, asn, owner, rfl⟩ := h
  rfl

/-- A packet counts once, in its direction. -/
theorem rowCounters_countPacket (p : Packet) (outgoing : Bool) (owner : UdpMatch) (now : ℕ)
    (c : Conn) :
    rowCounters (Store.countPacket p outgoing owner now c) =
      (rowCounters c).count outgoing p.bytes := by
  obtain ⟨base, state, closed, hbase, heq⟩ := countPacket_eq p outgoing owner now c
  have hsame : rowCounters base = rowCounters c := by
    rw [hbase]
    split
    · exact rowCounters_attributeUdp c owner none
    · rfl
  rw [heq, ← hsame]
  cases outgoing <;> rfl

/-! ## What one operation counts -/

section Packet

variable {conns : HashOrder ConnKey} {ips : HashOrder IpAddr} {clock : Clock} {st : Store}
  {p : Packet}

/-- The packet counts on the row of the key it returns. -/
theorem counters_applyPacket_self :
    counters (st.applyPacket conns ips clock p).2 (st.packetKey p) =
      (counters st (st.packetKey p)).count (st.outbound p) p.bytes := by
  rw [counters_of_lookup Store.applyPacket_lookup_self, rowCounters_countPacket]
  cases hrow : st.conns.lookup (st.packetKey p) with
  | none => rw [counters_of_absent hrow, Option.getD_none, rowCounters_fresh]
  | some c => rw [counters_of_lookup hrow, Option.getD_some]

/-- And it counts on no other row. -/
theorem counters_applyPacket_of_ne {k : ConnKey} (hne : k ≠ st.packetKey p)
    (hkept : ¬ Store.Displaces conns st (st.packetKey p) k) :
    counters (st.applyPacket conns ips clock p).2 k = counters st k := by
  rw [counters, counters, Store.applyPacket_lookup_of_ne hne hkept]

end Packet

/-- A poll counts nothing on a row that it does not throw out. -/
theorem counters_applySockets {order : HashOrder ConnKey} {clock : Clock} {st : Store}
    {socks : List SockEntry} {procs : ProcMap} {k : ConnKey}
    (hkept : ¬ Store.PollEvicts order clock st socks procs k) :
    counters (st.applySockets order clock socks procs) k = counters st k := by
  cases hrow : st.conns.lookup k with
  | some c =>
      obtain ⟨c', hrow', hsame⟩ := Store.applySockets_follow
        (R := fun c' => rowCounters c' = rowCounters c) hrow hkept rfl
        (fun _ s _ _ _ c' _ hc' => (rowCounters_showSocket ..).trans hc')
        (fun c' shown hc' => (rowCounters_settle ..).trans hc')
      rw [counters_of_lookup hrow, counters_of_lookup hrow', hsame]
  | none =>
      rw [counters_of_absent hrow]
      cases hrow' : (st.applySockets order clock socks procs).conns.lookup k with
      | none => exact counters_of_absent hrow'
      | some c' =>
          rw [counters_of_lookup hrow']
          refine Store.applySockets_invariant
            (R := fun k' c' => k' = k → rowCounters c' = .zero) ?_ ?_ ?_ ?_ hrow' rfl
          · rintro k' c hold rfl
            rw [hrow] at hold
            contradiction
          · intro s _ _ i _
            rw [rowCounters_showSocket, rowCounters_fresh]
          · intro s _ _ c hc hkey
            rw [rowCounters_showSocket, hc hkey]
          · intro k' c shown hc hkey
            rw [rowCounters_settle, hc hkey]

/-- An operation that is neither a packet nor `clear`. -/
def Quiet (op : Op) : Prop :=
  (∀ p, op ≠ .packet p) ∧ op ≠ .clear

private theorem counters_mapValues {f : ConnKey → Conn → Conn} (hf : ∀ k c, NamesOnly c (f k c))
    (st : Store) (k : ConnKey) :
    counters { st with conns := st.conns.mapValues f } k = counters st k := by
  cases hrow : st.conns.lookup k with
  | none =>
      have hnone : (KeyedMap.mapValues f st.conns).lookup k = none := by
        rw [KeyedMap.lookup_mapValues, hrow]
        rfl
      rw [counters_of_absent hrow, counters, hnone]
      rfl
  | some c =>
      have hsome := KeyedMap.lookup_mapValues_of_lookup f hrow
      rw [counters_of_lookup hrow, counters, hsome]
      exact rowCounters_of_namesOnly (hf k c)

/-- Such an operation counts nothing on a row that it does not throw out. -/
theorem counters_step_of_quiet {st : Store} {e : Event} {k : ConnKey} (hquiet : Quiet e.op)
    (hkept : ¬ st.Evicts e k) : counters (st.step e) k = counters st k := by
  unfold Store.step
  unfold Store.Evicts at hkept
  cases hop : e.op with
  | packet p => exact absurd hop (hquiet.1 p)
  | clear => exact absurd hop hquiet.2
  | poll ips socks procs =>
      rw [hop] at hkept
      have hips : counters (st.setLocalIps ips) k = counters st k := by cases ips <;> rfl
      exact (counters_applySockets hkept).trans hips
  | learn ip name ttl => rfl
  | enrich lang =>
      exact counters_mapValues (fun k c => enrichName_namesOnly lang st.dns _ k c) st k
  | whois known => exact counters_mapValues (applyWhoisRow_namesOnly known) st k
  | resolved ip w => exact counters_mapValues (whoisRow_namesOnly ip w) st k

/-! ## Runs -/

/-- The operation forgets the history. -/
def isClear : Op → Bool
  | .clear => true
  | _ => false

/-- What has happened since the history was last forgotten. -/
def sinceClear (hist : History Store Event) : History Store Event :=
  hist.takeWhile fun entry => !isClear entry.2.op

/-- The bytes that an operation brings. -/
def bytesOf : Op → ℕ
  | .packet p => p.bytes
  | _ => 0

/-- The bytes of the packets applied since the history was last forgotten. -/
def bytesSinceClear (hist : History Store Event) : ℕ :=
  ((sinceClear hist).map fun entry => bytesOf entry.2.op).sum

/-- No row was thrown out since the history was last forgotten. -/
def NothingEvicted (hist : History Store Event) : Prop :=
  ∀ entry ∈ sinceClear hist, ∀ k, ¬ entry.1.Evicts entry.2 k

/-- All packets that the rows have counted. -/
def packetsOnRows (st : Store) : ℕ :=
  KeyedMap.sum (fun c => c.txPkts + c.rxPkts) st.conns

/-- All bytes that the rows have counted. -/
def bytesOnRows (st : Store) : ℕ :=
  KeyedMap.sum (fun c => c.txBytes + c.rxBytes) st.conns

theorem weight_packets (st : Store) (k : ConnKey) :
    KeyedMap.weight (fun c => c.txPkts + c.rxPkts) st.conns k = (counters st k).packets := by
  unfold KeyedMap.weight counters
  cases st.conns.lookup k <;> rfl

theorem weight_bytes (st : Store) (k : ConnKey) :
    KeyedMap.weight (fun c => c.txBytes + c.rxBytes) st.conns k = (counters st k).bytes := by
  unfold KeyedMap.weight counters
  cases st.conns.lookup k <;> rfl

/-- Every operation but a packet and `clear` leaves the packet count alone. -/
theorem packetsSeen_step_of_quiet {st : Store} {e : Event} (hquiet : Quiet e.op) :
    (st.step e).packetsSeen = st.packetsSeen := by
  unfold Store.step
  cases hop : e.op with
  | packet p => exact absurd hop (hquiet.1 p)
  | clear => exact absurd hop hquiet.2
  | poll ips socks procs =>
      have hips : (st.setLocalIps ips).packetsSeen = st.packetsSeen := by cases ips <;> rfl
      exact (Store.applySockets_packetsSeen ..).trans hips
  | learn ip name ttl => rfl
  | enrich lang => rfl
  | whois known => rfl
  | resolved ip w => rfl

theorem sinceClear_cons (st : Store) (e : Event) (hist : History Store Event) :
    sinceClear ((st, e) :: hist) = if isClear e.op then [] else (st, e) :: sinceClear hist := by
  unfold sinceClear
  rw [List.takeWhile_cons]
  cases isClear e.op <;> rfl

theorem bytesSinceClear_cons (st : Store) (e : Event) (hist : History Store Event) :
    bytesSinceClear ((st, e) :: hist) =
      if isClear e.op then 0 else bytesOf e.op + bytesSinceClear hist := by
  unfold bytesSinceClear
  rw [sinceClear_cons]
  split <;> rfl

/-- The two counts agree. -/
structure Conserved (hist : History Store Event) (st : Store) : Prop where
  packets : st.packetsSeen = packetsOnRows st
  bytes : bytesOnRows st = bytesSinceClear hist

/-- A packet adds the same to both counts. -/
theorem Conserved.packet {hist : History Store Event} {st : Store} {e : Event} {p : Packet}
    (h : Conserved hist st) (hop : e.op = .packet p) (hkept : ∀ k, ¬ st.Evicts e k) :
    Conserved ((st, e) :: hist) (st.step e) := by
  have hstep : st.step e = (st.applyPacket e.connOrder e.ipOrder e.clock p).2 := by
    unfold Store.step
    rw [hop]
  have hdisplaces : ∀ k, ¬ Store.Displaces e.connOrder st (st.packetKey p) k := by
    intro k
    have hk := hkept k
    unfold Store.Evicts at hk
    rw [hop] at hk
    exact hk
  have hself : counters (st.step e) (st.packetKey p) =
      (counters st (st.packetKey p)).count (st.outbound p) p.bytes := by
    rw [hstep]
    exact counters_applyPacket_self
  have hother : ∀ k, k ≠ st.packetKey p → counters (st.step e) k = counters st k := by
    intro k hne
    rw [hstep]
    exact counters_applyPacket_of_ne hne (hdisplaces k)
  have hpackets : packetsOnRows (st.step e) = packetsOnRows st + 1 := by
    apply KeyedMap.sum_add_at (st.packetKey p)
    · rw [weight_packets, weight_packets, hself, Counters.packets_count]
    · intro k hne
      rw [weight_packets, weight_packets, hother k hne]
  have hbytes : bytesOnRows (st.step e) = bytesOnRows st + p.bytes := by
    apply KeyedMap.sum_add_at (st.packetKey p)
    · rw [weight_bytes, weight_bytes, hself, Counters.bytes_count]
    · intro k hne
      rw [weight_bytes, weight_bytes, hother k hne]
  have hseen : (st.step e).packetsSeen = st.packetsSeen + 1 := by
    rw [hstep]
    exact Store.applyPacket_packetsSeen
  constructor
  · rw [hseen, hpackets, h.packets]
  · rw [hbytes, h.bytes, bytesSinceClear_cons, hop]
    exact Nat.add_comm _ _

/-- An operation that counts nothing adds nothing to either count. -/
theorem Conserved.quiet {hist : History Store Event} {st : Store} {e : Event}
    (h : Conserved hist st) (hquiet : Quiet e.op) (hkept : ∀ k, ¬ st.Evicts e k) :
    Conserved ((st, e) :: hist) (st.step e) := by
  have hsame : ∀ k, counters (st.step e) k = counters st k :=
    fun k => counters_step_of_quiet hquiet (hkept k)
  have hpackets : packetsOnRows (st.step e) = packetsOnRows st := by
    apply KeyedMap.sum_congr
    intro k
    rw [weight_packets, weight_packets, hsame]
  have hbytes : bytesOnRows (st.step e) = bytesOnRows st := by
    apply KeyedMap.sum_congr
    intro k
    rw [weight_bytes, weight_bytes, hsame]
  have hnothing : isClear e.op = false ∧ bytesOf e.op = 0 := by
    cases hop : e.op with
    | packet p => exact absurd hop (hquiet.1 p)
    | clear => exact absurd hop hquiet.2
    | poll ips socks procs => exact ⟨rfl, rfl⟩
    | learn ip name ttl => exact ⟨rfl, rfl⟩
    | enrich lang => exact ⟨rfl, rfl⟩
    | whois known => exact ⟨rfl, rfl⟩
    | resolved ip w => exact ⟨rfl, rfl⟩
  constructor
  · rw [packetsSeen_step_of_quiet hquiet, hpackets, h.packets]
  · rw [hbytes, h.bytes, bytesSinceClear_cons, hnothing.1, hnothing.2]
    simp

/-- Forgetting the history forgets both counts. -/
theorem conserved_clear (hist : History Store Event) (st : Store) {e : Event}
    (hop : e.op = .clear) : Conserved ((st, e) :: hist) (st.step e) := by
  have hstep : st.step e = st.clear := by
    unfold Store.step
    rw [hop]
  constructor
  · rw [hstep]
    rfl
  · rw [hstep, bytesSinceClear_cons, hop]
    rfl

/-- The two counts agree in every run in which no row was thrown out since the
history was last forgotten. -/
theorem conserved_of_run {now : ℕ} {hist : History Store Event} {st : Store}
    (run : Run Store.system (Store.empty now) hist st) (hkept : NothingEvicted hist) :
    Conserved hist st := by
  revert hkept
  apply Run.historyInvariant (P := fun hist st => NothingEvicted hist → Conserved hist st) _ _ run
  · intro _
    exact ⟨rfl, rfl⟩
  · intro hist s e s' _ ih fires hkept
    have hnext : s.step e = s' := by simpa [Store.system] using fires
    subst hnext
    cases hclear : isClear e.op with
    | true =>
        have hop : e.op = .clear := by
          cases hop : e.op <;> simp [isClear, hop] at hclear ⊢
        exact conserved_clear hist s hop
    | false =>
        unfold NothingEvicted at hkept
        rw [sinceClear_cons, hclear] at hkept
        have hnow : ∀ k, ¬ s.Evicts e k := hkept (s, e) (List.mem_cons_self ..)
        have hbefore := ih fun entry hentry => hkept entry (List.mem_cons_of_mem _ hentry)
        have hquiet : (∃ p, e.op = .packet p) ∨ Quiet e.op := by
          cases hop : e.op <;> simp [isClear, hop] at hclear <;> simp [Quiet]
        rcases hquiet with ⟨p, hop⟩ | hquiet
        · exact hbefore.packet hop hnow
        · exact hbefore.quiet hquiet hnow

/-! ## A packet and its reply -/

/-- `q` goes back from where `p` went to. -/
def RepliesTo (q p : Packet) : Prop :=
  q.proto = p.proto ∧ q.src = p.dst ∧ q.sport = p.dport ∧ q.dst = p.src ∧ q.dport = p.sport

/-- Exactly one endpoint of the packet is an address of this host. -/
def OneLocal (ips : Finset IpAddr) (p : Packet) : Prop :=
  ¬ (p.src ∈ ips ↔ p.dst ∈ ips)

/-- A packet and its reply have one tuple and opposite directions. -/
theorem packetKey_reply {st st' : Store} {p q : Packet} (hreply : RepliesTo q p)
    (hips : st'.localIps = st.localIps) (hlocal : OneLocal st.localIps p) :
    st'.packetKey q = st.packetKey p ∧ st'.outbound q = !st.outbound p := by
  obtain ⟨hproto, hsrc, hsport, hdst, hdport⟩ := hreply
  have hforward : q.forward = p.backward := by
    simp [Packet.forward, Packet.backward, hproto, hsrc, hsport, hdst, hdport]
  have hbackward : q.backward = p.forward := by
    simp [Packet.forward, Packet.backward, hproto, hsrc, hsport, hdst, hdport]
  unfold OneLocal at hlocal
  by_cases hp : p.src ∈ st.localIps
  · have hq : p.dst ∉ st.localIps := fun h => hlocal ⟨fun _ => h, fun _ => hp⟩
    simp [Store.packetKey, Store.outbound, hips, hsrc, hdst, hp, hq, hbackward]
  · have hq : p.dst ∈ st.localIps := by
      by_contra h
      exact hlocal ⟨fun h' => absurd h' hp, fun h' => absurd h' h⟩
    simp [Store.packetKey, Store.outbound, hips, hsrc, hdst, hp, hq, hforward]

/-! ## The result -/

/-- Traffic is conserved: the packets and bytes on the rows are those that were
heard, in every run without eviction since the history was last forgotten; a
packet counts once, on the row of the key it returns and in one direction; no
other operation and no dispute counts anything; and a packet and its reply count
on one row in opposite directions when one endpoint is local. -/
theorem traffic_conserved :
    (∀ now hist st, Run Store.system (Store.empty now) hist st → NothingEvicted hist →
      st.packetsSeen = packetsOnRows st ∧ bytesOnRows st = bytesSinceClear hist) ∧
    (∀ conns ips clock (st : Store) p k after,
      st.applyPacket conns ips clock p = (k, after) →
        k ∈ after.conns ∧ counters after k = (counters st k).count (st.outbound p) p.bytes ∧
          ∀ k', k' ≠ k → ¬ Store.Displaces conns st k k' → counters after k' = counters st k') ∧
    (∀ (st : Store) e k, Quiet e.op → ¬ st.Evicts e k →
      counters (st.step e) k = counters st k) ∧
    (∀ c : Conn, rowCounters c.dispute = rowCounters c) ∧
    (∀ (st st' : Store) p q, RepliesTo q p → st'.localIps = st.localIps →
      OneLocal st.localIps p →
        st'.packetKey q = st.packetKey p ∧ st'.outbound q = !st.outbound p) := by
  refine ⟨?_, ?_, ?_, rowCounters_dispute, ?_⟩
  · intro now hist st run hkept
    have hconserved := conserved_of_run run hkept
    exact ⟨hconserved.packets, hconserved.bytes⟩
  · intro conns ips clock st p k after hpacket
    have hkey : k = st.packetKey p := congrArg Prod.fst hpacket.symm
    have hafter : after = (st.applyPacket conns ips clock p).2 := congrArg Prod.snd hpacket.symm
    subst hkey hafter
    refine ⟨?_, counters_applyPacket_self, ?_⟩
    · exact KeyedMap.mem_iff_exists_lookup.mpr ⟨_, Store.applyPacket_lookup_self⟩
    · intro k' hne hkept
      exact counters_applyPacket_of_ne hne hkept
  · intro st e k hquiet hkept
    exact counters_step_of_quiet hquiet hkept
  · intro st st' p q hreply hips hlocal
    exact packetKey_reply hreply hips hlocal

/-- A history that is forgotten, hears a TCP and a UDP packet and is polled, hears one
more packet of each, and is polled once more. -/
def countedRun : History Store Event × Store :=
  Store.system.play [] (Store.empty 0)
    [packetAt 1 .tcp, { op := .clear, clock := .still 5 }, packetAt 10 .tcp, packetAt 11 .udp,
      pollAt 20 [sampleTcp (some 7), sampleUdp (some 7) false] [sampleProc 7 100],
      packetAt 30 .udp, packetAt 31 .tcp, pollAt 40 [sampleTcp (some 7)] [sampleProc 7 100]]

/-- The sample run counts the four packets since it was forgotten once each, on two
rows. -/
theorem traffic_conserved_sample :
    countedRun.2.packetsSeen = packetsOnRows countedRun.2 ∧ packetsOnRows countedRun.2 = 4 ∧
      bytesOnRows countedRun.2 = bytesSinceClear countedRun.1 ∧
      bytesSinceClear countedRun.1 = 240 ∧ countedRun.2.conns.size = 2 := by
  have run : Run Store.system (Store.empty 0) countedRun.1 countedRun.2 := Run.start.play _
  have hkept : NothingEvicted countedRun.1 := by
    intro entry hentry
    apply Store.not_evicts_of_room
    revert entry
    decide
  have hconserved := traffic_conserved.1 0 countedRun.1 countedRun.2 run hkept
  exact ⟨hconserved.1, by decide, hconserved.2, by decide, by decide⟩

end SocketTrail.History
