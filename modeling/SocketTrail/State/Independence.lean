/-
# Connections do not disturb each other

Beyond its names, the row of a tuple is made by the packets of that tuple and by
the polls. Packets of other tuples, learned names, naming and lookups can be left
out of a run, and the row comes out the same: same owner, same dispute, same
counters, same times.
-/

import SocketTrail.Foundation.Execution
import SocketTrail.State.Eviction

namespace SocketTrail.State

open SocketTrail.Foundation SocketTrail.Net

/-! ## A row without its names -/

/-- The row without the names that are looked up or learned for its address. -/
def Conn.unnamed (c : Conn) : Conn :=
  { c with domain := none, ptr := none, asn := none, owner := none }

theorem NamesOnly.unnamed {c c' : Conn} (h : NamesOnly c c') : c'.unnamed = c.unnamed := by
  obtain ⟨domain, ptr, asn, owner, rfl⟩ := h
  rfl

theorem attributeUdp_unnamed (c : Conn) (owner : UdpMatch)
    (procs : Option (ℤ → Option ProcInfo)) :
    attributeUdp c.unnamed owner procs = (attributeUdp c owner procs).unnamed := by
  have hdisputed : c.unnamed.ownerAmbiguous = c.ownerAmbiguous := rfl
  have hgen : c.unnamed.udpGeneration = c.udpGeneration := rfl
  have hfirst : c.unnamed.firstSeen = c.firstSeen := rfl
  unfold attributeUdp
  rw [hdisputed, hgen, hfirst]
  split
  · rfl
  · cases owner with
    | missing =>
        dsimp only
        split <;> rfl
    | ambiguous => rfl
    | unique o =>
        dsimp only
        split
        · cases o.pid <;> rfl
        · rfl

theorem showSocket_unnamed (procs : ProcMap) (t : ℕ) (s : SockEntry) (owner : UdpMatch)
    (c : Conn) : Store.showSocket procs t s owner c.unnamed =
      (Store.showSocket procs t s owner c).unnamed := by
  cases hproto : s.proto with
  | udp =>
      rw [Store.showSocket_udp hproto, Store.showSocket_udp hproto]
      exact attributeUdp_unnamed (Store.markShown t s c) owner (some procs)
  | tcp =>
      rw [Store.showSocket_tcp hproto, Store.showSocket_tcp hproto]
      have hreuse : Store.checkReuse procs s c.unnamed =
          (Store.checkReuse procs s c).unnamed := by
        have hreused : Store.tcpReused procs s c.unnamed = Store.tcpReused procs s c := rfl
        unfold Store.checkReuse
        rw [hreused]
        split <;> rfl
      have hmarked : Store.markShown t s (Store.checkReuse procs s c).unnamed =
          (Store.markShown t s (Store.checkReuse procs s c)).unnamed := rfl
      rw [hreuse, hmarked]
      generalize Store.markShown t s (Store.checkReuse procs s c) = marked
      have hdisputed : marked.unnamed.ownerAmbiguous = marked.ownerAmbiguous := rfl
      unfold Store.takeOwner
      rw [hdisputed]
      split <;> rfl

theorem settle_unnamed (procs : ProcMap) (t : ℕ) (shown : Bool) (k : ConnKey) (owner : UdpMatch)
    (c : Conn) : Store.settle procs t shown k owner c.unnamed =
      (Store.settle procs t shown k owner c).unnamed := by
  have hactive : Store.udpActive owner c.unnamed = Store.udpActive owner c := rfl
  have hclosed : c.unnamed.closed = c.closed := rfl
  have hstate : c.unnamed.state = c.state := rfl
  have hseen : c.unnamed.lastSeen = c.lastSeen := rfl
  unfold Store.settle
  rw [hactive, hclosed, hstate, hseen, attributeUdp_unnamed]
  split
  · split
    · split <;> rfl
    · rfl
  · split
    · rfl
    · split
      · rfl
      · split <;> rfl

theorem countPacket_unnamed (p : Packet) (outgoing : Bool) (owner : UdpMatch) (now : ℕ)
    (c : Conn) : (Store.countPacket p outgoing owner now c.unnamed).unnamed =
      (Store.countPacket p outgoing owner now c).unnamed := by
  have hclosed : c.unnamed.closed = c.closed := rfl
  have honly : c.unnamed.fromPacketsOnly = c.fromPacketsOnly := rfl
  unfold Store.countPacket
  rw [hclosed, honly, attributeUdp_unnamed]
  cases p.sni <;> cases outgoing <;> split_ifs <;> rfl

/-! ## Alike for one tuple -/

namespace Store

/-- The row of the tuple without its names, if the history has one. -/
def bareRow (st : Store) (k : ConnKey) : Option Conn := (st.conns.lookup k).map Conn.unnamed

/-- The stores cannot be told apart at the tuple: its rows differ in their names
at most, and owners are found in the same way. The second history holds no other
row than the first. -/
structure Alike (k : ConnKey) (st st' : Store) : Prop where
  row : st'.bareRow k = st.bareRow k
  localIps : st'.localIps = st.localIps
  udpSockets : st'.udpSockets = st.udpSockets
  socketGeneration : st'.socketGeneration = st.socketGeneration
  socketsAt : st'.socketsAt = st.socketsAt
  fewer : ∀ other, other ∈ st'.conns → other ∈ st.conns

namespace Alike

variable {k : ConnKey} {st st' : Store}

theorem refl (k : ConnKey) (st : Store) : Alike k st st := ⟨rfl, rfl, rfl, rfl, rfl, fun _ h => h⟩

theorem mem_iff (h : Alike k st st') : k ∈ st'.conns ↔ k ∈ st.conns := by
  have hrow := congrArg Option.isSome h.row
  rw [bareRow, bareRow, Option.isSome_map, Option.isSome_map] at hrow
  rw [← AList.lookup_isSome, ← AList.lookup_isSome, hrow]

theorem size_le (h : Alike k st st') : st'.conns.size ≤ st.conns.size := by
  rw [KeyedMap.size_eq_length_keys, KeyedMap.size_eq_length_keys]
  refine (List.subperm_of_subset st'.conns.nodupKeys ?_).length_le
  exact fun other hother => h.fewer other hother

/-- The owner of a tuple is found in the same way. -/
theorem udpOwner (h : Alike k st st') (other : ConnKey) : st'.udpOwner other = st.udpOwner other :=
  udpOwner_congr h.localIps h.udpSockets other

/-- Stores with the same rows as alike stores, and with the same of the rest. -/
theorem of_rows (h : Alike k st st') {next next' : Store} (hconns : next.conns = st.conns)
    (hconns' : next'.conns = st'.conns) (hips : next'.localIps = next.localIps)
    (htable : next'.udpSockets = next.udpSockets)
    (hgeneration : next'.socketGeneration = next.socketGeneration)
    (hat : next'.socketsAt = next.socketsAt) : Alike k next next' where
  row := by
    rw [bareRow, bareRow, hconns, hconns']
    exact h.row
  localIps := hips
  udpSockets := htable
  socketGeneration := hgeneration
  socketsAt := hat
  fewer := by
    rw [hconns, hconns']
    exact h.fewer

end Alike

/-- A row is opened without throwing another one out. -/
theorem entry_of_room {order : HashOrder ConnKey} {st : Store} (h : st.conns.size < maxConns)
    (now : ℕ) (k : ConnKey) (fromPackets : Bool) (f : Conn → Conn) :
    st.entry order now k fromPackets f =
      { st with
        conns := st.conns.insert k
          (f ((st.conns.lookup k).getD (freshConn k fromPackets now))) } := by
  unfold entry
  rw [evict_of_size_lt order h, ite_self]

/-- Rewriting the row of one tuple in both stores, in a way that does not look at
names. -/
theorem Alike.entry {k : ConnKey} {st st' : Store} (h : Alike k st st')
    (hroom : st.conns.size < maxConns) {order : HashOrder ConnKey} {now : ℕ} {key : ConnKey}
    {fromPackets : Bool} {f : Conn → Conn} (hf : ∀ c, (f c.unnamed).unnamed = (f c).unnamed) :
    Alike k (st.entry order now key fromPackets f) (st'.entry order now key fromPackets f) := by
  rw [entry_of_room hroom, entry_of_room (h.size_le.trans_lt hroom)]
  refine ⟨?_, h.localIps, h.udpSockets, h.socketGeneration, h.socketsAt, ?_⟩
  · unfold bareRow
    dsimp only
    by_cases hkey : k = key
    · subst hkey
      rw [AList.lookup_insert, AList.lookup_insert, Option.map_some, Option.map_some,
        Option.some.injEq, ← hf, ← hf ((st.conns.lookup k).getD _)]
      have hbase (row : Option Conn) : (row.getD (freshConn k fromPackets now)).unnamed =
          (row.map Conn.unnamed).getD (freshConn k fromPackets now).unnamed :=
        (Option.getD_map ..).symm
      have hrow : (st'.conns.lookup k).map Conn.unnamed = (st.conns.lookup k).map Conn.unnamed :=
        h.row
      rw [hbase, hbase, hrow]
    · rw [AList.lookup_insert_ne hkey, AList.lookup_insert_ne hkey]
      exact h.row
  · intro other hother
    rw [AList.mem_insert] at hother ⊢
    exact hother.imp_right (h.fewer other)

/-! ## Polls -/

section Poll

variable {order : HashOrder ConnKey} {procs : ProcMap} {t : ℕ} {k : ConnKey}

/-- One snapshot row in both stores; the tuple counts as shown in both or in
neither. -/
theorem Alike.applySocket {acc acc' : Store × Finset ConnKey} (h : Alike k acc.1 acc'.1)
    (hshown : k ∈ acc'.2 ↔ k ∈ acc.2) (hroom : acc.1.conns.size < maxConns) (now : ℕ)
    (s : SockEntry) :
    Alike k (applySocket order procs t acc now s).1 (applySocket order procs t acc' now s).1 ∧
      (k ∈ (applySocket order procs t acc' now s).2 ↔
        k ∈ (applySocket order procs t acc now s).2) := by
  unfold Store.applySocket
  by_cases hport : s.rport = 0
  · rw [if_pos hport, if_pos hport]
    exact ⟨h, hshown⟩
  rw [if_neg hport, if_neg hport]
  have hsame : Alike k
      (acc.1.entry order now s.key false (showSocket procs t s (acc.1.udpOwner s.key)))
      (acc'.1.entry order now s.key false (showSocket procs t s (acc'.1.udpOwner s.key))) := by
    rw [h.udpOwner s.key]
    refine h.entry hroom fun c => ?_
    rw [showSocket_unnamed]
    rfl
  by_cases hkey : s.key = k
  · subst hkey
    by_cases hwait : s.state = .timeWait ∧ s.key ∉ acc.1.conns
    · rw [if_pos hwait, if_pos (by rwa [h.mem_iff])]
      exact ⟨h, hshown⟩
    · rw [if_neg hwait, if_neg (by rwa [h.mem_iff])]
      exact ⟨hsame, by simp⟩
  · -- a row of another tuple may be passed over in one of the stores only
    have hother (old : Finset ConnKey) : k ∈ insert s.key old ↔ k ∈ old := by
      simp [Ne.symm hkey]
    by_cases hwait : s.state = .timeWait ∧ s.key ∉ acc.1.conns
    · have hwait' : s.state = .timeWait ∧ s.key ∉ acc'.1.conns :=
        ⟨hwait.1, fun hmem => hwait.2 (h.fewer _ hmem)⟩
      rw [if_pos hwait, if_pos hwait']
      exact ⟨h, hshown⟩
    · rw [if_neg hwait]
      by_cases hwait' : s.state = .timeWait ∧ s.key ∉ acc'.1.conns
      · rw [if_pos hwait']
        refine ⟨?_, hshown.trans (hother _).symm⟩
        dsimp only
        rw [entry_of_room hroom]
        refine ⟨?_, h.localIps, h.udpSockets, h.socketGeneration, h.socketsAt, ?_⟩
        · unfold bareRow
          dsimp only
          rw [AList.lookup_insert_ne (Ne.symm hkey)]
          exact h.row
        · intro other hmem
          rw [AList.mem_insert]
          exact .inr (h.fewer other hmem)
      · rw [if_neg hwait']
        exact ⟨hsame, by rw [hother, hother]; exact hshown⟩

/-- A poll in both stores. -/
theorem Alike.applySockets {st st' : Store} (h : Alike k st st') {clock : Clock}
    {socks : List SockEntry} (hroom : st.conns.size + socks.length ≤ maxConns) :
    Alike k (st.applySockets order clock socks procs)
      (st'.applySockets order clock socks procs) := by
  have hstart : Alike k (st.startPoll socks procs (clock.read 0))
      (st'.startPoll socks procs (clock.read 0)) := by
    refine h.of_rows (startPoll_conns st socks) (startPoll_conns st' socks) ?_ ?_ ?_ ?_
    · simp only [startPoll, refreshUdpSockets, h.localIps]
    · simp only [startPoll, refreshUdpSockets, h.udpSockets, h.socketGeneration, h.socketsAt]
    · simp only [startPoll, refreshUdpSockets, h.udpSockets, h.socketGeneration, h.socketsAt]
    · rfl
  have hrows : ∀ done, done <+: socks →
      Alike k (midPoll order clock st socks procs done).1
        (midPoll order clock st' socks procs done).1 ∧
      (k ∈ (midPoll order clock st' socks procs done).2 ↔
        k ∈ (midPoll order clock st socks procs done).2) := by
    intro done
    induction done using List.reverseRecOn with
    | nil =>
        intro _
        exact ⟨hstart, Iff.rfl⟩
    | append_singleton done s ih =>
        intro hfront
        obtain ⟨hbefore, hshown⟩ := ih ((List.prefix_append done [s]).trans hfront)
        have hlength := hfront.length_le
        rw [List.length_append, List.length_singleton] at hlength
        have hsize := midPoll_size_le order clock st socks procs done
        unfold midPoll at hbefore hshown hsize ⊢
        rw [applyRows_concat, applyRows_concat]
        exact hbefore.applySocket hshown (by omega) _ s
  obtain ⟨hmid, hshown⟩ := hrows socks (List.prefix_refl socks)
  refine ⟨?_, hmid.localIps, hmid.udpSockets, hmid.socketGeneration, hmid.socketsAt, ?_⟩
  · have hrow := hmid.row
    unfold bareRow at hrow
    unfold Store.applySockets bareRow
    simp only [KeyedMap.lookup_mapValues, Option.map_map, hmid.udpOwner, hshown]
    have hsettle : (Conn.unnamed ∘ fun c => settle procs (clock.read 0)
          (decide (k ∈ (midPoll order clock st socks procs socks).2)) k
          ((midPoll order clock st socks procs socks).1.udpOwner k) c) =
        (fun c => settle procs (clock.read 0)
          (decide (k ∈ (midPoll order clock st socks procs socks).2)) k
          ((midPoll order clock st socks procs socks).1.udpOwner k) c) ∘ Conn.unnamed := by
      funext c
      exact (settle_unnamed ..).symm
    rw [hsettle, ← Option.map_map, ← Option.map_map, hrow]
  · intro other hmem
    unfold Store.applySockets at hmem ⊢
    rw [← AList.lookup_isSome] at hmem ⊢
    simp only [KeyedMap.lookup_mapValues, Option.isSome_map] at hmem ⊢
    rw [AList.lookup_isSome] at hmem ⊢
    exact hmid.fewer other hmem

end Poll

/-! ## Runs -/

/-- The operation has a say in the row of the tuple: a packet of the tuple, a
poll, or the end of the history. -/
def concerns (k : ConnKey) (st : Store) (e : Event) : Bool :=
  match e.op with
  | .packet p => st.packetKey p = k
  | .poll .. => true
  | .clear => true
  | _ => false

/-- The history has room for every row that the operation can open. -/
def HasRoom (st : Store) (e : Event) : Prop := st.conns.size + opened e.op ≤ maxConns

section Step

variable {k : ConnKey} {st st' : Store} {e : Event}

theorem Alike.packetKey (h : Alike k st st') (p : Packet) : st'.packetKey p = st.packetKey p := by
  unfold Store.packetKey Store.outbound
  rw [h.localIps]

/-- A packet of the tuple, in both stores. -/
theorem Alike.packet (h : Alike k st st') {conns : HashOrder ConnKey} {ips : HashOrder IpAddr}
    {clock : Clock} {p : Packet} (hkey : st.packetKey p = k) (hroom : st.conns.size < maxConns) :
    Alike k (st.applyPacket conns ips clock p).2 (st'.applyPacket conns ips clock p).2 := by
  have hheard : Alike k (st.hear ips clock p) (st'.hear ips clock p) :=
    h.of_rows rfl rfl h.localIps h.udpSockets h.socketGeneration h.socketsAt
  have houtbound : (st'.hear ips clock p).outbound p = (st.hear ips clock p).outbound p := by
    unfold Store.outbound
    rw [hheard.localIps]
  have hpacketKey : (st.hear ips clock p).packetKey p = k := hkey
  unfold Store.applyPacket
  dsimp only
  rw [hheard.packetKey, hheard.udpOwner, houtbound, hpacketKey, decide_not, decide_not,
    decide_eq_decide.mpr hheard.mem_iff]
  exact hheard.entry hroom (countPacket_unnamed p _ _ _)

/-- A packet of another tuple, in the first store only. -/
theorem Alike.foreignPacket (h : Alike k st st') {conns : HashOrder ConnKey}
    {ips : HashOrder IpAddr} {clock : Clock} {p : Packet} (hkey : st.packetKey p ≠ k)
    (hroom : st.conns.size < maxConns) : Alike k (st.applyPacket conns ips clock p).2 st' := by
  obtain ⟨rows, hframe⟩ := applyPacket_frame conns ips clock st p
  have hsame : (st.applyPacket conns ips clock p).2.conns.lookup k = st.conns.lookup k :=
    applyPacket_lookup_of_ne (Ne.symm hkey) (not_displaces_of_size_lt conns hroom)
  refine ⟨?_, ?_, ?_, ?_, ?_, ?_⟩
  · rw [bareRow, bareRow, hsame]
    exact h.row
  · rw [hframe]
    exact h.localIps
  · rw [hframe]
    exact h.udpSockets
  · rw [hframe]
    exact h.socketGeneration
  · rw [hframe]
    exact h.socketsAt
  · intro other hmem
    have hheard : (st.hear ips clock p).conns.size < maxConns := hroom
    unfold Store.applyPacket
    dsimp only
    rw [entry_of_room hheard, AList.mem_insert]
    exact .inr (h.fewer other hmem)

/-- Naming the rows of the first store only. -/
theorem Alike.named (h : Alike k st st') {f : ConnKey → Conn → Conn}
    (hf : ∀ k c, NamesOnly c (f k c)) :
    Alike k { st with conns := st.conns.mapValues f } st' := by
  refine ⟨?_, h.localIps, h.udpSockets, h.socketGeneration, h.socketsAt, ?_⟩
  · rw [h.row]
    unfold bareRow
    rw [KeyedMap.lookup_mapValues, Option.map_map]
    congr 1
    funext c
    exact (hf k c).unnamed.symm
  · intro other hmem
    rw [← AList.lookup_isSome, KeyedMap.lookup_mapValues, Option.isSome_map, AList.lookup_isSome]
    exact h.fewer other hmem

/-- An operation that concerns the tuple keeps the stores alike. -/
theorem Alike.step (h : Alike k st st') (hroom : HasRoom st e)
    (hconcerns : concerns k st e = true) : Alike k (st.step e) (st'.step e) := by
  unfold HasRoom at hroom
  unfold concerns at hconcerns
  unfold Store.step
  cases hop : e.op with
  | packet p =>
      rw [hop] at hconcerns hroom
      exact h.packet (of_decide_eq_true hconcerns) (Nat.lt_of_succ_le hroom)
  | poll ips socks procs =>
      rw [hop] at hroom
      have hlocal : Alike k (st.setLocalIps ips) (st'.setLocalIps ips) := by
        cases ips with
        | none => exact h
        | some ips => exact h.of_rows rfl rfl rfl h.udpSockets h.socketGeneration h.socketsAt
      have hrows : (st.setLocalIps ips).conns = st.conns := by cases ips <;> rfl
      apply hlocal.applySockets
      rw [hrows]
      exact hroom
  | clear =>
      exact ⟨rfl, h.localIps, h.udpSockets, h.socketGeneration, h.socketsAt, fun _ hmem => hmem⟩
  | _ => simp [hop] at hconcerns

/-- An operation that does not concern the tuple can be left out. -/
theorem Alike.skip (h : Alike k st st') (hroom : HasRoom st e)
    (hconcerns : concerns k st e = false) : Alike k (st.step e) st' := by
  unfold HasRoom at hroom
  unfold concerns at hconcerns
  unfold Store.step
  cases hop : e.op with
  | packet p =>
      rw [hop] at hconcerns hroom
      exact h.foreignPacket (of_decide_eq_false hconcerns) (Nat.lt_of_succ_le hroom)
  | poll ips socks procs => simp [hop] at hconcerns
  | clear => simp [hop] at hconcerns
  | learn ip name ttl =>
      exact h.of_rows rfl rfl h.localIps h.udpSockets h.socketGeneration h.socketsAt
  | enrich lang => exact h.named fun k c => enrichName_namesOnly lang st.dns _ k c
  | whois known => exact h.named (applyWhoisRow_namesOnly known)
  | resolved ip w => exact h.named (whoisRow_namesOnly ip w)

end Step

/-- **Connections do not disturb each other.** As long as the history has room,
the row of a tuple at the end of a run is, beyond its names, the row at the end of
the run that keeps only the packets of that tuple, the polls and the clears: the
traffic of all other connections, the names learned and the lookups have no say in
its owner, its disputes, its counters and its times. -/
theorem row_independent (k : ConnKey) (st : Store) {events : List Event}
    (hroom : Along step HasRoom st events) :
    (after step st events).bareRow k =
      (after step st (mattering step (concerns k) st events)).bareRow k :=
  (alike_mattering (fun _ _ _ h hroom hconcerns => h.step hroom hconcerns)
    (fun _ _ _ h hroom hconcerns => h.skip hroom hconcerns) (Alike.refl k st) hroom).row.symm

/-- A packet of the host to one of the hosts of a network. -/
def packetTo (host : UInt8) (t : ℕ) : Event where
  op := .packet
    { proto := .udp
      src := .ofOctets 192 0 2 1
      sport := 5000
      dst := .ofOctets 198 51 100 host
      dport := 443
      bytes := 100
      sni := none
      dnsAddrs := [("example.org", .ofOctets 198 51 100 host, 60)] }
  clock := .still t

/-- The tuple of such packets. -/
def tupleTo (host : UInt8) : ConnKey where
  proto := .udp
  «local» := .ofOctets 192 0 2 1
  lport := 5000
  remote := .ofOctets 198 51 100 host
  rport := 443

/-- Two connections whose packets alternate, each with its own row. -/
theorem row_independent_alternating :
    (after step (.empty 0) [packetTo 1 10, packetTo 2 20, packetTo 1 30]).bareRow (tupleTo 1) =
      (after step (.empty 0) [packetTo 1 10, packetTo 1 30]).bareRow (tupleTo 1) := by
  have hroom : Along step HasRoom (.empty 0) [packetTo 1 10, packetTo 2 20, packetTo 1 30] := by
    refine ⟨?_, ?_, ?_, trivial⟩ <;> unfold HasRoom <;> decide
  have hown : mattering step (concerns (tupleTo 1)) (.empty 0)
      [packetTo 1 10, packetTo 2 20, packetTo 1 30] = [packetTo 1 10, packetTo 1 30] := by
    have hfirst : concerns (tupleTo 1) (.empty 0) (packetTo 1 10) = true := by decide
    have hsecond : concerns (tupleTo 1) ((Store.empty 0).step (packetTo 1 10)) (packetTo 2 20) =
        false := by decide
    have hthird : concerns (tupleTo 1)
        (((Store.empty 0).step (packetTo 1 10)).step (packetTo 2 20)) (packetTo 1 30) = true := by
      decide
    simp only [mattering, hfirst, hsecond, hthird]
    rfl
  have hsame := row_independent (tupleTo 1) (.empty 0) hroom
  rwa [hown] at hsame

end Store

end SocketTrail.State
