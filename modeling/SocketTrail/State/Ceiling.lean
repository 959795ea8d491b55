/-
# The ceiling of the history

Making room runs before a row is opened and removes closed rows first, so what
it leaves depends on how many rows are open. `openRows` counts them. The history
never holds more than one row above `maxConns`, and it holds that one row
exactly after a row was opened while `maxConns` rows were open
(`Store.Overflows`).
-/

import SocketTrail.State.Eviction

namespace SocketTrail.State

open SocketTrail.Foundation SocketTrail.Net

namespace Store

/-- The number of rows that are not closed. -/
def openRows (st : Store) : ℕ := KeyedMap.count (fun c => !c.closed) st.conns

/-- The snapshot row opens a row of the history. -/
def Opens (st : Store) (s : SockEntry) : Prop := Admits st s ∧ s.key ∉ st.conns

/-- The last row that the snapshot rows `done` open is opened while as many rows
are open as the history may hold. -/
def LastOpenedFull (order : HashOrder ConnKey) (clock : Clock) (st : Store)
    (socks : List SockEntry) (procs : ProcMap) (done : List SockEntry) : Prop :=
  ∃ before s, before ++ [s] <+: done ∧
    Opens (midPoll order clock st socks procs before).1 s ∧
    (midPoll order clock st socks procs before).1.openRows = maxConns ∧
    ∀ later s', before ++ [s] <+: later → later ++ [s'] <+: done →
      ¬ Opens (midPoll order clock st socks procs later).1 s'

/-- The operation opens its last row while as many rows are open as the history
may hold. -/
def Overflows (st : Store) (e : Event) : Prop :=
  match e.op with
  | .packet p => st.packetKey p ∉ st.conns ∧ st.openRows = maxConns
  | .poll ips socks procs =>
      LastOpenedFull e.connOrder e.clock (st.setLocalIps ips) socks (procMap procs) socks
  | _ => False

/-! ## What eviction leaves -/

section Evict

variable (order : HashOrder ConnKey)

/-- The keys sorted by age are the keys of the rows asked for. -/
theorem oldestKeys_perm (conns : KeyedMap ConnKey Conn) (p : Conn → Bool) :
    (oldestKeys order conns p).Perm (conns.keys.filter fun k => (conns.lookup k).any p) := by
  unfold oldestKeys
  dsimp only
  apply ((List.mergeSort_perm _ _).map Prod.snd).trans
  rw [List.map_filterMap]
  have hkeys : ∀ keys : List ConnKey,
      (keys.filterMap fun k => ((conns.lookup k).bind fun c =>
        if p c then some (c.lastSeen, k) else none).map Prod.snd) =
      keys.filter fun k => (conns.lookup k).any p := by
    intro keys
    rw [← List.filterMap_eq_filter]
    apply List.filterMap_congr
    intro k _
    cases hrow : conns.lookup k with
    | none => simp [Option.guard, hrow]
    | some c => by_cases hp : p c <;> simp [Option.guard, hrow, hp]
  rw [hkeys]
  exact (order.perm conns.keys).filter _

theorem length_oldestKeys (conns : KeyedMap ConnKey Conn) (p : Conn → Bool) :
    (oldestKeys order conns p).length = KeyedMap.count p conns := by
  rw [(oldestKeys_perm order conns p).length_eq, KeyedMap.length_filter_keys]

/-- Removing the `n` oldest rows of a kind removes that many, or all there are. -/
theorem size_eraseAll_oldestKeys (conns : KeyedMap ConnKey Conn) (p : Conn → Bool) (n : ℕ) :
    KeyedMap.size (KeyedMap.eraseAll ((oldestKeys order conns p).take n) conns) +
      min n (KeyedMap.count p conns) = conns.size := by
  have hperm := oldestKeys_perm order conns p
  have hnodup : ((oldestKeys order conns p).take n).Nodup :=
    (hperm.nodup_iff.mpr (conns.keys_nodup.filter _)).sublist (List.take_sublist _ _)
  have hmem : ∀ k ∈ (oldestKeys order conns p).take n, k ∈ conns := by
    intro k hk
    have hkeys := hperm.mem_iff.mp (List.mem_of_mem_take hk)
    exact AList.mem_keys.mpr (List.mem_filter.mp hkeys).1
  have hsize := KeyedMap.size_eraseAll_of_nodup hnodup hmem
  rw [List.length_take, length_oldestKeys] at hsize
  exact hsize

theorem count_true (conns : KeyedMap ConnKey Conn) :
    KeyedMap.count (fun _ => true) conns = conns.size := by
  rw [KeyedMap.count, KeyedMap.size, List.countP_true]

theorem openRows_add_closed (st : Store) :
    st.openRows + KeyedMap.count Conn.closed st.conns = st.conns.size :=
  KeyedMap.count_not_add_count Conn.closed st.conns

/-- Eviction leaves room for one more row, unless exactly as many rows are open
as the history may hold. -/
theorem evict_size {st : Store} (h : st.conns.size ≤ maxConns + 1) :
    (st.evict order).conns.size ≤ maxConns ∧
      ((st.evict order).conns.size = maxConns ↔ st.openRows = maxConns) := by
  have hopen := openRows_add_closed st
  have hclosed := size_eraseAll_oldestKeys order st.conns Conn.closed
    (st.conns.size - maxConns * 9 / 10)
  have hall := size_eraseAll_oldestKeys order
    (KeyedMap.eraseAll ((oldestKeys order st.conns Conn.closed).take
      (st.conns.size - maxConns * 9 / 10)) st.conns) (fun _ => true)
    (KeyedMap.size (KeyedMap.eraseAll ((oldestKeys order st.conns Conn.closed).take
      (st.conns.size - maxConns * 9 / 10)) st.conns) - maxConns * 9 / 10)
  rw [count_true] at hall
  have hmax : maxConns = 20000 := rfl
  simp only [evict, apply_ite Store.conns, apply_ite KeyedMap.size]
  generalize maxConns = ceiling at *
  split
  · rename_i hroom
    refine ⟨hroom.le, ?_⟩
    omega
  · split <;> omega

/-- Without closed rows, a history within its ceiling gives nothing away. -/
theorem evict_conns_of_allOpen {st : Store} (hsize : st.conns.size ≤ maxConns)
    (hopen : st.openRows = st.conns.size) : (st.evict order).conns = st.conns := by
  have hclosed : KeyedMap.count Conn.closed st.conns = 0 := by
    have hsum := openRows_add_closed st
    omega
  have hnone : oldestKeys order st.conns Conn.closed = [] := by
    rw [← List.length_eq_zero_iff, length_oldestKeys, hclosed]
  simp only [evict, apply_ite Store.conns, hnone, List.take_nil]
  split
  · rfl
  · exact if_neg hsize.not_gt

end Evict

/-! ## One row -/

section Row

variable {order : HashOrder ConnKey} {now : ℕ} {k : ConnKey} {fromPackets : Bool}
  {f : Conn → Conn} {st : Store}

/-- Rewriting a row that is there opens none. -/
theorem entry_size_of_mem (h : k ∈ st.conns) :
    (st.entry order now k fromPackets f).conns.size = st.conns.size := by
  unfold entry
  dsimp only
  rw [if_pos h]
  exact KeyedMap.size_insert_of_mem _ h

/-- A row that is opened comes on top of what eviction leaves. -/
theorem entry_conns_of_notMem (h : k ∉ st.conns) :
    (st.entry order now k fromPackets f).conns =
      (st.evict order).conns.insert k (f (freshConn k fromPackets now)) := by
  have hnone : (st.evict order).conns.lookup k = none := by
    cases hrow : (st.evict order).conns.lookup k with
    | none => rfl
    | some c => exact absurd (AList.lookup_isSome.mp (by rw [lookup_of_lookup_evict hrow]; rfl)) h
  unfold entry
  dsimp only
  rw [if_neg h, hnone, Option.getD_none]

theorem entry_size_of_notMem (h : k ∉ st.conns) :
    (st.entry order now k fromPackets f).conns.size = (st.evict order).conns.size + 1 := by
  rw [entry_conns_of_notMem h]
  apply KeyedMap.size_insert_of_notMem
  intro hmem
  obtain ⟨c, hrow⟩ := KeyedMap.mem_iff_exists_lookup.mp hmem
  exact h (KeyedMap.mem_iff_exists_lookup.mpr ⟨c, lookup_of_lookup_evict hrow⟩)

/-- Opening a row takes the history to its ceiling at most, and to one row above
it when as many rows are open as it may hold. -/
theorem entry_ceiling (hsize : st.conns.size ≤ maxConns + 1) (h : k ∉ st.conns) :
    (st.entry order now k fromPackets f).conns.size ≤ maxConns + 1 ∧
      (maxConns < (st.entry order now k fromPackets f).conns.size ↔ st.openRows = maxConns) := by
  obtain ⟨hle, hiff⟩ := evict_size order hsize
  rw [entry_size_of_notMem h]
  refine ⟨Nat.succ_le_succ hle, ?_⟩
  rw [← hiff]
  omega

end Row

/-! ## One operation -/

/-- A packet of a tuple without history opens its row. -/
theorem applyPacket_conns_of_notMem (conns : HashOrder ConnKey) (ips : HashOrder IpAddr)
    (clock : Clock) {st : Store} {p : Packet} (h : st.packetKey p ∉ st.conns) :
    (st.applyPacket conns ips clock p).2.conns =
      (st.evict conns).conns.insert (st.packetKey p)
        (countPacket p (st.outbound p) (st.udpOwner (st.packetKey p))
          (clock.read (p.dnsAddrs.length + 1))
          (freshConn (st.packetKey p) true (clock.read p.dnsAddrs.length))) := by
  have hevict : ((st.hear ips clock p).evict conns).conns = (st.evict conns).conns :=
    evict_conns_congr conns rfl
  have habsent : st.packetKey p ∉ (st.hear ips clock p).conns := h
  have hentry := @entry_conns_of_notMem conns (clock.read p.dnsAddrs.length) _ true
    (countPacket p (st.outbound p) (st.udpOwner (st.packetKey p))
      (clock.read (p.dnsAddrs.length + 1))) _ habsent
  rw [hevict] at hentry
  rw [← hentry, ← decide_eq_true h]
  rfl

/-- A packet takes the history past its ceiling when it opens a row too many. -/
theorem applyPacket_ceiling (conns : HashOrder ConnKey) (ips : HashOrder IpAddr) (clock : Clock)
    {st : Store} (p : Packet) (hsize : st.conns.size ≤ maxConns) :
    (st.applyPacket conns ips clock p).2.conns.size ≤ maxConns ↔
      ¬ (st.packetKey p ∉ st.conns ∧ st.openRows = maxConns) := by
  unfold applyPacket
  dsimp only
  have hkey : (st.hear ips clock p).packetKey p = st.packetKey p := rfl
  have hheard : (st.hear ips clock p).conns = st.conns := rfl
  have hopen : (st.hear ips clock p).openRows = st.openRows := rfl
  rw [hkey]
  by_cases hmem : st.packetKey p ∈ st.conns
  · rw [entry_size_of_mem (hheard ▸ hmem), hheard]
    exact iff_of_true hsize fun hopens => hopens.1 hmem
  · have hstart : (st.hear ips clock p).conns.size ≤ maxConns + 1 := Nat.le_succ_of_le hsize
    rw [← not_lt, (entry_ceiling hstart (hheard ▸ hmem)).2, hopen]
    exact not_congr (and_iff_right hmem).symm

section Poll

variable {order : HashOrder ConnKey} {clock : Clock} {st : Store} {socks : List SockEntry}
  {procs : ProcMap}

/-- A snapshot row opens a row, or leaves the number of rows as it is. -/
theorem applySocket_size (t now : ℕ) (acc : Store × Finset ConnKey) (s : SockEntry) :
    (Opens acc.1 s ∧ (applySocket order procs t acc now s).1 =
        acc.1.entry order now s.key false (showSocket procs t s (acc.1.udpOwner s.key))) ∨
      (¬ Opens acc.1 s ∧
        (applySocket order procs t acc now s).1.conns.size = acc.1.conns.size) := by
  unfold applySocket
  split
  · rename_i hport
    exact .inr ⟨fun hopens => hopens.1.1 hport, rfl⟩
  · rename_i hport
    split
    · rename_i hwait
      exact .inr ⟨fun hopens => hopens.1.2 hwait, rfl⟩
    · rename_i hwait
      by_cases hmem : s.key ∈ acc.1.conns
      · exact .inr ⟨fun hopens => hopens.2 hmem, entry_size_of_mem hmem⟩
      · exact .inl ⟨⟨⟨hport, hwait⟩, hmem⟩, rfl⟩

/-- One more snapshot row that opens a row decides anew. -/
theorem lastOpenedFull_concat_of_opens {done : List SockEntry} {s : SockEntry}
    (h : Opens (midPoll order clock st socks procs done).1 s) :
    LastOpenedFull order clock st socks procs (done ++ [s]) ↔
      (midPoll order clock st socks procs done).1.openRows = maxConns := by
  constructor
  · rintro ⟨before, s₀, hfront, -, hfull, hlast⟩
    rcases List.prefix_concat_iff.mp hfront with heq | hbefore
    · obtain ⟨rfl, -⟩ := List.append_inj' heq rfl
      exact hfull
    · exact absurd h (hlast done s hbefore (List.prefix_refl _))
  · intro hfull
    refine ⟨done, s, List.prefix_refl _, h, hfull, ?_⟩
    intro later s' hlater hfront
    have hlong := hlater.length_le
    have hshort := hfront.length_le
    simp only [List.length_append, List.length_singleton] at hlong hshort
    omega

/-- One more snapshot row that opens none changes nothing. -/
theorem lastOpenedFull_concat_of_not_opens {done : List SockEntry} {s : SockEntry}
    (h : ¬ Opens (midPoll order clock st socks procs done).1 s) :
    LastOpenedFull order clock st socks procs (done ++ [s]) ↔
      LastOpenedFull order clock st socks procs done := by
  constructor
  · rintro ⟨before, s₀, hfront, hopens, hfull, hlast⟩
    rcases List.prefix_concat_iff.mp hfront with heq | hbefore
    · obtain ⟨rfl, hs⟩ := List.append_inj' heq rfl
      obtain rfl : s₀ = s := by simpa using hs
      exact absurd hopens h
    · refine ⟨before, s₀, hbefore, hopens, hfull, ?_⟩
      intro later s' hlater hlater'
      exact hlast later s' hlater (hlater'.trans (List.prefix_append _ _))
  · rintro ⟨before, s₀, hbefore, hopens, hfull, hlast⟩
    refine ⟨before, s₀, hbefore.trans (List.prefix_append _ _), hopens, hfull, ?_⟩
    intro later s' hlater hfront
    rcases List.prefix_concat_iff.mp hfront with heq | hlater'
    · obtain ⟨rfl, hs⟩ := List.append_inj' heq rfl
      obtain rfl : s' = s := by simpa using hs
      exact h
    · exact hlast later s' hlater hlater'

/-- The snapshot rows take the history to one row above its ceiling at most, and
there exactly when the last row they open is opened in a full history. -/
theorem midPoll_ceiling (hsize : st.conns.size ≤ maxConns) :
    (midPoll order clock st socks procs socks).1.conns.size ≤ maxConns + 1 ∧
      (maxConns < (midPoll order clock st socks procs socks).1.conns.size ↔
        LastOpenedFull order clock st socks procs socks) := by
  apply midPoll_induction (P := fun done acc => acc.1.conns.size ≤ maxConns + 1 ∧
    (maxConns < acc.1.conns.size ↔ LastOpenedFull order clock st socks procs done))
  · refine ⟨Nat.le_succ_of_le hsize, iff_of_false hsize.not_gt ?_⟩
    rintro ⟨before, s, hfront, -⟩
    simp at hfront
  · rintro done s - ⟨hbound, hiff⟩
    have hrow := @applySocket_size order procs (clock.read 0)
      (clock.read (1 + done.length)) (midPoll order clock st socks procs done) s
    rcases hrow with ⟨hopens, heq⟩ | ⟨hnone, heq⟩
    · rw [lastOpenedFull_concat_of_opens hopens]
      obtain ⟨hle, hpast⟩ := entry_ceiling hbound hopens.2
      rw [← heq] at hle hpast
      exact ⟨hle, hpast⟩
    · rw [lastOpenedFull_concat_of_not_opens hnone]
      rw [← heq] at hbound hiff
      exact ⟨hbound, hiff⟩

/-- A poll takes the history past its ceiling when the last row it opens is one
too many; closing rows at its end removes none. -/
theorem applySockets_ceiling (hsize : st.conns.size ≤ maxConns) :
    (st.applySockets order clock socks procs).conns.size ≤ maxConns ↔
      ¬ LastOpenedFull order clock st socks procs socks := by
  have hkeys : (st.applySockets order clock socks procs).conns.size =
      (midPoll order clock st socks procs socks).1.conns.size := by
    unfold applySockets
    rw [KeyedMap.size_eq_length_keys, KeyedMap.keys_mapValues, ← KeyedMap.size_eq_length_keys]
  rw [hkeys, ← (midPoll_ceiling hsize).2, not_lt]

end Poll

/-- One operation on a history within its ceiling: it stays within the ceiling
unless the operation opens a row too many. -/
theorem step_ceiling {st : Store} (e : Event) (hsize : st.conns.size ≤ maxConns) :
    (st.step e).conns.size ≤ maxConns ↔ ¬ st.Overflows e := by
  unfold step Overflows
  cases e.op with
  | packet p => exact applyPacket_ceiling _ _ _ p hsize
  | poll ips socks procs =>
      have hips : (st.setLocalIps ips).conns = st.conns := by cases ips <;> rfl
      exact applySockets_ceiling (hips ▸ hsize)
  | clear => exact iff_of_true (Nat.zero_le _) not_false
  | learn ip name ttl => exact iff_of_true hsize not_false
  | enrich lang =>
      refine iff_of_true ?_ not_false
      change KeyedMap.size (KeyedMap.mapValues _ st.conns) ≤ maxConns
      rwa [KeyedMap.size_mapValues]
  | whois known =>
      refine iff_of_true ?_ not_false
      change KeyedMap.size (KeyedMap.mapValues _ st.conns) ≤ maxConns
      rwa [KeyedMap.size_mapValues]
  | resolved ip w =>
      refine iff_of_true ?_ not_false
      change KeyedMap.size (KeyedMap.mapValues _ st.conns) ≤ maxConns
      rwa [KeyedMap.size_mapValues]

/-! ## Whole runs -/

/-- The history is within its ceiling in every state of the run. -/
def WithinCeiling (hist : History Store Event) (st : Store) : Prop :=
  (∀ entry ∈ hist, entry.1.conns.size ≤ maxConns) ∧ st.conns.size ≤ maxConns

/-- The history is within its ceiling in every state of a run if and only if no
operation of the run opens its last row while `maxConns` rows are open. -/
theorem withinCeiling_iff {now : ℕ} {hist : History Store Event} {st : Store}
    (run : Run system (Store.empty now) hist st) :
    WithinCeiling hist st ↔ ∀ entry ∈ hist, ¬ entry.1.Overflows entry.2 := by
  apply Run.throughout_iff (P := fun st => st.conns.size ≤ maxConns)
    (G := fun st e => ¬ st.Overflows e) _ _ run
  · exact Nat.zero_le _
  · intro hist s e s' _ hbefore fires
    obtain rfl : s.step e = s' := Option.some.inj fires
    exact step_ceiling e hbefore

/-! ## A history that is one row too long -/

/-- A packet of the host from its port `n`. -/
def portPacket (n : ℕ) : Packet where
  proto := .tcp
  src := .ofOctets 10 0 0 1
  sport := UInt16.ofNat n
  dst := .ofOctets 1 1 1 1
  dport := 443
  bytes := 60
  sni := none
  dnsAddrs := []

/-- The packet at the instant zero. -/
def portEvent (n : ℕ) : Event where
  op := .packet (portPacket n)
  clock := .still 0

/-- `n` rows, one for each of the first ports of the host, of which some are
closed. -/
structure Filled (closed n : ℕ) (st : Store) : Prop where
  localIps : st.localIps = ∅
  size : st.conns.size = n
  rest : st.openRows + closed = n
  ports : ∀ k ∈ st.conns, k.lport.toNat < n

theorem Filled.packetKey {closed n : ℕ} {st : Store} (h : Filled closed n st) (m : ℕ) :
    st.packetKey (portPacket m) = (portPacket m).forward := by
  simp [Store.packetKey, outbound, h.localIps]

/-- Nothing of the first rows is evicted: there is room, or none of them is closed. -/
theorem Filled.evict_conns {closed n : ℕ} {st : Store} (h : Filled closed n st)
    (hn : n < maxConns ∨ closed = 0 ∧ n ≤ maxConns) :
    (st.evict .stored).conns = st.conns := by
  rcases hn with hroom | ⟨rfl, hle⟩
  · rw [evict, if_pos (h.size ▸ hroom)]
  · exact evict_conns_of_allOpen .stored (h.size ▸ hle) (h.rest.trans h.size.symm)

/-- The next port opens one more row, also in a full history. -/
theorem Filled.next {closed n : ℕ} {st : Store} (h : Filled closed n st)
    (hn : n < maxConns ∨ closed = 0 ∧ n ≤ maxConns) :
    Filled closed (n + 1) (st.step (portEvent n)) := by
  have hport : (UInt16.ofNat n).toNat = n := by
    have hle : n ≤ maxConns := hn.elim Nat.le_of_lt And.right
    rw [UInt16.toNat_ofNat']
    exact Nat.mod_eq_of_lt (hle.trans_lt (by decide))
  have habsent : (portPacket n).forward ∉ st.conns := by
    intro hmem
    have hlt := h.ports _ hmem
    change (UInt16.ofNat n).toNat < n at hlt
    omega
  have hkept : (st.evict .stored).conns = st.conns := h.evict_conns hn
  have hconns : ∃ c, c.closed = false ∧
      (st.step (portEvent n)).conns = st.conns.insert (portPacket n).forward c := by
    refine ⟨countPacket (portPacket n) (st.outbound (portPacket n))
      (st.udpOwner (portPacket n).forward) 0 (freshConn (portPacket n).forward true 0), ?_, ?_⟩
    · cases st.outbound (portPacket n) <;> rfl
    · have hinsert := applyPacket_conns_of_notMem .stored .stored (.still 0)
        (h.packetKey n ▸ habsent)
      rw [h.packetKey, hkept] at hinsert
      exact hinsert
  obtain ⟨c, hopen, hinsert⟩ := hconns
  refine ⟨?_, ?_, ?_, ?_⟩
  · obtain ⟨rows, heq⟩ := applyPacket_frame .stored .stored (.still 0) st (portPacket n)
    change (st.applyPacket .stored .stored (.still 0) (portPacket n)).2.localIps = ∅
    rw [heq]
    exact h.localIps
  · rw [hinsert, KeyedMap.size_insert_of_notMem _ habsent, h.size]
  · unfold openRows
    rw [hinsert, KeyedMap.count_insert_of_notMem _ _ habsent, hopen]
    have hrest := h.rest
    unfold openRows at hrest
    rw [Bool.not_false, if_pos rfl]
    omega
  · intro k hk
    rw [hinsert, AList.mem_insert] at hk
    rcases hk with rfl | hold
    · change (UInt16.ofNat n).toNat < n + 1
      omega
    · exact Nat.lt_succ_of_lt (h.ports k hold)

/-- From a history of rows for the first ports, one packet from each of the next
ports fills the history with `n` rows. -/
theorem exists_filled {closed m n : ℕ} {st₀ : Store} {hist₀ : History Store Event}
    (run₀ : Run system (Store.empty 0) hist₀ st₀) (h : Filled closed m st₀) (hle : m ≤ n)
    (hn : n ≤ maxConns ∨ closed = 0 ∧ n ≤ maxConns + 1) :
    ∃ hist st, Run system (Store.empty 0) hist st ∧ Filled closed n st ∧
      ∀ entry ∈ hist, entry ∈ hist₀ ∨
        (∃ p, entry.2.op = .packet p) ∧ entry.1.openRows + closed < n := by
  induction n, hle using Nat.le_induction with
  | base => exact ⟨hist₀, st₀, run₀, h, fun entry hentry => .inl hentry⟩
  | succ n _ ih =>
      obtain ⟨hist, st, run, hfilled, hpackets⟩ := ih (by omega)
      refine ⟨(st, portEvent n) :: hist, _, run.next rfl, hfilled.next (by omega), ?_⟩
      rw [List.forall_mem_cons]
      refine ⟨.inr ⟨⟨portPacket n, rfl⟩, Nat.lt_succ_of_le hfilled.rest.le⟩, ?_⟩
      intro entry hentry
      exact (hpackets entry hentry).imp_right (And.imp_right Nat.lt_succ_of_lt)

/-- A poll without sockets that closes rows of packets only. -/
def idlePoll : Event where
  op := .poll none [] []
  clock := .still 1000000

/-- The row of the first port, closed by a poll after its idle time. -/
def firstClosed : History Store Event × Store :=
  system.play [] (Store.empty 0) [portEvent 0, idlePoll]

theorem filled_firstClosed : Filled 1 1 firstClosed.2 where
  localIps := rfl
  size := by decide
  rest := by decide
  ports := by
    have hkeys : firstClosed.2.conns.keys = [(portPacket 0).forward] := by decide
    intro k hk
    rw [AList.mem_keys, hkeys, List.mem_singleton] at hk
    rw [hk]
    decide

/-- A history of 20000 rows of which one is closed: the packet of one more tuple
stays within the ceiling. -/
theorem withinCeiling_iff_sample :
    ∃ hist st, Run system (Store.empty 0) hist st ∧ st.conns.size = maxConns ∧
      st.openRows + 1 = maxConns ∧ st.packetKey (portPacket maxConns) ∉ st.conns ∧
      WithinCeiling ((st, portEvent maxConns) :: hist) (st.step (portEvent maxConns)) := by
  obtain ⟨hist, st, run, hfilled, hpast⟩ :=
    exists_filled (Run.play .start _) filled_firstClosed (by decide) (.inl (Nat.le_refl maxConns))
  have hrest := hfilled.rest
  refine ⟨hist, st, run, hfilled.size, hrest, ?_, ?_⟩
  · intro hmem
    rw [hfilled.packetKey] at hmem
    exact absurd (hfilled.ports _ hmem) (by decide)
  apply (withinCeiling_iff (run.next rfl)).mpr
  rw [List.forall_mem_cons]
  refine ⟨?_, fun entry hentry => ?_⟩
  · rintro ⟨-, hfull⟩
    dsimp only at hfull
    omega
  obtain hfirst | ⟨⟨p, hop⟩, hroom⟩ := hpast entry hentry
  · change entry ∈ [_, _] at hfirst
    simp only [List.mem_cons, List.not_mem_nil, or_false] at hfirst
    rcases hfirst with rfl | rfl
    · rintro ⟨before, s, hfront, -⟩
      simp at hfront
    · rintro ⟨-, hfull⟩
      exact absurd hfull (by decide)
  · rw [Overflows, hop]
    rintro ⟨-, hfull⟩
    omega

/-- Packets of 20001 tuples without a poll in between leave 20001 rows. -/
theorem history_past_ceiling :
    ¬ ∀ (now : ℕ) (hist : History Store Event) (st : Store),
      Run system (Store.empty now) hist st →
      (∀ entry ∈ hist, (∃ p, entry.2.op = .packet p) ∨
        ∃ ips socks procs, entry.2.op = .poll ips socks procs) →
      st.conns.size ≤ maxConns := by
  intro hceiling
  have hempty : Filled 0 0 (Store.empty 0) := ⟨rfl, rfl, rfl, by simp [Store.empty]⟩
  obtain ⟨hist, st, run, hfilled, hpackets⟩ :=
    exists_filled .start hempty (Nat.zero_le _) (.inr ⟨rfl, Nat.le_refl (maxConns + 1)⟩)
  have hsize := hceiling 0 hist st run fun entry hentry =>
    .inl ((hpackets entry hentry).resolve_left List.not_mem_nil).1
  rw [hfilled.size] at hsize
  omega

end Store

end SocketTrail.State
