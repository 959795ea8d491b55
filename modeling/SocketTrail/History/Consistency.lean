/-
# Consistent rows

The ownership and the names of a row are written by packets, polls, the naming
pass and the lookups. `Consistent` is what all of them keep: a disputed row
names no process, what identifies a process comes with its number, a UDP row
that has an owner knows the socket it has it from, and an SNI is the name of its
row. A dispute is never settled.
-/

import SocketTrail.Attribution.Counted
import SocketTrail.State.RowRule

namespace SocketTrail.History

open SocketTrail.Foundation SocketTrail.Net SocketTrail.State SocketTrail.Attribution

/-- The fields of a row agree with each other. -/
structure Consistent (k : ConnKey) (c : Conn) : Prop where
  disputed : c.ownerAmbiguous = true → c.pid = none ∧ c.ownerStarted = none ∧ c.pname = none
  identified : c.ownerStarted.isSome ∨ c.pname.isSome → c.pid.isSome
  bound : k.proto = .udp → c.pid.isSome → c.udpGeneration.isSome
  named : ∀ s, c.sni = some s → c.domain = some s

namespace Consistent

variable {k : ConnKey} {c : Conn}

theorem fresh (k : ConnKey) (fromPackets : Bool) (now : ℕ) :
    Consistent k (Store.freshConn k fromPackets now) where
  disputed _ := ⟨rfl, rfl, rfl⟩
  identified h := by simp [Store.freshConn] at h
  bound _ h := by simp [Store.freshConn] at h
  named s h := by simp [Store.freshConn] at h

/-- Consistency looks at the owner, the binding and the names only. -/
theorem congr {c' : Conn} (h : Consistent k c) (hdispute : c'.ownerAmbiguous = c.ownerAmbiguous)
    (hpid : c'.pid = c.pid) (hstarted : c'.ownerStarted = c.ownerStarted)
    (hpname : c'.pname = c.pname) (hgen : c'.udpGeneration = c.udpGeneration)
    (hsni : c'.sni = c.sni) (hdomain : c'.domain = c.domain) : Consistent k c' where
  disputed := by
    rw [hdispute, hpid, hstarted, hpname]
    exact h.disputed
  identified := by
    rw [hpid, hstarted, hpname]
    exact h.identified
  bound := by
    rw [hpid, hgen]
    exact h.bound
  named := by
    rw [hsni, hdomain]
    exact h.named

/-- A dispute takes the owner away as a whole. -/
theorem dispute (h : Consistent k c) : Consistent k c.dispute where
  disputed _ := ⟨rfl, rfl, rfl⟩
  identified h := by simp [Conn.dispute] at h
  bound _ h := by simp at h
  named := h.named

/-- The owner of a UDP socket comes with its generation. -/
theorem attributed (h : Consistent k c) (owner : UdpMatch)
    (procs : Option (ℤ → Option ProcInfo)) : Consistent k (attributeUdp c owner procs) := by
  unfold attributeUdp
  split
  · exact h
  · rename_i hclear
    rw [Bool.not_eq_true] at hclear
    split
    · rename_i o
      split
      · dsimp only
        split
        · refine ⟨fun hd => h.disputed hd, h.identified, fun _ _ => rfl, h.named⟩
        · rename_i pid _
          refine ⟨fun hd => ?_, fun _ => rfl, fun _ _ => rfl, h.named⟩
          change c.ownerAmbiguous = true at hd
          rw [hclear] at hd
          contradiction
      · exact h.dispute
    · split
      · exact h
      · exact h.dispute
    · exact h.dispute

/-- A packet names its row after its SNI. -/
theorem packet (h : Consistent k c) (p : Packet) (outgoing : Bool) (owner : UdpMatch) (now : ℕ) :
    Consistent k (Store.countPacket p outgoing owner now c) := by
  obtain ⟨base, state, closed, hbase, heq⟩ := countPacket_eq p outgoing owner now c
  have hconsistent : Consistent k base := by
    rw [hbase]
    split
    · exact h.attributed owner none
    · exact h
  rw [heq]
  refine ⟨hconsistent.disputed, hconsistent.identified, hconsistent.bound, fun s hs => ?_⟩
  dsimp only at hs ⊢
  cases hsni : p.sni with
  | none =>
      rw [hsni] at hs
      exact hconsistent.named s hs
  | some sni =>
      rw [hsni] at hs
      exact hs

/-- A reused tuple loses its owner and its names together. -/
theorem reuse (h : Consistent k c) (procs : ProcMap) (s : SockEntry) :
    Consistent k (Store.checkReuse procs s c) := by
  unfold Store.checkReuse
  dsimp only
  split
  · refine ⟨fun _ => ⟨rfl, rfl, rfl⟩, fun h => ?_, fun _ h => ?_, fun s h => ?_⟩
    · simp [Conn.dispute] at h
    · simp at h
    · simp at h
  · exact h.congr rfl rfl rfl rfl rfl rfl rfl

/-- A TCP row takes over the number of a process before anything else of it. -/
theorem owned (h : Consistent k c) (htcp : k.proto = .tcp) (procs : ProcMap) (s : SockEntry) :
    Consistent k (Store.takeOwner procs s c) := by
  unfold Store.takeOwner
  split
  · rename_i hfound
    simp only [Bool.and_eq_true, Bool.not_eq_true'] at hfound
    refine ⟨fun hd => ?_, fun _ => hfound.1, fun hudp => ?_, h.named⟩
    · rw [hfound.2] at hd
      contradiction
    · rw [htcp] at hudp
      contradiction
  · exact h

theorem shown {s : SockEntry} (h : Consistent s.key c) (procs : ProcMap) (t : ℕ)
    (owner : UdpMatch) : Consistent s.key (Store.showSocket procs t s owner c) := by
  unfold Store.showSocket
  split
  · rename_i htcp
    have hreused := h.reuse procs s
    have hshown : Consistent s.key (Store.markShown t s (Store.checkReuse procs s c)) :=
      hreused.congr rfl rfl rfl rfl rfl rfl rfl
    exact hshown.owned htcp procs s
  · have hshown : Consistent s.key (Store.markShown t s c) :=
      h.congr rfl rfl rfl rfl rfl rfl rfl
    exact hshown.attributed owner (some procs)

theorem settled (h : Consistent k c) (procs : ProcMap) (t : ℕ) (shown : Bool)
    (owner : UdpMatch) : Consistent k (Store.settle procs t shown k owner c) := by
  obtain heq | ⟨state, heq⟩ | ⟨-, -, -, -, heq⟩ := settle_cases procs t shown k owner c
  · rw [heq]
    exact h
  · rw [heq]
    exact h.congr rfl rfl rfl rfl rfl rfl rfl
  · rw [heq]
    exact (h.attributed owner (some procs)).congr rfl rfl rfl rfl rfl rfl rfl

/-- The naming pass passes rows with an SNI over. -/
theorem enriched (h : Consistent k c) (lang : Lang) (dns : KeyedMap IpAddr DnsEntry) (now : ℕ) :
    Consistent k (enrichName lang dns now k c) := by
  unfold enrichName
  split
  · exact h
  · rename_i hnone
    refine ⟨h.disputed, h.identified, h.bound, fun s hs => ?_⟩
    change c.sni = some s at hs
    rw [hs] at hnone
    simp at hnone

/-- A lookup names no row that has a name. -/
theorem whois (h : Consistent k c) (known : IpAddr → Option Whois) :
    Consistent k (applyWhoisRow known k c) := by
  unfold applyWhoisRow
  split
  · exact h
  · split
    · exact h
    · refine ⟨h.disputed, h.identified, h.bound, fun s hs => ?_⟩
      change c.domain.or _ = some s
      rw [h.named s hs]
      rfl

theorem resolved (h : Consistent k c) (ip : IpAddr) (w : Whois) :
    Consistent k (whoisRow ip w k c) := by
  unfold whoisRow
  split
  · refine ⟨h.disputed, h.identified, h.bound, fun s hs => ?_⟩
    change c.domain.or w.ptr = some s
    rw [h.named s hs]
    rfl
  · exact h

end Consistent

/-- Every function that rewrites a row keeps it consistent. -/
theorem consistent_stable : RowStable Consistent where
  packet h p outgoing owner now _ := h.packet p outgoing owner now
  shown h procs t owner := h.shown procs t owner
  settled h procs t shown owner := h.settled procs t shown owner
  enriched h lang dns now := h.enriched lang dns now
  whois h known := h.whois known
  resolved h ip w := h.resolved ip w

/-! ## A dispute is never settled -/

/-- The row is in dispute. -/
def Disputed (_ : ConnKey) (c : Conn) : Prop :=
  c.ownerAmbiguous = true

theorem Disputed.shown {s : SockEntry} {c : Conn} (h : Disputed s.key c) (procs : ProcMap)
    (t : ℕ) (owner : UdpMatch) : Disputed s.key (Store.showSocket procs t s owner c) := by
  unfold Disputed at h ⊢
  unfold Store.showSocket
  split
  · have hreused : (Store.checkReuse procs s c).ownerAmbiguous = true := by
      unfold Store.checkReuse
      dsimp only
      split
      · rfl
      · exact h
    unfold Store.takeOwner
    split
    · exact hreused
    · exact hreused
  · have hmarked : (Store.markShown t s c).ownerAmbiguous = true := h
    rw [attributeUdp_of_ambiguous hmarked]
    exact hmarked

theorem disputed_stable : RowStable Disputed where
  packet {k c} h p outgoing owner now _ := by
    obtain ⟨base, state, closed, hbase, heq⟩ := countPacket_eq p outgoing owner now c
    have hdisputed : base.ownerAmbiguous = true := by
      rw [hbase]
      split
      · rw [attributeUdp_of_ambiguous h]
        exact h
      · exact h
    rw [heq]
    exact hdisputed
  shown h procs t owner := h.shown procs t owner
  settled {k c} h procs t shown owner := by
    obtain heq | ⟨state, heq⟩ | ⟨-, -, -, -, heq⟩ := settle_cases procs t shown k owner c
    · rw [heq]
      exact h
    · rw [heq]
      exact h
    · rw [heq, attributeUdp_of_ambiguous h]
      exact h
  enriched {k c} h lang dns now := by
    obtain ⟨domain, ptr, asn, owner, heq⟩ := enrichName_namesOnly lang dns now k c
    rw [heq]
    exact h
  whois {k c} h known := by
    obtain ⟨domain, ptr, asn, owner, heq⟩ := applyWhoisRow_namesOnly known k c
    rw [heq]
    exact h
  resolved {k c} h ip w := by
    obtain ⟨domain, ptr, asn, owner, heq⟩ := whoisRow_namesOnly ip w k c
    rw [heq]
    exact h

/-! ## The result -/

/-- Every row of every reachable store is consistent, and a disputed row stays
disputed for as long as it is neither thrown out nor forgotten. -/
theorem rows_consistent {now : ℕ} {hist : History Store Event} {st : Store}
    (run : Run Store.system (Store.empty now) hist st) :
    (∀ k c, st.conns.lookup k = some c → Consistent k c) ∧
      ∀ k c, st.conns.lookup k = some c → c.ownerAmbiguous = true →
        ∀ later st', Run Store.system st later st' →
          (∀ entry ∈ later, entry.2.op ≠ .clear ∧ ¬ entry.1.Evicts entry.2 k) →
            ∃ c', st'.conns.lookup k = some c' ∧ c'.ownerAmbiguous = true := by
  constructor
  · exact consistent_stable.run Consistent.fresh run
  · intro k c hrow hdisputed later st' hlater hkept
    exact disputed_stable.follow_run hrow hdisputed hlater hkept

/-- Two processes hold the sample connection one after the other. -/
def disputedRun : History Store Event × Store :=
  Store.system.play [] (Store.empty 0)
    [pollAt 10 [sampleTcp (some 7)] [sampleProc 7 100],
      pollAt 20 [sampleTcp (some 8)] [sampleProc 8 200]]

/-- The row of the sample connection is disputed, names no process, and stays
disputed over a packet and another poll. -/
theorem rows_consistent_sample :
    (∃ c, disputedRun.2.conns.lookup (sampleKey .tcp) = some c ∧ c.ownerAmbiguous = true ∧
      c.pid = none ∧ c.ownerStarted = none ∧ c.pname = none) ∧
    ∃ c, (Store.system.play [] disputedRun.2
      [packetAt 30 .tcp, pollAt 40 [sampleTcp (some 8)] [sampleProc 8 200]]).2.conns.lookup
        (sampleKey .tcp) = some c ∧ c.ownerAmbiguous = true := by
  have run : Run Store.system (Store.empty 0) disputedRun.1 disputedRun.2 := Run.start.play _
  obtain ⟨hconsistent, hstays⟩ := rows_consistent run
  obtain ⟨c, hrow, hdisputed⟩ : ∃ c, disputedRun.2.conns.lookup (sampleKey .tcp) = some c ∧
      c.ownerAmbiguous = true := ⟨_, rfl, rfl⟩
  refine ⟨⟨c, hrow, hdisputed, (hconsistent _ c hrow).disputed hdisputed⟩, ?_⟩
  apply hstays _ c hrow hdisputed _ _ (Run.start.play _)
  intro entry hentry
  constructor
  · have hplayed := (System.mem_play hentry).resolve_left (List.not_mem_nil)
    intro hclear
    simp only [List.mem_cons, List.not_mem_nil, or_false] at hplayed
    rcases hplayed with heq | heq <;> rw [heq] at hclear <;> cases hclear
  · apply Store.not_evicts_of_room
    revert entry
    decide

end SocketTrail.History
