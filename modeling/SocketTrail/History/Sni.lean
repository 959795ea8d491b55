/-
# What erases a learned SNI

The SNI of a TCP row comes from a ClientHello and belongs to the socket that
sent it. A poll erases it when `tcpReused` finds the tuple in other hands. That
test mixes evidence of another socket (`otherSocket`) with the report that one
and the same socket is shared by several processes, so without any evidence the
SNI stands if and only if no poll reports the tuple as shared (`sni_kept`).
-/

import SocketTrail.History.Naming

namespace SocketTrail.History

open SocketTrail.Foundation SocketTrail.Net SocketTrail.State SocketTrail.Attribution

/-- The snapshot row shows another socket than the row was built from: another
process, start time or inode, or a closed tuple that is open again. -/
def otherSocket (procs : ProcMap) (s : SockEntry) (c : Conn) : Bool :=
  contradicts c.pid s.pid || contradicts c.ownerStarted (startedOf procs s.pid) ||
    contradicts c.tcpCookie s.cookie || (c.closed && !s.state.terminal && !c.fromPacketsOnly)

/-- Beyond evidence of another socket, a shared socket counts as reuse. -/
theorem tcpReused_eq (procs : ProcMap) (s : SockEntry) (c : Conn) :
    Store.tcpReused procs s c = (otherSocket procs s c || s.ambiguous) := by
  unfold Store.tcpReused otherSocket
  cases contradicts c.pid s.pid <;> cases contradicts c.ownerStarted (startedOf procs s.pid) <;>
    cases contradicts c.tcpCookie s.cookie <;> cases s.ambiguous <;> simp

/-- The poll shows another socket on the row of the tuple. -/
def ShowsOther (st : Store) (e : Event) (k : ConnKey) : Prop :=
  ∃ ips socks procs, e.op = .poll ips socks procs ∧ ∃ done s, done ++ [s] <+: socks ∧
    s.key = k ∧ s.rport ≠ 0 ∧
      ∃ c, (Store.midPoll e.connOrder e.clock (st.setLocalIps ips) socks (procMap procs)
        done).1.conns.lookup k = some c ∧ otherSocket (procMap procs) s c = true

/-- Nothing happens to the row that may replace its SNI: the history is not
cleared, the row is not thrown out, no packet of the tuple brings an SNI and no
poll shows another socket. -/
structure SameSocketKept (st : Store) (e : Event) (k : ConnKey) : Prop where
  notForgotten : e.op ≠ .clear
  kept : ¬ st.Evicts e k
  noSni : ¬ BringsSni st e k
  noOther : ¬ ShowsOther st e k

/-- The snapshot rows report the tuple as held by several processes. -/
def SharedIn (socks : List SockEntry) (k : ConnKey) : Prop :=
  ∃ s ∈ socks, s.key = k ∧ s.rport ≠ 0 ∧ s.ambiguous = true

/-- The poll reports the tuple as held by several processes. -/
def Shares (e : Event) (k : ConnKey) : Prop :=
  ∃ ips socks procs, e.op = .poll ips socks procs ∧ SharedIn socks k

/-- The SNI of the row of a tuple. -/
def rowSni (st : Store) (k : ConnKey) : Option String :=
  (st.conns.lookup k).bind Conn.sni

/-! ## One step -/

/-- Showing a TCP socket keeps the SNI unless it disputes the row. -/
theorem showSocket_sni {s : SockEntry} (htcp : s.proto = .tcp) (procs : ProcMap) (t : ℕ)
    (owner : UdpMatch) (c : Conn) :
    (Store.showSocket procs t s owner c).sni =
      if Store.tcpReused procs s c then none else c.sni := by
  rw [Store.showSocket_tcp htcp]
  simp only [Store.takeOwner, Store.markShown, Store.checkReuse]
  split <;> split <;> rfl

theorem settle_sni (procs : ProcMap) (t : ℕ) (shown : Bool) (k : ConnKey) (owner : UdpMatch)
    (c : Conn) : (Store.settle procs t shown k owner c).sni = c.sni := by
  obtain heq | ⟨state, heq⟩ | ⟨-, -, -, -, heq⟩ := settle_cases procs t shown k owner c
  · rw [heq]
  · rw [heq]
  · rw [heq]
    exact (attributeUdp_names c owner (some procs)).1

theorem countPacket_sni (p : Packet) (outgoing : Bool) (owner : UdpMatch) (now : ℕ) (c : Conn) :
    (Store.countPacket p outgoing owner now c).sni = p.sni.or c.sni := by
  obtain ⟨base, state, closed, hbase, heq⟩ := countPacket_eq p outgoing owner now c
  have hsni : base.sni = c.sni := by
    rw [hbase]
    split
    · exact (attributeUdp_names c owner none).1
    · rfl
  rw [heq, ← hsni]

section Step

variable {st : Store} {e : Event} {k : ConnKey} {c : Conn}

theorem sharedIn_concat {done : List SockEntry} {s : SockEntry} :
    SharedIn (done ++ [s]) k ↔
      SharedIn done k ∨ (s.key = k ∧ s.rport ≠ 0 ∧ s.ambiguous = true) := by
  unfold SharedIn
  constructor
  · rintro ⟨s', hs', hrest⟩
    rcases List.mem_append.mp hs' with hdone | hself
    · exact .inl ⟨s', hdone, hrest⟩
    · exact .inr (List.mem_singleton.mp hself ▸ hrest)
  · rintro (⟨s', hs', hrest⟩ | hrest)
    · exact ⟨s', List.mem_append_left _ hs', hrest⟩
    · exact ⟨s, List.mem_append_right _ (List.mem_singleton_self s), hrest⟩

/-- The SNI of the row `c` once the snapshot rows `done` are applied to it. -/
def SniAfter (k : ConnKey) (c : Conn) (done : List SockEntry) (c' : Conn) : Prop :=
  (SharedIn done k → c'.sni = none) ∧ (¬ SharedIn done k → c'.sni = c.sni)

/-- Without another socket only the sharing of this one counts as reuse. -/
theorem SniAfter.shown {done : List SockEntry} {s : SockEntry} {procs : ProcMap} {c' : Conn}
    (h : SniAfter s.key c done c') (htcp : s.proto = .tcp) (hport : s.rport ≠ 0)
    (hsame : otherSocket procs s c' = false) (t : ℕ) (owner : UdpMatch) :
    SniAfter s.key c (done ++ [s]) (Store.showSocket procs t s owner c') := by
  unfold SniAfter
  rw [showSocket_sni htcp, tcpReused_eq, hsame, Bool.false_or, sharedIn_concat]
  constructor
  · rintro (hdone | ⟨-, -, hambiguous⟩)
    · rw [h.1 hdone, ite_self]
    · rw [if_pos hambiguous]
  · intro hnone
    rw [not_or] at hnone
    have hclear : ¬ s.ambiguous = true := fun hambiguous => hnone.2 ⟨rfl, hport, hambiguous⟩
    rw [if_neg hclear]
    exact h.2 hnone.1

theorem SniAfter.other {done : List SockEntry} {s : SockEntry} {c' : Conn}
    (h : SniAfter k c done c') (hskip : s.key ≠ k ∨ s.rport = 0) :
    SniAfter k c (done ++ [s]) c' := by
  have hsame : SharedIn (done ++ [s]) k ↔ SharedIn done k := by
    rw [sharedIn_concat, or_iff_left]
    rintro ⟨hkey, hport, -⟩
    exact hskip.elim (· hkey) hport
  unfold SniAfter
  rw [hsame]
  exact h

/-- A poll that keeps the row and shows no other socket on it erases the SNI
exactly when it reports the tuple as shared. -/
theorem poll_sni {ips : Option (Finset IpAddr)} {socks : List SockEntry} {procs : List ProcInfo}
    (htcp : k.proto = .tcp) (hrow : st.conns.lookup k = some c) (h : SameSocketKept st e k)
    (hop : e.op = .poll ips socks procs) :
    ∃ c', (st.step e).conns.lookup k = some c' ∧ SniAfter k c socks c' := by
  have hkept := h.kept
  unfold Store.Evicts at hkept
  rw [hop] at hkept
  have hrow' : (st.setLocalIps ips).conns.lookup k = some c := by cases ips <;> exact hrow
  have hstart : SniAfter k c [] c := ⟨by simp [SharedIn], fun _ => rfl⟩
  have hstep : st.step e =
      (st.setLocalIps ips).applySockets e.connOrder e.clock socks (procMap procs) := by
    unfold Store.step
    rw [hop]
  rw [hstep]
  obtain ⟨c', shown, hlookup, hc', -⟩ :=
    Store.applySockets_followRows (R := SniAfter k c) hrow' hkept hstart
      (by
        rintro done s hfront rfl hport c₁ hmid hc₁
        apply hc₁.shown htcp hport
        rw [← Bool.not_eq_true]
        intro hother
        exact h.noOther ⟨ips, socks, procs, hop, done, s, hfront, rfl, hport, c₁, hmid, hother⟩)
      (fun done s _ hskip c₁ hc₁ => hc₁.other hskip)
  refine ⟨_, hlookup, ?_⟩
  unfold SniAfter
  rw [settle_sni]
  exact hc'

/-- A step without evidence of another socket erases the SNI of a TCP row
exactly when it is a poll that reports the tuple as shared. -/
theorem sni_step (htcp : k.proto = .tcp) (hrow : st.conns.lookup k = some c)
    (h : SameSocketKept st e k) :
    ∃ c', (st.step e).conns.lookup k = some c' ∧ (Shares e k → c'.sni = none) ∧
      (¬ Shares e k → c'.sni = c.sni) := by
  have hquiet : (∀ ips socks procs, e.op ≠ .poll ips socks procs) → ∀ {c'},
      (st.step e).conns.lookup k = some c' → c'.sni = c.sni →
        ∃ c', (st.step e).conns.lookup k = some c' ∧ (Shares e k → c'.sni = none) ∧
          (¬ Shares e k → c'.sni = c.sni) := by
    intro hnot c' hlookup hsame
    refine ⟨c', hlookup, ?_, fun _ => hsame⟩
    rintro ⟨ips, socks, procs, hop, -⟩
    exact absurd hop (hnot ips socks procs)
  cases hop : e.op with
  | packet p =>
      have hkept := h.kept
      unfold Store.Evicts at hkept
      rw [hop] at hkept
      have hstep : st.step e = (st.applyPacket e.connOrder e.ipOrder e.clock p).2 := by
        unfold Store.step
        rw [hop]
      by_cases hkey : k = st.packetKey p
      · have hsni : p.sni = none := by
          by_contra hsni
          exact h.noSni ⟨p, hop, hkey.symm, hsni⟩
        subst hkey
        have hself := hstep ▸ @Store.applyPacket_lookup_self e.connOrder e.ipOrder e.clock st p
        rw [hrow, Option.getD_some] at hself
        apply hquiet (by simp [hop]) hself
        rw [countPacket_sni, hsni, Option.none_or]
      · apply hquiet (by simp [hop]) _ rfl
        rw [hstep]
        exact (Store.applyPacket_lookup_of_ne hkey hkept).trans hrow
  | poll ips socks procs =>
      have hshares : Shares e k ↔ SharedIn socks k := by
        constructor
        · rintro ⟨ips', socks', procs', hop', hshared⟩
          rw [hop, Op.poll.injEq] at hop'
          exact hop'.2.1 ▸ hshared
        · intro hshared
          exact ⟨ips, socks, procs, hop, hshared⟩
      rw [hshares]
      exact poll_sni htcp hrow h hop
  | clear => exact absurd hop h.notForgotten
  | learn ip name ttl =>
      apply hquiet (by simp [hop]) _ rfl
      unfold Store.step
      rw [hop]
      exact hrow
  | enrich lang =>
      obtain ⟨domain, ptr, asn, owner, heq⟩ :=
        enrichName_namesOnly lang st.dns (passTime st e k) k c
      apply hquiet (by simp [hop]) (enrich_lookup hop hrow)
      rw [heq]
  | whois known =>
      obtain ⟨domain, ptr, asn, owner, heq⟩ := applyWhoisRow_namesOnly known k c
      have hlookup : (st.step e).conns.lookup k = some (applyWhoisRow known k c) := by
        unfold Store.step
        rw [hop]
        exact KeyedMap.lookup_mapValues_of_lookup _ hrow
      apply hquiet (by simp [hop]) hlookup
      rw [heq]
  | resolved ip w =>
      obtain ⟨domain, ptr, asn, owner, heq⟩ := whoisRow_namesOnly ip w k c
      have hlookup : (st.step e).conns.lookup k = some (whoisRow ip w k c) := by
        unfold Store.step
        rw [hop]
        exact KeyedMap.lookup_mapValues_of_lookup _ hrow
      apply hquiet (by simp [hop]) hlookup
      rw [heq]

/-- A packet with an SNI sets the SNI of its row. -/
theorem rowSni_of_packet {p : Packet} {sni : String} (hop : e.op = .packet p)
    (hsni : p.sni = some sni) : rowSni (st.step e) (st.packetKey p) = some sni := by
  have hself := @Store.applyPacket_lookup_self e.connOrder e.ipOrder e.clock st p
  have hstep : st.step e = (st.applyPacket e.connOrder e.ipOrder e.clock p).2 := by
    unfold Store.step
    rw [hop]
  rw [rowSni, hstep, hself, Option.bind_some, countPacket_sni, hsni, Option.some_or]

end Step

/-! ## Whole runs -/

/-- A packet sets the SNI of the row of a tuple. -/
def SetsSni (st : Store) (e : Event) (k : ConnKey) (sni : String) : Prop :=
  ∃ p, e.op = .packet p ∧ st.packetKey p = k ∧ p.sni = some sni

/-- Once a packet has set the SNI of a TCP row, and as long as no later step
brings evidence of another socket, the SNI stands in every state of the run if
and only if no poll reports the tuple as shared. -/
theorem sni_kept {now : ℕ} {earlier later : History Store Event} {st₁ st : Store} {e₁ : Event}
    {k : ConnKey} {sni : String}
    (run : Run Store.system (Store.empty now) (later ++ (st₁, e₁) :: earlier) st)
    (htcp : k.proto = .tcp) (hset : SetsSni st₁ e₁ k sni)
    (hsame : ∀ entry ∈ later, SameSocketKept entry.1 entry.2 k) :
    ((∀ entry ∈ later, rowSni entry.1 k = some sni) ∧ rowSni st k = some sni) ↔
      ∀ entry ∈ later, ¬ Shares entry.2 k := by
  obtain ⟨middle, hbefore, hafter⟩ := run.split
  have hstart : rowSni middle k = some sni := by
    obtain ⟨p, hop, rfl, hsni⟩ := hset
    cases hbefore with
    | next prior fires =>
        obtain rfl : st₁.step e₁ = middle := Option.some.inj fires
        exact rowSni_of_packet hop hsni
  -- the row is there throughout, and its SNI is the one set until a poll shares it
  suffices hfollow : (((∀ entry ∈ later, rowSni entry.1 k = some sni) ∧ rowSni st k = some sni) ↔
      ∀ entry ∈ later, ¬ Shares entry.2 k) ∧ ∃ c, st.conns.lookup k = some c from hfollow.1
  clear run hbefore hset
  induction hafter with
  | start =>
      refine ⟨by simpa using hstart, ?_⟩
      obtain ⟨c, hrow, -⟩ := Option.bind_eq_some_iff.mp hstart
      exact ⟨c, hrow⟩
  | @next past s s' e prior fires ih =>
      obtain ⟨hiff, c, hrow⟩ := ih (fun entry hentry => hsame entry (List.mem_cons_of_mem _ hentry))
      obtain rfl : s.step e = s' := Option.some.inj fires
      obtain ⟨c', hrow', hshared, hsingle⟩ :=
        sni_step htcp hrow (hsame (s, e) (List.mem_cons_self ..))
      have hnow : rowSni s k = c.sni := by rw [rowSni, hrow, Option.bind_some]
      have hnext : rowSni (s.step e) k = c'.sni := by rw [rowSni, hrow', Option.bind_some]
      refine ⟨?_, c', hrow'⟩
      rw [List.forall_mem_cons, List.forall_mem_cons, ← hiff, hnext]
      constructor
      · rintro ⟨⟨hcurrent, hpast⟩, hlast⟩
        refine ⟨fun hshares => ?_, hpast, hcurrent⟩
        rw [hshared hshares] at hlast
        contradiction
      · rintro ⟨hshares, hpast, hcurrent⟩
        refine ⟨⟨hcurrent, hpast⟩, ?_⟩
        rw [hsingle hshares, ← hnow]
        exact hcurrent

/-! ## A socket that turns out to be shared -/

/-- A ClientHello on the sample connection. -/
def helloAt (t : ℕ) (sni : String) : Event where
  op := .packet { samplePacket .tcp with sni := some sni }
  clock := .still t

/-- The sample socket, owned by process 7 and named by its ClientHello. -/
def helloRun : History Store Event × Store :=
  Store.system.play [] (Store.empty 0)
    [pollAt 10 [sampleTcp (some 7)] [sampleProc 7 100], helloAt 20 "a.example.com"]

/-- The next poll of the sample socket. -/
def nextPoll (pid : Option ℤ) (ambiguous : Bool) : Event :=
  pollAt 30 [{ sampleTcp pid with ambiguous := ambiguous }] [sampleProc 7 100]

/-- The next poll shows the socket of the row, with the inode of the row. -/
theorem nextPoll_same {pid : Option ℤ} (ambiguous : Bool) (hpid : pid = some 7 ∨ pid = none) :
    SameSocketKept helloRun.2 (nextPoll pid ambiguous) (sampleKey .tcp) where
  notForgotten hop := by cases hop
  kept := by
    apply Store.not_evicts_of_room
    change helloRun.2.conns.size + 1 ≤ maxConns
    decide
  noSni := by
    rintro ⟨p, hop, -⟩
    cases hop
  noOther := by
    rintro ⟨ips, socks, procs, hop, done, s, hfront, -, -, c, hmid, hother⟩
    cases hop
    obtain ⟨rfl, hs⟩ : done = [] ∧ s = { sampleTcp pid with ambiguous := ambiguous } := by
      cases done with
      | nil => exact ⟨rfl, by simpa using hfront⟩
      | cons first rest => simp at hfront
    have hrow : helloRun.2.conns.lookup (sampleKey .tcp) = some c := hmid
    have hfits : ∀ pid ∈ [some 7, none], ∀ c ∈ helloRun.2.conns.lookup (sampleKey .tcp),
        otherSocket (procMap [sampleProc 7 100]) { sampleTcp pid with ambiguous := false } c =
          false := by decide
    have hsame := hfits pid (by simpa using hpid) c hrow
    rw [hs] at hother
    exact absurd hother (by simpa [otherSocket] using hsame)

theorem sni_kept_sample :
    rowSni (helloRun.2.step (nextPoll (some 7) false)) (sampleKey .tcp) = some "a.example.com" := by
  have hrun : Run Store.system (Store.empty 0)
      ([(helloRun.2, nextPoll (some 7) false)] ++ helloRun.1)
      (helloRun.2.step (nextPoll (some 7) false)) := (Run.start.play _).next rfl
  refine ((sni_kept hrun rfl ⟨_, rfl, rfl, rfl⟩ ?_).mpr ?_).2
  · rw [List.forall_mem_singleton]
    exact nextPoll_same false (.inl rfl)
  · rw [List.forall_mem_singleton]
    rintro ⟨ips, socks, procs, hop, s, hs, -, -, hambiguous⟩
    cases hop
    obtain rfl := List.mem_singleton.mp hs
    contradiction

/-- The poll that finds the same inode in a second process erases the SNI. -/
theorem sni_lost_to_sharing :
    ¬ ∀ (now : ℕ) (earlier later : History Store Event) (st₁ st : Store) (e₁ : Event)
        (k : ConnKey) (sni : String),
      Run Store.system (Store.empty now) (later ++ (st₁, e₁) :: earlier) st →
      k.proto = .tcp → SetsSni st₁ e₁ k sni →
      (∀ entry ∈ later, SameSocketKept entry.1 entry.2 k) → rowSni st k = some sni := by
  intro hkept
  have hrun : Run Store.system (Store.empty 0)
      ([(helloRun.2, nextPoll none true)] ++ helloRun.1)
      (helloRun.2.step (nextPoll none true)) := (Run.start.play _).next rfl
  have hsni := hkept 0 _ _ _ _ _ _ "a.example.com" hrun rfl ⟨_, rfl, rfl, rfl⟩
    (by
      rw [List.forall_mem_singleton]
      exact nextPoll_same true (.inr rfl))
  exact absurd hsni (by decide)

end SocketTrail.History
