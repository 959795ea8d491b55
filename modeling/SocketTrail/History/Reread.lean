/-
# A socket table that could not be read

A snapshot that could not read a table has no rows of it, and the poll takes
their sockets for closed. When the table can be read again, a TCP tuple counts
as reopened and a UDP socket gets a new generation, and both dispute the row.
`reread_keeps_iff` says which rows come out of such a gap as they were: those
whose socket is not missing in between, is already gone, or has nothing to lose.
-/

import SocketTrail.History.Consistency
import SocketTrail.History.Sni
import SocketTrail.Net.Sockets
import SocketTrail.State.Generations

namespace SocketTrail.History

open SocketTrail.Foundation SocketTrail.Net SocketTrail.State SocketTrail.Attribution

/-- The row has kept its owner and its SNI. -/
structure SameOwner (c c' : Conn) : Prop where
  pid : c'.pid = c.pid
  ownerStarted : c'.ownerStarted = c.ownerStarted
  pname : c'.pname = c.pname
  sni : c'.sni = c.sni

theorem SameOwner.refl (c : Conn) : SameOwner c c := ⟨rfl, rfl, rfl, rfl⟩

theorem SameOwner.trans {a b c : Conn} (hab : SameOwner a b) (hbc : SameOwner b c) :
    SameOwner a c where
  pid := hbc.pid.trans hab.pid
  ownerStarted := hbc.ownerStarted.trans hab.ownerStarted
  pname := hbc.pname.trans hab.pname
  sni := hbc.sni.trans hab.sni

/-- The start time of a process, read off its entry. -/
theorem startedOf_eq (procs : ProcMap) (pid : Option ℤ) :
    startedOf procs pid = (pid.bind procs).map ProcInfo.started := by
  cases pid <;> rfl

/-! ## A TCP row and its socket -/

/-- The row is backed by the socket `s`: unless it is in dispute, taking the
owner of `s` over again changes nothing. -/
structure Backed (procs : ProcMap) (s : SockEntry) (c : Conn) : Prop where
  state : c.state = s.state
  closed : c.closed = s.state.terminal
  live : c.fromPacketsOnly = false
  cookie : c.tcpCookie = s.cookie
  pid : c.ownerAmbiguous = false → c.pid = s.pid
  started : c.ownerAmbiguous = false → (startedOf procs s.pid).or c.ownerStarted = c.ownerStarted
  pname : c.ownerAmbiguous = false → c.pname = (s.pid.bind procs).map ProcInfo.name

/-- Every owner in the snapshot is known. -/
structure KnownOwner (s : SockEntry) : Prop where
  cookie : s.cookie.isSome = true
  pid : s.pid.isSome = true
  single : s.ambiguous = false

section Tcp

variable {procs procs' : ProcMap} {s : SockEntry} {c : Conn}

/-- A socket that is shown on a row backs it. -/
theorem backed_showSocket (htcp : s.proto = .tcp) (hknown : KnownOwner s) (t : ℕ)
    (owner : UdpMatch) (c : Conn) : Backed procs s (Store.showSocket procs t s owner c) := by
  obtain ⟨p, hpid⟩ := Option.isSome_iff_exists.mp hknown.pid
  obtain ⟨i, hcookie⟩ := Option.isSome_iff_exists.mp hknown.cookie
  rw [Store.showSocket_tcp htcp]
  cases hreused : Store.tcpReused procs s c with
  | true =>
      constructor <;>
        simp [Store.takeOwner, Store.markShown, Store.checkReuse, hreused, hcookie]
  | false =>
      cases hdispute : c.ownerAmbiguous with
      | true =>
          constructor <;>
            simp [Store.takeOwner, Store.markShown, Store.checkReuse, hreused, hdispute, hcookie]
      | false =>
          constructor <;>
            simp [Store.takeOwner, Store.markShown, Store.checkReuse, hreused, hdispute, hcookie,
              hpid, ← Option.or_assoc]

/-- What backs a row is the socket with its process, whatever other processes
there are. -/
theorem Backed.congr (h : Backed procs s c) (hprocs : s.pid.bind procs' = s.pid.bind procs) :
    Backed procs' s c where
  state := h.state
  closed := h.closed
  live := h.live
  cookie := h.cookie
  pid := h.pid
  started := by
    rw [startedOf_eq, hprocs, ← startedOf_eq]
    exact h.started
  pname := by
    rw [hprocs]
    exact h.pname

/-- The socket that backs a row is no other socket. -/
theorem Backed.not_reused (h : Backed procs s c) (hknown : KnownOwner s)
    (hconsistent : Consistent s.key c) : Store.tcpReused procs s c = false := by
  have hpid : contradicts c.pid s.pid = false := by
    cases hdispute : c.ownerAmbiguous with
    | true => rw [(hconsistent.disputed hdispute).1, contradicts_none_left]
    | false =>
        rw [h.pid hdispute]
        cases s.pid <;> simp [contradicts]
  have hstarted : contradicts c.ownerStarted (startedOf procs s.pid) = false := by
    cases hdispute : c.ownerAmbiguous with
    | true => rw [(hconsistent.disputed hdispute).2.1, contradicts_none_left]
    | false =>
        rw [← h.started hdispute]
        cases startedOf procs s.pid <;> simp [contradicts]
  have hcookie : contradicts c.tcpCookie s.cookie = false := by
    rw [h.cookie]
    cases s.cookie <;> simp [contradicts]
  have hopen : (c.closed && !s.state.terminal && !c.fromPacketsOnly) = false := by
    rw [h.closed]
    cases s.state.terminal <;> rfl
  unfold Store.tcpReused
  rw [hpid, hstarted, hknown.single, hcookie, hopen]
  rfl

/-- Showing the socket that backs a row once more changes nothing of its owner
and its SNI. -/
theorem Backed.sameOwner (h : Backed procs s c) (htcp : s.proto = .tcp) (hknown : KnownOwner s)
    (hconsistent : Consistent s.key c) (t : ℕ) (owner : UdpMatch) :
    SameOwner c (Store.showSocket procs t s owner c) := by
  have hfits := h.not_reused hknown hconsistent
  rw [Store.showSocket_tcp htcp]
  cases hdispute : c.ownerAmbiguous with
  | true =>
      constructor <;> simp [Store.takeOwner, Store.markShown, Store.checkReuse, hfits, hdispute]
  | false =>
      have hpid := h.pid hdispute
      have hstarted := h.started hdispute
      have hpname := h.pname hdispute
      constructor <;>
        simp [Store.takeOwner, Store.markShown, Store.checkReuse, hfits, hdispute, hknown.pid,
          hpid, hstarted, hpname]

/-- A socket that is gone leaves its row as it is when a poll closes the row. -/
theorem Backed.settled (h : Backed procs s c) (htcp : s.proto = .tcp) {shown : Bool}
    (hshown : shown = true ∨ s.state.terminal = true) (procs' : ProcMap) (t : ℕ)
    (owner : UdpMatch) : Store.settle procs' t shown s.key owner c = c := by
  have hkey : ¬ (s.key.proto = .udp ∧ (!shown) = true) := by
    rintro ⟨hudp, -⟩
    have hproto : s.proto = .udp := hudp
    rw [htcp] at hproto
    contradiction
  have hdone : (c.closed || shown) = true := by
    rw [h.closed]
    rcases hshown with hshown | hterminal
    · rw [hshown, Bool.or_true]
    · rw [hterminal, Bool.true_or]
  unfold Store.settle
  rw [if_neg hkey, if_pos hdone]

end Tcp

/-! ## Polls -/

/-- What a poll meets beside its snapshot. -/
structure PollInput where
  order : HashOrder ConnKey
  clock : Clock
  procs : ProcMap

/-- Apply a snapshot. -/
def PollInput.apply (i : PollInput) (socks : List SockEntry) (st : Store) : Store :=
  st.applySockets i.order i.clock socks i.procs

/-- The poll throws the row of the tuple out of a full history. -/
def PollInput.Evicts (i : PollInput) (socks : List SockEntry) (st : Store) (k : ConnKey) : Prop :=
  Store.PollEvicts i.order i.clock st socks i.procs k

/-- The row is the only one of the snapshot on its tuple. -/
def AloneIn (socks : List SockEntry) (s : SockEntry) : Prop :=
  ∀ s' ∈ socks, s'.key = s.key → s' = s

/-- A snapshot row that a poll passes over for another tuple or for want of a port is
not the one in question. -/
theorem mem_of_skipped {done : List SockEntry} {s s' : SockEntry} (hport : s.rport ≠ 0)
    (hskip : s'.key ≠ s.key ∨ s'.rport = 0) (hs : s ∈ done ++ [s']) : s ∈ done := by
  rcases List.mem_append.mp hs with hs | hs
  · exact hs
  · obtain rfl := List.mem_singleton.mp hs
    exact absurd hskip (by simp [hport])

section TcpPoll

variable {i : PollInput} {socks : List SockEntry} {st : Store} {s : SockEntry} {c : Conn}
  {procs : ProcMap}

/-- A row without a process has nothing else of one. -/
theorem unowned {k : ConnKey} (h : Consistent k c) (hpid : c.pid = none) :
    c.ownerStarted = none ∧ c.pname = none := by
  have hnone : ¬ (c.ownerStarted.isSome ∨ c.pname.isSome) := by
    intro hsome
    have hp := h.identified hsome
    rw [hpid] at hp
    contradiction
  rw [not_or, Bool.not_eq_true, Bool.not_eq_true, Option.isSome_eq_false_iff,
    Option.isSome_eq_false_iff, Option.isNone_iff_eq_none, Option.isNone_iff_eq_none] at hnone
  exact hnone

/-- A poll keeps the rows consistent. -/
theorem consistent_apply (hrows : ∀ k c, st.conns.lookup k = some c → Consistent k c)
    (i : PollInput) (socks : List SockEntry) :
    ∀ k c, (i.apply socks st).conns.lookup k = some c → Consistent k c := by
  intro k c hrow
  refine Store.applySockets_invariant (R := Consistent) hrows ?_ ?_ ?_ hrow
  · intro s _ _ j
    exact (Consistent.fresh s.key _ _).shown _ _ _
  · intro s _ _ c hc
    exact hc.shown _ _ _
  · intro k c shown hc
    exact hc.settled _ _ _ _

theorem mem_of_front {done : List SockEntry} {s' : SockEntry} (h : done ++ [s'] <+: socks) :
    s' ∈ socks := h.subset (List.mem_append_right done (List.mem_singleton_self s'))

/-- After a poll, the socket that the snapshot has for a TCP tuple backs its row. -/
theorem backed_apply (hrows : ∀ k c, st.conns.lookup k = some c → Consistent k c)
    (htcp : s.proto = .tcp) (hknown : KnownOwner s) (hmem : s ∈ socks) (hport : s.rport ≠ 0)
    (halone : AloneIn socks s) (hrow : (i.apply socks st).conns.lookup s.key = some c) :
    Backed i.procs s c ∧ Consistent s.key c := by
  have hall : s ∈ socks → s.key = s.key → Backed i.procs s c ∧ Consistent s.key c := by
    refine Store.applySockets_induction
      (R := fun done k c => (s ∈ done → k = s.key → Backed i.procs s c) ∧ Consistent k c)
      (Q := fun k c => s ∈ socks → k = s.key → Backed i.procs s c ∧ Consistent k c)
      ?_ ?_ ?_ ?_ ?_ hrow
    · intro k c hold
      exact ⟨by simp, hrows k c hold⟩
    · intro done s' hfront _ _ j
      refine ⟨fun _ hkey => ?_, (Consistent.fresh s'.key _ _).shown _ _ _⟩
      rw [halone s' (mem_of_front hfront) hkey]
      exact backed_showSocket htcp hknown _ _ _
    · rintro done s' hfront - c ⟨-, hc⟩
      refine ⟨fun _ hkey => ?_, hc.shown _ _ _⟩
      rw [halone s' (mem_of_front hfront) hkey]
      exact backed_showSocket htcp hknown _ _ _
    · rintro done s' hfront k c hskip ⟨hdone, hc⟩
      refine ⟨fun hs hkey => ?_, hc⟩
      rw [hkey] at hskip
      exact hdone (mem_of_skipped hport hskip hs) hkey
    · rintro k c shown hshown ⟨hdone, hc⟩ hs rfl
      have hbacked := hdone hs rfl
      have hdone' : shown = true ∨ s.state.terminal = true := by
        by_cases hwait : s.state = .timeWait
        · exact .inr (by rw [hwait]; rfl)
        · exact .inl (hshown s hs rfl hport hwait)
      rw [hbacked.settled htcp hdone']
      exact ⟨hbacked, hc⟩
  exact hall hmem rfl

/-- A poll that shows the socket of a TCP row again, or the poll after the
socket is gone, leaves the row with its owner and its SNI. -/
theorem backed_kept (htcp : s.proto = .tcp) (hknown : KnownOwner s) (hport : s.rport ≠ 0)
    (halone : AloneIn socks s) (hprocs : s.pid.bind i.procs = s.pid.bind procs)
    (hshown : s ∈ socks ∨ s.state.terminal = true) (hkept : ¬ i.Evicts socks st s.key)
    (hrow : st.conns.lookup s.key = some c) (hbacked : Backed procs s c)
    (hconsistent : Consistent s.key c) :
    ∃ c', (i.apply socks st).conns.lookup s.key = some c' ∧ SameOwner c c' ∧ Backed procs s c' ∧
      Consistent s.key c' := by
  obtain ⟨c', shown, hlookup, ⟨hsame, hbacked', hconsistent'⟩, halive⟩ :=
    Store.applySockets_followRows
      (R := fun _ c' => SameOwner c c' ∧ Backed procs s c' ∧ Consistent s.key c') hrow hkept
      ⟨.refl c, hbacked, hconsistent⟩
      (by
        rintro done s' hfront hkey - c' - ⟨hsame, hbacked', hconsistent'⟩
        rw [halone s' (mem_of_front hfront) hkey]
        have hagain := (hbacked'.congr hprocs).sameOwner htcp hknown hconsistent'
        exact ⟨hsame.trans (hagain _ _), (backed_showSocket htcp hknown _ _ _).congr hprocs.symm,
          hconsistent'.shown _ _ _⟩)
      (fun _ _ _ _ _ hc' => hc')
  have hdone : shown = true ∨ s.state.terminal = true := by
    rcases hshown with hmem | hterminal
    · exact .inl (halive.mpr ⟨s, hmem, rfl, hport⟩)
    · exact .inr hterminal
  rw [hbacked'.settled htcp hdone] at hlookup
  exact ⟨c', hlookup, hsame, hbacked', hconsistent'⟩

/-- A poll without any socket on a tuple settles its row as one that was not shown. -/
theorem lookup_apply_of_missing {k : ConnKey} (hmissing : ∀ s ∈ socks, s.key ≠ k)
    (hkept : ¬ i.Evicts socks st k) (hrow : st.conns.lookup k = some c) :
    (i.apply socks st).conns.lookup k = some (Store.settle i.procs (i.clock.read 0) false k
      ((st.startPoll socks i.procs (i.clock.read 0)).udpOwner k) c) := by
  obtain ⟨c', shown, hlookup, rfl, halive⟩ :=
    Store.applySockets_followRows (R := fun _ c' => c' = c) hrow hkept rfl
      (fun done s' hfront hkey => absurd hkey (hmissing s' (mem_of_front hfront)))
      (fun _ _ _ _ _ hc' => hc')
  have hunseen : shown = false := by
    rw [← Bool.not_eq_true, halive]
    rintro ⟨s', hs', hkey, -⟩
    exact hmissing s' hs' hkey
  rw [hunseen] at hlookup
  exact hlookup

/-- A poll without the socket of a live TCP row closes the row. -/
theorem backed_closed (htcp : s.proto = .tcp) (hstate : s.state ≠ .new)
    (hlive : s.state.terminal = false) (hmissing : ∀ s' ∈ socks, s'.key ≠ s.key)
    (hkept : ¬ i.Evicts socks st s.key) (hrow : st.conns.lookup s.key = some c)
    (hbacked : Backed procs s c) :
    ∃ state, (i.apply socks st).conns.lookup s.key =
      some { c with closed := true, state := state } := by
  have hkey : s.key.proto = .tcp := htcp
  have hopen : c.closed = false := hbacked.closed.trans hlive
  have hnew : c.state ≠ .new := by
    rw [hbacked.state]
    exact hstate
  refine ⟨if c.state = .timeWait then .timeWait else .closed, ?_⟩
  apply (lookup_apply_of_missing hmissing hkept hrow).trans
  simp [Store.settle, hkey, hopen, hnew]

/-- The poll that shows a live socket on its closed row again takes the owner
and the SNI away. -/
theorem reopened_lost (htcp : s.proto = .tcp) (hlive : s.state.terminal = false) (hmem : s ∈ socks)
    (hport : s.rport ≠ 0) (halone : AloneIn socks s) (hkept : ¬ i.Evicts socks st s.key)
    (hrow : st.conns.lookup s.key = some c) (hclosed : c.closed = true)
    (hseen : c.fromPacketsOnly = false) :
    ∃ c', (i.apply socks st).conns.lookup s.key = some c' ∧ c'.pid = none ∧ c'.sni = none := by
  obtain ⟨c', shown, hlookup, ⟨-, hlost⟩, -⟩ :=
    Store.applySockets_followRows
      (R := fun done c' => (s ∉ done → c' = c) ∧
        (s ∈ done → c'.ownerAmbiguous = true ∧ c'.pid = none ∧ c'.sni = none)) hrow hkept
      ⟨fun _ => rfl, by simp⟩
      (by
        rintro done s' hfront hkey - c' - ⟨hbefore, hafter⟩
        obtain rfl := halone s' (mem_of_front hfront) hkey
        refine ⟨by simp, fun _ => ?_⟩
        rw [showSocket_sni htcp]
        by_cases hdone : s' ∈ done
        · obtain ⟨hdispute, hpid, hsni⟩ := hafter hdone
          rw [hsni, ite_self]
          obtain ⟨-, hd, hp, -⟩ | ⟨-, -, hd, hp, -⟩ | ⟨-, hclean, -⟩ :=
            showSocket_tcp_cases htcp i.procs (i.clock.read 0)
              ((st.startPoll socks i.procs (i.clock.read 0)).udpOwner s'.key) c'
          · exact ⟨hd, hp, rfl⟩
          · exact ⟨hd, hp.trans hpid, rfl⟩
          · rw [hdispute] at hclean
            contradiction
        · obtain rfl := hbefore hdone
          have hreused : Store.tcpReused i.procs s' c' = true := by
            simp [Store.tcpReused, hclosed, hseen, hlive]
          rw [if_pos hreused]
          obtain ⟨-, hd, hp, -⟩ | ⟨hfits, -⟩ | ⟨hfits, -⟩ :=
            showSocket_tcp_cases htcp i.procs (i.clock.read 0)
              ((st.startPoll socks i.procs (i.clock.read 0)).udpOwner s'.key) c'
          · exact ⟨hd, hp, rfl⟩
          · rw [hreused] at hfits
            contradiction
          · rw [hreused] at hfits
            contradiction)
      (by
        rintro done s' - hskip c' ⟨hbefore, hafter⟩
        have hother : s ≠ s' := by
          rintro rfl
          exact hskip.elim (· rfl) hport
        simp only [List.mem_append, List.mem_singleton, hother, or_false]
        exact ⟨hbefore, hafter⟩)
  obtain ⟨-, hpid, hsni⟩ := hlost hmem
  refine ⟨_, hlookup, ?_, (settle_sni ..).trans hsni⟩
  have hkey : s.key.proto = .tcp := htcp
  obtain heq | ⟨state, heq⟩ | ⟨hudp, -⟩ := settle_cases i.procs (i.clock.read 0) shown s.key
    ((st.startPoll socks i.procs (i.clock.read 0)).udpOwner s.key) c'
  · rw [heq]
    exact hpid
  · rw [heq]
    exact hpid
  · rw [hkey] at hudp
    contradiction

end TcpPoll

/-! ## A UDP row and its socket -/

/-- Attribution looks at the owner and the binding of a row only. -/
theorem attributeUdp_restate (c : Conn) (owner : UdpMatch) (procs : Option (ℤ → Option ProcInfo))
    (state : SockState) (lastSeen : ℕ) (only closed : Bool) :
    attributeUdp
        { c with state := state, lastSeen := lastSeen, fromPacketsOnly := only, closed := closed }
        owner procs =
      { attributeUdp c owner procs with
        state := state, lastSeen := lastSeen, fromPacketsOnly := only, closed := closed } := by
  unfold attributeUdp
  dsimp only
  split
  · rfl
  · split
    · split
      · split <;> rfl
      · rfl
    · split <;> rfl
    · rfl

/-- Attributing a row to the same owner once more changes nothing. -/
def Fixed (owner : UdpMatch) (procs : ProcMap) (c : Conn) : Prop :=
  attributeUdp c owner (some procs) = c

theorem fixed_of_disputed {c : Conn} (h : c.ownerAmbiguous = true) (owner : UdpMatch)
    (procs : ProcMap) : Fixed owner procs c :=
  attributeUdp_of_ambiguous h owner (some procs)

theorem fixed_attributeUdp (c : Conn) (owner : UdpMatch) (procs : ProcMap) :
    Fixed owner procs (attributeUdp c owner (some procs)) := by
  by_cases hc : c.ownerAmbiguous = true
  · rw [attributeUdp_of_ambiguous hc]
    exact fixed_of_disputed hc owner procs
  · rw [Bool.not_eq_true] at hc
    cases owner with
    | missing =>
        cases hgen : c.udpGeneration with
        | none => simp [Fixed, attributeUdp, hc, hgen]
        | some g => simp [Fixed, attributeUdp, hc, hgen]
    | ambiguous => simp [Fixed, attributeUdp, hc]
    | unique o =>
        by_cases hfits : c.firstSeen ≥ o.since ∧ c.udpGeneration.all (· == o.generation)
        · cases hpid : o.pid with
          | none => simp [Fixed, attributeUdp, hc, hfits, hpid]
          | some pid => simp [Fixed, attributeUdp, hc, hfits, hpid, ← Option.or_assoc]
        · have hdispute : attributeUdp c (.unique o) (some procs) = c.dispute := by
            simp only [attributeUdp, hc, hfits]
            rfl
          rw [hdispute]
          exact fixed_of_disputed rfl _ _

theorem Fixed.restate {owner : UdpMatch} {procs : ProcMap} {c : Conn} (h : Fixed owner procs c)
    (state : SockState) (lastSeen : ℕ) (only closed : Bool) :
    Fixed owner procs
      { c with
        state := state
        lastSeen := lastSeen
        fromPacketsOnly := only
        closed := closed } := by
  unfold Fixed at h ⊢
  rw [attributeUdp_restate, h]

/-- A row that attribution leaves alone has taken over what the one matching
socket says, unless it is in dispute. -/
theorem Fixed.bound {o : UdpOwner} {procs : ProcMap} {c : Conn} (h : Fixed (.unique o) procs c)
    (hclear : c.ownerAmbiguous = false) :
    c.udpGeneration = some o.generation ∧ ∀ p, o.pid = some p → c.pid = some p := by
  obtain ⟨hmissing, -⟩ | ⟨o', howner, -, -, pname, heq⟩ | heq :=
    attributeUdp_cases c (.unique o) (some procs) hclear
  · contradiction
  · obtain rfl : o = o' := by simpa using howner
    rw [h] at heq
    refine ⟨by rw [heq], fun p hp => ?_⟩
    rw [heq, hp]
    rfl
  · rw [h] at heq
    rw [heq] at hclear
    contradiction

/-- Only the process of the matching socket is looked up. -/
theorem Fixed.congr {o : UdpOwner} {procs procs' : ProcMap} {c : Conn}
    (h : Fixed (.unique o) procs c) (hprocs : o.pid.bind procs' = o.pid.bind procs) :
    Fixed (.unique o) procs' c := by
  have hsame : attributeUdp c (.unique o) (some procs') =
      attributeUdp c (.unique o) (some procs) := by
    cases hpid : o.pid with
    | none => simp [attributeUdp, hpid]
    | some p =>
        have hp : procs' p = procs p := by simpa [hpid] using hprocs
        simp [attributeUdp, hpid, hp]
  unfold Fixed at h ⊢
  rw [hsame, h]

/-- The socket of the table is the socket of the snapshot row, alone and with
the owner that the row has. -/
structure SocketOf (procs : ProcMap) (s : SockEntry) (u : UdpSocket) : Prop where
  localAddr : u.entry.local = s.local
  remote : u.entry.remote = s.remote
  rport : u.entry.rport = s.rport
  cookie : u.entry.cookie = s.cookie
  single : u.entry.ambiguous = false
  pid : u.entry.pid = s.pid
  started : (startedOf procs s.pid).or u.ownerStarted = u.ownerStarted

/-- What a socket of the table says about the owner of the tuples it covers. -/
def socketOwner (u : UdpSocket) : UdpOwner where
  generation := u.generation
  since := u.since
  pid := u.entry.pid
  started := u.ownerStarted

section Socket

variable {procs procs' : ProcMap} {s : SockEntry} {u : UdpSocket}

theorem socketOf_of_origin {since before after : ℕ} {previous : UdpTable}
    (h : Origin procs since previous before after s u) (hknown : KnownOwner s)
    (hsingle : u.entry.ambiguous = false) : SocketOf procs s u := by
  obtain ⟨p, hpid⟩ := Option.isSome_iff_exists.mp hknown.pid
  cases h with
  | carried old hmem hcontinues =>
      refine ⟨rfl, rfl, rfl, rfl, hsingle, ?_, ?_⟩
      · have hclear : (s.ambiguous || old.entry.ambiguous) = false := hsingle
        simp [UdpSocket.carry, hclear, hpid]
      · simp [UdpSocket.carry, hpid, ← Option.or_assoc]
  | fresh generation hlt hle =>
      refine ⟨rfl, rfl, rfl, rfl, hsingle, rfl, ?_⟩
      simp [UdpSocket.fresh]

theorem SocketOf.continues (h : SocketOf procs s u)
    (hprocs : s.pid.bind procs' = s.pid.bind procs) : u.continues procs' s = true := by
  have hstarted : contradicts u.ownerStarted (startedOf procs' s.pid) = false := by
    rw [startedOf_eq, hprocs, ← startedOf_eq, ← h.started]
    cases startedOf procs s.pid <;> simp [contradicts]
  have hpid : contradicts s.pid u.entry.pid = false := by
    rw [h.pid]
    cases s.pid <;> simp [contradicts]
  simp [UdpSocket.continues, h.localAddr, h.remote, h.rport, h.cookie, hstarted, hpid]

/-- Carrying the socket on into its own row changes nothing. -/
theorem SocketOf.carry (h : SocketOf procs s u) (hknown : KnownOwner s)
    (hprocs : s.pid.bind procs' = s.pid.bind procs) :
    SocketOf procs s (u.carry procs' s) ∧ socketOwner (u.carry procs' s) = socketOwner u := by
  obtain ⟨p, hpid⟩ := Option.isSome_iff_exists.mp hknown.pid
  have hstarted : startedOf procs' s.pid = startedOf procs s.pid := by
    rw [startedOf_eq, hprocs, ← startedOf_eq]
  have hsame : (startedOf procs' (s.pid.or u.entry.pid)).or u.ownerStarted = u.ownerStarted := by
    have hor : s.pid.or u.entry.pid = s.pid := by rw [hpid, Option.some_or]
    rw [hor, hstarted, h.started]
  have hclear : (s.ambiguous || u.entry.ambiguous) = false := by
    rw [hknown.single, h.single]
    rfl
  refine ⟨⟨rfl, rfl, rfl, rfl, hclear, ?_, ?_⟩, ?_⟩
  · simp [UdpSocket.carry, hclear, hpid]
  · simp only [UdpSocket.carry]
    rw [hsame]
    exact h.started
  · simp only [socketOwner, UdpSocket.carry, UdpOwner.mk.injEq]
    refine ⟨trivial, trivial, ?_, hsame⟩
    simp [hclear, hpid, h.pid]

end Socket

/-- The rows differ at most in what a poll rewrites on a row that keeps its
owner. -/
def Restated (c c' : Conn) : Prop :=
  ∃ state lastSeen only closed,
    c' = { c with state := state, lastSeen := lastSeen, fromPacketsOnly := only, closed := closed }

theorem Restated.refl (c : Conn) : Restated c c := ⟨_, _, _, _, rfl⟩

theorem Restated.trans {a b c : Conn} (hab : Restated a b) (hbc : Restated b c) : Restated a c := by
  obtain ⟨_, _, _, _, rfl⟩ := hab
  obtain ⟨_, _, _, _, rfl⟩ := hbc
  exact ⟨_, _, _, _, rfl⟩

theorem Restated.sameOwner {c c' : Conn} (h : Restated c c') : SameOwner c c' := by
  obtain ⟨_, _, _, _, rfl⟩ := h
  exact ⟨rfl, rfl, rfl, rfl⟩

theorem Restated.fixed {c c' : Conn} (h : Restated c c') {owner : UdpMatch} {procs : ProcMap}
    (hfixed : Fixed owner procs c) : Fixed owner procs c' := by
  obtain ⟨state, lastSeen, only, closed, rfl⟩ := h
  exact hfixed.restate state lastSeen only closed

section UdpPoll

variable {i : PollInput} {socks : List SockEntry} {st : Store} {s : SockEntry} {c : Conn}
  {k : ConnKey}

theorem apply_udpOwner (i : PollInput) (socks : List SockEntry) (st : Store) (k : ConnKey) :
    (i.apply socks st).udpOwner k =
      (st.startPoll socks i.procs (i.clock.read 0)).udpOwner k :=
  Store.applySockets_udpOwner ..

theorem apply_coveringSockets (i : PollInput) (socks : List SockEntry) (st : Store)
    (k : ConnKey) : Store.coveringSockets (i.apply socks st) k =
      Store.coveringSockets (st.startPoll socks i.procs (i.clock.read 0)) k := by
  unfold Store.coveringSockets PollInput.apply
  rw [Store.applySockets_udpSockets]

/-- After a poll, attribution leaves the row of a UDP tuple of the snapshot
alone. -/
theorem fixed_apply (hrows : ∀ k c, st.conns.lookup k = some c → Consistent k c)
    (hudp : s.proto = .udp) (hfrom : FromTable s) (hmem : s ∈ socks) (hport : s.rport ≠ 0)
    (hrow : (i.apply socks st).conns.lookup s.key = some c) :
    Fixed ((i.apply socks st).udpOwner s.key) i.procs c ∧ Consistent s.key c := by
  have hwait : s.state ≠ .timeWait := by
    rw [hfrom.udp hudp]
    unfold udpState
    split <;> simp
  rw [apply_udpOwner]
  have hshow : ∀ s', s'.key = s.key → ∀ c,
      Fixed ((st.startPoll socks i.procs (i.clock.read 0)).udpOwner s.key) i.procs
        (Store.showSocket i.procs (i.clock.read 0) s'
          ((st.startPoll socks i.procs (i.clock.read 0)).udpOwner s.key) c) := by
    intro s' hkey c
    have hudp' : s'.proto = .udp := (congrArg ConnKey.proto hkey).trans hudp
    rw [Store.showSocket_udp hudp']
    exact fixed_attributeUdp _ _ _
  have hall : s ∈ socks → s.key = s.key →
      Fixed ((st.startPoll socks i.procs (i.clock.read 0)).udpOwner s.key) i.procs c ∧
        Consistent s.key c := by
    refine Store.applySockets_induction
      (R := fun done k c => (s ∈ done → k = s.key →
        Fixed ((st.startPoll socks i.procs (i.clock.read 0)).udpOwner s.key) i.procs c) ∧
          Consistent k c)
      (Q := fun k c => s ∈ socks → k = s.key →
        Fixed ((st.startPoll socks i.procs (i.clock.read 0)).udpOwner s.key) i.procs c ∧
          Consistent k c) ?_ ?_ ?_ ?_ ?_ hrow
    · intro k c hold
      exact ⟨by simp, hrows k c hold⟩
    · intro done s' _ _ _ j
      refine ⟨fun _ hkey => ?_, (Consistent.fresh s'.key _ _).shown _ _ _⟩
      rw [hkey]
      exact hshow s' hkey _
    · rintro done s' - - c ⟨-, hc⟩
      refine ⟨fun _ hkey => ?_, hc.shown _ _ _⟩
      rw [hkey]
      exact hshow s' hkey _
    · rintro done s' - k c hskip ⟨hdone, hc⟩
      refine ⟨fun hs hkey => ?_, hc⟩
      rw [hkey] at hskip
      exact hdone (mem_of_skipped hport hskip hs) hkey
    · rintro k c shown hshown ⟨hdone, hc⟩ hs rfl
      have hseen := hshown s hs rfl hport hwait
      have hsettle : ∀ owner, Store.settle i.procs (i.clock.read 0) shown s.key owner c = c := by
        intro owner
        simp [Store.settle, hseen]
      rw [hsettle]
      exact ⟨hdone hs rfl, hc⟩
  exact hall hmem rfl

/-- A poll rewrites a row that attribution leaves alone without touching its
owner. -/
theorem fixed_kept (hudp : k.proto = .udp) (hkept : ¬ i.Evicts socks st k)
    (hrow : st.conns.lookup k = some c)
    (hfixed : Fixed ((i.apply socks st).udpOwner k) i.procs c) :
    ∃ c', (i.apply socks st).conns.lookup k = some c' ∧ Restated c c' := by
  rw [apply_udpOwner] at hfixed
  apply Store.applySockets_follow (R := Restated c) hrow hkept (.refl c)
  · rintro done s - hkey - c' - hc'
    have hudp' : s.proto = .udp := (congrArg ConnKey.proto hkey).trans hudp
    have hmarked : Restated c (Store.markShown (i.clock.read 0) s c') := hc'.trans ⟨_, _, _, _, rfl⟩
    rw [Store.showSocket_udp hudp', hmarked.fixed hfixed]
    exact hmarked
  · intro c' shown hc'
    obtain heq | ⟨state, heq⟩ | ⟨-, -, -, -, heq⟩ := settle_cases i.procs (i.clock.read 0) shown k
      ((st.startPoll socks i.procs (i.clock.read 0)).udpOwner k) c'
    · rw [heq]
      exact hc'
    · rw [heq]
      exact hc'.trans ⟨_, _, _, _, rfl⟩
    · rw [heq, hc'.fixed hfixed]
      exact hc'.trans ⟨_, _, _, _, rfl⟩

/-- The row is in dispute and names no process. -/
def Disowned (c : Conn) : Prop := c.ownerAmbiguous = true ∧ c.pid = none

/-- A socket other than the one a row is bound to disputes the row. -/
theorem disowned_showSocket (hudp : s.proto = .udp) {o : UdpOwner} {g : ℕ}
    (hother : g ≠ o.generation) (procs : ProcMap) (t : ℕ)
    (hc : (c.ownerAmbiguous = false ∧ c.udpGeneration = some g) ∨ Disowned c) :
    Disowned (Store.showSocket procs t s (.unique o) c) := by
  rw [Store.showSocket_udp hudp]
  rcases hc with ⟨hclear, hbound⟩ | ⟨hdispute, hpid⟩
  · have heq : attributeUdp (Store.markShown t s c) (.unique o) (some procs) =
        (Store.markShown t s c).dispute := by
      simp [attributeUdp, Store.markShown, hclear, hbound, hother]
    rw [heq]
    exact ⟨rfl, rfl⟩
  · rw [attributeUdp_of_ambiguous (c := Store.markShown t s c) hdispute]
    exact ⟨hdispute, hpid⟩

/-- A poll that finds another socket on a bound row disputes it. -/
theorem rebound_lost (hudp : s.proto = .udp) (hmem : s ∈ socks) (hport : s.rport ≠ 0)
    (hkept : ¬ i.Evicts socks st s.key) (hrow : st.conns.lookup s.key = some c) {o : UdpOwner}
    (howner : (i.apply socks st).udpOwner s.key = .unique o) {g : ℕ}
    (hclear : c.ownerAmbiguous = false) (hbound : c.udpGeneration = some g)
    (hother : g ≠ o.generation) :
    ∃ c', (i.apply socks st).conns.lookup s.key = some c' ∧ c'.pid = none := by
  rw [apply_udpOwner] at howner
  obtain ⟨c', shown, hlookup, ⟨-, hlost⟩, -⟩ :=
    Store.applySockets_followRows
      (R := fun done c' => ((c'.ownerAmbiguous = false ∧ c'.udpGeneration = some g) ∨ Disowned c') ∧
        (s ∈ done → Disowned c')) hrow hkept ⟨.inl ⟨hclear, hbound⟩, by simp⟩
      (by
        rintro done s' - hkey - c' - ⟨hc', -⟩
        have hudp' : s'.proto = .udp := (congrArg ConnKey.proto hkey).trans hudp
        rw [howner]
        have hlost := disowned_showSocket hudp' hother i.procs (i.clock.read 0) hc'
        exact ⟨.inr hlost, fun _ => hlost⟩)
      (by
        rintro done s' - hskip c' ⟨hc', hdone⟩
        exact ⟨hc', fun hs => hdone (mem_of_skipped hport hskip hs)⟩)
  obtain ⟨hdispute, hpid⟩ := hlost hmem
  refine ⟨_, hlookup, ?_⟩
  obtain heq | ⟨state, heq⟩ | ⟨-, -, -, -, heq⟩ := settle_cases i.procs (i.clock.read 0) shown s.key
    ((st.startPoll socks i.procs (i.clock.read 0)).udpOwner s.key) c'
  · rw [heq]
    exact hpid
  · rw [heq]
    exact hpid
  · rw [heq, attributeUdp_of_ambiguous hdispute]
    exact hpid

/-- A poll without any socket on a UDP tuple closes its row. -/
theorem unmatched_closed (hudp : k.proto = .udp) (hmissing : ∀ s ∈ socks, s.key ≠ k)
    (hkept : ¬ i.Evicts socks st k) (hrow : st.conns.lookup k = some c)
    (howner : (i.apply socks st).udpOwner k = .missing) :
    ∃ c', (i.apply socks st).conns.lookup k = some c' ∧ Restated c c' := by
  rw [apply_udpOwner] at howner
  have hlookup := lookup_apply_of_missing hmissing hkept hrow
  rw [howner] at hlookup
  refine ⟨_, hlookup, ?_⟩
  simp only [Store.settle, hudp, Store.udpActive]
  exact ⟨_, _, _, _, rfl⟩

/-- The addresses of this host that a snapshot shows. -/
theorem apply_localIps (i : PollInput) (socks : List SockEntry) (st : Store) :
    (i.apply socks st).localIps = st.localIps ∪
      ((socks.filter fun s => !s.local.isUnspecified && !s.local.isMulticast).map
        SockEntry.local).toFinset :=
  Store.applySockets_localIps ..

/-- A snapshot whose rows were all applied before shows no new address. -/
theorem apply_localIps_of_subset {i j : PollInput} {socks socks' : List SockEntry} {st st' : Store}
    (hsub : socks' ⊆ socks) (hbefore : (i.apply socks st).localIps ⊆ st'.localIps) :
    (j.apply socks' st').localIps = st'.localIps := by
  rw [apply_localIps, Finset.union_eq_left]
  intro ip hip
  rw [List.mem_toFinset, List.mem_map] at hip
  obtain ⟨s, hs, rfl⟩ := hip
  rw [List.mem_filter] at hs
  apply hbefore
  rw [apply_localIps, Finset.mem_union, List.mem_toFinset]
  exact .inr (List.mem_map.mpr ⟨s, List.mem_filter.mpr ⟨hsub hs.1, hs.2⟩, rfl⟩)

/-- A tuple covered by one socket alone has the owner of that socket. -/
theorem udpOwner_of_single {st : Store} {u : UdpSocket} (hlocal : k.local ∈ st.localIps)
    (h : Store.coveringSockets st k = [u]) (hsingle : u.entry.ambiguous = false) :
    st.udpOwner k = .unique (socketOwner u) := by
  rw [Store.udpOwner_eq st hlocal, h]
  simp [hsingle, socketOwner]

theorem udpOwner_of_uncovered {st : Store} (h : Store.coveringSockets st k = []) :
    st.udpOwner k = .missing := by
  by_cases hlocal : k.local ∈ st.localIps
  · rw [Store.udpOwner_eq st hlocal, h]
  · unfold Store.udpOwner
    rw [if_pos hlocal]

theorem coveringRows_sublist {socks' : List SockEntry} (h : socks'.Sublist socks) (k : ConnKey) :
    (Store.coveringRows socks' k).Sublist (Store.coveringRows socks k) :=
  ((h.filter _).filter _).filter _

/-- The counter of generations never steps back. -/
theorem le_apply_generation (i : PollInput) (socks : List SockEntry) (st : Store) :
    st.socketGeneration ≤ (i.apply socks st).socketGeneration := by
  unfold PollInput.apply
  rw [Store.applySockets_socketGeneration]
  exact st.le_startPoll_generation ..

/-- A poll that shows the socket of a tuple again carries it on with its
generation and its owner. -/
theorem carried_apply {u : UdpSocket} {procs : ProcMap}
    (hsockets : Store.coveringSockets st k = [u]) (hrows : Store.coveringRows socks k = [s])
    (hknown : KnownOwner s)
    (hsocket : SocketOf procs s u) (hprocs : s.pid.bind i.procs = s.pid.bind procs) :
    ∃ u', Store.coveringSockets (i.apply socks st) k = [u'] ∧ SocketOf procs s u' ∧
      socketOwner u' = socketOwner u := by
  have hcarried := Store.coveringSockets_carried (i.clock.read 0) hsockets hrows
    (hsocket.continues hprocs)
  rw [← apply_coveringSockets] at hcarried
  exact ⟨_, hcarried, hsocket.carry hknown hprocs⟩

/-- Without rows that cover a tuple no socket covers it. -/
theorem uncovered_apply (hrows : Store.coveringRows socks k = []) :
    Store.coveringSockets (i.apply socks st) k = [] := by
  have hpairs := Store.coveringSockets_forall₂ st socks i.procs (i.clock.read 0) k
  rw [hrows, List.forall₂_nil_left_iff, ← apply_coveringSockets] at hpairs
  exact hpairs

/-- A poll that shows a socket on a tuple that none covered gives it a new
generation. -/
theorem fresh_apply (hsockets : Store.coveringSockets st k = [])
    (hrows : Store.coveringRows socks k = [s]) (hsingle : s.ambiguous = false) :
    ∃ u, Store.coveringSockets (i.apply socks st) k = [u] ∧ u.entry.ambiguous = false ∧
      st.socketGeneration < u.generation := by
  obtain ⟨u, hcovers, horigin⟩ :=
    Store.coveringSockets_of_single st i.procs (i.clock.read 0) hrows
  rw [← apply_coveringSockets] at hcovers
  cases horigin with
  | carried old hmem hcontinues =>
      obtain ⟨-, -, hport, hcover⟩ := Store.mem_coveringRows.mp
        (hrows ▸ List.mem_singleton_self s : s ∈ Store.coveringRows socks k)
      have hold : old ∈ Store.coveringSockets st k := by
        refine List.mem_filter.mpr ⟨hport ▸ hmem, ?_⟩
        rw [← UdpSocket.covers_carry hcontinues k]
        exact hcover
      rw [hsockets] at hold
      contradiction
  | fresh generation hlt hle => exact ⟨_, hcovers, hsingle, hlt⟩

end UdpPoll

/-! ## A gap between two readings -/

/-- The same snapshot read three times, some tables failing the second time. -/
structure Reread where
  read : SocketTable → Option (List Char)
  owners : ℕ → Option (List ℤ)
  failed : SocketTable → Bool
  first : PollInput
  second : PollInput
  third : PollInput

namespace Reread

/-- The snapshot of all tables. -/
def socks (r : Reread) : List SockEntry := snapshot r.read r.owners

/-- The snapshot of the tables that can still be read. -/
def remaining (r : Reread) : List SockEntry := snapshot (readExcept r.read r.failed) r.owners

def after₁ (r : Reread) (st : Store) : Store := r.first.apply r.socks st

def after₂ (r : Reread) (st : Store) : Store := r.second.apply r.remaining (r.after₁ st)

def after₃ (r : Reread) (st : Store) : Store := r.third.apply r.socks (r.after₂ st)

/-- Every socket of the snapshot has a known owner, which is the same process
in all three polls, and no two sockets hold one TCP tuple. -/
structure Proper (r : Reread) : Prop where
  known : ∀ s ∈ r.socks, KnownOwner s
  second : ∀ s ∈ r.socks, s.pid.bind r.second.procs = s.pid.bind r.first.procs
  third : ∀ s ∈ r.socks, s.pid.bind r.third.procs = s.pid.bind r.first.procs
  tuples : ∀ s ∈ r.socks, s.proto = .tcp → AloneIn r.socks s

/-- The socket is alive, and its row has an owner or an SNI to lose. -/
def AtRisk (s : SockEntry) (c : Conn) : Prop :=
  s.state.terminal = false ∧ (c.pid.isSome = true ∨ (s.proto = .tcp ∧ c.sni.isSome = true))

theorem remaining_sublist (r : Reread) : r.remaining.Sublist r.socks :=
  snapshot_readExcept_sublist r.read r.failed r.owners

section Row

variable {r : Reread} {st : Store} {s : SockEntry} {c₁ : Conn}

/-- A TCP row keeps its owner and its SNI over the gap unless its live socket is
missing and the row has something to lose. -/
theorem tcp_keeps_iff (hrows : ∀ k c, st.conns.lookup k = some c → Consistent k c)
    (h : r.Proper) (hs : s ∈ r.socks) (htcp : s.proto = .tcp) (hport : s.rport ≠ 0)
    (hrow : (r.after₁ st).conns.lookup s.key = some c₁)
    (hkept₂ : ¬ r.second.Evicts r.remaining (r.after₁ st) s.key)
    (hkept₃ : ¬ r.third.Evicts r.socks (r.after₂ st) s.key) :
    (∃ c₃, (r.after₃ st).conns.lookup s.key = some c₃ ∧ SameOwner c₁ c₃) ↔
      ¬ (s ∉ r.remaining ∧ AtRisk s c₁) := by
  have hknown := h.known s hs
  have halone := h.tuples s hs htcp
  have halone' : AloneIn r.remaining s := fun s' hs' => halone s' (r.remaining_sublist.subset hs')
  obtain ⟨hbacked, hconsistent⟩ := backed_apply hrows htcp hknown hs hport halone hrow
  by_cases hsafe : s ∈ r.remaining ∨ s.state.terminal = true
  · obtain ⟨c₂, hrow₂, hsame₂, hbacked₂, hconsistent₂⟩ := backed_kept htcp hknown hport halone'
      (h.second s hs) hsafe hkept₂ hrow hbacked hconsistent
    obtain ⟨c₃, hrow₃, hsame₃, -, -⟩ := backed_kept htcp hknown hport halone (h.third s hs)
      (.inl hs) hkept₃ hrow₂ hbacked₂ hconsistent₂
    refine iff_of_true ⟨c₃, hrow₃, hsame₂.trans hsame₃⟩ ?_
    rintro ⟨hmissing, hlive, -⟩
    rcases hsafe with hmem | hterminal
    · exact hmissing hmem
    · rw [hlive] at hterminal
      contradiction
  · rw [not_or, Bool.not_eq_true] at hsafe
    obtain ⟨hmissing, hlive⟩ := hsafe
    have hnone : ∀ s' ∈ r.remaining, s'.key ≠ s.key := by
      intro s' hs' hkey
      exact hmissing (halone' s' hs' hkey ▸ hs')
    obtain ⟨state, hrow₂⟩ := backed_closed htcp (fromTable_of_mem_snapshot hs).known hlive hnone
      hkept₂ hrow hbacked
    obtain ⟨c₃, hrow₃, hpid, hsni⟩ := reopened_lost htcp hlive hs hport halone hkept₃ hrow₂ rfl
      hbacked.live
    constructor
    · rintro ⟨c, hlookup, hsame⟩ ⟨-, -, hrisk⟩
      obtain rfl : c₃ = c := Option.some.inj (hrow₃.symm.trans hlookup)
      rcases hrisk with hp | ⟨-, hn⟩
      · rw [← hsame.pid, hpid] at hp
        contradiction
      · rw [← hsame.sni, hsni] at hn
        contradiction
    · intro hsafe
      have hrisk : ¬ (c₁.pid.isSome = true ∨ (s.proto = .tcp ∧ c₁.sni.isSome = true)) :=
        fun hrisk => hsafe ⟨hmissing, hlive, hrisk⟩
      have hpid₁ : c₁.pid = none := by
        cases hp : c₁.pid with
        | none => rfl
        | some p => exact absurd (.inl (by rw [hp]; rfl)) hrisk
      have hsni₁ : c₁.sni = none := by
        cases hn : c₁.sni with
        | none => rfl
        | some n => exact absurd (.inr ⟨htcp, by rw [hn]; rfl⟩) hrisk
      have hconsistent₃ : Consistent s.key c₃ :=
        consistent_apply (consistent_apply (consistent_apply hrows r.first r.socks) r.second
          r.remaining) r.third r.socks s.key c₃ hrow₃
      obtain ⟨hstarted₁, hpname₁⟩ := unowned hconsistent hpid₁
      obtain ⟨hstarted₃, hpname₃⟩ := unowned hconsistent₃ hpid
      exact ⟨c₃, hrow₃, hpid.trans hpid₁.symm, hstarted₃.trans hstarted₁.symm,
        hpname₃.trans hpname₁.symm, hsni.trans hsni₁.symm⟩

/-- Two polls under the owner of the first leave a UDP row that attribution
leaves alone with its owner. -/
theorem udp_kept {k : ConnKey} (hudp : k.proto = .udp)
    (hrow : (r.after₁ st).conns.lookup k = some c₁)
    (hkept₂ : ¬ r.second.Evicts r.remaining (r.after₁ st) k)
    (hkept₃ : ¬ r.third.Evicts r.socks (r.after₂ st) k)
    (hfixed₂ : Fixed ((r.after₂ st).udpOwner k) r.second.procs c₁)
    (hfixed₃ : Fixed ((r.after₃ st).udpOwner k) r.third.procs c₁) :
    ∃ c₃, (r.after₃ st).conns.lookup k = some c₃ ∧ SameOwner c₁ c₃ := by
  obtain ⟨c₂, hrow₂, hsame₂⟩ := fixed_kept hudp hkept₂ hrow hfixed₂
  obtain ⟨c₃, hrow₃, hsame₃⟩ := fixed_kept hudp hkept₃ hrow₂ (hsame₂.fixed hfixed₃)
  exact ⟨c₃, hrow₃, (hsame₂.trans hsame₃).sameOwner⟩

/-- The addresses of the host stand still over the gap. -/
theorem localIps_eq (r : Reread) (st : Store) :
    (r.after₂ st).localIps = (r.after₁ st).localIps ∧
      (r.after₃ st).localIps = (r.after₁ st).localIps := by
  have hsecond : (r.after₂ st).localIps = (r.after₁ st).localIps :=
    apply_localIps_of_subset r.remaining_sublist.subset (Finset.Subset.refl _)
  have hbefore : (r.first.apply r.socks st).localIps ⊆ (r.after₂ st).localIps := by
    rw [hsecond]
    exact Finset.Subset.refl _
  have hthird : (r.after₃ st).localIps = (r.after₂ st).localIps :=
    apply_localIps_of_subset (List.Subset.refl r.socks) hbefore
  exact ⟨hsecond, hthird.trans hsecond⟩

/-- A UDP row that is bound to no socket keeps its owner over the gap. -/
theorem unbound_kept (hs : s ∈ r.socks) (hudp : s.proto = .udp)
    (hrow : (r.after₁ st).conns.lookup s.key = some c₁)
    (hkept₂ : ¬ r.second.Evicts r.remaining (r.after₁ st) s.key)
    (hkept₃ : ¬ r.third.Evicts r.socks (r.after₂ st) s.key)
    (hmissing : (r.after₁ st).udpOwner s.key = .missing)
    (hfixed : Fixed .missing r.first.procs c₁) :
    ∃ c₃, (r.after₃ st).conns.lookup s.key = some c₃ ∧ SameOwner c₁ c₃ := by
  -- the socket covers the tuple, so the tuple is not on an address of this host
  have hlocal : s.key.local ∉ (r.after₁ st).localIps := by
    intro hlocal
    have hcovering : s ∈ Store.coveringRows r.socks s.key :=
      Store.mem_coveringRows.mpr ⟨hs, hudp, rfl, Store.covers_key s⟩
    have hpairs := Store.coveringSockets_forall₂ st r.socks r.first.procs
      (r.first.clock.read 0) s.key
    rw [← apply_coveringSockets] at hpairs
    rw [Store.udpOwner_eq _ hlocal] at hmissing
    cases hsockets : Store.coveringSockets (r.after₁ st) s.key with
    | nil =>
        have hempty : Store.coveringSockets (r.first.apply r.socks st) s.key = [] := hsockets
        rw [hempty, List.forall₂_nil_right_iff] at hpairs
        rw [hpairs] at hcovering
        contradiction
    | cons u rest =>
        rw [hsockets] at hmissing
        dsimp only at hmissing
        split at hmissing <;> contradiction
  have hoff : ∀ {st' : Store}, st'.localIps = (r.after₁ st).localIps →
      st'.udpOwner s.key = .missing := by
    intro st' hips
    unfold Store.udpOwner
    rw [hips, if_pos hlocal]
  obtain ⟨hips₂, hips₃⟩ := r.localIps_eq st
  apply udp_kept hudp hrow hkept₂ hkept₃
  · rw [hoff hips₂]
    exact hfixed
  · rw [hoff hips₃]
    exact hfixed

/-- The socket that a tuple of the snapshot has as its owner stands for the only row
that covers the tuple. -/
theorem sole_socket (h : r.Proper) (hs : s ∈ r.socks) (hudp : s.proto = .udp) {o : UdpOwner}
    (howner : (r.after₁ st).udpOwner s.key = .unique o) :
    s.key.local ∈ (r.after₁ st).localIps ∧ ∃ u, o = socketOwner u ∧
      Store.coveringSockets (r.first.apply r.socks st) s.key = [u] ∧
      SocketOf r.first.procs s u ∧ Store.coveringRows r.socks s.key = [s] := by
  obtain ⟨hlocal, u, hsockets, hsingle, ho⟩ := Store.udpOwner_eq_unique howner
  have hcovering : s ∈ Store.coveringRows r.socks s.key :=
    Store.mem_coveringRows.mpr ⟨hs, hudp, rfl, Store.covers_key s⟩
  have hcovers₁ : Store.coveringSockets (r.first.apply r.socks st) s.key = [u] := hsockets
  have hpairs := Store.coveringSockets_forall₂ st r.socks r.first.procs (r.first.clock.read 0) s.key
  rw [← apply_coveringSockets, hcovers₁, List.forall₂_cons_right_iff] at hpairs
  obtain ⟨s', rest, horigin, hrest, hrows⟩ := hpairs
  rw [List.forall₂_nil_right_iff] at hrest
  rw [hrest] at hrows
  obtain rfl : s = s' := by
    rw [hrows] at hcovering
    exact List.mem_singleton.mp hcovering
  exact ⟨hlocal, u, ho, hcovers₁, socketOf_of_origin horigin (h.known s hs) hsingle, hrows⟩

/-- The incomplete reading has the row if the socket is not missing. -/
theorem coveringRows_remaining (hudp : s.proto = .udp)
    (hrows : Store.coveringRows r.socks s.key = [s]) (hmem : s ∈ r.remaining) :
    Store.coveringRows r.remaining s.key = [s] := by
  have hsub : (Store.coveringRows r.remaining s.key).Sublist [s] :=
    hrows ▸ coveringRows_sublist r.remaining_sublist s.key
  have hs₂ : s ∈ Store.coveringRows r.remaining s.key :=
    Store.mem_coveringRows.mpr ⟨hmem, hudp, rfl, Store.covers_key s⟩
  exact hsub.antisymm (List.singleton_sublist.mpr hs₂)

/-- Nothing covers the tuple in the incomplete reading if the socket is missing. -/
theorem coveringRows_missing (hrows : Store.coveringRows r.socks s.key = [s])
    (hmem : s ∉ r.remaining) : Store.coveringRows r.remaining s.key = [] := by
  have hsub : (Store.coveringRows r.remaining s.key).Sublist [s] :=
    hrows ▸ coveringRows_sublist r.remaining_sublist s.key
  rcases List.sublist_singleton.mp hsub with hnil | hself
  · exact hnil
  · have hs₂ : s ∈ Store.coveringRows r.remaining s.key := hself ▸ List.mem_singleton_self s
    exact absurd (Store.mem_coveringRows.mp hs₂).1 hmem

/-- A tuple that no row of a reading covers is the tuple of none of them. -/
theorem key_ne_of_uncovered {socks : List SockEntry} (hudp : s.proto = .udp)
    (hrows : Store.coveringRows socks s.key = []) : ∀ s' ∈ socks, s'.key ≠ s.key := by
  intro s' hs' hkey
  have hudp' : s'.proto = .udp := (congrArg ConnKey.proto hkey).trans hudp
  have hcovers : s' ∈ Store.coveringRows socks s.key :=
    Store.mem_coveringRows.mpr
      ⟨hs', hudp', congrArg ConnKey.lport hkey, hkey ▸ Store.covers_key s'⟩
  rw [hrows] at hcovers
  exact List.not_mem_nil hcovers

/-- A UDP row that is bound to the socket of the snapshot keeps its owner over
the gap if and only if the socket is not missing. -/
theorem bound_keeps_iff (hbounded : GenerationsBounded st)
    (h : r.Proper) (hs : s ∈ r.socks) (hudp : s.proto = .udp) (hport : s.rport ≠ 0)
    (hrow : (r.after₁ st).conns.lookup s.key = some c₁)
    (hkept₂ : ¬ r.second.Evicts r.remaining (r.after₁ st) s.key)
    (hkept₃ : ¬ r.third.Evicts r.socks (r.after₂ st) s.key) {o : UdpOwner}
    (howner : (r.after₁ st).udpOwner s.key = .unique o)
    (hfixed : Fixed (.unique o) r.first.procs c₁) (hclear : c₁.ownerAmbiguous = false) :
    c₁.pid.isSome = true ∧
      ((∃ c₃, (r.after₃ st).conns.lookup s.key = some c₃ ∧ SameOwner c₁ c₃) ↔
        s ∈ r.remaining) := by
  have hknown := h.known s hs
  obtain ⟨p, hpid⟩ := Option.isSome_iff_exists.mp hknown.pid
  obtain ⟨hips₂, hips₃⟩ := r.localIps_eq st
  obtain ⟨hlocal, u, rfl, hcovers₁, hsocket, hrows⟩ := sole_socket h hs hudp howner
  obtain ⟨hbound, howned⟩ := hfixed.bound hclear
  have hprocess : (socketOwner u).pid = s.pid := hsocket.pid
  have hpid₁ := howned p (hprocess.trans hpid)
  refine ⟨by rw [hpid₁]; rfl, ?_⟩
  by_cases hmem : s ∈ r.remaining
  · refine iff_of_true ?_ hmem
    obtain ⟨u₂, hcovers₂, hsocket₂, howner₂⟩ := carried_apply hcovers₁
      (coveringRows_remaining hudp hrows hmem) hknown hsocket (h.second s hs)
    obtain ⟨u₃, hcovers₃, hsocket₃, howner₃⟩ :=
      carried_apply hcovers₂ hrows hknown hsocket₂ (h.third s hs)
    apply udp_kept hudp hrow hkept₂ hkept₃
    · have hm : (r.after₂ st).udpOwner s.key = .unique (socketOwner u₂) :=
        udpOwner_of_single (hips₂ ▸ hlocal) hcovers₂ hsocket₂.single
      rw [hm, howner₂]
      exact hfixed.congr (hprocess ▸ h.second s hs)
    · have hm : (r.after₃ st).udpOwner s.key = .unique (socketOwner u₃) :=
        udpOwner_of_single (hips₃ ▸ hlocal) hcovers₃ hsocket₃.single
      rw [hm, howner₃, howner₂]
      exact hfixed.congr (hprocess ▸ h.third s hs)
  · refine iff_of_false ?_ hmem
    have hrows₂ := coveringRows_missing hrows hmem
    have hcovers₂ : Store.coveringSockets (r.after₂ st) s.key = [] := uncovered_apply hrows₂
    obtain ⟨c₂, hrow₂, hsame₂⟩ := unmatched_closed hudp (key_ne_of_uncovered hudp hrows₂) hkept₂
      hrow (udpOwner_of_uncovered hcovers₂)
    obtain ⟨u₃, hcovers₃, hsingle₃, hfresh⟩ :=
      fresh_apply (i := r.third) hcovers₂ hrows hknown.single
    have hm : (r.after₃ st).udpOwner s.key = .unique (socketOwner u₃) :=
      udpOwner_of_single (hips₃ ▸ hlocal) hcovers₃ hsingle₃
    have hbounded₁ : GenerationsBounded (r.after₁ st) := hbounded.applySockets _ _ _ _
    have hgrow : (r.after₁ st).socketGeneration ≤ (r.after₂ st).socketGeneration :=
      le_apply_generation ..
    have hother : u.generation ≠ u₃.generation := by
      have hle := hbounded₁.owner howner
      change u.generation ≤ _ at hle
      omega
    obtain ⟨state, lastSeen, only, closed, rfl⟩ := hsame₂
    obtain ⟨c₃, hrow₃, hpid₃⟩ := rebound_lost hudp hs hport hkept₃ hrow₂ hm hclear hbound hother
    rintro ⟨c, hlookup, hsame⟩
    obtain rfl : c₃ = c := Option.some.inj (hrow₃.symm.trans hlookup)
    have hlost : some p = none := hpid₁.symm.trans (hsame.pid.symm.trans hpid₃)
    contradiction

end Row

end Reread

/-- In every reachable store, the row of a socket of the snapshot that is not
thrown out has the same owner and SNI after the gap if and only if the socket
was not missing in between, or is gone, or the row had nothing to lose. -/
theorem reread_keeps_iff {now : ℕ} {hist : History Store Event} {st : Store}
    (run : Run Store.system (Store.empty now) hist st) {r : Reread} (h : r.Proper)
    {s : SockEntry} (hs : s ∈ r.socks) (hport : s.rport ≠ 0) {c₁ : Conn}
    (hrow : (r.after₁ st).conns.lookup s.key = some c₁)
    (hkept₂ : ¬ r.second.Evicts r.remaining (r.after₁ st) s.key)
    (hkept₃ : ¬ r.third.Evicts r.socks (r.after₂ st) s.key) :
    (∃ c₃, (r.after₃ st).conns.lookup s.key = some c₃ ∧ SameOwner c₁ c₃) ↔
      ¬ (s ∉ r.remaining ∧ Reread.AtRisk s c₁) := by
  have hrows : ∀ k c, st.conns.lookup k = some c → Consistent k c :=
    consistent_stable.run Consistent.fresh run
  cases hproto : s.proto with
  | tcp => exact Reread.tcp_keeps_iff hrows h hs hproto hport hrow hkept₂ hkept₃
  | udp =>
      have hfrom := fromTable_of_mem_snapshot hs
      have hlive : s.state.terminal = false := by
        rw [hfrom.udp hproto]
        unfold udpState
        split <;> rfl
      obtain ⟨hfixed, hconsistent⟩ := fixed_apply hrows hproto hfrom hs hport hrow
      have hnotTcp : ¬ (s.proto = .tcp ∧ c₁.sni.isSome = true) := by
        rw [hproto]
        simp
      have hrisk : Reread.AtRisk s c₁ ↔ c₁.pid.isSome = true := by
        unfold Reread.AtRisk
        rw [or_iff_left hnotTcp, and_iff_right hlive]
      rw [hrisk]
      have hnothing : c₁.pid = none → ¬ (s ∉ r.remaining ∧ c₁.pid.isSome = true) := by
        rintro hpid ⟨-, hsome⟩
        rw [hpid] at hsome
        contradiction
      cases hdispute : c₁.ownerAmbiguous with
      | true =>
          refine iff_of_true ?_ (hnothing (hconsistent.disputed hdispute).1)
          exact Reread.udp_kept hproto hrow hkept₂ hkept₃ (fixed_of_disputed hdispute _ _)
            (fixed_of_disputed hdispute _ _)
      | false =>
          change Fixed ((r.after₁ st).udpOwner s.key) r.first.procs c₁ at hfixed
          cases howner : (r.after₁ st).udpOwner s.key with
          | ambiguous =>
              rw [howner] at hfixed
              have hdispute' := congrArg Conn.ownerAmbiguous hfixed
              simp [attributeUdp, hdispute] at hdispute'
          | missing =>
              rw [howner] at hfixed
              have hunbound : c₁.pid = none := by
                cases hpid : c₁.pid with
                | none => rfl
                | some p =>
                    have hbound := hconsistent.bound hproto (by rw [hpid]; rfl)
                    obtain ⟨g, hg⟩ := Option.isSome_iff_exists.mp hbound
                    have hdispute' := congrArg Conn.ownerAmbiguous hfixed
                    simp [attributeUdp, hdispute, hg] at hdispute'
              refine iff_of_true ?_ (hnothing hunbound)
              exact Reread.unbound_kept hs hproto hrow hkept₂ hkept₃ howner hfixed
          | unique o =>
              rw [howner] at hfixed
              have hbounded := GenerationsBounded.run (.empty _) run
              obtain ⟨hpid, hiff⟩ := Reread.bound_keeps_iff hbounded h
                hs hproto hport hrow hkept₂ hkept₃ howner hfixed hdispute
              rw [hiff, hpid]
              simp

/-! ## The sample connection over a gap -/

/-- The TCP table of the sample host. -/
def sampleTable (table : SocketTable) : Option (List Char) :=
  match table with
  | .tcp => some "sl\n0: 0100000A:1388 01010101:01BB 01 0:0 0:0 0 0 0 2".toList
  | _ => some []

/-- The TCP table of the sample host, and a UDP table with a socket of the same
process. -/
def sampleTables (table : SocketTable) : Option (List Char) :=
  match table with
  | .udp => some "sl\n0: 0100000A:1389 01010101:0035 01 0:0 0:0 0 0 0 3".toList
  | _ => sampleTable table

/-- The UDP socket of the sample tables. -/
def dnsSocket : SockEntry where
  proto := .udp
  «local» := .ofOctets 10 0 0 1
  lport := 5001
  remote := .ofOctets 1 1 1 1
  rport := 53
  state := .active
  pid := some 7
  ambiguous := false
  cookie := some 3

/-- What each of the three polls meets. -/
def sampleInput (t : ℕ) : PollInput where
  order := .stored
  clock := .still t
  procs := procMap [sampleProc 7 100]

/-- Process 7 has both sockets. -/
def sampleOwners (inode : ℕ) : Option (List ℤ) :=
  if inode = 2 ∨ inode = 3 then some [7] else none

/-- Three readings of the tables, the second of them with failed ones. -/
def sampleReread (read : SocketTable → Option (List Char)) (failed : SocketTable → Bool) :
    Reread where
  read := read
  owners := sampleOwners
  failed := failed
  first := sampleInput 10
  second := sampleInput 20
  third := sampleInput 30

theorem snapshot_sampleTable : snapshot sampleTable sampleOwners = [sampleTcp (some 7)] := by
  decide +kernel

theorem snapshot_sampleTables :
    snapshot sampleTables sampleOwners = [sampleTcp (some 7), dnsSocket] := by
  decide +kernel

theorem sampleReread_proper {read : SocketTable → Option (List Char)}
    (failed : SocketTable → Bool)
    (h : ∀ s ∈ snapshot read sampleOwners, s = sampleTcp (some 7) ∨ s = dnsSocket) :
    (sampleReread read failed).Proper where
  known s hs := by
    rcases h s hs with rfl | rfl <;> exact ⟨rfl, rfl, rfl⟩
  second _ _ := rfl
  third _ _ := rfl
  tuples s hs htcp s' hs' hkey := by
    rcases h s hs with rfl | rfl
    · rcases h s' hs' with rfl | rfl
      · rfl
      · exact absurd hkey (by decide)
    · contradiction

/-- The UDP table cannot be read at the second poll: its socket is missing there, and
the row of the TCP socket keeps its owner. -/
theorem reread_keeps_iff_sample :
    let r := sampleReread sampleTables fun table => table = .udp
    dnsSocket ∈ r.socks ∧ dnsSocket ∉ r.remaining ∧
      ∃ c₁ c₃, (r.after₁ (Store.empty 0)).conns.lookup (sampleKey .tcp) = some c₁ ∧
        c₁.pid = some 7 ∧ (r.after₃ (Store.empty 0)).conns.lookup (sampleKey .tcp) = some c₃ ∧
        SameOwner c₁ c₃ := by
  intro r
  have hsocks : r.socks = [sampleTcp (some 7), dnsSocket] := snapshot_sampleTables
  have hremaining : r.remaining = [sampleTcp (some 7)] := by
    change snapshot (readExcept sampleTables fun table => table = .udp) sampleOwners = _
    decide +kernel
  have hproper : r.Proper := by
    apply sampleReread_proper
    rw [snapshot_sampleTables]
    simp
  have hfirst : r.after₁ (Store.empty 0) =
      (sampleInput 10).apply [sampleTcp (some 7), dnsSocket] (Store.empty 0) := by
    unfold Reread.after₁
    rw [hsocks]
    rfl
  have hsecond : r.after₂ (Store.empty 0) = (sampleInput 20).apply [sampleTcp (some 7)]
      ((sampleInput 10).apply [sampleTcp (some 7), dnsSocket] (Store.empty 0)) := by
    unfold Reread.after₂
    rw [hremaining, hfirst]
    rfl
  obtain ⟨c₁, hrow₁, hpid⟩ : ∃ c₁, (r.after₁ (Store.empty 0)).conns.lookup (sampleKey .tcp) =
      some c₁ ∧ c₁.pid = some 7 := by
    rw [hfirst]
    exact ⟨_, rfl, rfl⟩
  have run : Run Store.system (Store.empty 0) [] (Store.empty 0) := .start
  have hkept := reread_keeps_iff run hproper (s := sampleTcp (some 7))
    (by rw [hsocks]; exact List.mem_cons_self ..) (by decide) hrow₁
    (by
      rw [hremaining, hfirst]
      exact Store.not_pollEvicts_of_room (by decide) _)
    (by
      rw [hsocks, hsecond]
      exact Store.not_pollEvicts_of_room (by decide) _)
  obtain ⟨c₃, hrow₃, hsame⟩ := hkept.mpr fun hrisk => hrisk.1 (by
    rw [hremaining]
    exact List.mem_singleton_self _)
  refine ⟨?_, ?_, c₁, c₃, hrow₁, hpid, hrow₃, hsame⟩
  · rw [hsocks]
    simp
  · rw [hremaining]
    decide

/-- After one poll without any table the sample row has lost its owner. -/
theorem owner_lost_to_failed_read :
    ¬ ∀ (now : ℕ) (hist : History Store Event) (st : Store),
      Run Store.system (Store.empty now) hist st → ∀ r : Reread, r.Proper → ∀ s ∈ r.socks,
        ∀ c₁, (r.after₁ st).conns.lookup s.key = some c₁ →
          ∃ c₃, (r.after₃ st).conns.lookup s.key = some c₃ ∧ SameOwner c₁ c₃ := by
  intro hkept
  let r := sampleReread sampleTable fun _ => true
  have hsocks : r.socks = [sampleTcp (some 7)] := snapshot_sampleTable
  have hproper : r.Proper := by
    apply sampleReread_proper
    rw [snapshot_sampleTable]
    simp
  have hfirst : r.after₁ (Store.empty 0) =
      (sampleInput 10).apply [sampleTcp (some 7)] (Store.empty 0) := by
    unfold Reread.after₁
    rw [hsocks]
    rfl
  have hthird : r.after₃ (Store.empty 0) = (sampleInput 30).apply [sampleTcp (some 7)]
      ((sampleInput 20).apply []
        ((sampleInput 10).apply [sampleTcp (some 7)] (Store.empty 0))) := by
    unfold Reread.after₃ Reread.after₂
    rw [hsocks, hfirst]
    rfl
  obtain ⟨c₁, hrow₁, hpid₁⟩ : ∃ c₁, (r.after₁ (Store.empty 0)).conns.lookup (sampleKey .tcp) =
      some c₁ ∧ c₁.pid = some 7 := by
    rw [hfirst]
    exact ⟨_, rfl, rfl⟩
  obtain ⟨c₃, hrow₃, hsame⟩ := hkept 0 [] (Store.empty 0) .start r hproper (sampleTcp (some 7))
    (by rw [hsocks]; exact List.mem_singleton_self _) c₁ hrow₁
  rw [hthird] at hrow₃
  have hlost : ∀ c ∈ ((sampleInput 30).apply [sampleTcp (some 7)] ((sampleInput 20).apply []
      ((sampleInput 10).apply [sampleTcp (some 7)] (Store.empty 0)))).conns.lookup
        (sampleKey .tcp), c.pid = none := by
    decide
  have hpid := hsame.pid
  rw [hlost c₃ hrow₃, hpid₁] at hpid
  exact Option.some_ne_none 7 hpid.symm

end SocketTrail.History
