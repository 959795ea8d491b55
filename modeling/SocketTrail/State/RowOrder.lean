/-
# The order of the snapshot rows

A snapshot lists the sockets in whatever order the system tables have them. Two
orders of one snapshot lead to stores that differ in the numbers given to the
sockets that are new in this poll and in the order of the buckets, and in
nothing else (`applySockets_perm`).
-/

import SocketTrail.Net.Sockets
import SocketTrail.State.Generations
import SocketTrail.State.Matching
import SocketTrail.State.PollRow

namespace SocketTrail.State

open SocketTrail.Foundation SocketTrail.Net

/-! ## Generations under other numbers -/

/-- The row under other generation numbers. -/
def Conn.rename (ρ : ℕ → ℕ) (c : Conn) : Conn :=
  { c with udpGeneration := c.udpGeneration.map ρ }

/-- The socket under another generation number. -/
def UdpSocket.rename (ρ : ℕ → ℕ) (u : UdpSocket) : UdpSocket :=
  { u with generation := ρ u.generation }

/-- The matching socket under another generation number. -/
def UdpMatch.rename (ρ : ℕ → ℕ) : UdpMatch → UdpMatch
  | .missing => .missing
  | .ambiguous => .ambiguous
  | .unique o => .unique { o with generation := ρ o.generation }

/-- A row without new numbers stays as it is. -/
theorem Conn.rename_of_fixed {ρ : ℕ → ℕ} {c : Conn}
    (h : ∀ g, c.udpGeneration = some g → ρ g = g) : c.rename ρ = c := by
  unfold Conn.rename
  cases hgen : c.udpGeneration with
  | none => rw [Option.map_none, ← hgen]
  | some g => rw [Option.map_some, h g hgen, ← hgen]

/-- The fields that tell who a row belongs to and whether it is open. -/
def Conn.verdict (c : Conn) : Option ℤ × Bool × SockState × Bool :=
  (c.pid, c.ownerAmbiguous, c.state, c.closed)

@[simp]
theorem Conn.verdict_rename (ρ : ℕ → ℕ) (c : Conn) : (c.rename ρ).verdict = c.verdict := rfl

section Rename

variable {ρ : ℕ → ℕ} (hρ : Function.Injective ρ)

include hρ

/-- Numbers are compared, and any other numbers compare the same. -/
theorem all_beq_map (generation : Option ℕ) (g : ℕ) :
    (generation.map ρ).all (· == ρ g) = generation.all (· == g) := by
  cases generation with
  | none => rfl
  | some g' => exact Bool.eq_iff_iff.mpr (by simp [hρ.eq_iff])

theorem attributeUdp_rename (c : Conn) (owner : UdpMatch)
    (procs : Option (ℤ → Option ProcInfo)) :
    attributeUdp (c.rename ρ) (owner.rename ρ) procs = (attributeUdp c owner procs).rename ρ := by
  by_cases hc : c.ownerAmbiguous = true
  · have hdispute : (c.rename ρ).ownerAmbiguous = true := hc
    rw [attributeUdp_of_ambiguous hc, attributeUdp_of_ambiguous hdispute]
  · have hclear : ¬ (c.rename ρ).ownerAmbiguous = true := hc
    unfold attributeUdp
    rw [if_neg hc, if_neg hclear]
    cases owner with
    | missing =>
        have hnone : (c.rename ρ).udpGeneration.isNone = c.udpGeneration.isNone := by
          simp [Conn.rename]
        simp only [UdpMatch.rename, hnone]
        split <;> rfl
    | ambiguous => rfl
    | unique o =>
        have hfits : (c.rename ρ).udpGeneration.all (· == ρ o.generation) =
            c.udpGeneration.all (· == o.generation) := all_beq_map hρ _ _
        have hfirst : (c.rename ρ).firstSeen = c.firstSeen := rfl
        simp only [UdpMatch.rename, hfits, hfirst]
        split
        · cases o.pid <;> rfl
        · rfl

theorem showSocket_rename (procs : ProcMap) (t : ℕ) (s : SockEntry) (owner : UdpMatch)
    (c : Conn) : Store.showSocket procs t s (owner.rename ρ) (c.rename ρ) =
      (Store.showSocket procs t s owner c).rename ρ := by
  unfold Store.showSocket
  cases s.proto with
  | tcp =>
      have hreuse : Store.checkReuse procs s (c.rename ρ) =
          (Store.checkReuse procs s c).rename ρ := by
        have hreused : Store.tcpReused procs s (c.rename ρ) = Store.tcpReused procs s c := rfl
        unfold Store.checkReuse
        rw [hreused]
        split <;> rfl
      dsimp only
      rw [hreuse]
      have hshown : Store.markShown t s ((Store.checkReuse procs s c).rename ρ) =
          (Store.markShown t s (Store.checkReuse procs s c)).rename ρ := rfl
      rw [hshown]
      generalize Store.markShown t s (Store.checkReuse procs s c) = marked
      have hdispute : (marked.rename ρ).ownerAmbiguous = marked.ownerAmbiguous := rfl
      unfold Store.takeOwner
      rw [hdispute]
      split <;> rfl
  | udp => exact attributeUdp_rename hρ (Store.markShown t s c) owner (some procs)

theorem settle_rename (procs : ProcMap) (t : ℕ) (shown : Bool) (k : ConnKey) (owner : UdpMatch)
    (c : Conn) : Store.settle procs t shown k (owner.rename ρ) (c.rename ρ) =
      (Store.settle procs t shown k owner c).rename ρ := by
  have hactive : Store.udpActive (owner.rename ρ) (c.rename ρ) = Store.udpActive owner c := by
    cases owner with
    | missing => rfl
    | ambiguous => rfl
    | unique o => exact all_beq_map hρ _ _
  have hclosed : (c.rename ρ).closed = c.closed := rfl
  have hstate : (c.rename ρ).state = c.state := rfl
  have hseen : (c.rename ρ).lastSeen = c.lastSeen := rfl
  unfold Store.settle
  rw [hactive, hclosed, hstate, hseen, attributeUdp_rename hρ]
  split
  · split
    · split <;> rfl
    · rfl
  · split
    · rfl
    · split
      · rfl
      · split <;> rfl

/-- What a snapshot row does to a row under other numbers. -/
theorem advance_rename (procs : ProcMap) (t : ℕ) (k : ConnKey) (owner : UdpMatch)
    (row : Option Conn × Bool) (s : SockEntry) :
    Store.advance procs t k (owner.rename ρ) (row.map (Option.map (Conn.rename ρ)) id) s =
      (Store.advance procs t k owner row s).map (Option.map (Conn.rename ρ)) id := by
  obtain ⟨c, shown⟩ := row
  unfold Store.advance
  cases c with
  | none =>
      by_cases hwait : s.state = .timeWait
      · simp [hwait]
      · simp only [hwait, false_and, if_false, Prod.map_apply, Option.map_none, Option.getD_none,
          Option.map_some, id_eq, ← showSocket_rename hρ]
        rfl
  | some c =>
      simp [showSocket_rename hρ]

end Rename

namespace Store

/-- The store `st'` is the store `st` under other generation numbers, each bucket
of the socket table in some order. -/
structure Renamed (ρ : Equiv.Perm ℕ) (st st' : Store) : Prop where
  rows : ∀ k, st'.conns.lookup k = (st.conns.lookup k).map (Conn.rename ρ)
  table : ∀ port, (st'.udpSockets port).Perm ((st.udpSockets port).map (UdpSocket.rename ρ))
  dns : st'.dns = st.dns
  localIps : st'.localIps = st.localIps
  packetsSeen : st'.packetsSeen = st.packetsSeen
  socketGeneration : st'.socketGeneration = st.socketGeneration
  socketsAt : st'.socketsAt = st.socketsAt

/-- The owner of a tuple depends neither on the numbers nor on the order of the
bucket. -/
theorem udpOwner_rename {st st' : Store} {ρ : ℕ → ℕ} (hips : st'.localIps = st.localIps)
    (htable : ∀ port, (st'.udpSockets port).Perm ((st.udpSockets port).map (UdpSocket.rename ρ)))
    (k : ConnKey) : st'.udpOwner k = (st.udpOwner k).rename ρ := by
  by_cases hlocal : k.local ∈ st.localIps
  · have hcovering : (coveringSockets st' k).Perm
        ((coveringSockets st k).map (UdpSocket.rename ρ)) := by
      have hfilter := (htable k.lport).filter fun u => covers u.entry k
      rw [List.filter_map] at hfilter
      exact hfilter
    rw [udpOwner_eq st hlocal, udpOwner_eq st' (hips ▸ hlocal)]
    -- none, one or several sockets cover the tuple
    match hsockets : coveringSockets st k with
    | [] =>
        rw [hsockets] at hcovering
        rw [hcovering.eq_nil]
        rfl
    | [u] =>
        rw [hsockets] at hcovering
        rw [List.perm_singleton.mp hcovering]
        have hshared : (u.rename ρ).entry.ambiguous = u.entry.ambiguous := rfl
        simp only [List.isEmpty_nil, Bool.not_true, Bool.or_false, hshared]
        split <;> rfl
    | u :: v :: rest =>
        rw [hsockets] at hcovering
        have hlength := hcovering.length_eq
        match hsockets' : coveringSockets st' k with
        | [] => simp [hsockets'] at hlength
        | [_] => simp [hsockets'] at hlength
        | u' :: v' :: rest' => simp [UdpMatch.rename]
  · unfold udpOwner
    rw [if_pos hlocal, if_pos (by rwa [hips])]
    rfl

/-! ## Two orders of one snapshot -/

section Perm

variable {st : Store} {socks socks' : List SockEntry} {procs : ProcMap}

/-- The rows of one tuple all do the same to its row: TCP has one row at most,
and the UDP rows of one tuple have one state. -/
theorem advance_congr (hdistinct : DistinctRows socks)
    (hstates : ∀ s ∈ socks, s.proto = .udp → s.state = udpState s.rport) {k : ConnKey}
    {s s' : SockEntry} (hs : s ∈ tupleRows socks k) (hs' : s' ∈ tupleRows socks k) (t : ℕ)
    (owner : UdpMatch) (row : Option Conn × Bool) :
    advance procs t k owner row s = advance procs t k owner row s' := by
  obtain ⟨hmem, hkey, -⟩ := mem_tupleRows.mp hs
  obtain ⟨hmem', hkey', -⟩ := mem_tupleRows.mp hs'
  have hproto : s'.proto = s.proto := congrArg ConnKey.proto (hkey'.trans hkey.symm)
  cases htcp : s.proto with
  | tcp =>
      rw [htcp] at hproto
      have hsame : s = s' := by
        have hsymm : Std.Symm fun a b : SockEntry => a.key ≠ b.key := ⟨fun _ _ => Ne.symm⟩
        by_contra hne
        refine hdistinct.tcp.forall (List.mem_filter.mpr ⟨hmem, by simpa using htcp⟩)
          (List.mem_filter.mpr ⟨hmem', by simpa using hproto⟩) hne ?_
        exact hkey.trans hkey'.symm
      rw [hsame]
  | udp =>
      rw [htcp] at hproto
      have hrport : s'.rport = s.rport := congrArg ConnKey.rport (hkey'.trans hkey.symm)
      have hstate : s'.state = s.state := by
        rw [hstates s hmem htcp, hstates s' hmem' hproto, hrport]
      unfold advance showSocket
      rw [htcp, hproto, hstate]
      unfold markShown
      rw [hstate]

/-- The rows of one tuple lead to the same row in every order. -/
theorem foldl_advance_perm (hdistinct : DistinctRows socks)
    (hstates : ∀ s ∈ socks, s.proto = .udp → s.state = udpState s.rport)
    (hperm : socks.Perm socks') (t : ℕ) (k : ConnKey) (owner : UdpMatch)
    (row : Option Conn × Bool) :
    (tupleRows socks k).foldl (advance procs t k owner) row =
      (tupleRows socks' k).foldl (advance procs t k owner) row := by
  apply (hperm.filter _).foldl_eq'
  intro s hs s' hs' row'
  rw [advance_congr hdistinct hstates hs hs' t owner row',
    advance_congr hdistinct hstates hs hs' t owner]

variable (procs) in
/-- Other numbers for the matching socket and for the row lead to the same row
under other numbers. -/
theorem foldl_advance_rename {ρ : ℕ → ℕ} (hρ : Function.Injective ρ) (t : ℕ) (k : ConnKey)
    (owner : UdpMatch) (rows : List SockEntry) (row : Option Conn × Bool) :
    rows.foldl (advance procs t k (owner.rename ρ)) (row.map (Option.map (Conn.rename ρ)) id) =
      (rows.foldl (advance procs t k owner) row).map (Option.map (Conn.rename ρ)) id := by
  induction rows generalizing row with
  | nil => rfl
  | cons s rest ih => rw [List.foldl_cons, List.foldl_cons, advance_rename hρ, ih]

theorem newSockets_nodup (hdistinct : DistinctRows socks) : (newSockets st socks procs).Nodup := by
  apply (hdistinct.udp.filter _).imp
  rintro a b hne rfl
  exact hne ⟨rfl, rfl, rfl, rfl, rfl⟩

theorem newSockets_perm (hperm : socks.Perm socks') :
    (newSockets st socks procs).Perm (newSockets st socks' procs) :=
  (hperm.filter _).filter _

/-- From the generations that one order of a snapshot gives out to those that
another order does. -/
def reordering (st : Store) (procs : ProcMap) (hdistinct : DistinctRows socks)
    (hperm : socks.Perm socks') : Equiv.Perm ℕ :=
  renumbering st.socketGeneration (@newSockets_nodup st socks procs hdistinct)
    (@newSockets_perm st socks socks' procs hperm)

/-- Generations from before the poll stay. -/
theorem reordering_of_le (hdistinct : DistinctRows socks) (hperm : socks.Perm socks') {g : ℕ}
    (h : g ≤ st.socketGeneration) : reordering st procs hdistinct hperm g = g :=
  renumber_of_le _ _ h

/-- A row leaves the same socket in either order, under the other number. -/
theorem placed_rename (hbounded : GenerationsBounded st) (hdistinct : DistinctRows socks)
    (hperm : socks.Perm socks') {s : SockEntry} (hs : s ∈ socks) (hudp : s.proto = .udp) :
    placed st socks' procs s =
      (placed st socks procs s).rename (reordering st procs hdistinct hperm) := by
  unfold placed Refresh.place
  cases hknown : Refresh.known procs st.udpSockets s with
  | some old =>
      have hold := hbounded.table s.lport old (List.mem_of_find?_eq_some hknown)
      unfold UdpSocket.rename
      dsimp only [UdpSocket.carry]
      rw [reordering_of_le hdistinct hperm hold]
  | none =>
      have hmem : s ∈ newSockets st socks procs :=
        List.mem_filter.mpr ⟨List.mem_filter.mpr ⟨hs, by simpa using hudp⟩, by simp [hknown]⟩
      have hnumber := @renumber_numberOf _ _ st.socketGeneration _ _
        (newSockets st socks' procs) hmem
      unfold UdpSocket.rename
      dsimp only [UdpSocket.fresh]
      exact congrArg (UdpSocket.fresh procs s · st.socketsAt) hnumber.symm

variable (procs) in
/-- In two orders of one snapshot, a poll ends with the same addresses and, under
the other numbers, with the same buckets up to order. -/
theorem startPoll_perm (hseparate : Separate st.udpSockets) (hbounded : GenerationsBounded st)
    (hdistinct : DistinctRows socks) (hperm : socks.Perm socks') (t : ℕ) :
    (st.startPoll socks' procs t).localIps = (st.startPoll socks procs t).localIps ∧
      ∀ port, ((st.startPoll socks' procs t).udpSockets port).Perm
        (((st.startPoll socks procs t).udpSockets port).map
          (UdpSocket.rename (reordering st procs hdistinct hperm))) := by
  constructor
  · have hseen := (hperm.filter fun s => !s.local.isUnspecified && !s.local.isMulticast).map
      SockEntry.local
    change st.localIps ∪ _ = st.localIps ∪ _
    rw [List.toFinset_eq_of_perm _ _ hseen]
  · intro port
    rw [startPoll_udpSockets procs t hseparate hdistinct,
      startPoll_udpSockets procs t hseparate (hdistinct.perm hperm), List.map_map]
    have hrows : (udpRows socks' port).Perm (udpRows socks port) :=
      ((hperm.filter _).filter _).symm
    refine (hrows.map _).trans (.of_eq (List.map_congr_left fun s hs => ?_))
    obtain ⟨hsocks, hudp⟩ := List.mem_filter.mp (List.mem_of_mem_filter hs)
    exact placed_rename hbounded hdistinct hperm hsocks (by simpa using hudp)

end Perm

/-! ## Stores reached by polls -/

/-- Snapshots that list every socket once keep the table separate. -/
theorem separate_run {now : ℕ} {names : KeyedMap IpAddr DnsEntry} {hist : History Store Event}
    {st : Store} (run : Run Store.system { Store.empty now with dns := names } hist st)
    (hpast : ∀ entry ∈ hist, ∀ ips socks procs, entry.2.op = .poll ips socks procs →
      DistinctRows socks) : Separate st.udpSockets := by
  refine run.invariant_of_guard (P := fun st => Separate st.udpSockets)
    (G := fun _ e => ∀ ips socks procs, e.op = .poll ips socks procs → DistinctRows socks)
    ?_ ?_ hpast
  · intro procs s
    exact List.Pairwise.nil
  · intro st e st' hseparate hdistinct fires
    obtain rfl : st.step e = st' := Option.some.inj fires
    by_cases hpoll : ∃ ips socks procs, e.op = .poll ips socks procs
    · obtain ⟨ips, socks, procs, hop⟩ := hpoll
      rw [step_udpSockets_of_poll st hop]
      have hsame : Separate (st.setLocalIps ips).udpSockets := by cases ips <;> exact hseparate
      exact separate_startPoll (procMap procs) _ hsame (hdistinct ips socks procs hop)
    · have hnot : ∀ ips socks procs, e.op ≠ .poll ips socks procs :=
        fun ips socks procs hop => hpoll ⟨ips, socks, procs, hop⟩
      rw [(step_table_of_not_poll st hnot).1]
      exact hseparate

/-- In a store reached by snapshots that list every socket once, the order of the
next such snapshot does not matter: the stores after it are equal up to the
generations given out in this poll and the order of the buckets. UDP rows have the
state that every snapshot gives them. -/
theorem applySockets_perm {now : ℕ} {names : KeyedMap IpAddr DnsEntry}
    {hist : History Store Event} {st : Store}
    (run : Run Store.system { Store.empty now with dns := names } hist st)
    (hpast : ∀ entry ∈ hist, ∀ ips socks procs, entry.2.op = .poll ips socks procs →
      DistinctRows socks)
    {socks socks' : List SockEntry} {procs : ProcMap} {order order' : HashOrder ConnKey}
    {clock : Clock} (hdistinct : DistinctRows socks)
    (hstates : ∀ s ∈ socks, s.proto = .udp → s.state = udpState s.rport)
    (hperm : socks.Perm socks') (hclock : ∀ i, clock.read i = clock.read 0)
    (hkept : ∀ gone, ¬ PollEvicts order clock st socks procs gone)
    (hkept' : ∀ gone, ¬ PollEvicts order' clock st socks' procs gone) :
    ∃ ρ : Equiv.Perm ℕ,
      (∀ g, g ≤ st.socketGeneration ∨
        (st.applySockets order clock socks procs).socketGeneration < g → ρ g = g) ∧
      Renamed ρ (st.applySockets order clock socks procs)
        (st.applySockets order' clock socks' procs) ∧
      ∀ k, ((st.applySockets order' clock socks' procs).conns.lookup k).map Conn.verdict =
        ((st.applySockets order clock socks procs).conns.lookup k).map Conn.verdict := by
  have hseparate := separate_run run hpast
  have hstart : GenerationsBounded { Store.empty now with dns := names } :=
    ⟨(GenerationsBounded.empty now).table, (GenerationsBounded.empty now).rows⟩
  have hbounded := hstart.run run
  obtain ⟨hips, htable⟩ := startPoll_perm procs hseparate hbounded hdistinct hperm
    (clock.read 0)
  obtain ⟨ρ, hρ⟩ : ∃ ρ, ρ = reordering st procs hdistinct hperm := ⟨_, rfl⟩
  rw [← hρ] at htable
  have hrows : ∀ k, (st.applySockets order' clock socks' procs).conns.lookup k =
      ((st.applySockets order clock socks procs).conns.lookup k).map (Conn.rename ρ) := by
    intro k
    have howner := udpOwner_rename hips htable k
    have hold : (st.conns.lookup k).map (Conn.rename ρ) = st.conns.lookup k := by
      cases hrow : st.conns.lookup k with
      | none => rfl
      | some c =>
          rw [Option.map_some, Conn.rename_of_fixed fun g hg => ?_]
          rw [hρ]
          exact reordering_of_le hdistinct hperm (hbounded.rows k c hrow g hg)
    have hfold := foldl_advance_rename procs ρ.injective (clock.read 0) k
      ((st.startPoll socks procs (clock.read 0)).udpOwner k) (tupleRows socks k)
      (st.conns.lookup k, false)
    rw [Prod.map_apply, hold, id_eq, foldl_advance_perm hdistinct hstates hperm] at hfold
    rw [applySockets_lookup hclock (hkept' k) howner hfold,
      applySockets_lookup hclock (hkept k) rfl rfl, Prod.map_fst, Prod.map_snd, Option.map_map,
      Option.map_map]
    congr 1
    funext c
    exact settle_rename ρ.injective procs (clock.read 0) _ k _ c
  refine ⟨ρ, ?_, ⟨hrows, ?_, ?_, ?_, ?_, ?_, ?_⟩, ?_⟩
  · rintro g (hle | hgt)
    · rw [hρ]
      exact reordering_of_le hdistinct hperm hle
    · rw [applySockets_socketGeneration, startPoll_socketGeneration _ _ hseparate hdistinct] at hgt
      rw [hρ]
      exact renumber_of_gt _ hgt
  · intro port
    rw [applySockets_udpSockets, applySockets_udpSockets]
    exact htable port
  · rw [applySockets_dns, applySockets_dns]
  · rw [applySockets_localIps, applySockets_localIps]
    exact hips
  · rw [applySockets_packetsSeen, applySockets_packetsSeen]
  · rw [applySockets_socketGeneration, applySockets_socketGeneration,
      startPoll_socketGeneration _ _ hseparate hdistinct,
      startPoll_socketGeneration _ _ hseparate (hdistinct.perm hperm),
      (newSockets_perm hperm).length_eq]
  · rw [applySockets_socketsAt, applySockets_socketsAt]
  · intro k
    rw [hrows k, Option.map_map]
    rfl

/-- One of several UDP sockets that share their address and their peer. -/
def twinSocket (pid : ℤ) (cookie : ℕ) : SockEntry where
  proto := .udp
  «local» := .ofOctets 192 0 2 1
  lport := 5000
  remote := .ofOctets 198 51 100 1
  rport := 53
  state := .active
  pid := some pid
  ambiguous := false
  cookie := some cookie

/-- A poll that finds the first of the sockets alone. -/
def twinPoll : Event where
  op := .poll none [twinSocket 100 1] []
  clock := .still 1

/-- The second socket may be listed before or behind the known one. -/
theorem applySockets_perm_sample :
    ∃ ρ : Equiv.Perm ℕ,
      (∀ g, g ≤ ((Store.empty 0).step twinPoll).socketGeneration ∨
        (((Store.empty 0).step twinPoll).applySockets .stored (.still 2)
          [twinSocket 100 1, twinSocket 200 2] (procMap [])).socketGeneration < g → ρ g = g) ∧
      Renamed ρ
        (((Store.empty 0).step twinPoll).applySockets .stored (.still 2)
          [twinSocket 100 1, twinSocket 200 2] (procMap []))
        (((Store.empty 0).step twinPoll).applySockets .stored (.still 2)
          [twinSocket 200 2, twinSocket 100 1] (procMap [])) ∧
      ∀ k, ((((Store.empty 0).step twinPoll).applySockets .stored (.still 2)
          [twinSocket 200 2, twinSocket 100 1] (procMap [])).conns.lookup k).map Conn.verdict =
        ((((Store.empty 0).step twinPoll).applySockets .stored (.still 2)
          [twinSocket 100 1, twinSocket 200 2] (procMap [])).conns.lookup k).map Conn.verdict := by
  have run : Run Store.system { Store.empty 0 with dns := ∅ } [(Store.empty 0, twinPoll)]
      ((Store.empty 0).step twinPoll) := Run.next .start rfl
  refine applySockets_perm run ?_ ⟨by decide, by decide⟩ (by decide) (List.Perm.swap ..)
    (fun _ => rfl) (not_pollEvicts_of_room (by decide)) (not_pollEvicts_of_room (by decide))
  rw [List.forall_mem_singleton]
  rintro ips socks procs hop
  obtain ⟨rfl, rfl, rfl⟩ := Op.poll.inj hop
  exact ⟨by decide, by decide⟩

end Store

end SocketTrail.State
