/-
# The UDP socket table across polls

`refreshUdpSockets` rebuilds the table from the UDP rows of a snapshot. Every
row leaves exactly one socket in the bucket of its port, in the order of the
snapshot: a known socket carried on, or a new one under a generation that was
never given out before. `Origin` states this once; the results about owners
read it and never follow the refresh itself.
-/

import SocketTrail.State.Rows
import Mathlib.Data.List.Perm.Basic

namespace SocketTrail.State

open SocketTrail.Foundation SocketTrail.Net

/-! ## Taking an element out of a bucket -/

/-- Up to order, the element at the given position leaves the bucket. -/
theorem swapRemove_perm {α : Type*} {l : List α} {pos : ℕ} (hpos : pos < l.length) :
    (swapRemove l pos).Perm (l.eraseIdx pos) := by
  obtain ⟨front, last, rfl⟩ :=
    l.eq_nil_or_concat.resolve_left (List.ne_nil_of_length_pos (Nat.zero_lt_of_lt hpos))
  rw [List.concat_eq_append, List.length_append, List.length_singleton] at hpos
  unfold swapRemove
  rw [List.concat_eq_append, List.getLast?_concat]
  dsimp only
  by_cases hfront : pos < front.length
  · rw [List.set_append_left _ _ hfront, List.dropLast_concat,
      List.eraseIdx_append_of_lt_length hfront]
    exact (List.set_perm_cons_eraseIdx hfront last).trans (List.perm_append_singleton _ _).symm
  · -- the last element itself is taken out
    have hlast : pos = front.length := by omega
    rw [hlast, List.set_append_right _ _ le_rfl, List.eraseIdx_append_of_length_le le_rfl]
    simp

theorem mem_of_mem_swapRemove {α : Type*} {l : List α} {pos : ℕ} {x y : α}
    (hy : l[pos]? = some y) (h : x ∈ swapRemove l pos) : x ∈ l := by
  obtain ⟨hpos, -⟩ := List.getElem?_eq_some_iff.mp hy
  exact List.mem_of_mem_eraseIdx ((swapRemove_perm hpos).mem_iff.mp h)

/-- Only the element at the given position leaves the bucket. -/
theorem mem_swapRemove_of_mem {α : Type*} {l : List α} {pos : ℕ} {x y : α} (hx : x ∈ l)
    (hy : l[pos]? = some y) (hne : x ≠ y) : x ∈ swapRemove l pos := by
  obtain ⟨hpos, rfl⟩ := List.getElem?_eq_some_iff.mp hy
  obtain ⟨i, hi⟩ := List.mem_iff_getElem?.mp hx
  have hi_ne : i ≠ pos := by
    rintro rfl
    rw [List.getElem?_eq_getElem hpos, Option.some.injEq] at hi
    exact hne hi.symm
  rw [(swapRemove_perm hpos).mem_iff, List.mem_eraseIdx_iff_getElem?]
  exact ⟨i, hi_ne, hi⟩

/-- The element found stands at the position found. -/
theorem getElem?_findIdx_of_find? {α : Type*} {l : List α} {p : α → Bool} {x : α}
    (h : l.find? p = some x) : l[l.findIdx p]? = some x := by
  rw [← h]
  exact List.find?_eq_getElem?_findIdx.symm

/-! ## One snapshot row, one socket -/

/-- Where the socket `u` of the new table comes from: it carries a socket of the
previous table on into the row `s`, or it is new and has a generation between
the two bounds. -/
inductive Origin (procs : ProcMap) (since : ℕ) (previous : UdpTable) (before after : ℕ)
    (s : SockEntry) : UdpSocket → Prop
  | carried (old : UdpSocket) (hmem : old ∈ previous s.lport)
      (hcontinues : old.continues procs s = true) :
      Origin procs since previous before after s (old.carry procs s)
  | fresh (generation : ℕ) (hafter : before < generation) (hle : generation ≤ after) :
      Origin procs since previous before after s (.fresh procs s generation since)

theorem Origin.mono {procs : ProcMap} {since : ℕ} {previous : UdpTable}
    {before before' after after' : ℕ} {s : SockEntry} {u : UdpSocket}
    (horigin : Origin procs since previous before after s u) (hbefore : before' ≤ before)
    (hafter : after ≤ after') : Origin procs since previous before' after' s u := by
  cases horigin with
  | carried old hmem hcontinues => exact .carried old hmem hcontinues
  | fresh generation hlt hle => exact .fresh generation (by omega) (by omega)

/-- A socket carried on covers the tuples that it covered. -/
theorem UdpSocket.covers_carry {procs : ProcMap} {s : SockEntry} {old : UdpSocket}
    (h : old.continues procs s = true) (k : ConnKey) :
    Store.covers (old.carry procs s).entry k = Store.covers old.entry k := by
  simp only [UdpSocket.continues, Bool.and_eq_true, decide_eq_true_eq] at h
  obtain ⟨⟨⟨⟨⟨hlocal, hremote⟩, hrport⟩, -⟩, -⟩, -⟩ := h
  unfold Store.covers UdpSocket.carry
  rw [hlocal, hremote, hrport]

/-- A socket carried on without becoming shared keeps the process known for it. -/
theorem UdpSocket.carry_pid {procs : ProcMap} {s : SockEntry} {old : UdpSocket} {p : ℤ}
    (h : old.continues procs s = true)
    (hclear : (old.carry procs s).entry.ambiguous = false) (hp : old.entry.pid = some p) :
    (old.carry procs s).entry.pid = some p ∧
      (old.carry procs s).ownerStarted = (startedOf procs (some p)).or old.ownerStarted := by
  have hsame : s.pid.or (some p) = some p := by
    simp only [UdpSocket.continues, Bool.and_eq_true, Bool.not_eq_true', hp] at h
    cases hpid : s.pid with
    | none => rfl
    | some q =>
        have hqp : q = p := by simpa [hpid, contradicts] using h.2
        rw [hqp]
        rfl
  have hclear' : (s.ambiguous || old.entry.ambiguous) = false := hclear
  unfold UdpSocket.carry
  dsimp only
  rw [hclear', hp, hsame]
  exact ⟨rfl, rfl⟩

namespace Refresh

variable (procs : ProcMap) (since : ℕ)

theorem step_generation_le (r : Refresh) (s : SockEntry) :
    r.generation ≤ (step procs since r s).generation := by
  unfold step
  dsimp only
  split
  · exact le_rfl
  · exact Nat.le_succ _

/-- Matching a row only takes sockets away from the previous table. -/
theorem mem_previous_of_mem_step {r : Refresh} {s : SockEntry} {port : UInt16} {u : UdpSocket}
    (h : u ∈ (step procs since r s).previous port) : u ∈ r.previous port := by
  unfold step at h
  dsimp only at h
  split at h
  · rename_i old hfound
    dsimp only at h
    by_cases hport : port = s.lport
    · subst hport
      rw [Function.update_self] at h
      exact mem_of_mem_swapRemove (getElem?_findIdx_of_find? hfound) h
    · rwa [Function.update_of_ne hport] at h
  · exact h

/-- A row appends one socket to the bucket of its port. -/
theorem step_table (r : Refresh) (s : SockEntry) :
    ∃ u, Origin procs since r.previous r.generation (step procs since r s).generation s u ∧
      (step procs since r s).table =
        Function.update r.table s.lport (r.table s.lport ++ [u]) := by
  unfold step
  dsimp only
  split
  · rename_i old hfound
    exact ⟨_, .carried old (List.mem_of_find?_eq_some hfound) (List.find?_some hfound), rfl⟩
  · exact ⟨_, .fresh _ (Nat.lt_succ_self _) le_rfl, rfl⟩

theorem foldl_generation_le (rows : List SockEntry) (r : Refresh) :
    r.generation ≤ (rows.foldl (step procs since) r).generation := by
  induction rows generalizing r with
  | nil => exact le_rfl
  | cons s rest ih => exact (step_generation_le procs since r s).trans (ih _)

/-- The rows of a port and the sockets they leave in its bucket correspond one
to one, in order. -/
theorem foldl_table (rows : List SockEntry) (r : Refresh) (port : UInt16) :
    ∃ sockets, (rows.foldl (step procs since) r).table port = r.table port ++ sockets ∧
      List.Forall₂
        (Origin procs since r.previous r.generation
          (rows.foldl (step procs since) r).generation)
        (rows.filter fun s => s.lport = port) sockets := by
  induction rows generalizing r with
  | nil => exact ⟨[], by simp, .nil⟩
  | cons s rest ih =>
      obtain ⟨u, horigin, htable⟩ := step_table procs since r s
      obtain ⟨sockets, hsockets, hpairs⟩ := ih (step procs since r s)
      have hgrow := step_generation_le procs since r s
      have hend := foldl_generation_le procs since rest
        (step procs since r s)
      have hrest : List.Forall₂
          (Origin procs since r.previous r.generation
            (rest.foldl (step procs since) (step procs since r s)).generation)
          (rest.filter fun s => s.lport = port) sockets := by
        refine hpairs.imp fun s' u' horigin' => ?_
        cases horigin' with
        | carried old hmem hcontinues =>
            exact .carried old (mem_previous_of_mem_step procs since hmem) hcontinues
        | fresh generation hlt hle => exact .fresh generation (by omega) hle
      rw [List.foldl_cons, hsockets, htable]
      by_cases hport : s.lport = port
      · subst hport
        refine ⟨u :: sockets, by simp, ?_⟩
        rw [List.filter_cons_of_pos (by simp)]
        exact .cons (horigin.mono le_rfl hend) hrest
      · refine ⟨sockets, by rw [Function.update_of_ne (Ne.symm hport)], ?_⟩
        rw [List.filter_cons_of_neg (by simpa using hport)]
        exact hrest

/-- A socket of the previous table that no row continues stays unmatched. -/
theorem mem_previous_foldl {rows : List SockEntry} {r : Refresh} {port : UInt16} {u : UdpSocket}
    (hu : u ∈ r.previous port)
    (hfree : ∀ s ∈ rows, s.lport = port → u.continues procs s = false) :
    u ∈ (rows.foldl (step procs since) r).previous port := by
  induction rows generalizing r with
  | nil => exact hu
  | cons s rest ih =>
      apply ih _ fun s' hs' => hfree s' (List.mem_cons_of_mem s hs')
      unfold step
      dsimp only
      split
      · rename_i old hfound
        dsimp only
        by_cases hport : port = s.lport
        · subst hport
          rw [Function.update_self]
          apply mem_swapRemove_of_mem hu (getElem?_findIdx_of_find? hfound)
          rintro rfl
          have hcontinues := List.find?_some hfound
          rw [hfree s (List.mem_cons_self ..) rfl] at hcontinues
          contradiction
        · rwa [Function.update_of_ne hport]
      · exact hu

/-- The sockets built so far stay in the table. -/
theorem mem_table_foldl {rows : List SockEntry} {r : Refresh} {port : UInt16} {u : UdpSocket}
    (hu : u ∈ r.table port) : u ∈ (rows.foldl (step procs since) r).table port := by
  obtain ⟨sockets, htable, -⟩ := foldl_table procs since rows r port
  rw [htable]
  exact List.mem_append_left sockets hu

/-- The first row that a socket of the previous table continues in carries such
a socket on. -/
theorem exists_carried {before after : List SockEntry} {r : Refresh} {s : SockEntry}
    {u : UdpSocket} (hu : u ∈ r.previous s.lport) (hcontinues : u.continues procs s = true)
    (hfree : ∀ s' ∈ before, s'.lport = s.lport → u.continues procs s' = false) :
    ∃ old ∈ r.previous s.lport, old.continues procs s = true ∧
      old.carry procs s ∈
        ((before ++ s :: after).foldl (step procs since) r).table s.lport := by
  have hpast : ∀ {v}, v ∈ (before.foldl (step procs since) r).previous s.lport →
      v ∈ r.previous s.lport := by
    intro v hv
    clear hu hcontinues hfree
    induction before generalizing r with
    | nil => exact hv
    | cons first rest ih => exact mem_previous_of_mem_step procs since (ih hv)
  have hleft := mem_previous_foldl procs since hu hfree
  rw [List.foldl_append, List.foldl_cons]
  generalize before.foldl (step procs since) r = middle at hpast hleft
  cases hfound : (middle.previous s.lport).find? (UdpSocket.continues procs s) with
  | none =>
      have hnone := List.find?_eq_none.mp hfound u hleft
      exact absurd hcontinues hnone
  | some old =>
      refine ⟨old, hpast (List.mem_of_find?_eq_some hfound), List.find?_some hfound, ?_⟩
      apply mem_table_foldl
      unfold step
      dsimp only
      rw [hfound]
      dsimp only
      rw [Function.update_self]
      exact List.mem_append_right _ (List.mem_singleton_self _)

end Refresh

/-- A socket of the table covers the tuples that its row covers. -/
theorem Origin.covers {procs : ProcMap} {since before after : ℕ} {previous : UdpTable}
    {s : SockEntry} {u : UdpSocket} (h : Origin procs since previous before after s u)
    (k : ConnKey) : Store.covers u.entry k = Store.covers s k := by
  cases h <;> rfl

namespace Store

/-- The UDP rows of a snapshot on one port. -/
def udpRows (socks : List SockEntry) (port : UInt16) : List SockEntry :=
  (socks.filter fun s => s.proto = .udp).filter fun s => s.lport = port

/-- After a refresh the rows of a port and the sockets of its bucket correspond
one to one, in order. -/
theorem refreshUdpSockets_forall₂ (st : Store) (socks : List SockEntry) (procs : ProcMap)
    (t : ℕ) (port : UInt16) :
    List.Forall₂
      (Origin procs st.socketsAt st.udpSockets st.socketGeneration
        (st.refreshUdpSockets socks procs t).socketGeneration)
      (udpRows socks port) ((st.refreshUdpSockets socks procs t).udpSockets port) := by
  obtain ⟨sockets, htable, hpairs⟩ := Refresh.foldl_table procs st.socketsAt
    (socks.filter fun s => s.proto = .udp)
    { previous := st.udpSockets, table := fun _ => [], generation := st.socketGeneration } port
  rw [List.nil_append] at htable
  rw [← htable] at hpairs
  exact hpairs

theorem le_refreshUdpSockets_generation (st : Store) (socks : List SockEntry) (procs : ProcMap)
    (t : ℕ) : st.socketGeneration ≤ (st.refreshUdpSockets socks procs t).socketGeneration :=
  Refresh.foldl_generation_le procs st.socketsAt
    (socks.filter fun s => s.proto = .udp)
    { previous := st.udpSockets, table := fun _ => [], generation := st.socketGeneration }

/-! ## The table around a step -/

/-- The sockets of a bucket during a poll, each with the row that it comes
from. -/
theorem startPoll_forall₂ (st : Store) (socks : List SockEntry) (procs : ProcMap) (t : ℕ)
    (port : UInt16) :
    List.Forall₂
      (Origin procs st.socketsAt st.udpSockets st.socketGeneration
        (st.startPoll socks procs t).socketGeneration)
      (udpRows socks port) ((st.startPoll socks procs t).udpSockets port) :=
  refreshUdpSockets_forall₂ _ socks procs t port

theorem le_startPoll_generation (st : Store) (socks : List SockEntry) (procs : ProcMap) (t : ℕ) :
    st.socketGeneration ≤ (st.startPoll socks procs t).socketGeneration :=
  le_refreshUdpSockets_generation _ socks procs t

/-- The UDP rows of a snapshot that cover a tuple. -/
def coveringRows (socks : List SockEntry) (k : ConnKey) : List SockEntry :=
  (udpRows socks k.lport).filter fun s => covers s k

/-- The sockets of a table that cover a tuple. -/
def coveringSockets (st : Store) (k : ConnKey) : List UdpSocket :=
  (st.udpSockets k.lport).filter fun u => covers u.entry k

/-- The sockets that cover a tuple correspond to the rows that do. -/
theorem coveringSockets_forall₂ (st : Store) (socks : List SockEntry) (procs : ProcMap) (t : ℕ)
    (k : ConnKey) :
    List.Forall₂
      (Origin procs st.socketsAt st.udpSockets st.socketGeneration
        (st.startPoll socks procs t).socketGeneration)
      (coveringRows socks k) (coveringSockets (st.startPoll socks procs t) k) := by
  apply List.rel_filter _ (st.startPoll_forall₂ socks procs t k.lport)
  intro s u horigin
  change covers s k = true ↔ covers u.entry k = true
  rw [horigin.covers k]

theorem mem_coveringRows {socks : List SockEntry} {k : ConnKey} {s : SockEntry} :
    s ∈ coveringRows socks k ↔
      s ∈ socks ∧ s.proto = .udp ∧ s.lport = k.lport ∧ covers s k = true := by
  unfold coveringRows udpRows
  simp only [List.mem_filter, decide_eq_true_eq, and_assoc]

/-- A row covers its own tuple. -/
theorem covers_key (s : SockEntry) : covers s s.key = true := by
  simp [covers, SockEntry.key]

/-- A tuple that one row covers is covered by the socket of that row. -/
theorem coveringSockets_of_single (st : Store) {socks : List SockEntry} (procs : ProcMap) (t : ℕ)
    {k : ConnKey} {s : SockEntry} (h : coveringRows socks k = [s]) :
    ∃ u, coveringSockets (st.startPoll socks procs t) k = [u] ∧
      Origin procs st.socketsAt st.udpSockets st.socketGeneration
        (st.startPoll socks procs t).socketGeneration s u := by
  have hpairs := coveringSockets_forall₂ st socks procs t k
  rw [h, List.forall₂_cons_left_iff] at hpairs
  obtain ⟨u, rest, horigin, hrest, heq⟩ := hpairs
  rw [List.forall₂_nil_left_iff] at hrest
  rw [hrest] at heq
  exact ⟨u, heq, horigin⟩

/-- The one socket that covers a tuple is carried on into the one row that does,
when it continues there. -/
theorem coveringSockets_carried {st : Store} {socks : List SockEntry} {procs : ProcMap} (t : ℕ)
    {k : ConnKey} {s : SockEntry} {u : UdpSocket} (hsocket : coveringSockets st k = [u])
    (hrow : coveringRows socks k = [s]) (hcontinues : u.continues procs s = true) :
    coveringSockets (st.startPoll socks procs t) k = [u.carry procs s] := by
  obtain ⟨u', hsingle, -⟩ := coveringSockets_of_single st procs t hrow
  have hcovering : ∀ {v s'}, v ∈ st.udpSockets k.lport → s'.lport = k.lport →
      v.continues procs s' = true → (covers v.entry k = true ↔ covers s' k = true) := by
    intro v s' _ _ hv
    rw [← UdpSocket.covers_carry hv k]
    rfl
  obtain ⟨hmem, hudp, hport, hcovers⟩ := mem_coveringRows.mp
    (hrow ▸ List.mem_singleton_self s : s ∈ coveringRows socks k)
  have hu : u ∈ coveringSockets st k := hsocket ▸ List.mem_singleton_self u
  have hu' : u ∈ st.udpSockets s.lport := by
    rw [hport]
    exact (List.mem_filter.mp hu).1
  have hrows : s ∈ socks.filter fun s => s.proto = .udp :=
    List.mem_filter.mpr ⟨hmem, by simpa using hudp⟩
  obtain ⟨before, after, hsplit⟩ := List.append_of_mem hrows
  -- no row in front of `s` covers the tuple, so none of them takes the socket
  have hfree : ∀ s' ∈ before, s'.lport = s.lport → u.continues procs s' = false := by
    intro s' hs' hport'
    rw [← Bool.not_eq_true]
    intro hcontinues'
    have hcovers' : covers s' k = true :=
      (hcovering (hport ▸ hu') (hport'.trans hport) hcontinues').mp (List.mem_filter.mp hu).2
    have hparts := hrow
    unfold coveringRows udpRows at hparts
    rw [hsplit, List.filter_append, List.filter_append] at hparts
    have hfirst := List.length_pos_of_mem (List.mem_filter.mpr
      ⟨List.mem_filter.mpr ⟨hs', by simpa using hport'.trans hport⟩, hcovers'⟩ :
        s' ∈ (before.filter fun s => s.lport = k.lport).filter fun s => covers s k)
    have hsecond := List.length_pos_of_mem (List.mem_filter.mpr
      ⟨List.mem_filter.mpr ⟨List.mem_cons_self .., by simpa using hport⟩, hcovers⟩ :
        s ∈ ((s :: after).filter fun s => s.lport = k.lport).filter fun s => covers s k)
    have hlength := congrArg List.length hparts
    rw [List.length_append, List.length_singleton] at hlength
    omega
  obtain ⟨old, hold, hold', hcarried⟩ := @Refresh.exists_carried procs st.socketsAt _ after
    { previous := st.udpSockets, table := fun _ => [], generation := st.socketGeneration } _ _
    hu' hcontinues hfree
  rw [← hsplit] at hcarried
  have hsame : old = u := by
    have hcovers' := (hcovering (hport ▸ hold) hport hold').mpr hcovers
    have hcovering' : old ∈ coveringSockets st k := List.mem_filter.mpr ⟨hport ▸ hold, hcovers'⟩
    rw [hsocket] at hcovering'
    exact List.mem_singleton.mp hcovering'
  subst hsame
  have hnew : old.carry procs s ∈ coveringSockets (st.startPoll socks procs t) k := by
    refine List.mem_filter.mpr ⟨hport ▸ hcarried, ?_⟩
    rw [UdpSocket.covers_carry hcontinues k]
    exact (List.mem_filter.mp hu).2
  rw [hsingle] at hnew ⊢
  rw [List.mem_singleton.mp hnew]

/-- The owner of a tuple, read off the sockets that cover it. -/
theorem udpOwner_eq (st : Store) {k : ConnKey} (hlocal : k.local ∈ st.localIps) :
    st.udpOwner k = match coveringSockets st k with
      | [] => .missing
      | u :: rest =>
          if u.entry.ambiguous || !rest.isEmpty then .ambiguous
          else .unique
            { generation := u.generation, since := u.since, pid := u.entry.pid
              started := u.ownerStarted } := by
  unfold udpOwner
  rw [if_neg (not_not.mpr hlocal)]
  rfl

/-- A socket of a bucket during a poll stands next to the row it comes from. -/
theorem exists_row_of_mem_startPoll {st : Store} {socks : List SockEntry} {procs : ProcMap}
    {t : ℕ} {port : UInt16} {u : UdpSocket} (h : u ∈ (st.startPoll socks procs t).udpSockets port) :
    ∃ s, s.lport = port ∧
      (s, u) ∈ (udpRows socks port).zip ((st.startPoll socks procs t).udpSockets port) ∧
      Origin procs st.socketsAt st.udpSockets st.socketGeneration
        (st.startPoll socks procs t).socketGeneration s u := by
  obtain ⟨hlength, hpairs⟩ := List.forall₂_iff_zip.mp (st.startPoll_forall₂ socks procs t port)
  obtain ⟨i, hi, rfl⟩ := List.mem_iff_getElem.mp h
  have hi' : i < (udpRows socks port).length := by omega
  have hmem : ((udpRows socks port)[i], ((st.startPoll socks procs t).udpSockets port)[i]) ∈
      (udpRows socks port).zip ((st.startPoll socks procs t).udpSockets port) := by
    rw [List.mem_iff_getElem]
    exact ⟨i, by simp [hi, hi'], by simp⟩
  refine ⟨_, ?_, hmem, hpairs hmem⟩
  have hrow : (udpRows socks port)[i] ∈ udpRows socks port := List.getElem_mem hi'
  simpa using (List.mem_filter.mp hrow).2

/-- The store of a poll once the local addresses and the table are refreshed. -/
def polled (st : Store) (ips : Option (Finset IpAddr)) (socks : List SockEntry)
    (procs : List ProcInfo) (t : ℕ) : Store :=
  (st.setLocalIps ips).startPoll socks (procMap procs) t

/-- The sockets of a bucket after a poll, each with the row that it comes from. -/
theorem polled_forall₂ (st : Store) (ips : Option (Finset IpAddr)) (socks : List SockEntry)
    (procs : List ProcInfo) (t : ℕ) (port : UInt16) :
    List.Forall₂
      (Origin (procMap procs) st.socketsAt st.udpSockets st.socketGeneration
        (st.polled ips socks procs t).socketGeneration)
      (udpRows socks port) ((st.polled ips socks procs t).udpSockets port) := by
  cases ips with
  | none => exact startPoll_forall₂ st socks (procMap procs) t port
  | some ips => exact startPoll_forall₂ (st.setLocalIps (some ips)) socks (procMap procs) t port

theorem le_polled_generation (st : Store) (ips : Option (Finset IpAddr))
    (socks : List SockEntry) (procs : List ProcInfo) (t : ℕ) :
    st.socketGeneration ≤ (st.polled ips socks procs t).socketGeneration := by
  cases ips with
  | none => exact le_startPoll_generation _ socks (procMap procs) t
  | some ips => exact le_startPoll_generation (st.setLocalIps (some ips)) socks (procMap procs) t

/-- A socket of a bucket after a poll stands next to the row it comes from. -/
theorem exists_row_of_mem_polled {st : Store} {ips : Option (Finset IpAddr)}
    {socks : List SockEntry} {procs : List ProcInfo} {t : ℕ} {port : UInt16} {u : UdpSocket}
    (h : u ∈ (st.polled ips socks procs t).udpSockets port) :
    ∃ s, s.lport = port ∧
      (s, u) ∈ (udpRows socks port).zip ((st.polled ips socks procs t).udpSockets port) ∧
      Origin (procMap procs) st.socketsAt st.udpSockets st.socketGeneration
        (st.polled ips socks procs t).socketGeneration s u := by
  cases ips with
  | none => exact exists_row_of_mem_startPoll h
  | some ips => exact @exists_row_of_mem_startPoll (st.setLocalIps (some ips)) _ _ _ _ _ h

section Step

variable (st : Store) {e : Event} {ips : Option (Finset IpAddr)} {socks : List SockEntry}
  {procs : List ProcInfo}

theorem step_udpSockets_of_poll (hop : e.op = .poll ips socks procs) :
    (st.step e).udpSockets = (st.polled ips socks procs e.clock.start).udpSockets := by
  rw [step, hop]
  exact applySockets_udpSockets ..

theorem step_socketGeneration_of_poll (hop : e.op = .poll ips socks procs) :
    (st.step e).socketGeneration = (st.polled ips socks procs e.clock.start).socketGeneration := by
  rw [step, hop]
  exact applySockets_socketGeneration ..

theorem step_socketsAt_of_poll (hop : e.op = .poll ips socks procs) :
    (st.step e).socketsAt = e.clock.start := by
  rw [step, hop]
  exact applySockets_socketsAt ..

theorem step_udpOwner_of_poll (hop : e.op = .poll ips socks procs) (k : ConnKey) :
    (st.step e).udpOwner k = (st.polled ips socks procs e.clock.start).udpOwner k := by
  rw [step, hop]
  exact applySockets_udpOwner ..

/-- Between polls the socket table stands still. -/
theorem step_table_of_not_poll (hnot : ∀ ips socks procs, e.op ≠ .poll ips socks procs) :
    (st.step e).udpSockets = st.udpSockets ∧ (st.step e).localIps = st.localIps ∧
      (st.step e).socketGeneration = st.socketGeneration ∧
      (st.step e).socketsAt = st.socketsAt := by
  unfold step
  cases hop : e.op with
  | packet p =>
      obtain ⟨rows, heq⟩ := applyPacket_frame e.connOrder e.ipOrder e.clock st p
      dsimp only
      rw [heq]
      exact ⟨rfl, rfl, rfl, rfl⟩
  | poll ips socks procs => exact absurd hop (hnot ips socks procs)
  | clear => exact ⟨rfl, rfl, rfl, rfl⟩
  | learn ip name ttl => exact ⟨rfl, rfl, rfl, rfl⟩
  | enrich lang => exact ⟨rfl, rfl, rfl, rfl⟩
  | whois known => exact ⟨rfl, rfl, rfl, rfl⟩
  | resolved ip w => exact ⟨rfl, rfl, rfl, rfl⟩

end Step

end Store

end SocketTrail.State
