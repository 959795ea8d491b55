/-
# The refreshed table in closed form

A snapshot that lists every UDP socket once can be matched with the previous
table row by row: a row continues at most one known socket, and a known socket
continues in at most one row. The greedy matching of the refresh then finds for
each row what a look at the whole previous table finds, and the generations it
gives out number the rows that continue nothing, in the order of the snapshot.
-/

import SocketTrail.Foundation.Permute
import SocketTrail.State.UdpTable

namespace SocketTrail.State

open SocketTrail.Foundation SocketTrail.Net

/-- No two TCP rows of the snapshot have one tuple, and no two UDP rows describe
one socket. -/
structure DistinctRows (socks : List SockEntry) : Prop where
  tcp : (socks.filter fun s => s.proto = .tcp).Pairwise fun a b => a.key ≠ b.key
  udp : (socks.filter fun s => s.proto = .udp).Pairwise fun a b => ¬ SameSocket a b

theorem DistinctRows.perm {socks socks' : List SockEntry} (h : DistinctRows socks)
    (hperm : socks.Perm socks') : DistinctRows socks' where
  tcp := (hperm.filter _).pairwise h.tcp fun hne => hne.symm
  udp := (hperm.filter _).pairwise h.udp fun hne hsame =>
    hne ⟨hsame.1.symm, hsame.2.1.symm, hsame.2.2.1.symm, hsame.2.2.2.1.symm, hsame.2.2.2.2.symm⟩

/-- No row continues two sockets of the table. -/
def Separate (table : UdpTable) : Prop :=
  ∀ procs s, AtMostOne (UdpSocket.continues procs s) (table s.lport)

/-- One socket continues in two rows of its port only if they describe the same
socket. -/
theorem sameSocket_of_continues_both {procs procs' : ProcMap} {s s' : SockEntry} {u : UdpSocket}
    (hport : s.lport = s'.lport) (h : u.continues procs s = true)
    (h' : u.continues procs' s' = true) : SameSocket s s' := by
  simp only [UdpSocket.continues, Bool.and_eq_true, decide_eq_true_eq] at h h'
  obtain ⟨⟨⟨⟨⟨hlocal, hremote⟩, hrport⟩, hcookie⟩, -⟩, -⟩ := h
  obtain ⟨⟨⟨⟨⟨hlocal', hremote'⟩, hrport'⟩, hcookie'⟩, -⟩, -⟩ := h'
  exact ⟨hlocal.symm.trans hlocal', hport, hremote.symm.trans hremote',
    hrport.symm.trans hrport', hcookie.symm.trans hcookie'⟩

namespace Refresh

variable (procs : ProcMap) (since : ℕ) (previous : UdpTable) (base : ℕ)

/-- The known socket that a row continues. -/
def known (s : SockEntry) : Option UdpSocket :=
  (previous s.lport).find? (UdpSocket.continues procs s)

/-- The rows that continue no known socket. -/
def unknown (rows : List SockEntry) : List SockEntry :=
  rows.filter fun s => (known procs previous s).isNone

/-- The socket that a row of the snapshot leaves in the table. -/
def place (rows : List SockEntry) (s : SockEntry) : UdpSocket :=
  match known procs previous s with
  | some old => old.carry procs s
  | none => .fresh procs s (numberOf base (unknown procs previous rows) s) since

/-- None of the rows continues the socket `u` of the port. -/
def free (done : List SockEntry) (port : UInt16) (u : UdpSocket) : Bool :=
  done.all fun s => !(s.lport = port && u.continues procs s)

/-- The socket that a row leaves in the table is that of the row. -/
theorem sameSocket_of_place_continues {procs' : ProcMap} {rows : List SockEntry}
    {s s' : SockEntry} (hport : s.lport = s'.lport)
    (h : (place procs since previous base rows s).continues procs' s' = true) :
    SameSocket s s' := by
  have hentry : ∃ pid ambiguous, (place procs since previous base rows s).entry =
      { s with pid := pid, ambiguous := ambiguous } := by
    unfold place
    split
    · exact ⟨_, _, rfl⟩
    · exact ⟨s.pid, s.ambiguous, rfl⟩
  obtain ⟨pid, ambiguous, hentry⟩ := hentry
  simp only [UdpSocket.continues, hentry, Bool.and_eq_true, decide_eq_true_eq] at h
  obtain ⟨⟨⟨⟨⟨hlocal, hremote⟩, hrport⟩, hcookie⟩, -⟩, -⟩ := h
  exact ⟨hlocal, hport, hremote, hrport, hcookie⟩

/-- Where a row continues at most one socket, that socket is taken out of the
previous table. -/
theorem step_previous {r : Refresh} {s : SockEntry}
    (hone : AtMostOne (UdpSocket.continues procs s) (r.previous s.lport)) (port : UInt16) :
    ((step procs since r s).previous port).Perm
      ((r.previous port).filter fun u => !(s.lport = port && u.continues procs s)) := by
  unfold step
  dsimp only
  split
  · rename_i old hfound
    dsimp only
    by_cases hport : port = s.lport
    · subst hport
      rw [Function.update_self]
      simp only [decide_true, Bool.true_and]
      obtain ⟨hpos, hold⟩ := List.getElem?_eq_some_iff.mp (getElem?_findIdx_of_find? hfound)
      have herase : (r.previous s.lport).eraseIdx
            ((r.previous s.lport).findIdx (UdpSocket.continues procs s)) =
          (r.previous s.lport).eraseP (UdpSocket.continues procs s) := by
        have hindex : (r.previous s.lport).findIdx? (UdpSocket.continues procs s) =
            some ((r.previous s.lport).findIdx (UdpSocket.continues procs s)) :=
          List.findIdx?_eq_some_iff_findIdx_eq.mpr ⟨hpos, rfl⟩
        rw [List.eraseP_eq_eraseIdx, hindex]
      rw [← hone.eraseP_eq_filter, ← herase]
      exact swapRemove_perm hpos
    · rw [Function.update_of_ne hport]
      have hall : ((r.previous port).filter fun u => !(s.lport = port && u.continues procs s)) =
          r.previous port := List.filter_eq_self.mpr fun u _ => by simp [Ne.symm hport]
      rw [hall]
  · rename_i hnone
    have hall : ((r.previous port).filter fun u => !(s.lport = port && u.continues procs s)) =
        r.previous port := by
      apply List.filter_eq_self.mpr
      intro u hu
      by_cases hport : s.lport = port
      · subst hport
        have hfree := List.find?_eq_none.mp hnone u hu
        simpa using hfree
      · simp [hport]
    rw [hall]

/-- While the rows are matched one by one, those done have taken their sockets
out of the previous table, each row has found what stands in the whole table,
and the rows that continue nothing are numbered in order. -/
structure Matched (rows done : List SockEntry) (r : Refresh) : Prop where
  left : ∀ port, (r.previous port).Perm ((previous port).filter (free procs done port))
  last : r.generation = base + (unknown procs previous done).length
  built : ∀ port, r.table port =
    (done.filter fun s => s.lport = port).map (place procs since previous base rows)

variable {procs since previous base}

/-- A row that is still to come finds its socket among those left. -/
theorem Matched.find?_eq {rows done : List SockEntry} {r : Refresh} {s : SockEntry}
    (h : Matched procs since previous base rows done r) (hseparate : Separate previous)
    (hnew : ∀ s' ∈ done, ¬ SameSocket s' s) :
    AtMostOne (UdpSocket.continues procs s) (r.previous s.lport) ∧
      (r.previous s.lport).find? (UdpSocket.continues procs s) = known procs previous s := by
  have hleft := (hseparate procs s).filter (free procs done s.lport)
  refine ⟨hleft.perm (h.left s.lport).symm, ?_⟩
  rw [hleft.find?_eq (h.left s.lport).symm, List.find?_filter, known]
  congr 1
  funext u
  -- no row that is done continues a socket that this row continues
  cases hcontinues : u.continues procs s with
  | false => simp
  | true =>
      have hfree : free procs done s.lport u = true := by
        apply List.all_eq_true.mpr
        intro s' hs'
        by_cases hport : s'.lport = s.lport
        · have hother : u.continues procs s' = false := by
            rw [← Bool.not_eq_true]
            exact fun h' => hnew s' hs' (sameSocket_of_continues_both hport h' hcontinues)
          simp [hother]
        · simp [hport]
      simp [hfree]

/-- One more row is matched. -/
theorem Matched.step {rows done : List SockEntry} {r : Refresh} {s : SockEntry}
    (h : Matched procs since previous base rows done r) (hseparate : Separate previous)
    (hrows : done ++ [s] <+: rows) (hnew : ∀ s' ∈ done, ¬ SameSocket s' s) :
    Matched procs since previous base rows (done ++ [s]) (step procs since r s) := by
  obtain ⟨hone, hfind⟩ := h.find?_eq hseparate hnew
  refine ⟨fun port => ?_, ?_, fun port => ?_⟩
  · refine (step_previous procs since hone port).trans ?_
    refine ((h.left port).filter _).trans ?_
    rw [List.filter_filter]
    apply List.Perm.of_eq
    congr 1
    funext u
    simp [free, Bool.and_comm]
  · rw [unknown, List.filter_append, List.length_append]
    unfold Refresh.step
    dsimp only
    rw [hfind]
    cases hknown : known procs previous s with
    | some old => simp [hknown, h.last, unknown]
    | none => simp [hknown, h.last, unknown, Nat.add_assoc]
  · have hplace : (Refresh.step procs since r s).table =
        Function.update r.table s.lport
          (r.table s.lport ++ [place procs since previous base rows s]) := by
      unfold Refresh.step place
      dsimp only
      rw [hfind]
      cases hknown : known procs previous s with
      | some old => rfl
      | none =>
          -- the number of the row is its place among the unknown ones
          obtain ⟨rest, rfl⟩ := hrows
          have hnumber : numberOf base (unknown procs previous (done ++ [s] ++ rest)) s =
              r.generation + 1 := by
            have habsent : s ∉ unknown procs previous done := fun hmem =>
              hnew s (List.mem_of_mem_filter hmem) ⟨rfl, rfl, rfl, rfl, rfl⟩
            have hsplit : unknown procs previous (done ++ [s] ++ rest) =
                unknown procs previous done ++ s :: unknown procs previous rest := by
              simp [unknown, hknown]
            rw [hsplit, numberOf, List.idxOf_append_of_notMem habsent, List.idxOf_cons_self,
              h.last]
            omega
          rw [hnumber]
    rw [hplace, List.filter_append, List.map_append]
    by_cases hport : s.lport = port
    · subst hport
      rw [Function.update_self, h.built]
      simp
    · rw [Function.update_of_ne (Ne.symm hport), h.built]
      simp [hport]

/-- All rows together. -/
theorem matched_foldl {rows : List SockEntry} (hseparate : Separate previous)
    (hdistinct : rows.Pairwise fun a b => ¬ SameSocket a b) :
    Matched procs since previous base rows rows
      (rows.foldl (Refresh.step procs since)
        { previous := previous, table := fun _ => [], generation := base }) := by
  suffices hfront : ∀ done, done <+: rows → Matched procs since previous base rows done
      (done.foldl (Refresh.step procs since)
        { previous := previous, table := fun _ => [], generation := base }) from
    hfront rows (List.prefix_refl rows)
  intro done
  induction done using List.reverseRecOn with
  | nil =>
      intro _
      have hall : ∀ port, (previous port).filter (free procs [] port) = previous port :=
        fun port => List.filter_eq_self.mpr fun u _ => rfl
      exact ⟨fun port => .of_eq (hall port).symm, rfl, fun port => rfl⟩
  | append_singleton done s ih =>
      intro hdone
      rw [List.foldl_append, List.foldl_cons, List.foldl_nil]
      apply (ih ((List.prefix_append done [s]).trans hdone)).step hseparate hdone
      intro s' hs'
      have hpairs := hdistinct.sublist hdone.sublist
      exact (List.pairwise_append.mp hpairs).2.2 s' hs' s (List.mem_singleton_self s)

end Refresh

namespace Store

variable {st : Store} {socks : List SockEntry} (procs : ProcMap) (t : ℕ)

/-- The socket that a row of the snapshot leaves in the table of a poll. -/
def placed (st : Store) (socks : List SockEntry) (procs : ProcMap) : SockEntry → UdpSocket :=
  Refresh.place procs st.socketsAt st.udpSockets st.socketGeneration
    (socks.filter fun s => s.proto = .udp)

/-- The rows of the snapshot whose sockets are new. -/
def newSockets (st : Store) (socks : List SockEntry) (procs : ProcMap) : List SockEntry :=
  Refresh.unknown procs st.udpSockets (socks.filter fun s => s.proto = .udp)

/-- Every row of a port leaves its socket in the bucket. -/
theorem startPoll_udpSockets (hseparate : Separate st.udpSockets) (hdistinct : DistinctRows socks)
    (port : UInt16) :
    (st.startPoll socks procs t).udpSockets port =
      (udpRows socks port).map (placed st socks procs) :=
  (Refresh.matched_foldl hseparate hdistinct.udp).built port

/-- Every new socket raises the last generation by one. -/
theorem startPoll_socketGeneration (hseparate : Separate st.udpSockets)
    (hdistinct : DistinctRows socks) :
    (st.startPoll socks procs t).socketGeneration =
      st.socketGeneration + (newSockets st socks procs).length :=
  (Refresh.matched_foldl hseparate hdistinct.udp).last

/-- The table stays separate under snapshots that list every socket once. -/
theorem separate_startPoll (hseparate : Separate st.udpSockets) (hdistinct : DistinctRows socks) :
    Separate (st.startPoll socks procs t).udpSockets := by
  intro procs' s'
  rw [startPoll_udpSockets procs t hseparate hdistinct, AtMostOne, List.pairwise_map]
  refine (hdistinct.udp.filter fun s => s.lport = s'.lport).imp_of_mem ?_
  intro a b ha hb hne ⟨hcontinues, hcontinues'⟩
  have hport : a.lport = s'.lport := by simpa using (List.mem_filter.mp ha).2
  have hport' : b.lport = s'.lport := by simpa using (List.mem_filter.mp hb).2
  obtain ⟨h₁, h₂, h₃, h₄, h₅⟩ :=
    Refresh.sameSocket_of_place_continues procs _ _ _ hport hcontinues
  obtain ⟨h₁', h₂', h₃', h₄', h₅'⟩ :=
    Refresh.sameSocket_of_place_continues procs _ _ _ hport' hcontinues'
  exact hne ⟨h₁.trans h₁'.symm, h₂.trans h₂'.symm, h₃.trans h₃'.symm, h₄.trans h₄'.symm,
    h₅.trans h₅'.symm⟩

end Store

end SocketTrail.State
