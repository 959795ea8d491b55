/-
# One row of the history through a poll

Where the clock stands still and no row is thrown out, the row of a tuple after
a poll is computed from its old row and the snapshot rows of that tuple, in
their order and nothing else.
-/

import SocketTrail.State.Eviction

namespace SocketTrail.State

open SocketTrail.Foundation SocketTrail.Net

namespace Store

/-- The rows of the snapshot that are shown on the row of a tuple. -/
def tupleRows (socks : List SockEntry) (k : ConnKey) : List SockEntry :=
  socks.filter fun s => s.key = k && s.rport ≠ 0

theorem mem_tupleRows {socks : List SockEntry} {k : ConnKey} {s : SockEntry} :
    s ∈ tupleRows socks k ↔ s ∈ socks ∧ s.key = k ∧ s.rport ≠ 0 := by
  simp [tupleRows]

/-- The row of a tuple during a poll, and whether the tuple counts as shown. -/
def rowOf (acc : Store × Finset ConnKey) (k : ConnKey) : Option Conn × Bool :=
  (acc.1.conns.lookup k, k ∈ acc.2)

/-- What one snapshot row of the tuple does to its row. -/
def advance (procs : ProcMap) (t : ℕ) (k : ConnKey) (owner : UdpMatch) (row : Option Conn × Bool)
    (s : SockEntry) : Option Conn × Bool :=
  if s.state = .timeWait ∧ row.1 = none then row
  else (some (showSocket procs t s owner (row.1.getD (freshConn k false t))), true)

variable {order : HashOrder ConnKey} {procs : ProcMap}

/-- A snapshot row acts on the row of its own tuple alone. -/
theorem rowOf_applySocket {t : ℕ} {acc : Store × Finset ConnKey} {s : SockEntry} {k : ConnKey}
    (hkept : Admits acc.1 s → ¬ Displaces order acc.1 s.key k) :
    rowOf (applySocket order procs t acc t s) k =
      if s.key = k ∧ s.rport ≠ 0 then advance procs t k (acc.1.udpOwner k) (rowOf acc k) s
      else rowOf acc k := by
  by_cases hrow : s.key = k ∧ s.rport ≠ 0
  · rw [if_pos hrow]
    obtain ⟨rfl, hport⟩ := hrow
    have habsent : s.key ∉ acc.1.conns ↔ (rowOf acc s.key).1 = none := AList.lookup_eq_none.symm
    unfold applySocket advance
    rw [if_neg hport]
    by_cases hwait : s.state = .timeWait ∧ s.key ∉ acc.1.conns
    · rw [if_pos hwait, if_pos ⟨hwait.1, habsent.mp hwait.2⟩]
    · rw [if_neg hwait, if_neg (by rwa [habsent] at hwait)]
      apply Prod.ext
      · exact entry_lookup_self ..
      · exact decide_eq_true (Finset.mem_insert_self ..)
  · rw [if_neg hrow]
    unfold applySocket
    by_cases hport : s.rport = 0
    · rw [if_pos hport]
    · have hkey : k ≠ s.key := fun heq => hrow ⟨heq.symm, hport⟩
      rw [if_neg hport]
      by_cases hwait : s.state = .timeWait ∧ s.key ∉ acc.1.conns
      · rw [if_pos hwait]
      · rw [if_neg hwait]
        apply Prod.ext
        · exact entry_lookup_of_not_displaces hkey (hkept ⟨hport, hwait⟩)
        · simp [rowOf, hkey]

section Poll

variable {clock : Clock} {st : Store} {socks : List SockEntry} {k : ConnKey}

/-- The row of a tuple once all snapshot rows are applied. -/
theorem rowOf_midPoll (hclock : ∀ i, clock.read i = clock.read 0)
    (hkept : ¬ PollEvicts order clock st socks procs k) :
    rowOf (midPoll order clock st socks procs socks) k =
      (tupleRows socks k).foldl
        (advance procs (clock.read 0) k ((st.startPoll socks procs (clock.read 0)).udpOwner k))
        (st.conns.lookup k, false) := by
  have howners : ∀ done, (midPoll order clock st socks procs done).1.udpOwner k =
      (st.startPoll socks procs (clock.read 0)).udpOwner k :=
    fun done => applyRows_udpOwner done 1 _ k
  refine midPoll_induction (P := fun done acc => rowOf acc k = (tupleRows done k).foldl
    (advance procs (clock.read 0) k ((st.startPoll socks procs (clock.read 0)).udpOwner k))
    (st.conns.lookup k, false)) ?_ ?_
  · simp [rowOf, tupleRows]
  · intro done s hdone hbefore
    rw [hclock (1 + done.length), rowOf_applySocket
      (fun hadmits hdisplaces => hkept ⟨done, s, hdone, hadmits, hdisplaces⟩), hbefore,
      howners done, tupleRows, tupleRows, List.filter_append]
    by_cases hrow : s.key = k ∧ s.rport ≠ 0
    · rw [if_pos hrow, List.filter_cons_of_pos (by simp [hrow]), List.filter_nil,
        List.foldl_append]
      rfl
    · rw [if_neg hrow, List.filter_cons_of_neg (by simpa using hrow), List.filter_nil,
        List.append_nil]

/-- The row of a tuple after a poll. -/
theorem applySockets_lookup (hclock : ∀ i, clock.read i = clock.read 0)
    (hkept : ¬ PollEvicts order clock st socks procs k) {owner : UdpMatch}
    (howner : (st.startPoll socks procs (clock.read 0)).udpOwner k = owner)
    {row : Option Conn × Bool}
    (hrow : (tupleRows socks k).foldl (advance procs (clock.read 0) k owner)
      (st.conns.lookup k, false) = row) :
    (st.applySockets order clock socks procs).conns.lookup k =
      row.1.map (settle procs (clock.read 0) row.2 k owner) := by
  subst howner
  rw [← rowOf_midPoll hclock hkept] at hrow
  subst hrow
  have hmid : (midPoll order clock st socks procs socks).1.udpOwner k =
      (st.startPoll socks procs (clock.read 0)).udpOwner k := applyRows_udpOwner socks 1 _ k
  unfold applySockets
  simp only [KeyedMap.lookup_mapValues]
  rw [hmid]
  rfl

end Poll

end Store

end SocketTrail.State
