/-
# The process view

`selectConns` is the selection behind the connection table: the filters of a
request, the search text and the order. Lowercasing is a parameter, since only
the tables of Unicode say what it does.
-/

import SocketTrail.Foundation.Text
import SocketTrail.Program.App
import Mathlib.Data.List.Infix

namespace SocketTrail.Program

open SocketTrail.Foundation SocketTrail.Net SocketTrail.State

/-- The filters of a request. -/
structure Filter where
  onlySelected : Bool
  query : String
  /-- `tcp` or `udp`; empty for any protocol. -/
  proto : String
  showLocal : Bool
  showSelf : Bool

/-- The text contains the search text. -/
def contains (text q : String) : Bool := q.toList <:+: text.toList

/-- A row matches the search text. The names of the protocols select a protocol
and are not looked for in names. -/
def connMatches (lower : String → String) (k : ConnKey) (c : Conn) (q : String) : Bool :=
  if q.isEmpty then true
  else if q = "tcp" ∨ q = "udp" then eqIgnoreAsciiCase k.proto.asStr q
  else
    contains k.remote.text q || contains (toString k.rport.toNat) q ||
      c.domain.any (fun d => contains (lower d) q) || c.pname.any (fun p => contains (lower p) q) ||
      c.owner.any (fun o => contains (lower o) q) || c.asn.any fun a => contains (lower a) q

namespace App

/-- The filters of a request let the row through. The program's own traffic is
that of its processes and of the browser with its window. -/
def shows (g : App) (lower : String → String) (port : UInt16) (f : Filter) (k : ConnKey)
    (c : Conn) : Bool :=
  let q := lower f.query
  if !f.proto.isEmpty && !eqIgnoreAsciiCase k.proto.asStr f.proto then false
  else if !f.showLocal && c.scope ≠ .publicNet then false
  else if !f.showSelf &&
      (c.pid.any (· ∈ g.selfPids) || (k.rport = port && c.scope = .loopback)) then false
  else if f.onlySelected && !c.pid.any (· ∈ g.group) then false
  else connMatches lower k c q

/-- The order of the table: the latest row first, rows of one instant by their
identifiers. -/
def rowLe (a b : ConnKey × Conn) : Bool :=
  b.2.lastSeen < a.2.lastSeen ∨ (b.2.lastSeen = a.2.lastSeen ∧ keyId a.1 ≤ keyId b.1)

/-- The rows that a request shows. -/
def selectConns (g : App) (lower : String → String) (port : UInt16) (order : HashOrder ConnKey)
    (f : Filter) : List (ConnKey × Conn) :=
  let rows := (order.arrange g.store.conns.keys).filterMap fun k =>
    (g.store.conns.lookup k).bind fun c => if g.shows lower port f k c then some (k, c) else none
  rows.mergeSort rowLe

/-- A request shows the rows of the history that its filters let through. -/
theorem mem_selectConns {g : App} {lower : String → String} {port : UInt16}
    {order : HashOrder ConnKey} {f : Filter} {k : ConnKey} {c : Conn} :
    (k, c) ∈ g.selectConns lower port order f ↔
      g.store.conns.lookup k = some c ∧ g.shows lower port f k c = true := by
  unfold selectConns
  simp only [List.mem_mergeSort, List.mem_filterMap, Option.bind_eq_some_iff,
    Option.ite_none_right_eq_some, Option.some.injEq, Prod.mk.injEq]
  constructor
  · rintro ⟨k', -, c', hrow, hshown, rfl, rfl⟩
    exact ⟨hrow, hshown⟩
  · rintro ⟨hrow, hshown⟩
    have hkey : k ∈ order.arrange g.store.conns.keys :=
      order.mem_arrange.mpr (AList.mem_keys.mp (AList.lookup_isSome.mp (hrow ▸ rfl)))
    exact ⟨k, hkey, c, hrow, hshown, rfl, rfl⟩

/-- A row of the process view names a process of the group. -/
theorem pid_mem_group_of_shows {g : App} {lower : String → String} {port : UInt16} {f : Filter}
    (honly : f.onlySelected = true) {k : ConnKey} {c : Conn}
    (hshown : g.shows lower port f k c = true) : ∃ q ∈ g.group, c.pid = some q := by
  unfold shows at hshown
  rw [honly] at hshown
  dsimp only at hshown
  split at hshown
  · contradiction
  · split at hshown
    · contradiction
    · split at hshown
      · contradiction
      · split at hshown
        · contradiction
        · rename_i hmember
          simp only [Bool.true_and, Bool.not_eq_true', Bool.not_eq_false, Option.any_eq_true,
            decide_eq_true_eq] at hmember
          obtain ⟨q, hpid, hq⟩ := hmember
          exact ⟨q, hq, hpid⟩

/-- The process view that hides nothing. -/
def openView : Filter where
  onlySelected := true
  query := ""
  proto := ""
  showLocal := true
  showSelf := true

/-- The view that hides nothing shows every row under a number of the group. -/
theorem openView_shows {g : App} {lower : String → String} (hlower : lower "" = "")
    {port : UInt16} {k : ConnKey} {c : Conn} {q : ℤ} (hpid : c.pid = some q) (hq : q ∈ g.group) :
    g.shows lower port openView k c = true := by
  simp [shows, openView, hpid, hq, connMatches, hlower]

end App

end SocketTrail.Program
