/-
# The plan of a finished recording

At the end of a recording the remembered rows and the live history are merged
once more. The result says which tuples a process-only dump keeps, how its
packets are labelled, and what the map of connections next to the file tells.
-/

import SocketTrail.Annotate.Apply
import SocketTrail.Foundation.Json
import SocketTrail.Recording.Meta
import Mathlib.Data.Finset.Sort

namespace SocketTrail.Recording

open SocketTrail.Foundation SocketTrail.Net SocketTrail.State

/-! ## Dates -/

/-- The civil date of a day counted from the epoch: year, month and day. -/
def civilFromDays (z : ℤ) : ℤ × ℤ × ℤ :=
  let z := z + 719468
  let era := z / 146097
  let doe := z % 146097
  let yoe := (doe - doe / 1460 + doe / 36524 - doe / 146096) / 365
  let y := yoe + era * 400
  let doy := doe - (365 * yoe + yoe / 4 - yoe / 100)
  let mp := (5 * doy + 2) / 153
  let d := doy - (153 * mp + 2) / 5 + 1
  let m := if mp < 10 then mp + 3 else mp - 9
  (if m ≤ 2 then y + 1 else y, m, d)

/-- A number with leading zeros up to a width. -/
def zeroPadded (width : ℕ) (n : ℤ) : String :=
  let digits := toString n.natAbs
  let zeros := String.ofList (List.replicate (width - digits.length - if n < 0 then 1 else 0) '0')
  (if n < 0 then "-" else "") ++ zeros ++ digits

/-- An instant in local time; the offset of the time zone is in seconds. The
milliseconds are fewer than 2^63, so that `i64` holds them. -/
def humanTime (tzOffset : ℤ) (ms : ℕ) : String :=
  let secs := (ms / 1000 : ℕ) + tzOffset
  let (y, mo, d) := civilFromDays (secs / 86400)
  let t := secs % 86400
  zeroPadded 4 y ++ "-" ++ zeroPadded 2 mo ++ "-" ++ zeroPadded 2 d ++ " " ++ zeroPadded 2 (t / 3600) ++ ":" ++
    zeroPadded 2 (t % 3600 / 60) ++ ":" ++ zeroPadded 2 (t % 60)

/-! ## Rows as documents -/

/-- A row of the history as the interface and the map of a dump show it. -/
def connJson (k : ConnKey) (c : Conn) : Json :=
  let text := Json.ofOption Json.str
  .obj
    [("id", .str (keyId k)), ("proto", .str k.proto.asStr), ("local", .str k.local.text),
      ("lport", .num k.lport.toNat), ("remote", .str k.remote.text), ("rport", .num k.rport.toNat),
      ("state", .str c.state.text), ("pid", Json.ofOption Json.num c.pid), ("pname", text c.pname),
      ("domain", text c.domain), ("sni", text c.sni), ("ptr", text c.ptr), ("asn", text c.asn),
      ("owner", text c.owner), ("first_seen", .num c.firstSeen), ("last_seen", .num c.lastSeen),
      ("tx_bytes", .num c.txBytes), ("rx_bytes", .num c.rxBytes), ("tx_pkts", .num c.txPkts),
      ("rx_pkts", .num c.rxPkts), ("from_packets_only", .bool c.fromPacketsOnly),
      ("closed", .bool c.closed), ("scope", .str c.scope.text)]

/-! ## Merging -/

/-- Merge one live row into the remembered rows; rows from before the recording
are no part of it. -/
def mergeRow (m : DumpMeta) (conns : KeyedMap ConnKey Conn) (recorded : KeyedMap ConnKey Conn)
    (key : ConnKey) : KeyedMap ConnKey Conn :=
  match conns.lookup key with
  | none => recorded
  | some c =>
      if c.lastSeen < m.started then recorded
      else
        match recorded.lookup key with
        | some old => recorded.insert key (old.updateRecording c)
        | none => recorded.insert key c

/-- The rows of the whole recording. -/
def mergedRows (order : HashOrder ConnKey) (m : DumpMeta) (conns : KeyedMap ConnKey Conn) :
    KeyedMap ConnKey Conn :=
  (order.arrange conns.keys).foldl (mergeRow m conns) m.conns

/-- The owner of a recorded tuple. A shared address or CDN domain is no proof
that a connection belongs to the process. -/
def ownerOf (m : DumpMeta) (_ : ConnKey) (c : Conn) : Option Annotate.Owner :=
  if c.lastSeen < m.started then none
  else some { label := Annotate.label c.pname c.pid c.domain, keep := dumpOwns m c }

/-- The rows that the map of the dump shows: those kept, less the program's own. -/
def shownRows (m : DumpMeta) (selfPids : Finset ℤ) (_ : ConnKey) (c : Conn) : Option Conn :=
  if c.lastSeen < m.started then none
  else if (dumpOwns m c || !m.onlyGroup) && !c.pid.any fun p => p ∈ selfPids then some c
  else none

/-- The newest row first; rows of one instant by their identifier. -/
def newestFirst (a b : ConnKey × Conn) : Bool :=
  b.2.lastSeen < a.2.lastSeen || (a.2.lastSeen = b.2.lastSeen && keyId a.1 ≤ keyId b.1)

/-- The comment of the section headers. -/
def planComment (lang : Lang) (m : DumpMeta) : String :=
  match m.process.map fun p => p.name ++ " [" ++ toString p.pid ++ "]", m.onlyGroup with
  | some w, true =>
      tr lang ("SocketTrail: only traffic of " ++ w ++ " and its child processes")
        ("SocketTrail: только трафик " ++ w ++ " и его дочерних процессов")
  | some w, false =>
      tr lang ("SocketTrail: all traffic of the computer, selected " ++ w)
        ("SocketTrail: весь трафик компьютера, выбран " ++ w)
  | none, _ =>
      tr lang "SocketTrail: all traffic of the computer" "SocketTrail: весь трафик компьютера"

/-- What the plan of a dump depends on besides the recording itself. -/
structure PlanInput where
  conns : KeyedMap ConnKey Conn
  selfPids : Finset ℤ
  lang : Lang
  tzOffset : ℤ
  now : ℕ
  order : HashOrder ConnKey

/-- The map of a dump. -/
def dumpInfo (g : PlanInput) (m : DumpMeta) (path : String) : Json :=
  let rows := KeyedMap.filterMap (shownRows m g.selfPids) (mergedRows g.order m g.conns)
  let sorted := (rows.entries.map fun row => (row.1, row.2)).mergeSort newestFirst
  .obj
    [("dump", .str path), ("captured_from", .str (humanTime g.tzOffset m.started)),
      ("captured_until", .str (humanTime g.tzOffset g.now)), ("only_process", .bool m.onlyGroup),
      ("process", Json.ofOption (fun p : ProcInfo =>
        .obj [("pid", .num p.pid), ("name", .str p.name), ("cmdline", .str p.cmdline)]) m.process),
      ("group_pids", .arr ((m.pids.sort (· ≤ ·)).map Json.num)),
      ("conns", .arr (sorted.map fun row => connJson row.1 row.2))]

/-- The plan of a dump and its map. -/
def dumpPlan (g : PlanInput) (m : DumpMeta) (path : String) : Annotate.Plan × Json :=
  ({ owners := KeyedMap.filterMap (ownerOf m) (mergedRows g.order m g.conns)
     onlyGroup := m.onlyGroup
     comment := planComment g.lang m },
    dumpInfo g m path)

/-! ## What a plan keeps -/

/-- The version of one tuple in the rows of the whole recording. -/
def mergedRow (m : DumpMeta) (row : Option Conn) (old : Option Conn) : Option Conn :=
  match row with
  | none => old
  | some c =>
      if c.lastSeen < m.started then old
      else
        match old with
        | some old => some (old.updateRecording c)
        | none => some c

theorem mergeRow_lookup_ne {m : DumpMeta} {conns recorded : KeyedMap ConnKey Conn}
    {key k : ConnKey} (hne : k ≠ key) :
    (mergeRow m conns recorded key).lookup k = recorded.lookup k := by
  unfold mergeRow
  split
  · rfl
  · split
    · rfl
    · split <;> exact AList.lookup_insert_ne hne

theorem mergeRow_lookup_self (m : DumpMeta) (conns recorded : KeyedMap ConnKey Conn)
    (k : ConnKey) :
    (mergeRow m conns recorded k).lookup k =
      mergedRow m (conns.lookup k) (recorded.lookup k) := by
  unfold mergeRow mergedRow
  cases hrow : conns.lookup k with
  | none => rfl
  | some c =>
      dsimp only
      split
      · rfl
      · cases hold : recorded.lookup k with
        | none => exact AList.lookup_insert ..
        | some old => exact AList.lookup_insert ..

theorem lookup_mergedRows (order : HashOrder ConnKey) (m : DumpMeta)
    (conns : KeyedMap ConnKey Conn) (k : ConnKey) :
    (mergedRows order m conns).lookup k =
      mergedRow m (conns.lookup k) (m.conns.lookup k) := by
  obtain ⟨habsent, heq⟩ | ⟨-, before, rest, -, hbefore, heq⟩ :=
    KeyedMap.foldl_visit (fun (recorded : KeyedMap ConnKey Conn) k => recorded.lookup k)
      (mergeRow m conns) (fun _ _ _ hne => mergeRow_lookup_ne hne)
      (order.arrange conns.keys) (order.nodup_arrange.mpr conns.keys_nodup) m.conns k
  · rw [mergedRows, heq]
    have hrow : conns.lookup k = none := by
      rw [AList.lookup_eq_none]
      exact fun hmem => habsent (order.mem_arrange.mpr (AList.mem_keys.mp hmem))
    rw [hrow]
    rfl
  · rw [mergedRows, heq, mergeRow_lookup_self, hbefore]

/-- The plan keeps the packets of a tuple. -/
def PlanKeeps (plan : Annotate.Plan) (k : ConnKey) : Prop :=
  ∃ owner, plan.owners.lookup k = some owner ∧ owner.keep = true

/-- A tuple is kept exactly when its merged row is of this recording and belongs
to the group. -/
theorem planKeeps_iff (g : PlanInput) (m : DumpMeta) (path : String) (k : ConnKey) :
    PlanKeeps (dumpPlan g m path).1 k ↔
      ∃ c, mergedRow m (g.conns.lookup k) (m.conns.lookup k) = some c ∧
        m.started ≤ c.lastSeen ∧ dumpOwns m c = true := by
  unfold PlanKeeps dumpPlan
  simp only [KeyedMap.lookup_filterMap, lookup_mergedRows, Option.bind_eq_some_iff, ownerOf]
  constructor
  · rintro ⟨owner, ⟨c, hrow, howner⟩, hkeep⟩
    split at howner
    · contradiction
    · rename_i hseen
      rw [Option.some.injEq] at howner
      subst howner
      exact ⟨c, hrow, not_lt.mp hseen, hkeep⟩
  · rintro ⟨c, hrow, hseen, howned⟩
    exact ⟨_, ⟨c, hrow, if_neg (not_lt.mpr hseen)⟩, howned⟩

end SocketTrail.Recording
