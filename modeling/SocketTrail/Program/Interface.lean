/-
# What a request gets

The rows and the lines of the summary that a request for the state is answered with, and
the rows that an export writes. The history is a hash map, which enumerates its rows in
any order; since the identifiers of the rows differ, the order of the answer leaves
nothing to it.
-/

import SocketTrail.Foundation.Ranking
import SocketTrail.Net.AddressText
import SocketTrail.Program.Summary
import SocketTrail.Program.View
import SocketTrail.Report.Reading

namespace SocketTrail.Program

open SocketTrail.Foundation SocketTrail.Foundation.Markup SocketTrail.Net SocketTrail.State
open SocketTrail.Recording SocketTrail.Report

/-- The name of a protocol, or nothing: an unknown one selects all rows. -/
def protoParam (s : String) : String :=
  let s := toAsciiLowercase s
  if s = "tcp" ∨ s = "udp" then s else ""

structure StateQuery where
  scope : String
  view : String
  q : String
  proto : String
  limit : Option ℕ
  showLocal : Option ℕ
  showSelf : Option ℕ

structure ExportQuery where
  format : String
  scope : String
  q : String
  proto : String

/-- The rows and lines of an answer, with their numbers. -/
structure StateAnswer where
  matched : ℕ
  stored : ℕ
  attributed : ℕ
  shown : ℕ
  conns : List (ConnKey × Conn)
  /-- The lines of the summary and how many there are. -/
  targets : Option (List Target × ℕ)

/-- A row is let through by the filters of a request. -/
def Visible (g : App) (lower : String → String) (port : UInt16) (f : Filter)
    (row : ConnKey × Conn) : Prop :=
  g.store.conns.lookup row.1 = some row.2 ∧ g.shows lower port f row.1 row.2 = true

/-- The row was seen later, or at the same instant and its identifier comes first. -/
def Newer (a b : ConnKey × Conn) : Prop :=
  b.2.lastSeen < a.2.lastSeen ∨ (b.2.lastSeen = a.2.lastSeen ∧ keyId a.1 < keyId b.1)

namespace App

variable (g : App) (lower : String → String) (port : UInt16) (order : HashOrder ConnKey)

def stateFilter (q : StateQuery) : Filter where
  onlySelected := q.scope ≠ "host" && g.selected.isSome
  query := q.q
  proto := protoParam q.proto
  showLocal := q.showLocal.getD 0 = 1
  showSelf := q.showSelf.getD 0 = 1

def stateLimit (q : StateQuery) : ℕ := max 1 (min (q.limit.getD 400) 5000)

def apiState (targetOrder : HashOrder TargetKey) (q : StateQuery) : StateAnswer :=
  let limit := stateLimit q
  let picked := g.selectConns lower port order (g.stateFilter q)
  if q.view = "agg" then
    let all := aggregate targetOrder picked
    { matched := picked.length
      stored := g.store.conns.size
      attributed := (picked.filter fun row => row.2.pid.isSome).length
      shown := (all.take limit).length
      conns := []
      targets := some (all.take limit, all.length) }
  else
    { matched := picked.length
      stored := g.store.conns.size
      attributed := (picked.filter fun row => row.2.pid.isSome).length
      shown := (picked.take limit).length
      conns := picked.take limit
      targets := none }

def exportFilter (q : ExportQuery) : Filter where
  onlySelected := q.scope ≠ "host" && g.selected.isSome
  query := q.q
  proto := protoParam q.proto
  showLocal := true
  showSelf := false

/-- The session of the first row began no later. -/
def startLe (a b : ConnKey × Conn) : Bool := a.2.firstSeen ≤ b.2.firstSeen

/-- The rows of an export: the earliest first, rows of one instant as in the table. -/
def exportRows (q : ExportQuery) : List (ConnKey × Conn) :=
  (g.selectConns lower port order (g.exportFilter q)).mergeSort startLe

/-- What an export is about. -/
def exportName (lang : Lang) (q : ExportQuery) : String :=
  match g.selected.filter fun _ => (g.exportFilter q).onlySelected with
  | some pid =>
      match g.procs.find? fun p => p.pid = pid with
      | none => "pid " ++ toString pid
      | some p => p.name ++ " (pid " ++ toString p.pid ++ ")"
  | none => tr lang "whole host" "весь хост"

/-- The rows of an export as a document. -/
def exportJson (lang : Lang) (tzOffset : ℤ) (now : ℕ) (q : ExportQuery) : Json :=
  let group := if (g.exportFilter q).onlySelected then g.group else []
  .obj
    [("generated", .str (humanTime tzOffset now)), ("process", .str (g.exportName lang q)),
      ("group", .arr (group.map Json.num)),
      ("conns", .arr ((g.exportRows lower port order q).map fun row => connJson row.1 row.2))]

/-- The text of an export, as a report or as the rows themselves. -/
def apiExport (lang : Lang) (tzOffset : ℤ) (now : ℕ) (q : ExportQuery) : List Char :=
  if q.format = "html" then
    let name := g.exportName lang q
    render lang (tr lang ("Network connections: " ++ name) ("Сетевые соединения: " ++ name))
      (humanTime tzOffset now) (g.exportRows lower port order q)
  else ((g.exportJson lower port order lang tzOffset now q).pretty 0).toList

/-! ## The order of the table -/

variable {g lower port} {order order' : HashOrder ConnKey} {f : Filter} {a b : ConnKey × Conn}

theorem rowLe_trans (a b c : ConnKey × Conn) (hab : rowLe a b = true) (hbc : rowLe b c = true) :
    rowLe a c = true := by
  simp only [rowLe, decide_eq_true_eq] at *
  rcases hab with hab | ⟨hab, hid⟩ <;> rcases hbc with hbc | ⟨hbc, hid'⟩
  · exact .inl (hbc.trans hab)
  · exact .inl (hbc ▸ hab)
  · exact .inl (hab ▸ hbc)
  · exact .inr ⟨hbc.trans hab, hid.trans hid'⟩

theorem rowLe_total (a b : ConnKey × Conn) : (rowLe a b || rowLe b a) = true := by
  simp only [rowLe, Bool.or_eq_true, decide_eq_true_eq]
  rcases lt_trichotomy a.2.lastSeen b.2.lastSeen with hlt | heq | hgt
  · exact .inr (.inl hlt)
  · rcases le_total (keyId a.1) (keyId b.1) with hid | hid
    · exact .inl (.inr ⟨heq.symm, hid⟩)
    · exact .inr (.inr ⟨heq, hid⟩)
  · exact .inl (.inl hgt)

/-- Two rows that the order does not tell apart are of one tuple. -/
theorem key_eq_of_ties (h : Ties rowLe a b) : a.1 = b.1 := by
  obtain ⟨hab, hba⟩ := h
  simp only [rowLe, decide_eq_true_eq] at hab hba
  rcases hab with hab | ⟨heq, hid⟩ <;> rcases hba with hba | ⟨heq', hid'⟩
  · exact absurd (hab.trans hba) (lt_irrefl _)
  · omega
  · omega
  · exact keyId_injective (le_antisymm hid hid')

/-! ## The rows of a selection -/

/-- The rows that a request shows, as the map enumerates them. -/
def matching (g : App) (lower : String → String) (port : UInt16) (order : HashOrder ConnKey)
    (f : Filter) : List (ConnKey × Conn) :=
  (order.arrange g.store.conns.keys).filterMap fun k =>
    (g.store.conns.lookup k).bind fun c => if g.shows lower port f k c then some (k, c) else none

theorem selectConns_eq :
    g.selectConns lower port order f = (g.matching lower port order f).mergeSort rowLe := rfl

theorem mem_selectConns_iff {row : ConnKey × Conn} :
    row ∈ g.selectConns lower port order f ↔ Visible g lower port f row := mem_selectConns

theorem mem_matching {row : ConnKey × Conn} :
    row ∈ g.matching lower port order f ↔ Visible g lower port f row := by
  have hsorted : row ∈ g.selectConns lower port order f ↔ row ∈ g.matching lower port order f := by
    rw [selectConns_eq, List.mem_mergeSort]
  exact hsorted.symm.trans mem_selectConns_iff

theorem visible_eq_of_key (ha : Visible g lower port f a) (hb : Visible g lower port f b)
    (h : a.1 = b.1) : a = b := by
  have hrow : some a.2 = some b.2 := by rw [← ha.1, ← hb.1, h]
  exact Prod.ext h (Option.some.inj hrow)

theorem nodup_matching : (g.matching lower port order f).Nodup := by
  refine (order.nodup_arrange.mpr g.store.conns.keys_nodup).filterMap ?_
  intro k k' row hk hk'
  have hkey {k : ConnKey} (h : row ∈ (g.store.conns.lookup k).bind fun c =>
      if g.shows lower port f k c then some (k, c) else none) : k = row.1 := by
    obtain ⟨c, -, hrow⟩ := Option.bind_eq_some_iff.mp h
    obtain ⟨-, hrow⟩ := Option.ite_none_right_eq_some.mp hrow
    exact congrArg Prod.fst (Option.some.inj hrow)
  rw [hkey hk, hkey hk']

theorem matching_perm :
    (g.matching lower port order f).Perm (g.matching lower port order' f) :=
  ((order.perm _).trans (order'.perm _).symm).filterMap _

/-- The order in which the map enumerates its rows leaves no trace. -/
theorem selectConns_order (order order' : HashOrder ConnKey) :
    g.selectConns lower port order f = g.selectConns lower port order' f := by
  rw [selectConns_eq, selectConns_eq]
  refine mergeSort_eq_of_untied rowLe_trans rowLe_total matching_perm ?_
  intro a ha b hb hties
  exact visible_eq_of_key (mem_matching.mp ha) (mem_matching.mp hb) (key_eq_of_ties hties)

theorem nodup_selectConns : (g.selectConns lower port order f).Nodup :=
  (List.mergeSort_perm _ _).nodup_iff.mpr nodup_matching

/-- The rows stand in the order of the table, each once. -/
theorem pairwise_selectConns : (g.selectConns lower port order f).Pairwise Newer := by
  have hsorted : (g.selectConns lower port order f).Pairwise fun a b => rowLe a b = true :=
    List.pairwise_mergeSort rowLe_trans rowLe_total _
  refine (hsorted.and nodup_selectConns).imp_of_mem ?_
  rintro a b ha hb ⟨hle, hne⟩
  have hid : keyId a.1 ≠ keyId b.1 := fun hid => hne <|
    visible_eq_of_key (mem_selectConns_iff.mp ha) (mem_selectConns_iff.mp hb) (keyId_injective hid)
  simp only [rowLe, decide_eq_true_eq] at hle
  exact hle.imp_right fun h => ⟨h.1, lt_of_le_of_ne h.2 hid⟩

theorem nodup_ids {rows : List (ConnKey × Conn)} (hnodup : rows.Nodup)
    (h : ∀ row ∈ rows, Visible g lower port f row) :
    (rows.map fun row => keyId row.1).Nodup := by
  refine List.Nodup.map_on (fun a ha b hb hid => ?_) hnodup
  exact visible_eq_of_key (h a ha) (h b hb) (keyId_injective hid)

/-! ## The state -/

/-- The answer has as many of the newest rows as the limit lets it, in the order of the
table and under different identifiers, and it counts all of them. -/
structure TableOf (visible : ConnKey × Conn → Prop) (limit : ℕ) (answer : StateAnswer) :
    Prop where
  counted : ∃ rows : Finset (ConnKey × Conn), (∀ row, row ∈ rows ↔ visible row) ∧
    answer.matched = rows.card ∧
      answer.attributed = (rows.filter fun row => row.2.pid.isSome).card
  shown : answer.shown = answer.conns.length
  length : answer.conns.length = min limit answer.matched
  sound : ∀ row ∈ answer.conns, visible row
  sorted : answer.conns.Pairwise Newer
  ids : (answer.conns.map fun row => keyId row.1).Nodup
  newest : ∀ row, visible row → row ∉ answer.conns → ∀ shown ∈ answer.conns, Newer shown row

/-- The rows beyond the limit are older than those within. -/
theorem newer_of_notMem_take {rows : List (ConnKey × Conn)} (hsorted : rows.Pairwise Newer)
    {limit : ℕ} (hrow : b ∈ rows) (hcut : b ∉ rows.take limit) (hshown : a ∈ rows.take limit) :
    Newer a b := by
  rw [← List.take_append_drop limit rows] at hsorted hrow
  have hrest : b ∈ rows.drop limit := (List.mem_append.mp hrow).resolve_left hcut
  exact (List.pairwise_append.mp hsorted).2.2 a hshown b hrest

/-- The answer to a request for the table is that of the filters and the limit alone,
whatever orders the maps have. -/
theorem apiState_table (g : App) (lower : String → String) (port : UInt16)
    (order : HashOrder ConnKey) (targetOrder : HashOrder TargetKey) {q : StateQuery}
    (hview : q.view ≠ "agg") :
    TableOf (Visible g lower port (g.stateFilter q)) (stateLimit q)
        (g.apiState lower port order targetOrder q) ∧
      ∀ order' targetOrder', g.apiState lower port order' targetOrder' q =
        g.apiState lower port order targetOrder q := by
  have hanswer (order : HashOrder ConnKey) (targetOrder : HashOrder TargetKey) :
      g.apiState lower port order targetOrder q =
        { matched := (g.selectConns lower port order (g.stateFilter q)).length
          stored := g.store.conns.size
          attributed := ((g.selectConns lower port order (g.stateFilter q)).filter fun row =>
            row.2.pid.isSome).length
          shown := ((g.selectConns lower port order (g.stateFilter q)).take (stateLimit q)).length
          conns := (g.selectConns lower port order (g.stateFilter q)).take (stateLimit q)
          targets := none } := if_neg hview
  constructor
  · rw [hanswer order targetOrder]
    have hmem (row : ConnKey × Conn) :
        row ∈ g.selectConns lower port order (g.stateFilter q) ↔
          Visible g lower port (g.stateFilter q) row := mem_selectConns_iff
    have hsorted : (g.selectConns lower port order (g.stateFilter q)).Pairwise Newer :=
      pairwise_selectConns
    have hnodup : (g.selectConns lower port order (g.stateFilter q)).Nodup := nodup_selectConns
    generalize g.selectConns lower port order (g.stateFilter q) = rows at hmem hsorted hnodup
    have htake {row : ConnKey × Conn} (h : row ∈ rows.take (stateLimit q)) : row ∈ rows :=
      List.mem_of_mem_take h
    refine ⟨⟨rows.toFinset, fun row => ?_, ?_, ?_⟩, rfl, List.length_take, ?_, ?_, ?_, ?_⟩
    · rw [List.mem_toFinset, hmem]
    · exact (List.toFinset_card_of_nodup hnodup).symm
    · rw [← List.toFinset_filter, List.toFinset_card_of_nodup (hnodup.filter _)]
    · exact fun row hrow => (hmem row).mp (htake hrow)
    · exact hsorted.sublist (List.take_sublist _ _)
    · exact nodup_ids (hnodup.sublist (List.take_sublist _ _)) fun row hrow =>
        (hmem row).mp (htake hrow)
    · exact fun row hvisible hcut shown hshown =>
        newer_of_notMem_take hsorted ((hmem row).mpr hvisible) hcut hshown
  · intro order' targetOrder'
    rw [hanswer, hanswer, selectConns_order order' order]

/-- Two sessions to one address, the second of them seen later. -/
def sampleSessions : App :=
  let first : ConnKey := ⟨.tcp, .ofOctets 10 0 0 2, 40000, .ofOctets 1 1 1 1, 443⟩
  let second : ConnKey := ⟨.tcp, .ofOctets 10 0 0 2, 40001, .ofOctets 1 1 1 1, 443⟩
  let rows : KeyedMap ConnKey Conn := AList.insert first (Store.freshConn first true 1000)
    (AList.singleton second (Store.freshConn second true 2000))
  App.initial { Store.empty 0 with conns := rows } "eth0" (fun _ => none) 1

def sampleQuery : StateQuery where
  scope := "host"
  view := "conns"
  q := ""
  proto := "tcp"
  limit := some 1
  showLocal := none
  showSelf := none

theorem apiState_table_sample :
    TableOf (Visible sampleSessions id 8787 (sampleSessions.stateFilter sampleQuery))
        (stateLimit sampleQuery)
        (sampleSessions.apiState id 8787 .stored .stored sampleQuery) ∧
      ∀ order' targetOrder', sampleSessions.apiState id 8787 order' targetOrder' sampleQuery =
        sampleSessions.apiState id 8787 .stored .stored sampleQuery :=
  apiState_table sampleSessions id 8787 .stored .stored (by decide)

/-! ## The export -/

/-- The session began earlier, or at the same instant and stands first in the table. -/
def Earlier (a b : ConnKey × Conn) : Prop :=
  a.2.firstSeen < b.2.firstSeen ∨ (a.2.firstSeen = b.2.firstSeen ∧ Newer a b)

theorem startLe_trans (a b c : ConnKey × Conn) (hab : startLe a b = true)
    (hbc : startLe b c = true) : startLe a c = true := by
  simp only [startLe, decide_eq_true_eq] at *
  exact hab.trans hbc

theorem startLe_total (a b : ConnKey × Conn) : (startLe a b || startLe b a) = true := by
  simp only [startLe, Bool.or_eq_true, decide_eq_true_eq]
  exact le_total _ _

theorem mem_exportRows {q : ExportQuery} {row : ConnKey × Conn} :
    row ∈ g.exportRows lower port order q ↔ Visible g lower port (g.exportFilter q) row := by
  rw [exportRows, List.mem_mergeSort, mem_selectConns_iff]

/-- Sessions of one instant stay in the order of the table. -/
theorem pairwise_exportRows {q : ExportQuery} :
    (g.exportRows lower port order q).Pairwise Earlier := by
  have hnodup : (g.selectConns lower port order (g.exportFilter q)).Nodup := nodup_selectConns
  refine (pairwise_mergeSort_stable startLe_trans startLe_total hnodup pairwise_selectConns).imp ?_
  rintro a b (hahead | ⟨hties, hnewer⟩)
  · simp only [ahead, startLe, Bool.and_eq_true, decide_eq_true_eq, Bool.not_eq_true',
      decide_eq_false_iff_not, not_le] at hahead
    exact .inl hahead.2
  · simp only [Ties, startLe, decide_eq_true_eq] at hties
    exact .inr ⟨le_antisymm hties.1 hties.2, hnewer⟩

theorem exportRows_order (order order' : HashOrder ConnKey) (q : ExportQuery) :
    g.exportRows lower port order q = g.exportRows lower port order' q := by
  rw [exportRows, exportRows, selectConns_order order order']

/-- The traffic of the program itself is not shown, unless it is asked for. -/
theorem pid_notMem_selfPids_of_shows (hself : f.showSelf = false) {k : ConnKey} {c : Conn}
    (h : g.shows lower port f k c = true) {pid : ℤ} (hpid : c.pid = some pid) :
    pid ∉ g.selfPids := by
  intro hown
  unfold shows at h
  rw [hself, hpid] at h
  simp [hown] at h

/-- An export lists the rows that its filters let through, the earliest session first, none
of them the program's own, in whatever order the map has them. A reader of the report finds
in its cells what these rows say, and the document has the same rows. -/
theorem apiExport_lists (g : App) (lower : String → String) (port : UInt16)
    (order : HashOrder ConnKey) (lang : Lang) (tzOffset : ℤ) (now : ℕ) (q : ExportQuery) :
    ∃ rows : List (ConnKey × Conn), rows.Pairwise Earlier ∧
      (∀ row, row ∈ rows ↔ Visible g lower port (g.exportFilter q) row) ∧
      (∀ row ∈ rows, ∀ pid ∈ row.2.pid, pid ∉ g.selfPids) ∧
      cells (read (g.apiExport lower port order lang tzOffset now { q with format := "html" })) =
        (rows.flatMap fun row => (cellTexts lang row.1 row.2).map String.toList) ∧
      (g.exportJson lower port order lang tzOffset now q).get "conns" =
        some (.arr (rows.map fun row => connJson row.1 row.2)) ∧
      ∀ order', g.apiExport lower port order' lang tzOffset now q =
        g.apiExport lower port order lang tzOffset now q := by
  refine ⟨g.exportRows lower port order q, pairwise_exportRows, fun _ => mem_exportRows, ?_, ?_,
    ?_, ?_⟩
  · intro row hrow pid hpid
    exact pid_notMem_selfPids_of_shows rfl (mem_exportRows.mp hrow).2 hpid
  · rw [apiExport, if_pos rfl]
    exact cells_render ..
  · rfl
  · intro order'
    simp only [apiExport, exportJson, exportRows_order order' order]

end App

end SocketTrail.Program
