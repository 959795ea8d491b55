/-
# The process tree

A request for the processes gets those that it asks for together with their ancestors,
so that the tree does not fall apart into branches. The list of the processes comes
from the polls. While every poll lists a process once, and no process that is asked for
has more than 64 ancestors, the request gets exactly these.
-/

import SocketTrail.Foundation.Climb
import SocketTrail.Net.WinPasses
import SocketTrail.Program.Instances
import SocketTrail.Program.View

namespace SocketTrail.Program

open SocketTrail.Foundation SocketTrail.Net SocketTrail.State SocketTrail.Recording
  SocketTrail.Attribution

/-- What a request for the processes asks for. -/
structure ProcsQuery where
  /-- `proton` or `all`; anything else for the active processes. -/
  filter : String
  q : String
  showSelf : Option UInt8

/-- One process of the answer. -/
structure ProcRow where
  pid : ℤ
  ppid : ℤ
  name : String
  comm : String
  cmdline : String
  proton : Bool
  active : Bool
  /-- The open connections to public addresses. -/
  conns : ℕ
  matched : Bool
  own : Bool

/-- The answer to a request for the processes. -/
structure ProcTree where
  procs : List ProcRow
  selected : Option ℤ
  total : ℕ

/-- The loop over the parents; `guard` is what is left of its 64 turns. -/
def keepParents (byPid : ℤ → Option ProcInfo) : ℕ → ℤ → Finset ℤ → Finset ℤ
  | 0, _, keep => keep
  | guard + 1, cur, keep =>
      if cur ≤ 1 then keep
      else if cur ∈ keep then keep
      else
        match byPid cur with
        | some parent => keepParents byPid guard parent.ppid (insert cur keep)
        | none => insert cur keep

namespace App

variable (g : App) (lower : String → String) (active : Finset ℤ) (q : ProcsQuery)

/-- The open connections of a process to public addresses. -/
def liveConns (pid : ℤ) : ℕ :=
  KeyedMap.count (fun c => !c.closed && c.scope = .publicNet && c.pid = some pid) g.store.conns

/-- The request asks for the process. -/
def wants (p : ProcInfo) : Bool :=
  let showSelf := q.showSelf.getD 0 = 1
  let needle := lower q.q
  if !showSelf && p.pid ∈ g.selfPids then false
  else
    let byFilter :=
      if q.filter = "proton" then p.proton else if q.filter = "all" then true else p.pid ∈ active
    let byQuery := needle.isEmpty || contains (lower p.name) needle ||
      contains (toString p.pid) needle || contains (lower p.cmdline) needle
    byFilter && byQuery

/-- The processes asked for and their ancestors. -/
def keptPids : Finset ℤ :=
  (g.procs.filter (g.wants lower active q)).foldl
    (fun keep p => keepParents (procMap g.procs) 64 p.ppid (insert p.pid keep)) ∅

def matchedPids : Finset ℤ := ((g.procs.filter (g.wants lower active q)).map ProcInfo.pid).toFinset

def procRow (p : ProcInfo) : ProcRow where
  pid := p.pid
  ppid := p.ppid
  name := p.name
  comm := p.comm
  cmdline := p.cmdline
  proton := p.proton
  active := p.pid ∈ active
  conns := g.liveConns p.pid
  matched := p.pid ∈ g.matchedPids lower active q
  own := p.pid ∈ g.selfPids

/-- The answer to a request for the processes; `active` are the numbers of the active
ones. -/
def apiProcs : ProcTree where
  procs := (g.procs.filter fun p => p.pid ∈ g.keptPids lower active q).map
    (g.procRow lower active q)
  selected := g.selected
  total := g.procs.length

end App

/-! ## Ancestors -/

/-- A parent that the tree has a place for. -/
def aboveInit (ppid : ℤ) : Option ℤ := if 1 < ppid then some ppid else none

/-- The number of the parent of the process with a number. -/
def parentPid (procs : List ProcInfo) (pid : ℤ) : Option ℤ :=
  (procMap procs pid).bind fun p => aboveInit p.ppid

/-- The second process is the first one or an ancestor of it. -/
def AtOrAbove (procs : List ProcInfo) : ℤ → ℤ → Prop := Leads (parentPid procs)

theorem keepParents_eq_climb (procs : List ProcInfo) (guard : ℕ) (cur : ℤ) (keep : Finset ℤ) :
    keepParents (procMap procs) guard cur keep =
      climb (parentPid procs) guard (aboveInit cur) keep := by
  induction guard generalizing cur keep with
  | zero => rfl
  | succ guard ih =>
      unfold keepParents aboveInit
      by_cases hinit : cur ≤ 1
      · rw [if_pos hinit, if_neg (not_lt.mpr hinit)]
        rfl
      · rw [if_neg hinit, if_pos (not_le.mp hinit)]
        unfold climb
        split
        · rfl
        · have hparent : parentPid procs cur = (procMap procs cur).bind fun p => aboveInit p.ppid := rfl
          rw [hparent]
          cases procMap procs cur with
          | none => cases guard <;> rfl
          | some parent => exact ih parent.ppid (insert cur keep)

/-! ## What the request gets -/

theorem procMap_of_mem {procs : List ProcInfo} (h : OnePerPid procs) {p : ProcInfo}
    (hp : p ∈ procs) : procMap procs p.pid = some p := by
  unfold procMap
  cases hfound : procs.reverse.find? fun q => q.pid = p.pid with
  | none =>
      have hmissing := List.find?_eq_none.mp hfound p (List.mem_reverse.mpr hp)
      simp at hmissing
  | some q =>
      have hnamed := List.find?_some hfound
      rw [decide_eq_true_eq] at hnamed
      have hq : q ∈ procs := List.mem_reverse.mp (List.mem_of_find?_eq_some hfound)
      rw [h.eq hq hp hnamed]

theorem parentPid_of_mem {procs : List ProcInfo} (h : OnePerPid procs) {p : ProcInfo}
    (hp : p ∈ procs) : parentPid procs p.pid = aboveInit p.ppid := by
  unfold parentPid
  rw [procMap_of_mem h hp, Option.bind_some]

namespace App

variable {g : App} {lower : String → String} {active : Finset ℤ} {q : ProcsQuery}

/-- The loop over the processes asked for climbs from one to the next. -/
theorem keptPids_eq (h : OnePerPid g.procs) :
    g.keptPids lower active q = ((g.procs.filter (g.wants lower active q)).map ProcInfo.pid).foldl
      (climbFrom (parentPid g.procs) 64) ∅ := by
  unfold keptPids
  rw [List.foldl_map]
  refine List.foldl_ext _ _ ∅ fun keep p hp => ?_
  unfold climbFrom
  rw [keepParents_eq_climb, parentPid_of_mem h (List.mem_of_mem_filter hp)]

theorem mem_keptPids (h : OnePerPid g.procs)
    (hdeep : ∀ p ∈ g.procs, g.wants lower active q p = true →
      Within (parentPid g.procs) 64 p.pid) {pid : ℤ} :
    pid ∈ g.keptPids lower active q ↔
      ∃ p ∈ g.procs, g.wants lower active q p = true ∧ AtOrAbove g.procs p.pid pid := by
  rw [keptPids_eq h, mem_foldl_climbFrom]
  · simp only [List.mem_map, List.mem_filter]
    constructor
    · rintro ⟨_, ⟨p, ⟨hp, hwanted⟩, rfl⟩, hleads⟩
      exact ⟨p, hp, hwanted, hleads⟩
    · rintro ⟨p, hp, hwanted, hleads⟩
      exact ⟨p.pid, ⟨p, ⟨hp, hwanted⟩, rfl⟩, hleads⟩
  · intro pid hpid
    obtain ⟨p, hp, rfl⟩ := List.mem_map.mp hpid
    exact hdeep p (List.mem_of_mem_filter hp) (List.of_mem_filter hp)

/-- The rows of an answer are those of the kept processes. -/
theorem mem_apiProcs {row : ProcRow} :
    row ∈ (g.apiProcs lower active q).procs ↔
      ∃ p ∈ g.procs, p.pid ∈ g.keptPids lower active q ∧ g.procRow lower active q p = row := by
  simp only [apiProcs, List.mem_map, List.mem_filter, decide_eq_true_eq, and_assoc]

theorem matched_procRow (h : OnePerPid g.procs) {p : ProcInfo} (hp : p ∈ g.procs) :
    (g.procRow lower active q p).matched = g.wants lower active q p := by
  rw [Bool.eq_iff_iff]
  refine decide_eq_true_iff.trans ?_
  unfold matchedPids
  rw [List.mem_toFinset, List.mem_map]
  constructor
  · rintro ⟨p', hp', hpid⟩
    obtain ⟨hp', hwanted⟩ := List.mem_filter.mp hp'
    exact h.eq hp' hp hpid ▸ hwanted
  · intro hwanted
    exact ⟨p, List.mem_filter.mpr ⟨hp, hwanted⟩, rfl⟩

theorem nodup_apiProcs (h : OnePerPid g.procs) :
    ((g.apiProcs lower active q).procs.map ProcRow.pid).Nodup := by
  have hpids : (g.apiProcs lower active q).procs.map ProcRow.pid =
      (g.procs.filter fun p => p.pid ∈ g.keptPids lower active q).map ProcInfo.pid := by
    simp only [apiProcs, List.map_map]
    rfl
  rw [hpids]
  exact h.sublist (List.filter_sublist.map _)

end App

/-- What a request for the processes is to get: the processes asked for and their
ancestors, once each, and the parent of every process that has one. -/
structure WholeTree (g : App) (lower : String → String) (active : Finset ℤ) (q : ProcsQuery)
    (rows : List ProcRow) : Prop where
  listed : ∀ p ∈ g.procs, (∃ row ∈ rows, row.pid = p.pid) ↔
    ∃ asked ∈ g.procs, g.wants lower active q asked = true ∧ AtOrAbove g.procs asked.pid p.pid
  once : (rows.map ProcRow.pid).Nodup
  read : ∀ row ∈ rows, ∃ p ∈ g.procs, row = g.procRow lower active q p ∧
    row.matched = g.wants lower active q p
  parent : ∀ row ∈ rows, 1 < row.ppid → ∀ p ∈ g.procs, p.pid = row.ppid →
    ∃ row' ∈ rows, row'.pid = row.ppid

theorem App.apiProcs_wholeTree {g : App} (h : OnePerPid g.procs) {lower : String → String}
    {active : Finset ℤ} {q : ProcsQuery}
    (hdeep : ∀ p ∈ g.procs, g.wants lower active q p = true →
      Within (parentPid g.procs) 64 p.pid) :
    WholeTree g lower active q (g.apiProcs lower active q).procs := by
  have hrow : ∀ p ∈ g.procs, p.pid ∈ g.keptPids lower active q →
      g.procRow lower active q p ∈ (g.apiProcs lower active q).procs :=
    fun p hp hkept => App.mem_apiProcs.mpr ⟨p, hp, hkept, rfl⟩
  refine ⟨fun p hp => ?_, App.nodup_apiProcs h, fun row hmem => ?_, ?_⟩
  · rw [← App.mem_keptPids h hdeep]
    constructor
    · rintro ⟨row, hmem, hpid⟩
      obtain ⟨p', -, hkept, rfl⟩ := App.mem_apiProcs.mp hmem
      exact hpid ▸ hkept
    · intro hkept
      exact ⟨_, hrow p hp hkept, rfl⟩
  · obtain ⟨p, hp, -, rfl⟩ := App.mem_apiProcs.mp hmem
    exact ⟨p, hp, rfl, App.matched_procRow h hp⟩
  · intro row hmem hinit p hp hparent
    obtain ⟨child, hchild, hkept, rfl⟩ := App.mem_apiProcs.mp hmem
    obtain ⟨asked, hasked, hwanted, hleads⟩ := (App.mem_keptPids h hdeep).mp hkept
    have hup : parentPid g.procs child.pid = some p.pid := by
      rw [parentPid_of_mem h hchild, hparent]
      exact if_pos hinit
    refine ⟨_, hrow p hp ?_, hparent⟩
    exact (App.mem_keptPids h hdeep).mpr ⟨asked, hasked, hwanted, hleads.tail hup⟩

/-! ## The scans of the program -/

/-- The scan is a pass of the scanner of Linux or of Windows, whatever passes it made
before. -/
inductive App.Scan.Scanned : App.Scan → Prop
  | linux {cache : Scanner} {hist : History Scanner Scanner.Pass}
      (run : Run Scanner.passes ∅ hist cache) {entries : List (ℤ × ProcFiles)}
      (honce : (entries.map Prod.fst).Nodup) (order : HashOrder ℤ) :
      Scanned (.full (cache.refresh order (some entries)).2)
  | linuxListed {cache : Scanner} {hist : History Scanner Scanner.Pass}
      (run : Run Scanner.passes ∅ hist cache) {entries : List (ℤ × ProcFiles)}
      (honce : (entries.map Prod.fst).Nodup) :
      Scanned (.listed (entries.map Prod.fst) (cache.refreshPids entries).2)
  | windows {cache : WinScanner} {hist : History WinScanner WinScanner.Pass}
      (run : Run WinScanner.passes ∅ hist cache) {snapshot : List Snapped}
      (honce : (snapshot.map Snapped.pid).Nodup) (order : HashOrder ℤ) :
      Scanned (.full (cache.refresh order snapshot).2)
  | windowsListed {cache : WinScanner} {hist : History WinScanner WinScanner.Pass}
      (run : Run WinScanner.passes ∅ hist cache) {snapshot : List Snapped}
      (honce : (snapshot.map Snapped.pid).Nodup) (order : HashOrder ℤ) (pids : List ℤ) :
      Scanned (.listed pids (cache.refreshPids order snapshot pids).2)

/-- What a scanner reads is as the tree needs it. -/
theorem App.Scan.Scanned.proper {scan : App.Scan} (h : scan.Scanned) : scan.Proper := by
  cases h with
  | @linux cache hist run entries honce order =>
      exact ((Scanner.ok_passes run).listsLines (p := .full order (some entries)) honce).1.once
  | @linuxListed cache hist run entries honce =>
      obtain ⟨hlists, -⟩ := (Scanner.ok_passes run).listsLines (p := .listed entries) honce
      refine ⟨hlists.once, fun p hp => ?_⟩
      obtain ⟨files, hentry, -⟩ := hlists.reads p hp
      exact List.mem_map_of_mem hentry
  | @windows cache hist run snapshot honce order =>
      have hlists := (WinScanner.knows_passes run).listsSnapshot (p := .full order snapshot) honce
      exact hlists.ascending.imp fun hlt => hlt.ne
  | @windowsListed cache hist run snapshot honce order pids =>
      have hlists := (WinScanner.knows_passes run).listsSnapshot
        (p := .listed order snapshot pids) honce
      refine ⟨hlists.ascending.imp fun hlt => hlt.ne, fun p hp => ?_⟩
      obtain ⟨s, hs, hpid⟩ := (hlists.listed p.pid).mp ⟨p, hp, rfl⟩
      exact hpid ▸ hs.asks

/-- What a poll reads comes from a scanner. -/
def Step.Scanned : Step → Prop
  | .background (.poll p) => p.scan.Scanned
  | _ => True

theorem Step.Scanned.proper {e : Step} (h : e.Scanned) : e.Proper := by
  cases e with
  | background b =>
      cases b with
      | poll p => exact App.Scan.Scanned.proper h
      | _ => trivial
  | _ => trivial

/-- **The process tree does not fall apart.** In every state of a run whose polls read
at most one process for each number, as the scanners of both systems do, a request gets
the processes that it asks for and their ancestors, and nothing else. -/
theorem processTree_whole {now : ℕ} {names : KeyedMap IpAddr DnsEntry} {iface : String}
    {whois : IpAddr → Option Whois} {self : ℤ} {fs : Annotate.Fs} {hist : History World Step}
    {w : World} (run : Run World.system (.fresh now names iface whois self fs) hist w)
    (hread : ∀ entry ∈ hist, entry.2.Proper ∨ entry.2.Scanned) (lower : String → String)
    (active : Finset ℤ) (q : ProcsQuery)
    (hdeep : ∀ p ∈ w.app.procs, w.app.wants lower active q p = true →
      Within (parentPid w.app.procs) 64 p.pid) :
    WholeTree w.app lower active q (w.app.apiProcs lower active q).procs := by
  have hproper : ∀ entry ∈ hist, entry.2.Proper :=
    fun entry hentry => (hread entry hentry).elim id Step.Scanned.proper
  exact App.apiProcs_wholeTree (onePerPid_of_run run hproper) hdeep

/-! ## A process with a child -/

/-- Every process has at most one ancestor that the tree has a place for. -/
theorem within_sample (pid : ℤ) :
    Within (parentPid [sampleProc 7 100, sampleChild 8 200]) 64 pid := by
  have hparent : ∀ y z, parentPid [sampleProc 7 100, sampleChild 8 200] y = some z → y = 8 ∧ z = 7 := by
    intro y z h
    by_cases h8 : y = 8
    · subst h8
      exact ⟨rfl, (Option.some.inj h).symm⟩
    · exfalso
      by_cases h7 : y = 7
      · subst h7
        contradiction
      · have hnone : procMap [sampleProc 7 100, sampleChild 8 200] y = none := by
          refine List.find?_eq_none.mpr fun p hp => ?_
          simp only [List.reverse_cons, List.reverse_nil, List.nil_append, List.cons_append,
            List.mem_cons, List.not_mem_nil, or_false] at hp
          rcases hp with rfl | rfl
          · exact fun h => h8 (of_decide_eq_true h).symm
          · exact fun h => h7 (of_decide_eq_true h).symm
        rw [parentPid, hnone] at h
        contradiction
  refine ⟨{7}, by decide, fun y hy z hleads => ?_⟩
  obtain ⟨-, rfl⟩ := hparent _ _ hy
  rw [Finset.mem_singleton]
  rcases Relation.ReflTransGen.cases_head hleads with heq | ⟨x, hx, -⟩
  · exact heq.symm
  · exact absurd (hparent _ _ hx).1 (by decide)

/-- What the scanner of Linux reads of the two processes. -/
def sampleEntries : List (ℤ × ProcFiles) :=
  let files (line : String) : ProcFiles :=
    { stat := some (utf8 line.toList), cmdline := some (utf8 "client".toList) }
  [(8, files "8 (client) S 7 4 4 0 -1 4 1 0 0 0 5 3 0 0 20 0 9 0 200 1"),
    (7, files "7 (client) S 1 4 4 0 -1 4 1 0 0 0 5 3 0 0 20 0 9 0 100 1")]

/-- A request for the child alone gets its parent too. -/
theorem processTree_whole_sample :
    let w := (World.system.play [] sampleHost
      [samplePoll 10 ((∅ : Scanner).refresh .stored (some sampleEntries)).2 []]).2
    let q : ProcsQuery := { filter := "all", q := "8", showSelf := some 1 }
    let rows := (w.app.apiProcs id ∅ q).procs
    rows.map (fun row => (row.pid, row.matched)) = [(7, false), (8, true)] ∧
      WholeTree w.app id ∅ q rows := by
  have hlist : ((∅ : Scanner).refresh .stored (some sampleEntries)).2 =
      [sampleProc 7 100, sampleChild 8 200] := by
    have hlisted : ((∅ : Scanner).refresh .stored (some sampleEntries)).2 =
        sortByPid [sampleProc 7 100, sampleChild 8 200] :=
      congrArg sortByPid (by decide +kernel)
    exact hlisted.trans (sortByPid_of_ascending (by decide))
  have hread : Step.Scanned
      (samplePoll 10 ((∅ : Scanner).refresh .stored (some sampleEntries)).2 []) :=
    App.Scan.Scanned.linux .start (by decide) .stored
  intro w q rows
  have htree : w.app.procs = [sampleProc 7 100, sampleChild 8 200] := hlist
  refine ⟨?_, processTree_whole (Run.start.play _) ?_ id ∅ q fun p _ _ => ?_⟩
  · simp only [rows, w, hlist]
    decide
  · intro entry hentry
    rcases System.mem_play hentry with hnil | hmem
    · exact absurd hnil List.not_mem_nil
    · rw [List.mem_singleton.mp hmem]
      exact .inr hread
  · have hwithin : Within (parentPid w.app.procs) 64 p.pid := by
      rw [htree]
      exact within_sample p.pid
    exact hwithin

end SocketTrail.Program
