/-
# Passes of the scanner

A full pass looks at every process of the directory, forgets the others and lists what
it knows; a pass over given numbers looks at these and lists them. Whatever the scanner
has seen before, a pass lists the processes whose line it can read, once each, with
the name, the parent and the start time of that line.
-/

import Mathlib.Data.List.Sort
import SocketTrail.Net.ProcStat

namespace SocketTrail.Net

open SocketTrail.Foundation

/-! ## Lists in the order of the numbers -/

/-- The processes in the order of their numbers. -/
def sortByPid (out : List ProcInfo) : List ProcInfo := out.mergeSort fun a b => a.pid ≤ b.pid

/-- Every number is listed once, and the numbers ascend. -/
def Ascending (out : List ProcInfo) : Prop := (out.map ProcInfo.pid).Pairwise (· < ·)

instance (out : List ProcInfo) : Decidable (Ascending out) :=
  inferInstanceAs (Decidable ((out.map ProcInfo.pid).Pairwise (· < ·)))

theorem mem_sortByPid {out : List ProcInfo} {p : ProcInfo} : p ∈ sortByPid out ↔ p ∈ out :=
  List.mem_mergeSort

theorem ascending_sortByPid {out : List ProcInfo} (h : (out.map ProcInfo.pid).Nodup) :
    Ascending (sortByPid out) := by
  have hperm : ((sortByPid out).map ProcInfo.pid).Perm (out.map ProcInfo.pid) :=
    (List.mergeSort_perm out _).map ProcInfo.pid
  have hsorted : (sortByPid out).Pairwise fun a b => a.pid ≤ b.pid := by
    have hle : (sortByPid out).Pairwise fun a b => decide (a.pid ≤ b.pid) = true := by
      refine List.pairwise_mergeSort (fun a b c hab hbc => ?_) (fun a b => ?_) out
      · rw [decide_eq_true_eq] at *
        exact hab.trans hbc
      · rw [Bool.or_eq_true, decide_eq_true_eq, decide_eq_true_eq]
        exact le_total a.pid b.pid
    exact hle.imp of_decide_eq_true
  have hnodup := hperm.nodup_iff.mpr h
  unfold Ascending
  rw [List.pairwise_map]
  have hne : (sortByPid out).Pairwise fun a b => a.pid ≠ b.pid := List.pairwise_map.mp hnodup
  exact (hsorted.and hne).imp fun hboth => lt_of_le_of_ne hboth.1 hboth.2

theorem sortByPid_of_ascending {out : List ProcInfo} (h : Ascending out) : sortByPid out = out :=
  List.mergeSort_of_pairwise ((List.pairwise_map.mp h).imp fun hlt => decide_eq_true hlt.le)

/-- A cache as a list: what `show` makes of each entry, in the order of the numbers. -/
def listing {β : Type} (order : HashOrder ℤ) (view : ℤ → β → Option ProcInfo)
    (cache : KeyedMap ℤ β) : List ProcInfo :=
  sortByPid ((order.arrange cache.keys).filterMap fun pid => (cache.lookup pid).bind (view pid))

section Listing

variable {β : Type} {order : HashOrder ℤ} {view : ℤ → β → Option ProcInfo} {cache : KeyedMap ℤ β}

theorem mem_listing {p : ProcInfo} :
    p ∈ listing order view cache ↔ ∃ pid e, cache.lookup pid = some e ∧ view pid e = some p := by
  unfold listing
  rw [mem_sortByPid, List.mem_filterMap]
  constructor
  · rintro ⟨pid, -, hview⟩
    obtain ⟨e, he, hp⟩ := Option.bind_eq_some_iff.mp hview
    exact ⟨pid, e, he, hp⟩
  · rintro ⟨pid, e, he, hp⟩
    have hkey : pid ∈ cache.keys := AList.mem_keys.mp (AList.lookup_isSome.mp (he ▸ rfl))
    exact ⟨pid, (order.mem_arrange).mpr hkey, by rw [he, Option.bind_some, hp]⟩

/-- A view that keeps the numbers lists every number once. -/
theorem ascending_listing
    (hpid : ∀ pid e p, cache.lookup pid = some e → view pid e = some p → p.pid = pid) :
    Ascending (listing order view cache) := by
  refine ascending_sortByPid ?_
  have hview : ∀ pid q, q ∈ ((cache.lookup pid).bind (view pid)).map ProcInfo.pid → pid = q := by
    intro pid q hq
    obtain ⟨p, hp, rfl⟩ := Option.map_eq_some_iff.mp hq
    obtain ⟨e, he, hshown⟩ := Option.bind_eq_some_iff.mp hp
    exact (hpid pid e p he hshown).symm
  rw [List.map_filterMap]
  refine List.Nodup.filterMap (fun pid pid' q hq hq' => ?_)
    (order.nodup_arrange.mpr cache.keys_nodup)
  exact (hview pid q hq).trans (hview pid' q hq').symm

end Listing

/-! ## The passes -/

/-- What was read of the line of a process. -/
def ProcFiles.line (files : ProcFiles) : Option Stat := (files.stat.bind fromUtf8).bind parseStat

/-- The process is as its line says; nothing was read of a process without a name. -/
def ProcInfo.Reads (p : ProcInfo) (read : Option Stat) : Prop :=
  ∃ st, read = some st ∧ st.comm ≠ [] ∧ p.ppid = st.ppid ∧ p.started = st.started ∧
    p.comm = String.ofList st.comm

namespace Scanner

/-- Look at one process after another, as each reads at its turn. -/
def updateAll (entries : List (ℤ × ProcFiles)) (cache : Scanner) : Scanner :=
  entries.foldl (fun cache entry => cache.update entry.1 entry.2) cache

/-- A full pass over the directory of the processes, if that can be read. -/
def refresh (order : HashOrder ℤ) (dir : Option (List (ℤ × ProcFiles))) (cache : Scanner) :
    Scanner × List ProcInfo :=
  match dir with
  | none => (cache, [])
  | some entries =>
      let cache := (cache.updateAll entries).step (.retain (entries.map Prod.fst))
      (cache, listing order (fun _ e => some e.info) cache)

/-- A pass over the given numbers. -/
def refreshPids (entries : List (ℤ × ProcFiles)) (cache : Scanner) : Scanner × List ProcInfo :=
  let cache := cache.updateAll entries
  (cache, (entries.map Prod.fst).filterMap fun pid => (cache.lookup pid).map Entry.info)

theorem Looked.lookup_ne {cache cache' : Scanner} {pid q : ℤ} {read : Option Stat}
    (h : Looked cache pid read cache') (hne : q ≠ pid) : cache'.lookup q = cache.lookup q := by
  cases h with
  | gone => exact AList.lookup_erase_ne hne
  | listed => exact AList.lookup_insert_ne hne

theorem Looked.lookup_self {cache cache' : Scanner} {pid : ℤ} {read : Option Stat}
    (h : Looked cache pid read cache') :
    (∃ e, cache'.lookup pid = some e ∧ e.info.pid = pid ∧ e.info.Reads read) ∨
      cache'.lookup pid = none ∧ ∀ st, read = some st → st.comm = [] := by
  cases h with
  | gone hunnamed => exact .inr ⟨AList.lookup_erase .., hunnamed⟩
  | listed hread hname hpid hppid hstarted hstart hcomm =>
      exact .inl ⟨_, AList.lookup_insert .., hpid, _, hread, hname, hppid, hstarted, hcomm⟩

theorem Ok.updateAll {cache : Scanner} (h : cache.Ok) (entries : List (ℤ × ProcFiles)) :
    (cache.updateAll entries).Ok := by
  induction entries generalizing cache with
  | nil => exact h
  | cons entry rest ih => exact ih ((looked_update h entry.1 entry.2).ok h)

theorem lookup_updateAll_of_notMem {cache : Scanner} (h : cache.Ok)
    {entries : List (ℤ × ProcFiles)} {q : ℤ} (hq : q ∉ entries.map Prod.fst) :
    (cache.updateAll entries).lookup q = cache.lookup q := by
  induction entries generalizing cache with
  | nil => rfl
  | cons entry rest ih =>
      obtain ⟨hne, hrest⟩ := List.ne_and_not_mem_of_not_mem_cons hq
      have hlooked := looked_update h entry.1 entry.2
      rw [updateAll, List.foldl_cons]
      exact (ih (hlooked.ok h) hrest).trans (hlooked.lookup_ne hne)

/-- What a pass knows of a process that it has looked at once. -/
theorem lookup_updateAll {cache : Scanner} (h : cache.Ok) {entries : List (ℤ × ProcFiles)}
    (honce : (entries.map Prod.fst).Nodup) {pid : ℤ} {files : ProcFiles}
    (hmem : (pid, files) ∈ entries) :
    (∃ e, (cache.updateAll entries).lookup pid = some e ∧ e.info.pid = pid ∧
      e.info.Reads files.line) ∨
    (cache.updateAll entries).lookup pid = none ∧ ∀ st, files.line = some st → st.comm = [] := by
  induction entries generalizing cache with
  | nil => contradiction
  | cons entry rest ih =>
      obtain ⟨hnot, hrest⟩ := List.nodup_cons.mp honce
      have hlooked := looked_update h entry.1 entry.2
      rw [updateAll, List.foldl_cons]
      rcases List.mem_cons.mp hmem with rfl | hmem
      · have hsame := lookup_updateAll_of_notMem (hlooked.ok h) hnot
        rw [updateAll] at hsame
        rw [hsame]
        exact hlooked.lookup_self
      · exact ih (hlooked.ok h) hrest hmem

/-- One pass of the scanner. -/
inductive Pass
  | full (order : HashOrder ℤ) (dir : Option (List (ℤ × ProcFiles)))
  | listed (entries : List (ℤ × ProcFiles))

/-- The processes that a pass looks at. -/
def Pass.entries : Pass → List (ℤ × ProcFiles)
  | .full _ dir => dir.getD []
  | .listed entries => entries

/-- What a pass knows afterwards, and its list. -/
def pass (cache : Scanner) : Pass → Scanner × List ProcInfo
  | .full order dir => cache.refresh order dir
  | .listed entries => cache.refreshPids entries

/-- The scanner under passes of any kind. -/
def passes : System Scanner Pass := .ofFun fun cache p => (cache.pass p).1

/-- The list of a pass is that of its lines: the processes whose line names them, once
each, and as their lines say. -/
structure ListsLines (entries : List (ℤ × ProcFiles)) (out : List ProcInfo) : Prop where
  once : (out.map ProcInfo.pid).Nodup
  listed : ∀ pid, (∃ p ∈ out, p.pid = pid) ↔
    ∃ files st, (pid, files) ∈ entries ∧ files.line = some st ∧ st.comm ≠ []
  reads : ∀ p ∈ out, ∃ files, (p.pid, files) ∈ entries ∧ p.Reads files.line

theorem Ok.pass {cache : Scanner} (h : cache.Ok) (p : Pass) : (cache.pass p).1.Ok := by
  cases p with
  | full order dir =>
      cases dir with
      | none => exact h
      | some entries => exact (h.updateAll entries).step (.retain (entries.map Prod.fst))
  | listed entries => exact h.updateAll entries

theorem ok_passes {cache : Scanner} {hist : History Scanner Pass} (run : Run passes ∅ hist cache) :
    cache.Ok := by
  refine run.invariant (P := Ok) (fun pid e h => by simp at h) ?_
  intro s p s' h fires
  obtain rfl := Option.some.inj fires
  exact h.pass p

/-- A list that shows what a pass knows of the processes it has looked at. -/
theorem listsLines_of_updateAll {cache : Scanner} (h : cache.Ok) {entries : List (ℤ × ProcFiles)}
    (honce : (entries.map Prod.fst).Nodup) {out : List ProcInfo}
    (hout : (out.map ProcInfo.pid).Nodup)
    (hmem : ∀ p, p ∈ out ↔ ∃ pid ∈ entries.map Prod.fst, ∃ e,
      (cache.updateAll entries).lookup pid = some e ∧ e.info = p) :
    ListsLines entries out := by
  have hreads : ∀ p ∈ out, ∃ files, (p.pid, files) ∈ entries ∧ p.Reads files.line := by
    intro p hp
    obtain ⟨_, hpid, e, he, rfl⟩ := (hmem p).mp hp
    obtain ⟨⟨pid, files⟩, hentry, rfl⟩ := List.mem_map.mp hpid
    rcases lookup_updateAll h honce hentry with ⟨e', he', hnumber, hline⟩ | ⟨hnone, -⟩
    · obtain rfl := Option.some.inj (he.symm.trans he')
      exact ⟨files, hnumber ▸ hentry, hline⟩
    · rw [hnone] at he
      contradiction
  refine ⟨hout, fun pid => ?_, hreads⟩
  constructor
  · rintro ⟨p, hp, rfl⟩
    obtain ⟨files, hentry, st, hst, hname, -⟩ := hreads p hp
    exact ⟨files, st, hentry, hst, hname⟩
  · rintro ⟨files, st, hentry, hst, hname⟩
    rcases lookup_updateAll h honce hentry with ⟨e, he, hnumber, -⟩ | ⟨-, hunnamed⟩
    · exact ⟨e.info, (hmem _).mpr ⟨pid, List.mem_map_of_mem hentry, e, he, rfl⟩, hnumber⟩
    · exact absurd (hunnamed st hst) hname

theorem Ok.listsLines {cache : Scanner} (h : cache.Ok) {p : Pass}
    (honce : (p.entries.map Prod.fst).Nodup) :
    ListsLines p.entries (cache.pass p).2 ∧
      ∀ order dir, p = .full order dir → Ascending (cache.pass p).2 := by
  cases p with
  | full order dir =>
      cases dir with
      | none =>
          refine ⟨⟨List.nodup_nil, fun pid => ?_, fun p hp => by contradiction⟩, fun _ _ _ => List.Pairwise.nil⟩
          constructor
          · rintro ⟨p, hp, -⟩
            contradiction
          · rintro ⟨files, st, hentry, -⟩
            contradiction
      | some entries =>
          have hkept : ∀ pid e, ((cache.updateAll entries).step
              (.retain (entries.map Prod.fst))).lookup pid = some e ↔
              pid ∈ entries.map Prod.fst ∧ (cache.updateAll entries).lookup pid = some e := by
            intro pid e
            simp only [Scanner.step, KeyedMap.lookup_filterMap, Option.bind_eq_some_iff,
              Option.ite_none_right_eq_some, Option.some.injEq]
            constructor
            · rintro ⟨e', he', hin, rfl⟩
              exact ⟨hin, he'⟩
            · rintro ⟨hin, he⟩
              exact ⟨e, he, hin, rfl⟩
          have hascending : Ascending (cache.pass (.full order (some entries))).2 := by
            refine ascending_listing fun pid e p he hp => ?_
            obtain rfl := Option.some.inj hp
            exact (h.updateAll entries pid e ((hkept pid e).mp he).2).1
          refine ⟨listsLines_of_updateAll h honce (hascending.imp fun hlt => hlt.ne) ?_,
            fun _ _ _ => hascending⟩
          intro p
          refine mem_listing.trans ?_
          constructor
          · rintro ⟨pid, e, he, hp⟩
            obtain ⟨hin, he⟩ := (hkept pid e).mp he
            exact ⟨pid, hin, e, he, Option.some.inj hp⟩
          · rintro ⟨pid, hin, e, he, rfl⟩
            exact ⟨pid, e, (hkept pid e).mpr ⟨hin, he⟩, rfl⟩
  | listed entries =>
      refine ⟨listsLines_of_updateAll h honce ?_ fun p => ?_, fun _ _ hfull => by contradiction⟩
      · have hpid : ∀ pid q, q ∈ (((cache.updateAll entries).lookup pid).map Entry.info).map
            ProcInfo.pid → pid = q := by
          intro pid q hq
          rw [Option.map_map] at hq
          obtain ⟨e, he, rfl⟩ := Option.map_eq_some_iff.mp hq
          exact ((h.updateAll entries) pid e he).1.symm
        have hmap : (cache.pass (.listed entries)).2.map ProcInfo.pid =
            (entries.map Prod.fst).filterMap fun pid =>
              (((cache.updateAll entries).lookup pid).map Entry.info).map ProcInfo.pid :=
          List.map_filterMap
        rw [hmap]
        exact List.Nodup.filterMap
          (fun pid pid' q hq hq' => (hpid pid q hq).trans (hpid pid' q hq').symm) honce
      · refine List.mem_filterMap.trans ?_
        simp only [Option.map_eq_some_iff]
        exact Iff.rfl

/-- A full pass knows the processes that it lists, and no others. -/
theorem Ok.known_full {cache : Scanner} (h : cache.Ok) (order : HashOrder ℤ)
    (entries : List (ℤ × ProcFiles)) (pid : ℤ) :
    (∃ e, (cache.pass (.full order (some entries))).1.lookup pid = some e) ↔
      ∃ q ∈ (cache.pass (.full order (some entries))).2, q.pid = pid := by
  have hok := h.pass (.full order (some entries))
  have hmem : ∀ q, q ∈ (cache.pass (.full order (some entries))).2 ↔
      ∃ pid e, (cache.pass (.full order (some entries))).1.lookup pid = some e ∧
        some e.info = some q := fun q => mem_listing
  constructor
  · rintro ⟨e, he⟩
    exact ⟨e.info, (hmem _).mpr ⟨pid, e, he, rfl⟩, (hok pid e he).1⟩
  · rintro ⟨q, hq, rfl⟩
    obtain ⟨number, e, he, hinfo⟩ := (hmem q).mp hq
    rw [← Option.some.inj hinfo, (hok number e he).1]
    exact ⟨e, he⟩

/-- **A pass lists what it has read.** Whatever passes came before, the list of a pass
is that of the lines read in it; that of a full pass is in the order of the numbers, and
a full pass over a directory forgets all that is not in its list. -/
theorem pass_lists {cache : Scanner} {hist : History Scanner Pass} (run : Run passes ∅ hist cache)
    (p : Pass) (honce : (p.entries.map Prod.fst).Nodup) :
    ListsLines p.entries (cache.pass p).2 ∧
      (∀ order dir, p = .full order dir → Ascending (cache.pass p).2) ∧
      ∀ order entries, p = .full order (some entries) → ∀ pid,
        (∃ e, (cache.pass p).1.lookup pid = some e) ↔ ∃ q ∈ (cache.pass p).2, q.pid = pid := by
  obtain ⟨hlists, hascending⟩ := (ok_passes run).listsLines honce
  refine ⟨hlists, hascending, ?_⟩
  rintro order entries rfl pid
  exact (ok_passes run).known_full order entries pid

/-- Process 42 is gone from the second directory, where process 43 has its line. -/
def samplePasses : List Pass :=
  let files : ProcFiles := { stat := some (sampleLine [41, 32, 83] (by decide)).bytes, cmdline := none }
  [.full .stored (some [(42, files)]), .listed [(42, files), (43, files)]]

theorem pass_lists_sample :
    let cache := (passes.play [] ∅ samplePasses).2
    let line : ProcFiles := { stat := some (sampleLine [73] (by decide)).bytes, cmdline := none }
    (cache.pass (.full .stored (some [(43, line)]))).2.map ProcInfo.pid = [43] ∧
      ListsLines [(43, line)] (cache.pass (.full .stored (some [(43, line)]))).2 := by
  intro cache line
  exact ⟨by decide +kernel,
    (pass_lists (Run.start.play samplePasses) (.full .stored (some [(43, line)])) (by decide)).1⟩

end Scanner

end SocketTrail.Net
