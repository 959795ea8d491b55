/-
# Passes of the scanner of Windows

A pass takes the snapshot of the system, reads anew what differs from what it knows,
and lists the processes. Windows keeps the number of a parent that has ended, and gives
numbers out again: a parent that is not known, or that started after its child, is not
the parent. So below a process the list has none that is older.
-/

import SocketTrail.Net.Passes
import SocketTrail.Net.Reach

namespace SocketTrail.Net

open SocketTrail.Foundation

/-- What is read of a process that can be opened. -/
structure Opened where
  started : ℕ
  commandLine : Option String
  imagePath : Option String

/-- One process of the snapshot, and what is read of it at its turn. -/
structure Snapped where
  pid : ℤ
  ppid : ℤ
  exe : String
  /-- The start time that is compared; zero when it is unknown. -/
  started : ℕ
  opened : Option Opened

/-- A process as the scanner remembers it. -/
structure WinEntry where
  info : ProcInfo
  exe : String
  started : ℕ

abbrev WinScanner := KeyedMap ℤ WinEntry

namespace WinScanner

/-- Read a process in full. -/
def read (s : Snapped) : WinEntry :=
  let started := (s.opened.map Opened.started).getD 0
  let cmdline := (s.opened.bind fun o => o.commandLine <|> o.imagePath).getD ""
  { info :=
      { pid := s.pid
        started := started
        ppid := s.ppid
        comm := s.exe
        name := s.exe
        cmdline := if cmdline.isEmpty then s.exe else cmdline
        proton := false }
    exe := s.exe
    started := started }

/-- Look at one process of the snapshot. -/
def look (cache : WinScanner) (s : Snapped) : WinScanner :=
  let fresh :=
    match cache.lookup s.pid with
    | some e => e.exe ≠ s.exe || e.info.ppid ≠ s.ppid || e.started ≠ s.started
    | none => true
  if fresh then cache.insert s.pid (read s) else cache

/-- The process without a parent that is not its own. -/
def ownParent (cache : WinScanner) (e : WinEntry) : ProcInfo :=
  let started := (cache.lookup e.info.ppid).map WinEntry.started
  let ps := started.getD 0
  if started.isNone || (ps ≠ 0 && e.started ≠ 0 && ps > e.started) then
    { e.info with ppid := 0 }
  else e.info

/-- A pass over a snapshot, or over the part of it with the given numbers. -/
def refreshList (order : HashOrder ℤ) (list : List Snapped) (subset : Option (List ℤ))
    (cache : WinScanner) : WinScanner × List ProcInfo :=
  let looked := list.foldl look cache
  let seen := list.map Snapped.pid
  let known := KeyedMap.filterMap
    (fun pid e => if subset.any (fun pids => pid ∉ pids) || pid ∈ seen then some e else none) looked
  (known, listing order
    (fun _ e => if subset.all (fun pids => e.info.pid ∈ pids) then some (ownParent known e) else none)
    known)

/-- The processes of a snapshot; the idle process has no number. -/
def toolhelp (snapshot : List Snapped) : List Snapped := snapshot.filter fun s => s.pid ≠ 0

def refresh (order : HashOrder ℤ) (snapshot : List Snapped) (cache : WinScanner) :
    WinScanner × List ProcInfo :=
  refreshList order (toolhelp snapshot) none cache

def refreshPids (order : HashOrder ℤ) (snapshot : List Snapped) (pids : List ℤ)
    (cache : WinScanner) : WinScanner × List ProcInfo :=
  refreshList order ((toolhelp snapshot).filter fun s => s.pid ∈ pids) (some pids) cache

/-- One pass of the scanner. -/
inductive Pass
  | full (order : HashOrder ℤ) (snapshot : List Snapped)
  | listed (order : HashOrder ℤ) (snapshot : List Snapped) (pids : List ℤ)

/-- The numbers that a pass is about; none for all. -/
def Pass.subset : Pass → Option (List ℤ)
  | .full _ _ => none
  | .listed _ _ pids => some pids

/-- The processes that a pass looks at. -/
def Pass.list : Pass → List Snapped
  | .full _ snapshot => toolhelp snapshot
  | .listed _ snapshot pids => (toolhelp snapshot).filter fun s => s.pid ∈ pids

/-- What a pass knows afterwards, and its list. -/
def pass (cache : WinScanner) : Pass → WinScanner × List ProcInfo
  | .full order snapshot => cache.refresh order snapshot
  | .listed order snapshot pids => cache.refreshPids order snapshot pids

/-- The scanner under passes of any kind. -/
def passes : System WinScanner Pass := .ofFun fun cache p => (cache.pass p).1

/-! ## What the scanner knows -/

/-- The process is listed as it was read: under its name, with its start time, and with
its command line or its path, or its name where neither could be read. -/
structure AsRead (s : Snapped) (p : ProcInfo) : Prop where
  pid : p.pid = s.pid
  comm : p.comm = s.exe
  name : p.name = s.exe
  proton : p.proton = false
  started : p.started = (s.opened.map Opened.started).getD 0
  cmdline : p.cmdline =
    (((s.opened.bind fun o => o.commandLine <|> o.imagePath).filter (· ≠ "")).getD s.exe)

/-- Every entry is that of a process that was met, with the parent and the start time
that were read of it. -/
def Knows (met : Snapped → Prop) (cache : WinScanner) : Prop :=
  ∀ pid e, cache.lookup pid = some e → ∃ s, met s ∧ s.pid = pid ∧ AsRead s e.info ∧
    e.info.ppid = s.ppid ∧ e.exe = s.exe ∧ e.started = e.info.started

theorem Knows.mono {met met' : Snapped → Prop} {cache : WinScanner} (h : Knows met cache)
    (hmet : ∀ s, met s → met' s) : Knows met' cache := by
  intro pid e he
  obtain ⟨s, hs, hrest⟩ := h pid e he
  exact ⟨s, hmet s hs, hrest⟩

theorem asRead_read (s : Snapped) : AsRead s (read s).info := by
  refine ⟨rfl, rfl, rfl, rfl, rfl, ?_⟩
  unfold read
  cases htext : s.opened.bind fun o => o.commandLine <|> o.imagePath with
  | none => rfl
  | some text =>
      by_cases hempty : text = ""
      · simp [Option.filter, hempty]
      · simp [Option.filter, hempty]

/-- A look reads the process, or finds it as it is known. -/
theorem look_cases (cache : WinScanner) (s : Snapped) :
    look cache s = cache.insert s.pid (read s) ∨
      look cache s = cache ∧ ∃ e, cache.lookup s.pid = some e ∧
        e.exe = s.exe ∧ e.info.ppid = s.ppid ∧ e.started = s.started := by
  unfold look
  cases hentry : cache.lookup s.pid with
  | none => exact .inl rfl
  | some e =>
      dsimp only
      split
      · exact .inl rfl
      · rename_i hsame
        simp only [ne_eq, Bool.or_eq_true, decide_eq_true_eq, not_or, not_not] at hsame
        exact .inr ⟨rfl, e, rfl, hsame.1.1, hsame.1.2, hsame.2⟩

theorem lookup_look_ne (cache : WinScanner) {s : Snapped} {q : ℤ} (hne : q ≠ s.pid) :
    (look cache s).lookup q = cache.lookup q := by
  rcases look_cases cache s with heq | ⟨heq, -⟩
  · rw [heq, AList.lookup_insert_ne hne]
  · rw [heq]

theorem Knows.look {met : Snapped → Prop} {cache : WinScanner} (h : Knows met cache) {s : Snapped}
    (hs : met s) : Knows met (look cache s) := by
  intro q e hentry
  rcases look_cases cache s with heq | ⟨heq, -⟩
  · rw [heq] at hentry
    by_cases hq : q = s.pid
    · subst hq
      rw [AList.lookup_insert] at hentry
      obtain rfl := Option.some.inj hentry
      exact ⟨s, hs, rfl, asRead_read s, rfl, rfl, rfl⟩
    · rw [AList.lookup_insert_ne hq] at hentry
      exact h q e hentry
  · rw [heq] at hentry
    exact h q e hentry

theorem Knows.looks {met : Snapped → Prop} {cache : WinScanner} (h : Knows met cache)
    {list : List Snapped} (hlist : ∀ s ∈ list, met s) :
    Knows met (list.foldl WinScanner.look cache) := by
  induction list generalizing cache with
  | nil => exact h
  | cons s rest ih =>
      obtain ⟨hs, hrest⟩ := List.forall_mem_cons.mp hlist
      exact ih (h.look hs) hrest

/-- The process was met as the snapshot has it: in this snapshot, or in an earlier one
under the same name, with the same parent and with the start time that it has now. -/
def MetAs (met : Snapped → Prop) (s s' : Snapped) : Prop :=
  s' = s ∨ met s' ∧ s'.pid = s.pid ∧ s'.exe = s.exe ∧ s'.ppid = s.ppid ∧
    (s'.opened.map Opened.started).getD 0 = s.started

theorem Knows.lookup_look {met : Snapped → Prop} {cache : WinScanner} (h : Knows met cache)
    (s : Snapped) :
    ∃ e s', (WinScanner.look cache s).lookup s.pid = some e ∧ MetAs met s s' ∧ AsRead s' e.info ∧
      e.info.ppid = s.ppid := by
  rcases look_cases cache s with heq | ⟨heq, e, hentry, hexe, hppid, hstarted⟩
  · exact ⟨read s, s, by rw [heq, AList.lookup_insert], .inl rfl, asRead_read s, rfl⟩
  · obtain ⟨s', hs', hpid, hread, hparent, hname, hstart⟩ := h _ e hentry
    refine ⟨e, s', by rw [heq, hentry], .inr ⟨hs', hpid, ?_, ?_, ?_⟩, hread, hppid⟩
    · rw [← hname, hexe]
    · rw [← hparent, hppid]
    · rw [← hread.started, ← hstart, hstarted]

theorem lookup_looks_of_notMem (cache : WinScanner) {list : List Snapped} {q : ℤ}
    (hq : q ∉ list.map Snapped.pid) : (list.foldl look cache).lookup q = cache.lookup q := by
  induction list generalizing cache with
  | nil => rfl
  | cons s rest ih =>
      obtain ⟨hne, hrest⟩ := List.ne_and_not_mem_of_not_mem_cons hq
      rw [List.foldl_cons, ih _ hrest, lookup_look_ne cache hne]

theorem lookup_look_congr {cache cache' : WinScanner} {s : Snapped}
    (h : cache.lookup s.pid = cache'.lookup s.pid) :
    (look cache s).lookup s.pid = (look cache' s).lookup s.pid := by
  unfold look
  rw [h]
  split
  · dsimp only
    split
    · rw [AList.lookup_insert, AList.lookup_insert]
    · exact h
  · exact (AList.lookup_insert cache).trans (AList.lookup_insert cache').symm

/-- Of a process that the snapshot lists once, a pass knows what its look has left. -/
theorem lookup_looks (cache : WinScanner) {list : List Snapped}
    (honce : (list.map Snapped.pid).Nodup) {s : Snapped} (hmem : s ∈ list) :
    (list.foldl look cache).lookup s.pid = (look cache s).lookup s.pid := by
  induction list generalizing cache with
  | nil => contradiction
  | cons first rest ih =>
      obtain ⟨hnot, hrest⟩ := List.nodup_cons.mp honce
      rw [List.foldl_cons]
      rcases List.mem_cons.mp hmem with rfl | hmem
      · exact lookup_looks_of_notMem _ hnot
      · rw [ih _ hrest hmem]
        refine lookup_look_congr (lookup_look_ne cache fun heq => hnot ?_)
        exact heq ▸ List.mem_map_of_mem hmem

/-! ## What a pass lists -/

/-- A process with this number is known that did not start after the given time, as far
as the start times are known. -/
def Elder (known : WinScanner) (q : ℤ) (started : ℕ) : Prop :=
  ∃ e, known.lookup q = some e ∧
    (e.info.started = 0 ∨ started = 0 ∨ e.info.started ≤ started)

theorem ownParent_rest (known : WinScanner) (e : WinEntry) :
    ∃ ppid, ownParent known e = { e.info with ppid := ppid } := by
  unfold ownParent
  dsimp only
  split
  · exact ⟨_, rfl⟩
  · exact ⟨_, rfl⟩

theorem ownParent_pid (known : WinScanner) (e : WinEntry) :
    (ownParent known e).pid = e.info.pid := by
  obtain ⟨ppid, heq⟩ := ownParent_rest known e
  rw [heq]

theorem ownParent_started (known : WinScanner) (e : WinEntry) :
    (ownParent known e).started = e.info.started := by
  obtain ⟨ppid, heq⟩ := ownParent_rest known e
  rw [heq]

/-- The snapshot lists every process once. -/
def Pass.Once : Pass → Prop
  | .full _ snapshot | .listed _ snapshot _ => (snapshot.map Snapped.pid).Nodup

theorem Pass.Once.list {p : Pass} (h : p.Once) : (p.list.map Snapped.pid).Nodup := by
  cases p with
  | full order snapshot => exact h.sublist (List.filter_sublist.map _)
  | listed order snapshot pids =>
      exact h.sublist ((List.filter_sublist.trans List.filter_sublist).map _)

/-- The pass is about the number. -/
def Pass.Asks (pid : ℤ) : Pass → Prop
  | .full _ _ => True
  | .listed _ _ pids => pid ∈ pids

/-- The process is one of the snapshot that the pass is about. -/
def Pass.Shows (s : Snapped) : Pass → Prop
  | .full _ snapshot => s ∈ snapshot ∧ s.pid ≠ 0
  | .listed _ snapshot pids => s ∈ snapshot ∧ s.pid ≠ 0 ∧ s.pid ∈ pids

theorem Pass.mem_list {p : Pass} {s : Snapped} : s ∈ p.list ↔ p.Shows s := by
  cases p with
  | full order snapshot => simp [Pass.list, Pass.Shows, toolhelp]
  | listed order snapshot pids => simp [Pass.list, Pass.Shows, toolhelp, and_comm]

theorem Pass.all_subset {p : Pass} {pid : ℤ} :
    p.subset.all (fun pids => pid ∈ pids) = true ↔ p.Asks pid := by
  cases p <;> simp [Pass.subset, Pass.Asks]

theorem Pass.any_subset {p : Pass} {pid : ℤ} :
    p.subset.any (fun pids => pid ∉ pids) = true ↔ ¬p.Asks pid := by
  cases p <;> simp [Pass.subset, Pass.Asks]

theorem Pass.Shows.asks {p : Pass} {s : Snapped} (h : p.Shows s) : p.Asks s.pid := by
  cases p with
  | full => trivial
  | listed => exact h.2.2

theorem Pass.Shows.pid_ne_zero {p : Pass} {s : Snapped} (h : p.Shows s) : s.pid ≠ 0 := by
  cases p with
  | full => exact h.2
  | listed => exact h.2.1

theorem pass_eq (cache : WinScanner) (p : Pass) :
    ∃ order, cache.pass p = refreshList order p.list p.subset cache := by
  cases p with
  | full order snapshot => exact ⟨order, rfl⟩
  | listed order snapshot pids => exact ⟨order, rfl⟩

/-- What a pass knows is what its looks have left, without what it did not meet. -/
theorem lookup_pass {cache : WinScanner} {p : Pass} {pid : ℤ} {e : WinEntry} :
    (cache.pass p).1.lookup pid = some e ↔
      (p.list.foldl look cache).lookup pid = some e ∧
        (¬p.Asks pid ∨ ∃ s, p.Shows s ∧ s.pid = pid) := by
  obtain ⟨order, heq⟩ := pass_eq cache p
  rw [heq, ← Pass.any_subset]
  simp only [refreshList, KeyedMap.lookup_filterMap, Option.bind_eq_some_iff,
    Option.ite_none_right_eq_some, Option.some.injEq, Bool.or_eq_true, decide_eq_true_eq,
    List.mem_map, Pass.mem_list]
  constructor
  · rintro ⟨e', he', hkept, rfl⟩
    exact ⟨he', hkept⟩
  · rintro ⟨he, hkept⟩
    exact ⟨e, he, hkept, rfl⟩

theorem mem_pass {cache : WinScanner} {p : Pass} {q : ProcInfo} :
    q ∈ (cache.pass p).2 ↔ ∃ pid e, (cache.pass p).1.lookup pid = some e ∧
      p.Asks e.info.pid ∧ ownParent (cache.pass p).1 e = q := by
  obtain ⟨order, heq⟩ := pass_eq cache p
  rw [heq]
  refine mem_listing.trans ?_
  simp only [Option.ite_none_right_eq_some, Option.some.injEq, Pass.all_subset]
  exact Iff.rfl

/-- A pass knows no more than what was met before and what it has met. -/
theorem Knows.pass {met : Snapped → Prop} {cache : WinScanner} (h : Knows met cache) (p : Pass) :
    Knows (fun s => p.Shows s ∨ met s) (cache.pass p).1 := by
  intro pid e he
  have hmono : Knows (fun s => p.Shows s ∨ met s) cache := h.mono fun _ => .inr
  exact hmono.looks (fun s hs => .inl (Pass.mem_list.mp hs)) pid e (lookup_pass.mp he).1

/-- An earlier pass was about the process. -/
def Met (hist : History WinScanner Pass) (s : Snapped) : Prop :=
  ∃ entry ∈ hist, entry.2.Shows s

/-- Whatever passes were made, the scanner knows only what they have met. -/
theorem knows_passes {cache : WinScanner} {hist : History WinScanner Pass}
    (run : Run passes ∅ hist cache) : Knows (Met hist) cache := by
  induction run with
  | start => intro pid e h; simp at h
  | next prior fires ih =>
      obtain rfl := Option.some.inj fires
      refine (ih.pass _).mono fun s hs => ?_
      rcases hs with hs | ⟨entry, hentry, hs⟩
      · exact ⟨_, List.mem_cons_self, hs⟩
      · exact ⟨entry, List.mem_cons_of_mem _ hentry, hs⟩

theorem Knows.pid {met : Snapped → Prop} {cache : WinScanner} (h : Knows met cache) {pid : ℤ}
    {e : WinEntry} (he : cache.lookup pid = some e) :
    e.info.pid = pid ∧ e.started = e.info.started := by
  obtain ⟨s, -, hpid, hread, -, -, hstarted⟩ := h pid e he
  exact ⟨hread.pid.trans hpid, hstarted⟩

/-- The parent that a pass gives is the one of the entry, if it is its own, or none. -/
theorem ownParent_ppid {met : Snapped → Prop} {known : WinScanner} (h : Knows met known)
    {e : WinEntry} (hstarted : e.started = e.info.started) :
    (Elder known e.info.ppid e.info.started → (ownParent known e).ppid = e.info.ppid) ∧
      (¬Elder known e.info.ppid e.info.started → (ownParent known e).ppid = 0) := by
  unfold ownParent Elder
  cases hparent : known.lookup e.info.ppid with
  | none => simp
  | some parent =>
      simp only [Option.map_some, Option.getD_some, (h.pid hparent).2, hstarted]
      by_cases hp : parent.info.started = 0
      · simp [hp]
      · by_cases he : e.info.started = 0
        · simp [he]
        · by_cases horder : parent.info.started ≤ e.info.started
          · simp [hp, he, horder, not_lt.mpr horder]
          · simp [hp, he, horder, not_le.mp horder]

/-- The list of a pass is that of its snapshot: its processes, once each and in the
order of their numbers, as they were read, below the parent that the snapshot gives
them if that is known and not younger. What is known is what the pass has met and, of
the processes that it was not about, what was known before. -/
structure ListsSnapshot (met : Snapped → Prop) (p : Pass) (before known : WinScanner)
    (out : List ProcInfo) : Prop where
  ascending : Ascending out
  listed : ∀ pid, (∃ q ∈ out, q.pid = pid) ↔ ∃ s, p.Shows s ∧ s.pid = pid
  reads : ∀ q ∈ out, ∃ s s', p.Shows s ∧ MetAs met s s' ∧ s'.pid = s.pid ∧ AsRead s' q ∧
    (Elder known s.ppid q.started → q.ppid = s.ppid) ∧
    (¬Elder known s.ppid q.started → q.ppid = 0)
  knows : ∀ pid, (∃ e, known.lookup pid = some e) ↔
    (∃ s, p.Shows s ∧ s.pid = pid) ∨ ¬p.Asks pid ∧ ∃ e, before.lookup pid = some e
  remembers : ∀ pid e, known.lookup pid = some e →
    ∃ s, (p.Shows s ∨ met s) ∧ s.pid = pid ∧ AsRead s e.info

theorem MetAs.pid {met : Snapped → Prop} {s s' : Snapped} (h : MetAs met s s') : s'.pid = s.pid := by
  rcases h with rfl | ⟨-, hpid, -⟩
  · rfl
  · exact hpid

theorem Knows.lookup_shown {met : Snapped → Prop} {cache : WinScanner} (h : Knows met cache)
    {p : Pass} (honce : p.Once) {s : Snapped} (hs : p.Shows s) :
    ∃ e s', (cache.pass p).1.lookup s.pid = some e ∧ MetAs met s s' ∧ AsRead s' e.info ∧
      e.info.ppid = s.ppid := by
  obtain ⟨e, s', he, hrest⟩ := h.lookup_look s
  refine ⟨e, s', lookup_pass.mpr ⟨?_, .inr ⟨s, hs, rfl⟩⟩, hrest⟩
  rw [lookup_looks cache honce.list (Pass.mem_list.mpr hs), he]

theorem Knows.listsSnapshot {met : Snapped → Prop} {cache : WinScanner} (h : Knows met cache)
    {p : Pass} (honce : p.Once) :
    ListsSnapshot met p cache (cache.pass p).1 (cache.pass p).2 := by
  have hknows := h.pass p
  have hshown : ∀ pid e, (cache.pass p).1.lookup pid = some e → p.Asks e.info.pid →
      ∃ s, p.Shows s ∧ s.pid = pid := by
    intro pid e he hasks
    rw [(hknows.pid he).1] at hasks
    exact (lookup_pass.mp he).2.resolve_left (not_not.mpr hasks)
  constructor
  case ascending =>
    obtain ⟨order, heq⟩ := pass_eq cache p
    rw [heq]
    refine ascending_listing fun pid e q he hq => ?_
    rw [Option.ite_none_right_eq_some, Option.some.injEq] at hq
    rw [← hq.2, ownParent_pid]
    rw [heq] at hknows
    exact (hknows.pid he).1
  case listed =>
    intro pid
    constructor
    · rintro ⟨q, hq, rfl⟩
      obtain ⟨pid, e, he, hasks, rfl⟩ := mem_pass.mp hq
      rw [ownParent_pid, (hknows.pid he).1]
      exact hshown pid e he hasks
    · rintro ⟨s, hs, rfl⟩
      obtain ⟨e, s', he, -⟩ := h.lookup_shown honce hs
      have hpid := (hknows.pid he).1
      exact ⟨_, mem_pass.mpr ⟨s.pid, e, he, hpid ▸ hs.asks, rfl⟩, (ownParent_pid _ e).trans hpid⟩
  case reads =>
    intro q hq
    obtain ⟨pid, e, he, hasks, rfl⟩ := mem_pass.mp hq
    obtain ⟨s, hs, rfl⟩ := hshown pid e he hasks
    obtain ⟨e', s', he', hmet, hread, hppid⟩ := h.lookup_shown honce hs
    obtain rfl := Option.some.inj (he.symm.trans he')
    have hparent := ownParent_ppid hknows (hknows.pid he).2
    rw [hppid] at hparent
    obtain ⟨ppid, heq⟩ := ownParent_rest (cache.pass p).1 e
    rw [heq] at hparent ⊢
    exact ⟨s, s', hs, hmet, hmet.pid, ⟨hread.pid, hread.comm, hread.name, hread.proton,
      hread.started, hread.cmdline⟩, hparent⟩
  case knows =>
    intro pid
    constructor
    · rintro ⟨e, he⟩
      obtain ⟨hlooked, hnot | hs⟩ := lookup_pass.mp he
      · refine .inr ⟨hnot, e, ?_⟩
        rw [← hlooked]
        refine (lookup_looks_of_notMem cache fun hmem => ?_).symm
        obtain ⟨s, hs, rfl⟩ := List.mem_map.mp hmem
        exact hnot (Pass.mem_list.mp hs).asks
      · exact .inl hs
    · rintro (⟨s, hs, rfl⟩ | ⟨hnot, e, he⟩)
      · obtain ⟨e, s', he, -⟩ := h.lookup_shown honce hs
        exact ⟨e, he⟩
      · refine ⟨e, lookup_pass.mpr ⟨?_, .inl hnot⟩⟩
        rw [lookup_looks_of_notMem cache fun hmem => ?_, he]
        obtain ⟨s, hs, rfl⟩ := List.mem_map.mp hmem
        exact hnot (Pass.mem_list.mp hs).asks
  case remembers =>
    intro pid e he
    obtain ⟨s, hs, hpid, hread, -⟩ := hknows pid e he
    exact ⟨s, hs, hpid, hread⟩

/-- **A pass lists its snapshot.** Whatever passes came before, a pass lists the
processes of its snapshot, once each, as they were read and below their own parents. -/
theorem snapshot_listed {cache : WinScanner} {hist : History WinScanner Pass}
    (run : Run passes ∅ hist cache) (p : Pass) (honce : p.Once) :
    ListsSnapshot (Met hist) p cache (cache.pass p).1 (cache.pass p).2 :=
  (knows_passes run).listsSnapshot honce

/-- **No process is listed below a younger one.** In the list of a full pass, whatever
passes came before and whatever numbers have been given out again, the descendants of a
process have not started before it, when the start times between them are known. -/
theorem descendants_not_older {cache : WinScanner} {hist : History WinScanner Pass}
    (run : Run passes ∅ hist cache) (order : HashOrder ℤ) {snapshot : List Snapped}
    (honce : (snapshot.map Snapped.pid).Nodup) {out : List ProcInfo}
    (hout : (cache.pass (.full order snapshot)).2 = out) {root p : ProcInfo} (hroot : root ∈ out)
    (hp : p ∈ out) (hbelow : p.pid ∈ descendants out root.pid)
    (hknown : ∀ q ∈ out, q.pid ∈ descendants out root.pid → p.pid ∈ descendants out q.pid →
      q.started ≠ 0) : root.started ≤ p.started := by
  have hlists := (knows_passes run).listsSnapshot (p := .full order snapshot) honce
  have hknows := (knows_passes run).pass (.full order snapshot)
  rw [hout] at hlists
  have hone : ∀ a ∈ out, ∀ b ∈ out, a.pid = b.pid → a = b := by
    have hnodup : (out.map ProcInfo.pid).Nodup := hlists.ascending.imp fun hlt => hlt.ne
    intro a ha b hb hpid
    exact List.inj_on_of_nodup_map hnodup ha hb hpid
  -- The path is followed downwards; what is on it has its start time known.
  have hall : ∀ n, Relation.ReflTransGen (ChildOf out) root.pid n →
      Relation.ReflTransGen (ChildOf out) n p.pid →
      n ≠ 0 ∧ ∀ a ∈ out, a.pid = n → root.started ≤ a.started := by
    intro n hpath
    induction hpath with
    | refl =>
        intro _
        obtain ⟨s, hs, hpid⟩ := (hlists.listed root.pid).mp ⟨root, hroot, rfl⟩
        exact ⟨hpid ▸ hs.pid_ne_zero, fun a ha hpid => hone a ha root hroot hpid ▸ le_rfl⟩
    | @tail b c hpath hchild ih =>
        intro hrest
        obtain ⟨hb, hparent⟩ := ih (.head hchild hrest)
        obtain ⟨kid, hkid, hppid, rfl⟩ := hchild
        obtain ⟨s, hs, hpid⟩ := (hlists.listed kid.pid).mp ⟨kid, hkid, rfl⟩
        refine ⟨hpid ▸ hs.pid_ne_zero, fun a ha hpid => ?_⟩
        obtain rfl := hone a ha kid hkid hpid
        obtain ⟨s, -, -, -, -, -, hown, hnone⟩ := hlists.reads a ha
        by_cases helder : Elder (cache.pass (.full order snapshot)).1 s.ppid a.started
        · obtain ⟨e, he, horder⟩ := helder
          rw [← hown ⟨e, he, horder⟩, hppid] at he
          -- In a full pass a process that is known is listed.
          have hshown : ownParent (cache.pass (.full order snapshot)).1 e ∈ out := by
            rw [← hout]
            exact mem_pass.mpr ⟨b, e, he, trivial, rfl⟩
          have hnum := (ownParent_pid (cache.pass (.full order snapshot)).1 e).trans
            (hknows.pid he).1
          have hle := hparent _ hshown hnum
          have hpositive := hknown _ hshown (mem_descendants.mpr (hnum ▸ hpath))
            (mem_descendants.mpr (hnum ▸ .head ⟨a, ha, hppid, rfl⟩ hrest))
          have hstarted := hknown a ha
            (mem_descendants.mpr (hpath.tail ⟨a, ha, hppid, rfl⟩)) (mem_descendants.mpr hrest)
          rw [ownParent_started] at hle hpositive
          rcases horder with hzero | hzero | horder
          · exact absurd hzero hpositive
          · exact absurd hzero hstarted
          · exact hle.trans horder
        · exact absurd (hppid.symm.trans (hnone helder)) hb
  exact (hall p.pid (mem_descendants.mp hbelow) .refl).2 p hp rfl

/-! ## A number that is given out again -/

/-- A process of a snapshot that can be opened. -/
def sampleSnapped (pid ppid : ℤ) (started : ℕ) : Snapped where
  pid := pid
  ppid := ppid
  exe := "client.exe"
  started := started
  opened := some { started := started, commandLine := none, imagePath := some "C:\\client.exe" }

/-- The parent 8 of process 9 has ended, and its number is that of a younger process. -/
def reused : List Snapped :=
  [sampleSnapped 10 9 6, sampleSnapped 9 8 5, sampleSnapped 8 4 7, sampleSnapped 4 0 1]

/-- Process 8 as it was before. -/
def earlierPasses : List Pass :=
  [.full .stored [sampleSnapped 10 9 6, sampleSnapped 9 8 5, sampleSnapped 8 4 3]]

theorem snapshot_listed_reused :
    let earlier := passes.play [] ∅ earlierPasses
    let passed := earlier.2.pass (.listed .stored reused [8, 9, 10])
    passed.2.map (fun q => (q.pid, q.ppid, q.started)) = [(8, 0, 7), (9, 0, 5), (10, 9, 6)] ∧
      ListsSnapshot (Met earlier.1) (.listed .stored reused [8, 9, 10]) earlier.2 passed.1
        passed.2 := by
  intro earlier passed
  have run : Run passes ∅ earlier.1 earlier.2 := Run.start.play _
  have honce : (reused.map Snapped.pid).Nodup := by decide
  have hsorted : passed.2 = _ := sortByPid_of_ascending (by decide)
  exact ⟨by rw [hsorted]; decide, snapshot_listed run (.listed .stored reused [8, 9, 10]) honce⟩

theorem descendants_not_older_reused :
    let out := ((∅ : WinScanner).pass (.full .stored reused)).2
    descendants out 4 = [4, 8] ∧ ∀ root ∈ out, ∀ p ∈ out, p.pid ∈ descendants out root.pid →
      root.started ≤ p.started := by
  intro out
  have hsorted : out = _ := sortByPid_of_ascending (by decide)
  refine ⟨by rw [hsorted]; decide, fun root hroot p hp hbelow => ?_⟩
  have hknown : ∀ q ∈ out, q.started ≠ 0 := by rw [hsorted]; decide
  exact descendants_not_older .start .stored (by decide) rfl hroot hp hbelow
    fun q hq _ _ => hknown q hq

end WinScanner

end SocketTrail.Net
