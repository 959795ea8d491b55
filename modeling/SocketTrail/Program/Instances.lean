/-
# The processes of a recording

A recording of the selected process begins with the listed processes that have a
number of the group. Only a full scan finds the group again, while every scan of
the group renews the list, so in between a number of the group may belong to a
process that has nothing to do with the selected one. `TakesSubtree` states that
it does not, and `KeepsSubtree` which scans keep it so.
-/

import SocketTrail.Program.Selection

namespace SocketTrail.Program

open SocketTrail.Foundation SocketTrail.Net SocketTrail.State SocketTrail.Recording
open SocketTrail.Attribution (sampleProc)

/-! ## The subtree -/

/-- A listed process that the parent numbers of the list lead up from to `root`. -/
inductive Below (procs : List ProcInfo) (root : ℤ) : ProcInfo → Prop
  | child {p : ProcInfo} (hlisted : p ∈ procs) (hparent : p.ppid = root) : Below procs root p
  | deeper {p q : ProcInfo} (hq : Below procs root q) (hlisted : p ∈ procs)
      (hparent : p.ppid = q.pid) : Below procs root p

theorem Below.listed {procs : List ProcInfo} {root : ℤ} {p : ProcInfo} (h : Below procs root p) :
    p ∈ procs := by
  cases h with
  | child hlisted hparent => exact hlisted
  | deeper hq hlisted hparent => exact hlisted

/-- The identity is that of the selected process or of one below it. -/
def InSubtree (procs : List ProcInfo) (selected : ProcInfo) (id : Identity) : Prop :=
  id = selected.identity ∨ ∃ p, Below procs selected.pid p ∧ p.identity = id

/-- The search for the subtree finds the numbers of its processes only. -/
theorem below_of_mem_descendants {procs : List ProcInfo} {root q : ℤ}
    (h : q ∈ descendants procs root) : q = root ∨ ∃ p, Below procs root p ∧ p.pid = q := by
  induction mem_descendants.mp h with
  | refl => exact .inl rfl
  | tail hpath hkid ih =>
      obtain ⟨p, hlisted, hparent, hpid⟩ := hkid
      right
      rcases ih (mem_descendants.mpr hpath) with rfl | ⟨parent, hbelow, hnum⟩
      · exact ⟨p, .child hlisted hparent, hpid⟩
      · exact ⟨p, .deeper hbelow hlisted (hparent.trans hnum.symm), hpid⟩

/-- The list has one entry for each number. -/
def OnePerPid (procs : List ProcInfo) : Prop :=
  (procs.map ProcInfo.pid).Nodup

instance (procs : List ProcInfo) : Decidable (OnePerPid procs) :=
  inferInstanceAs (Decidable (procs.map ProcInfo.pid).Nodup)

theorem OnePerPid.eq {procs : List ProcInfo} (h : OnePerPid procs) {p q : ProcInfo}
    (hp : p ∈ procs) (hq : q ∈ procs) (hpid : p.pid = q.pid) : p = q :=
  List.inj_on_of_nodup_map h hp hq hpid

/-- In a list with one entry for each number, the entries with the numbers that
the search finds are the subtree. -/
theorem OnePerPid.inSubtree {procs : List ProcInfo} (h : OnePerPid procs) {selected p : ProcInfo}
    (hselected : selected ∈ procs) (hp : p ∈ procs)
    (hfound : p.pid ∈ descendants procs selected.pid) : InSubtree procs selected p.identity := by
  rcases below_of_mem_descendants hfound with hroot | ⟨p', hbelow, hpid⟩
  · left
    rw [h.eq hp hselected hroot]
  · right
    rw [h.eq hp hbelow.listed hpid.symm]
    exact ⟨p', hbelow, rfl⟩

/-! ## What a start takes -/

/-- The identities of the listed processes with a number of the group. -/
def grouped (procs : List ProcInfo) (group : List ℤ) : List Identity :=
  ((procs.filter fun p => p.pid ∈ group && p.started ≠ 0).map ProcInfo.identity).dedup

theorem mem_grouped {procs : List ProcInfo} {group : List ℤ} {id : Identity} :
    id ∈ grouped procs group ↔
      ∃ p ∈ procs, p.pid ∈ group ∧ p.started ≠ 0 ∧ p.identity = id := by
  simp [grouped, and_assoc]

namespace App

/-- A start of the selected traffic takes the subtree of the selected process
only. -/
def TakesSubtree (g : App) : Prop :=
  ∀ selected, g.selectedProcess = some selected →
    ∀ path, ∀ id ∈ (g.startTask true path).instances, InSubtree g.procs selected id

/-- The process list that a scan of the given numbers leaves. -/
def renewed (g : App) (scanned : List ℤ) (procs : List ProcInfo) : List ProcInfo :=
  (g.procs.filter fun q => q.pid ∉ scanned) ++ procs

/-- A section leaves the numbers of the group to the subtree: where a scan of the
group finds the selected process, each entry of the list it leaves that has a
number of the group is that of the selected process or of one below it. -/
def KeepsSubtree (g : App) : Background → Prop
  | .poll p =>
      match p.scan with
      | .full _ => True
      | .listed scanned procs =>
          ∀ selected ∈ g.renewed scanned procs, g.selected = some selected.pid →
            g.selectedInstance = some selected.identity →
              ∀ q ∈ g.renewed scanned procs, q.pid ∈ g.group → q.started ≠ 0 →
                InSubtree (g.renewed scanned procs) selected q.identity
  | _ => True

theorem selectedProcess_eq_some {g : App} {selected : ProcInfo}
    (h : g.selectedProcess = some selected) : selected ∈ g.procs ∧
      g.selected = some selected.pid ∧ g.selectedInstance = some selected.identity := by
  obtain ⟨pid, hpid, hfound⟩ := Option.bind_eq_some_iff.mp h
  have hnamed := List.find?_some hfound
  rw [Bool.and_eq_true, decide_eq_true_eq, decide_eq_true_eq] at hnamed
  exact ⟨List.mem_of_find?_eq_some hfound, hnamed.1 ▸ hpid, hnamed.2.symm⟩

/-- In a list with one entry for each number, the entry of the selected process is
found. -/
theorem selectedProcess_of_mem {g : App} (h : OnePerPid g.procs) {selected : ProcInfo}
    (hmem : selected ∈ g.procs) (hpid : g.selected = some selected.pid)
    (hidentity : g.selectedInstance = some selected.identity) :
    g.selectedProcess = some selected := by
  rw [selectedProcess, hpid, Option.bind_some]
  cases hfound : g.procs.find? fun p =>
      decide (p.pid = selected.pid) && decide (some p.identity = g.selectedInstance) with
  | none =>
      have hmissing := List.find?_eq_none.mp hfound selected hmem
      simp [hidentity] at hmissing
  | some p =>
      have hnamed := List.find?_some hfound
      rw [Bool.and_eq_true, decide_eq_true_eq] at hnamed
      rw [h.eq (List.mem_of_find?_eq_some hfound) hmem hnamed.1]

/-- A start of the selected traffic needs the selected process, with a known start
time. -/
theorem exists_selectedProcess {g : App} {lang : Lang} (h : g.startRefusal lang true = none) :
    ∃ selected, g.selectedProcess = some selected ∧ selected.started ≠ 0 := by
  unfold startRefusal at h
  split at h
  · contradiction
  · split at h
    · contradiction
    · split at h
      · contradiction
      · rename_i hrunning
        cases hfound : g.selectedProcess with
        | some selected => exact ⟨selected, rfl, by simpa [hfound] using hrunning⟩
        | none => simp [hfound] at hrunning

theorem takesSubtree_iff {g : App} (h : OnePerPid g.procs) : g.TakesSubtree ↔
    ∀ selected ∈ g.procs, g.selected = some selected.pid →
      g.selectedInstance = some selected.identity →
        ∀ q ∈ g.procs, q.pid ∈ g.group → q.started ≠ 0 →
          InSubtree g.procs selected q.identity := by
  constructor
  · intro htakes selected hmem hpid hidentity q hq hgroup hstarted
    exact htakes selected (selectedProcess_of_mem h hmem hpid hidentity) ""
      q.identity (mem_grouped.mpr ⟨q, hq, hgroup, hstarted, rfl⟩)
  · intro hkept selected hselected path id hid
    obtain ⟨hmem, hpid, hidentity⟩ := selectedProcess_eq_some hselected
    obtain ⟨q, hq, hgroup, hstarted, rfl⟩ := mem_grouped.mp hid
    exact hkept selected hmem hpid hidentity q hq hgroup hstarted

/-- Where nothing is selected, or the group is empty, a start takes nothing. -/
theorem takesSubtree_of_empty {g : App} (h : g.selected = none ∨ g.group = []) :
    g.TakesSubtree := by
  intro selected hselected path id hid
  obtain ⟨-, hpid, -⟩ := selectedProcess_eq_some hselected
  obtain ⟨q, -, hgroup, -, -⟩ := mem_grouped.mp hid
  rcases h with hnone | hempty
  · rw [hnone] at hpid
    contradiction
  · rw [hempty] at hgroup
    contradiction

theorem TakesSubtree.congr {g g' : App} (h : g.TakesSubtree) (hprocs : g'.procs = g.procs)
    (hselected : g'.selected = g.selected) (hinstance : g'.selectedInstance = g.selectedInstance)
    (hgroup : g'.group = g.group) : g'.TakesSubtree := by
  intro selected hfound path id hid
  rw [hprocs]
  refine h selected ?_ path id ?_
  · rw [← hfound, selectedProcess, selectedProcess, hprocs, hselected, hinstance]
  · change id ∈ grouped g'.procs g'.group at hid
    rw [hprocs, hgroup] at hid
    exact hid

/-! ## Scans -/

theorem refreshSelectedGroup_procs (g : App) (processes : List ProcInfo) (full : Bool) :
    (g.refreshSelectedGroup processes full).procs = g.procs := by
  unfold refreshSelectedGroup
  split
  · rfl
  · split
    · rfl
    · split
      · split <;> rfl
      · rfl

/-- The scan finds the selected process. -/
theorem refreshSelectedGroup_of_mem {g : App} {processes : List ProcInfo} (h : OnePerPid processes)
    {selected : ProcInfo} (hmem : selected ∈ processes) (hpid : g.selected = some selected.pid)
    (hidentity : g.selectedInstance = some selected.identity) (full : Bool) :
    g.refreshSelectedGroup processes full =
      if full then { g with group := descendants processes selected.pid } else g := by
  have hfound : processes.find? (fun p => decide (p.pid = selected.pid)) = some selected := by
    cases hfind : processes.find? (fun p => decide (p.pid = selected.pid)) with
    | none =>
        have hmissing := List.find?_eq_none.mp hfind selected hmem
        simp at hmissing
    | some p =>
        have hnamed : p.pid = selected.pid := by simpa using List.find?_some hfind
        rw [h.eq (List.mem_of_find?_eq_some hfind) hmem hnamed]
  unfold refreshSelectedGroup
  rw [hpid]
  dsimp only
  rw [hfound]
  dsimp only
  rw [if_pos hidentity.symm]

/-- The scan does not find the selected process. -/
theorem refreshSelectedGroup_of_gone {g : App} {processes : List ProcInfo} (full : Bool)
    (h : ¬ ∃ selected ∈ processes, g.selected = some selected.pid ∧
      g.selectedInstance = some selected.identity) :
    (g.refreshSelectedGroup processes full).selected = none ∨
      (g.refreshSelectedGroup processes full).group = [] := by
  unfold refreshSelectedGroup
  split
  · rename_i hnone
    exact .inl hnone
  · rename_i pid hpid
    split
    · exact .inr rfl
    · rename_i process hfound
      split
      · rename_i hidentity
        have hnamed : process.pid = pid := by simpa using List.find?_some hfound
        rw [← hnamed] at hpid
        exact absurd ⟨process, List.mem_of_find?_eq_some hfound, hpid, hidentity.symm⟩ h
      · exact .inl rfl

/-- What a scan may read: one entry for each number, and after a scan of given
numbers entries for these only. -/
def Scan.Proper : Scan → Prop
  | .full procs => OnePerPid procs
  | .listed scanned procs => OnePerPid procs ∧ ∀ p ∈ procs, p.pid ∈ scanned

theorem renewed_onePerPid {g : App} (h : OnePerPid g.procs) {scanned : List ℤ}
    {procs : List ProcInfo} (hprocs : OnePerPid procs) (hscanned : ∀ p ∈ procs, p.pid ∈ scanned) :
    OnePerPid (g.renewed scanned procs) := by
  unfold OnePerPid renewed
  rw [List.map_append]
  refine List.Nodup.append (List.Nodup.sublist (List.filter_sublist.map _) h) hprocs ?_
  intro pid hkept hread
  obtain ⟨q, hq, rfl⟩ := List.mem_map.mp hkept
  obtain ⟨p, hp, hpid⟩ := List.mem_map.mp hread
  have hnot := of_decide_eq_true (List.mem_filter.mp hq).2
  exact hnot (hpid ▸ hscanned p hp)

theorem applyScan_procs (g : App) (p : Poll) : (g.applyScan p).procs =
    match p.scan with
    | .full procs => procs
    | .listed scanned procs => g.renewed scanned procs := by
  unfold applyScan
  cases p.scan with
  | full procs => rfl
  | listed scanned procs =>
      exact refreshSelectedGroup_procs { g with procs := g.renewed scanned procs } _ _

/-- A full scan finds the group again. -/
theorem applyScan_full_takesSubtree {g : App} {p : Poll} {procs : List ProcInfo}
    (hscan : p.scan = .full procs) (h : OnePerPid procs) : (g.applyScan p).TakesSubtree := by
  have hprocs := g.applyScan_procs p
  rw [hscan] at hprocs
  have hgroup : (g.applyScan p).group = (g.refreshSelectedGroup procs true).group := by
    rw [applyScan, hscan]
    rfl
  have hselected : (g.applyScan p).selected = (g.refreshSelectedGroup procs true).selected := by
    rw [applyScan, hscan]
    rfl
  by_cases hfound : ∃ selected ∈ procs, g.selected = some selected.pid ∧
      g.selectedInstance = some selected.identity
  · obtain ⟨selected, hmem, hpid, hidentity⟩ := hfound
    rw [refreshSelectedGroup_of_mem h hmem hpid hidentity, if_pos rfl] at hgroup hselected
    rw [takesSubtree_iff (hprocs ▸ h), hprocs]
    intro selected' hmem' hpid' _ q hq hin _
    have hsame : selected' = selected := by
      refine h.eq hmem' hmem (Option.some.inj ?_)
      rw [← hpid', hselected, ← hpid]
    rw [hgroup] at hin
    exact hsame ▸ h.inSubtree hmem hq hin
  · rcases refreshSelectedGroup_of_gone true hfound with hnone | hempty
    · exact takesSubtree_of_empty (.inl (hselected.trans hnone))
    · exact takesSubtree_of_empty (.inr (hgroup.trans hempty))

/-- A scan of the group leaves it as it is while it finds the selected process. -/
theorem applyScan_listed_takesSubtree_iff {g : App} {p : Poll} {scanned : List ℤ}
    {procs : List ProcInfo} (hscan : p.scan = .listed scanned procs)
    (h : OnePerPid (g.renewed scanned procs)) :
    (g.applyScan p).TakesSubtree ↔ g.KeepsSubtree (.poll p) := by
  have hprocs := g.applyScan_procs p
  rw [hscan] at hprocs
  have hkeeps : g.KeepsSubtree (.poll p) ↔
      ∀ selected ∈ g.renewed scanned procs, g.selected = some selected.pid →
        g.selectedInstance = some selected.identity →
          ∀ q ∈ g.renewed scanned procs, q.pid ∈ g.group → q.started ≠ 0 →
            InSubtree (g.renewed scanned procs) selected q.identity := by
    rw [KeepsSubtree, hscan]
  rw [hkeeps]
  have hscanned : g.applyScan p =
      (App.refreshSelectedGroup { g with procs := g.renewed scanned procs }
        (g.renewed scanned procs) false).trackDump p.instanceOrder p.trackedAt
        (g.renewed scanned procs) := by
    rw [applyScan, hscan]
    rfl
  by_cases hfound : ∃ selected ∈ g.renewed scanned procs, g.selected = some selected.pid ∧
      g.selectedInstance = some selected.identity
  · obtain ⟨selected, hmem, hpid, hidentity⟩ := hfound
    have hstays := @refreshSelectedGroup_of_mem { g with procs := g.renewed scanned procs }
      (g.renewed scanned procs) h selected hmem hpid hidentity false
    rw [if_neg (by simp)] at hstays
    rw [hstays] at hscanned
    rw [takesSubtree_iff (hprocs ▸ h), hscanned]
    rfl
  · refine iff_of_true ?_ ?_
    · rw [hscanned]
      exact takesSubtree_of_empty (@refreshSelectedGroup_of_gone
        { g with procs := g.renewed scanned procs } (g.renewed scanned procs) false hfound)
    · intro selected hmem hpid hidentity
      exact absurd ⟨selected, hmem, hpid, hidentity⟩ hfound

/-! ## Selections -/

/-- A selection finds the group in the list at hand. -/
theorem select_takesSubtree {g : App} (h : OnePerPid g.procs) (pid : Option ℤ) :
    (g.select pid).TakesSubtree := by
  rw [takesSubtree_iff (g := g.select pid) h]
  intro selected hmem hpid _ q hq hin _
  obtain rfl : pid = some selected.pid := hpid
  exact OnePerPid.inSubtree h hmem hq hin

end App

/-! ## Sections of the program -/

/-- The scans of a step read what they may. -/
def Step.Proper : Step → Prop
  | .background (.poll p) => p.scan.Proper
  | _ => True

/-- A step leaves the numbers of the group to the subtree of the selected
process. -/
def Step.KeepsSubtree (w : World) : Step → Prop
  | .background b => w.app.KeepsSubtree b
  | _ => True

namespace World

/-- A section reads at most one process for each number. -/
theorem background_onePerPid {g : App} (h : OnePerPid g.procs) {b : App.Background}
    (hproper : Step.Proper (.background b)) : OnePerPid (g.background b).procs := by
  cases b with
  | poll p =>
      change OnePerPid (g.applyScan p).procs
      rw [App.applyScan_procs]
      cases hscan : p.scan with
      | full procs =>
          have hread : p.scan.Proper := hproper
          rw [hscan] at hread
          exact hread
      | listed scanned procs =>
          have hread : p.scan.Proper := hproper
          rw [hscan] at hread
          exact App.renewed_onePerPid h hread.1 hread.2
  | batch heard size panicked =>
      have hfold (heard : List App.Heard) (g : App) (h : OnePerPid g.procs) :
          OnePerPid (heard.foldl App.applyHeard g).procs := by
        induction heard generalizing g with
        | nil => exact h
        | cons p rest ih => exact ih (g.applyHeard p) h
      exact hfold heard g h
  | _ => exact h

theorem step_onePerPid {w w' : World} {e : Step} (h : OnePerPid w.app.procs) (hproper : e.Proper)
    (fires : w.step e = some w') : OnePerPid w'.app.procs := by
  obtain ⟨b, rfl, happ⟩ | ⟨-, dump, phase, outcome, m, stopped, happ⟩ := step_app fires
  · rw [happ]
    exact background_onePerPid h hproper
  · rw [happ]
    exact h

/-- A section that is no poll and no selection leaves what a start takes. -/
theorem applyBatch_takesSubtree {g : App} (h : g.TakesSubtree) (heard : List App.Heard)
    (size : ℕ) (panicked : Bool) : (g.applyBatch heard size panicked).TakesSubtree := by
  have hfold : (heard.foldl App.applyHeard g).TakesSubtree := by
    induction heard generalizing g with
    | nil => exact h
    | cons p rest ih => exact ih (h.congr rfl rfl rfl rfl)
  exact hfold.congr rfl rfl rfl rfl

/-- A step keeps the numbers of the group with the subtree exactly under its
condition. -/
theorem step_takesSubtree_iff {w w' : World} {e : Step} (h : OnePerPid w.app.procs)
    (hproper : e.Proper) (htakes : w.app.TakesSubtree) (fires : w.step e = some w') :
    w'.app.TakesSubtree ↔ e.KeepsSubtree w := by
  obtain ⟨b, rfl, happ⟩ | ⟨he, dump, phase, outcome, m, stopped, happ⟩ := step_app fires
  · rw [happ]
    cases b with
    | poll p =>
        have hread : p.scan.Proper := hproper
        have hpoll : (w.app.applyPoll p).TakesSubtree ↔ (w.app.applyScan p).TakesSubtree :=
          ⟨fun hpolled => hpolled.congr rfl rfl rfl rfl,
            fun hscanned => hscanned.congr rfl rfl rfl rfl⟩
        refine hpoll.trans ?_
        cases hscan : p.scan with
        | full procs =>
            rw [hscan] at hread
            refine iff_of_true (App.applyScan_full_takesSubtree hscan hread) ?_
            change w.app.KeepsSubtree (.poll p)
            rw [App.KeepsSubtree, hscan]
            trivial
        | listed scanned procs =>
            rw [hscan] at hread
            exact App.applyScan_listed_takesSubtree_iff hscan
              (App.renewed_onePerPid h hread.1 hread.2)
    | select pid => exact iff_of_true (App.select_takesSubtree h pid) trivial
    | batch heard size panicked =>
        exact iff_of_true (applyBatch_takesSubtree htakes heard size panicked) trivial
    | _ => exact iff_of_true (htakes.congr rfl rfl rfl rfl) trivial
  · rw [happ]
    refine iff_of_true (htakes.congr rfl rfl rfl rfl) ?_
    cases e with
    | background b => exact absurd rfl (he b)
    | _ => trivial

end World

/-! ## Starts -/

/-- The two tasks belong to one start. -/
def StartTask.Same (t t' : StartTask) : Prop :=
  t'.filtered = t.filtered ∧ t'.path = t.path ∧ t'.process = t.process ∧ t'.instances = t.instances

theorem StartTask.launch_same (t : StartTask) (lang : Lang) (fresh : ℕ) (l : Launch) :
    t.Same (t.launch lang fresh l) := by
  unfold StartTask.launch
  split <;> exact ⟨rfl, rfl, rfl, rfl⟩

theorem StartTask.ready_same (t : StartTask) (p started : ℕ) (result : Except String Unit) :
    t.Same (t.ready p started result) := by
  cases result <;> exact ⟨rfl, rfl, rfl, rfl⟩

/-- The task comes from a start of the history. -/
def Begun (hist : History World Step) (t : StartTask) : Prop :=
  ∃ w lang, (w, Step.startEnter lang t.filtered t.path) ∈ hist ∧
    w.app.startRefusal lang t.filtered = none ∧ t.process = w.app.selectedProcess ∧
      t.instances = (w.app.startTask t.filtered t.path).instances

theorem Begun.same {hist : History World Step} {t t' : StartTask} (h : Begun hist t)
    (hsame : t.Same t') : Begun hist t' := by
  obtain ⟨hfiltered, hpath, hprocess, hinstances⟩ := hsame
  unfold Begun
  rw [hfiltered, hpath, hprocess, hinstances]
  exact h

theorem Begun.later {hist : History World Step} {t : StartTask} (h : Begun hist t)
    (entry : World × Step) : Begun (entry :: hist) t := by
  obtain ⟨w, lang, hmem, hrest⟩ := h
  exact ⟨w, lang, List.mem_cons_of_mem _ hmem, hrest⟩

namespace World

theorem mem_of_startAt {w : World} {i : ℕ} {t : StartTask} (hat : w.startAt i = some t) :
    .start t ∈ w.tasks := by
  unfold startAt at hat
  split at hat
  · rename_i task htask
    cases hat
    exact List.mem_of_getElem? htask
  · contradiction

/-- A step goes on with the starts that are under way, or begins one. -/
theorem step_begun {hist : History World Step} {w w' : World} {e : Step}
    (h : ∀ t, .start t ∈ w.tasks → Begun hist t) (fires : w.step e = some w') :
    ∀ t, .start t ∈ w'.tasks → Begun ((w, e) :: hist) t := by
  have hkept (t : StartTask) (ht : .start t ∈ w.tasks) : Begun ((w, e) :: hist) t :=
    (h t ht).later (w, e)
  intro t' ht'
  cases step_cases fires with
  | background b he => exact hkept t' ht'
  | start lang filtered path g t he henter hg =>
      rcases List.mem_append.mp ht' with hold | hnew
      · exact hkept t' hold
      · cases List.mem_singleton.mp hnew
        obtain ⟨error, -, heq⟩ | ⟨-, hallowed, heq⟩ := w.app.startEnter_cases lang filtered path
        · rw [heq] at henter
          contradiction
        · rw [heq, Except.ok.injEq, Prod.mk.injEq] at henter
          obtain ⟨-, rfl⟩ := henter
          exact ⟨w, lang, he ▸ List.mem_cons_self .., hallowed, rfl, rfl⟩
  | startStep i t _ hat hsection he =>
      have hbegun := hkept t (mem_of_startAt hat)
      cases hsection with
      | launch lang l hpc =>
          rcases List.mem_or_eq_of_mem_set ht' with hold | hnew
          · exact hkept t' hold
          · cases hnew
            exact hbegun.same (t.launch_same ..)
      | ready p started result hpc =>
          rcases List.mem_or_eq_of_mem_set ht' with hold | hnew
          · exact hkept t' hold
          · cases hnew
            exact hbegun.same (t.ready_same ..)
      | last result now order hpc => exact hkept t' (List.mem_of_mem_eraseIdx ht')
  | finish t _ hg htasks he =>
      rw [htasks] at ht'
      rcases List.mem_append.mp ht' with hold | hnew
      · exact hkept t' hold
      · cases List.mem_singleton.mp hnew
  | finishStep i t _ hat hsection he =>
      cases hsection with
      | stop | stopped | move =>
          rcases List.mem_or_eq_of_mem_set ht' with hold | hnew
          · exact hkept t' hold
          · cases hnew
      | last outcome hpc => exact hkept t' (List.mem_of_mem_eraseIdx ht')
  | other _ hg htasks he => exact hkept t' (htasks ▸ ht')

end World

section Runs

variable {now : ℕ} {names : KeyedMap IpAddr DnsEntry} {iface : String}
  {whois : IpAddr → Option Whois} {self : ℤ} {fs : Annotate.Fs} {hist : History World Step}
  {w : World}

/-- Every start that is under way comes from the history. -/
theorem begun_of_run (run : Run World.system (.fresh now names iface whois self fs) hist w) :
    ∀ t, .start t ∈ w.tasks → Begun hist t := by
  refine run.historyInvariant (P := fun hist w => ∀ t, .start t ∈ w.tasks → Begun hist t) ?_ ?_
  · intro t ht
    contradiction
  · intro hist w e w' _ hbegun fires
    exact World.step_begun hbegun fires

theorem onePerPid_of_run (run : Run World.system (.fresh now names iface whois self fs) hist w)
    (hproper : ∀ entry ∈ hist, entry.2.Proper) : OnePerPid w.app.procs := by
  have hstart : OnePerPid (World.fresh now names iface whois self fs).app.procs := List.nodup_nil
  refine run.invariant_of_guard (P := fun w => OnePerPid w.app.procs)
    (G := fun _ e => Step.Proper e) hstart ?_ hproper
  intro w e w' hone hproper fires
  exact World.step_onePerPid hone hproper fires

/-- In every state of a run a start of the selected traffic takes the subtree of
the selected process only, if and only if every scan of the group keeps it so. -/
theorem takesSubtree_throughout_iff
    (run : Run World.system (.fresh now names iface whois self fs) hist w)
    (hproper : ∀ entry ∈ hist, entry.2.Proper) :
    Throughout (fun w => w.app.TakesSubtree) hist w ↔
      ∀ entry ∈ hist, entry.2.KeepsSubtree entry.1 := by
  refine run.throughout_iff_of_guard (P := fun w => w.app.TakesSubtree)
    (G := fun w e => Step.KeepsSubtree w e) (H := fun _ e => Step.Proper e)
    (App.takesSubtree_of_empty (.inl rfl)) ?_ hproper
  intro hist w e w' prior hpast hproper htakes fires
  exact World.step_takesSubtree_iff (onePerPid_of_run prior hpast) hproper htakes fires

/-- **A recording begins with the subtree of the selected process** as long as no
scan of the group finds one of its numbers with a process from elsewhere; and only
then a start takes the subtree in every state. -/
theorem recording_begins_with_subtree
    (run : Run World.system (.fresh now names iface whois self fs) hist w)
    (hproper : ∀ entry ∈ hist, entry.2.Proper) :
    (Throughout (fun w => w.app.TakesSubtree) hist w ↔
      ∀ entry ∈ hist, entry.2.KeepsSubtree entry.1) ∧
    ((∀ entry ∈ hist, entry.2.KeepsSubtree entry.1) →
      ∀ w₁ i begun order t m, (w₁, Step.startLast i begun order) ∈ hist →
        w₁.startAt i = some t → t.filtered = true →
          (w₁.app.startLast t (.ok ()) begun order).1.dumpMeta = some m →
            ∃ w₀ lang selected, (w₀, Step.startEnter lang true t.path) ∈ hist ∧
              w₀.app.selectedProcess = some selected ∧ m.process = some selected ∧
                m.instances = (w₀.app.startTask true t.path).instances ∧
                  ∀ id ∈ m.instances, InSubtree w₀.app.procs selected id) := by
  have hiff := takesSubtree_throughout_iff run hproper
  refine ⟨hiff, ?_⟩
  intro hkeeps w₁ i begun order t m hlast hat hfiltered hmeta
  obtain ⟨later, earlier, rfl⟩ := List.append_of_mem hlast
  have run₁ : Run World.system (.fresh now names iface whois self fs) earlier w₁ := by
    obtain ⟨_, hafter, -⟩ := Run.split run
    cases hafter with
    | next prior _ => exact prior
  obtain ⟨w₀, lang, henter, hallowed, hprocess, hinstances⟩ :=
    begun_of_run run₁ t (World.mem_of_startAt hat)
  rw [hfiltered] at henter hallowed hinstances
  have hentered : (w₀, Step.startEnter lang true t.path) ∈
      later ++ (w₁, Step.startLast i begun order) :: earlier :=
    List.mem_append_right _ (List.mem_cons_of_mem _ henter)
  obtain ⟨selected, hselected, -⟩ := App.exists_selectedProcess hallowed
  have hsame : SameRecording (t.dumpMeta begun) m := by
    obtain rfl : rememberAll order (t.dumpMeta begun) w₁.app.store.conns = m :=
      Option.some.inj hmeta
    exact rememberAll_sameRecording ..
  have htakes := (hiff.mpr hkeeps).1 _ hentered
  refine ⟨w₀, lang, selected, hentered, hselected, ?_, ?_, ?_⟩
  · exact hsame.1.trans (hprocess.trans hselected)
  · exact hsame.instances_eq.trans hinstances
  · intro id hid
    rw [hsame.instances_eq] at hid
    exact htakes selected hselected t.path id (hinstances ▸ hid)

end Runs

/-- A scan of the sample host for the processes that it lists. -/
def sampleScan (t : ℕ) (procs : List ProcInfo) : Step :=
  .background (.poll
    { scan := .listed (procs.map ProcInfo.pid) procs
      socks := []
      localIps := none
      lang := .en
      trackedAt := t
      socketClock := .still t
      nameClock := .still t
      instanceOrder := .stored
      evictOrder := .stored
      rowOrder := .stored })

/-- A child of process 7. -/
def sampleChild (pid : ℤ) (started : ℕ) : ProcInfo :=
  { sampleProc pid started with ppid := 7 }

/-- A process with a child is selected, a scan of the group reads `procs`, and the
traffic of the group is recorded. -/
def sampleGroup (procs : List ProcInfo) : List Step :=
  [.background (.live none true), samplePoll 10 [sampleProc 7 100, sampleChild 8 200] [],
    .background (.select (some 7)), sampleScan 20 procs]

def sampleRecording : List Step :=
  [.startEnter .en true "dump.pcapng", .launch 0 .en (.spawns 5), .ready 0 (.ok ()),
    .startLast 0 30 .stored]

theorem sampleGroup_proper {procs : List ProcInfo} (h : OnePerPid procs) :
    ∀ e ∈ sampleGroup procs ++ sampleRecording, e.Proper := by
  have hscan : Step.Proper (sampleScan 20 procs) :=
    ⟨h, fun p hp => List.mem_map_of_mem hp⟩
  have hpoll : OnePerPid [sampleProc 7 100, sampleChild 8 200] := by decide
  refine List.forall_mem_append.mpr ⟨?_, ?_⟩
  · exact List.forall_mem_cons.mpr ⟨trivial, List.forall_mem_cons.mpr ⟨hpoll,
      List.forall_mem_cons.mpr ⟨trivial, List.forall_mem_singleton.mpr hscan⟩⟩⟩
  · exact List.forall_mem_cons.mpr ⟨trivial, List.forall_mem_cons.mpr ⟨trivial,
      List.forall_mem_cons.mpr ⟨trivial, List.forall_mem_singleton.mpr trivial⟩⟩⟩

/-- The group is still there at the second scan: the recording begins with the
process and its child. -/
theorem recording_begins_with_subtree_sample :
    let played := World.system.play [] sampleHost
      (sampleGroup [sampleProc 7 100, sampleChild 8 200] ++ sampleRecording)
    Throughout (fun w => w.app.TakesSubtree) played.1 played.2 ∧
      ∃ m, played.2.app.dumpMeta = some m ∧ m.instances = [⟨7, 100⟩, ⟨8, 200⟩] ∧
        ∃ (w₀ : World) (selected : ProcInfo), w₀.app.selectedProcess = some selected ∧
          m.process = some selected ∧ ∀ id ∈ m.instances, InSubtree w₀.app.procs selected id := by
  intro played
  have run : Run World.system sampleHost played.1 played.2 := Run.start.play _
  have hproper : ∀ entry ∈ played.1, entry.2.Proper := by
    intro entry hentry
    rcases System.mem_play hentry with hnone | hplayed
    · contradiction
    · exact sampleGroup_proper (by decide) _ hplayed
  have hkeeps : ∀ entry ∈ played.1, entry.2.KeepsSubtree entry.1 := by
    refine List.forall_mem_cons.mpr ⟨trivial, List.forall_mem_cons.mpr ⟨trivial,
      List.forall_mem_cons.mpr ⟨trivial, List.forall_mem_cons.mpr ⟨trivial,
        List.forall_mem_cons.mpr ⟨?_, List.forall_mem_cons.mpr ⟨trivial,
          List.forall_mem_cons.mpr ⟨trivial, List.forall_mem_cons.mpr ⟨trivial, by simp⟩⟩⟩⟩⟩⟩⟩⟩
    intro selected _ hpid hidentity q hq _ _
    have hlisted : q ∈ [sampleProc 7 100, sampleChild 8 200] := hq
    have hpid' : (7 : ℤ) = selected.pid := Option.some.inj hpid
    rcases List.mem_pair.mp hlisted with rfl | rfl
    · exact .inl (Option.some.inj hidentity)
    · exact .inr ⟨_, .child hq hpid', rfl⟩
  obtain ⟨hiff, hbegins⟩ := recording_begins_with_subtree run hproper
  obtain ⟨w₀, lang, selected, -, hselected, hprocess, -, hall⟩ :=
    hbegins hkeeps _ 0 30 .stored _ _ (List.mem_cons_self ..) rfl rfl rfl
  exact ⟨hiff.mpr hkeeps, _, rfl, rfl, w₀, selected, hselected, hprocess, hall⟩

/-- The child has ended, and a process from elsewhere has its number at the second
scan: the recording begins with that process. -/
theorem recording_begins_with_stranger :
    let selecting := World.system.play [] sampleHost
      (sampleGroup [sampleProc 7 100, sampleProc 8 300])
    let recording := World.system.play [] selecting.2 sampleRecording
    Run World.system sampleHost selecting.1 selecting.2 ∧
      Run World.system selecting.2 recording.1 recording.2 ∧
      (∀ entry ∈ recording.1 ++ selecting.1, entry.2.Proper) ∧
      selecting.2.app.selectedProcess = some (sampleProc 7 100) ∧
      ∃ m, recording.2.app.dumpMeta = some m ∧ m.onlyGroup = true ∧ ⟨8, 300⟩ ∈ m.instances ∧
        ¬ InSubtree selecting.2.app.procs (sampleProc 7 100) ⟨8, 300⟩ := by
  intro selecting recording
  refine ⟨Run.start.play _, Run.start.play _, ?_, rfl, _, rfl, rfl,
    List.mem_cons_of_mem _ (List.mem_cons_self ..), ?_⟩
  · intro entry hentry
    have hevents : entry.2 ∈
        sampleGroup [sampleProc 7 100, sampleProc 8 300] ++ sampleRecording := by
      rcases List.mem_append.mp hentry with hrecording | hselecting
      · exact List.mem_append_right _ ((System.mem_play hrecording).resolve_left (by simp))
      · exact List.mem_append_left _ ((System.mem_play hselecting).resolve_left (by simp))
    exact sampleGroup_proper (by decide) _ hevents
  · have hprocs : selecting.2.app.procs = [sampleProc 7 100, sampleProc 8 300] := rfl
    rw [hprocs]
    -- no listed process has a listed parent
    have hparent (p : ProcInfo) (hp : p ∈ [sampleProc 7 100, sampleProc 8 300]) : p.ppid = 1 := by
      rcases List.mem_pair.mp hp with rfl | rfl <;> rfl
    have hpid (p : ProcInfo) (hp : p ∈ [sampleProc 7 100, sampleProc 8 300]) : p.pid ≠ 1 := by
      rcases List.mem_pair.mp hp with rfl | rfl <;> decide
    rintro (hself | ⟨p, hbelow, -⟩)
    · revert hself
      decide
    · cases hbelow with
      | child hlisted hroot =>
          rw [hparent p hlisted] at hroot
          revert hroot
          decide
      | deeper hq hlisted hq' =>
          rw [hparent p hlisted] at hq'
          exact hpid _ hq.listed hq'.symm

end SocketTrail.Program
