/-
# The group of a recording

Every poll of a recording follows the group of the selected process through the
process list of that moment. `Followed` says what one look at a list does to the
recorded instances: a process joins only by child links from an instance that was
recorded before and is alive now, with the same start time, and unless the ceiling
is reached all such processes join.
-/

import SocketTrail.Net.Reach
import SocketTrail.Recording.Session

namespace SocketTrail.Recording

open SocketTrail.Foundation SocketTrail.Net SocketTrail.State SocketTrail.Attribution

/-- The numbers from which a look at the list starts: those of the recorded
instances that are alive in it. -/
def groupRoots (order : HashOrder Identity) (m : DumpMeta) (list : List ProcInfo) : List ℤ :=
  ((order.arrange m.instances).filter fun id =>
    (procMap list id.pid).any fun p => p.identity = id).map Identity.pid

/-- A look at the list, with its roots by name. -/
theorem trackDump_eq (order : HashOrder Identity) (now : ℕ) {m : DumpMeta} (list : List ProcInfo)
    (hprocess : m.process.isSome = true) :
    trackDump order now m list =
      trackProcesses (procMap list) (descendantsFrom list (groupRoots order m list))
        (if (groupRoots order m list).isEmpty then m else { m with lastAlive := now }) := by
  unfold trackDump
  rw [if_neg (by simpa [Option.isSome_iff_ne_none] using hprocess)]
  rfl

/-- What a look at the process list makes of the recorded instances. -/
structure Followed (m m' : DumpMeta) (list : List ProcInfo) : Prop where
  kept : ∀ id ∈ m.instances, id ∈ m'.instances
  bounded : m'.instances.length ≤ maxDumpProcs
  linked : ∀ id ∈ m'.instances, id ∉ m.instances → ∃ p ∈ list, p.identity = id ∧ p.started ≠ 0 ∧
    ∃ r ∈ list, r.identity ∈ m.instances ∧ Relation.TransGen (ChildOf list) r.pid p.pid
  complete : m'.limitReached = false ∨ m'.instances.length < maxDumpProcs →
    ∀ p ∈ list, p.started ≠ 0 → (∃ r ∈ list, r.identity ∈ m.instances ∧
      Relation.ReflTransGen (ChildOf list) r.pid p.pid) → p.identity ∈ m'.instances

/-! ## Taking the processes found -/

/-- What taking the processes with the numbers `found` does. -/
structure Taken (live : ℤ → Option ProcInfo) (found : List ℤ) (m m' : DumpMeta) : Prop where
  process : m'.process = m.process
  kept : ∀ id ∈ m.instances, id ∈ m'.instances
  bounded : m.instances.length ≤ maxDumpProcs → m'.instances.length ≤ maxDumpProcs
  fresh : ∀ id ∈ m'.instances, id ∈ m.instances ∨
    ∃ pid ∈ found, ∃ p, live pid = some p ∧ p.started ≠ 0 ∧ p.identity = id
  complete : m'.limitReached = false ∨ m'.instances.length < maxDumpProcs →
    ∀ pid ∈ found, ∀ p, live pid = some p → p.started ≠ 0 → p.identity ∈ m'.instances

/-- Passing over a number that is not alive or has no known start time. -/
theorem Taken.skip {live : ℤ → Option ProcInfo} {pid : ℤ} {rest : List ℤ} {m m' : DumpMeta}
    (h : Taken live rest m m') (hpid : ∀ p, live pid = some p → p.started = 0) :
    Taken live (pid :: rest) m m' where
  process := h.process
  kept := h.kept
  bounded := h.bounded
  fresh id hid := (h.fresh id hid).imp_right fun ⟨q, hq, hp⟩ => ⟨q, List.mem_cons_of_mem pid hq, hp⟩
  complete hroom := List.forall_mem_cons.mpr
    ⟨fun p hp hstarted => absurd (hpid p hp) hstarted, h.complete hroom⟩

/-- Stopping at the ceiling: nothing joins, and the limit is noted. -/
theorem taken_refused {live : ℤ → Option ProcInfo} {found : List ℤ} {m : DumpMeta}
    (hfull : maxDumpProcs ≤ m.instances.length) :
    Taken live found m { m with limitReached := true } where
  process := rfl
  kept _ h := h
  bounded h := h
  fresh _ h := .inl h
  complete hroom := by
    rcases hroom with hfalse | hlt
    · contradiction
    · exact absurd hfull (Nat.not_le_of_lt hlt)

/-- What taking one process does: it is there already, or joins below the ceiling. -/
structure Joined (p : ProcInfo) (m m' : DumpMeta) : Prop where
  process : m'.process = m.process
  mem : p.identity ∈ m'.instances
  kept : ∀ id ∈ m.instances, id ∈ m'.instances
  fresh : ∀ id ∈ m'.instances, id ∈ m.instances ∨ p.identity = id
  bounded : m.instances.length ≤ maxDumpProcs → m'.instances.length ≤ maxDumpProcs

/-- One process found is refused at the ceiling, is there already, or joins. -/
theorem trackProcess_cases (m : DumpMeta) (p : ProcInfo) :
    (trackProcess m p = none ∧ maxDumpProcs ≤ m.instances.length) ∨
      ∃ m', trackProcess m p = some m' ∧ Joined p m m' := by
  unfold trackProcess
  by_cases hrefused : p.identity ∉ m.instances ∧ m.instances.length ≥ maxDumpProcs
  · exact .inl ⟨if_pos hrefused, hrefused.2⟩
  · refine .inr ⟨_, if_neg hrefused, ?_⟩
    constructor
    · rfl
    · exact mem_join.mpr (.inr rfl)
    · exact fun id hid => mem_join.mpr (.inl hid)
    · exact fun id hid => (mem_join.mp hid).imp_right Eq.symm
    · intro hbound
      dsimp only
      split
      · exact hbound
      · rename_i hmem
        rw [List.length_append, List.length_singleton]
        exact Nat.lt_of_not_le fun hfull => hrefused ⟨hmem, hfull⟩

/-- Taking a process that is alive with a known start time, and then the others. -/
theorem Taken.join {live : ℤ → Option ProcInfo} {pid : ℤ} {rest : List ℤ} {m m' m'' : DumpMeta}
    {p : ProcInfo} (h : Taken live rest m' m'') (hlive : live pid = some p)
    (hstarted : p.started ≠ 0) (hjoined : Joined p m m') : Taken live (pid :: rest) m m'' where
  process := h.process.trans hjoined.process
  kept id hid := h.kept id (hjoined.kept id hid)
  bounded hbound := h.bounded (hjoined.bounded hbound)
  fresh id hid := by
    rcases h.fresh id hid with hid | ⟨q, hq, hp⟩
    · refine (hjoined.fresh id hid).imp_right fun heq => ?_
      exact ⟨pid, List.mem_cons_self, p, hlive, hstarted, heq⟩
    · exact .inr ⟨q, List.mem_cons_of_mem pid hq, hp⟩
  complete hroom := by
    refine List.forall_mem_cons.mpr ⟨fun q hq _ => ?_, h.complete hroom⟩
    rw [hlive, Option.some.injEq] at hq
    exact hq ▸ h.kept _ hjoined.mem

theorem trackProcesses_taken (live : ℤ → Option ProcInfo) (found : List ℤ) (m : DumpMeta) :
    Taken live found m (trackProcesses live found m) := by
  induction found generalizing m with
  | nil =>
      exact ⟨rfl, fun _ h => h, id, fun _ h => .inl h, fun _ _ h => absurd h List.not_mem_nil⟩
  | cons pid rest ih =>
      unfold trackProcesses
      split
      · rename_i hdead
        exact (ih m).skip fun p hp => by simp [hdead] at hp
      · rename_i p hlive
        split
        · rename_i hunknown
          exact (ih m).skip fun q hq => by
            rw [hlive, Option.some.injEq] at hq
            exact hq ▸ hunknown
        · rename_i hstarted
          obtain ⟨htrack, hfull⟩ | ⟨m', htrack, hjoined⟩ := trackProcess_cases m p
          · rw [htrack]
            exact taken_refused hfull
          · rw [htrack]
            exact (ih m').join hlive hstarted hjoined

/-! ## One look -/

section Look

variable {order : HashOrder Identity} {m : DumpMeta} {list : List ProcInfo}

/-- In a list of distinct numbers the list by number has every entry. -/
theorem procMap_of_mem (hdistinct : (list.map ProcInfo.pid).Nodup) {p : ProcInfo} (hp : p ∈ list) :
    procMap list p.pid = some p := by
  obtain ⟨q, hq⟩ := Option.isSome_iff_exists.mp (procMap_isSome.mpr ⟨p, hp, rfl⟩)
  obtain ⟨hmem, hpid⟩ := procMap_eq_some hq
  rw [hq, List.inj_on_of_nodup_map hdistinct hmem hp hpid]

theorem mem_groupRoots (hdistinct : (list.map ProcInfo.pid).Nodup) {q : ℤ} :
    q ∈ groupRoots order m list ↔ ∃ r ∈ list, r.identity ∈ m.instances ∧ r.pid = q := by
  simp only [groupRoots, List.mem_map, List.mem_filter, HashOrder.mem_arrange, Option.any_eq_true,
    decide_eq_true_eq]
  constructor
  · rintro ⟨id, ⟨hid, r, hr, heq⟩, hpid⟩
    obtain ⟨hmem, hnum⟩ := procMap_eq_some hr
    exact ⟨r, hmem, heq ▸ hid, hnum.trans hpid⟩
  · rintro ⟨r, hr, hid, hpid⟩
    exact ⟨r.identity, ⟨hid, r, procMap_of_mem hdistinct hr, rfl⟩, hpid⟩

/-- A listed process is a root exactly when it is itself a recorded instance. -/
theorem pid_mem_groupRoots (hdistinct : (list.map ProcInfo.pid).Nodup) {p : ProcInfo}
    (hp : p ∈ list) : p.pid ∈ groupRoots order m list ↔ p.identity ∈ m.instances := by
  rw [mem_groupRoots hdistinct]
  constructor
  · rintro ⟨r, hr, hid, hpid⟩
    exact List.inj_on_of_nodup_map hdistinct hr hp hpid ▸ hid
  · exact fun hid => ⟨p, hp, hid, rfl⟩

theorem trackDump_process (order : HashOrder Identity) (now : ℕ) (m : DumpMeta)
    (list : List ProcInfo) : (trackDump order now m list).process = m.process := by
  by_cases hprocess : m.process.isSome = true
  · rw [trackDump_eq order now list hprocess, (trackProcesses_taken ..).process]
    split <;> rfl
  · unfold trackDump
    rw [if_pos (by simpa using hprocess)]

theorem trackDump_followed (order : HashOrder Identity) (now : ℕ)
    (hprocess : m.process.isSome = true) (hroom : m.instances.length ≤ maxDumpProcs)
    (hdistinct : (list.map ProcInfo.pid).Nodup) :
    Followed m (trackDump order now m list) list := by
  rw [trackDump_eq order now list hprocess]
  generalize hroots : groupRoots order m list = roots
  obtain ⟨looked, hlooked, hsame⟩ : ∃ looked,
      (if roots.isEmpty then m else { m with lastAlive := now }) = looked ∧
        looked.instances = m.instances := ⟨_, rfl, by split <;> rfl⟩
  rw [hlooked]
  have htaken := trackProcesses_taken (procMap list) (descendantsFrom list roots) looked
  rw [← hsame] at hroom
  refine ⟨fun id hid => htaken.kept id (hsame ▸ hid), htaken.bounded hroom, fun id hid hnew => ?_,
    fun hunlimited p hp hstarted hlinked => ?_⟩
  · rcases htaken.fresh id hid with hold | ⟨pid, hfound, p, hlive, hstarted, heq⟩
    · exact absurd (hsame ▸ hold) hnew
    · obtain ⟨hp, hpid⟩ := procMap_eq_some hlive
      obtain ⟨q, hq, hpath⟩ := mem_descendantsFrom.mp hfound
      rw [← hroots, mem_groupRoots hdistinct] at hq
      obtain ⟨r, hr, hrecorded, hnum⟩ := hq
      subst hnum hpid heq
      refine ⟨p, hp, rfl, hstarted, r, hr, hrecorded, ?_⟩
      -- a path of no link would make the process its own root, which is recorded already
      rcases Relation.ReflTransGen.cases_head hpath with hself | ⟨_, hfirst, hrest⟩
      · exact absurd (List.inj_on_of_nodup_map hdistinct hr hp hself ▸ hrecorded) hnew
      · exact .head' hfirst hrest
  · obtain ⟨r, hr, hrecorded, hpath⟩ := hlinked
    have hroot : r.pid ∈ roots := hroots ▸ (pid_mem_groupRoots hdistinct hr).mpr hrecorded
    exact htaken.complete hunlimited p.pid (mem_descendantsFrom.mpr ⟨r.pid, hroot, hpath⟩) p
      (procMap_of_mem hdistinct hp) hstarted

end Look

/-! ## A whole recording -/

/-- The look is one at a process list whose numbers are distinct. -/
def Act.DistinctList (a : Act) : Prop :=
  ∀ order now list, a = .track order now list → (list.map ProcInfo.pid).Nodup

/-- Only a look at the process list changes the instances. -/
theorem Session.instances_step {s s' : Session} {a : Act} (h : Session.system.step s a = some s')
    (hother : ∀ order now list, a ≠ .track order now list) :
    s'.dumpMeta.instances = s.dumpMeta.instances ∧ s'.dumpMeta.process = s.dumpMeta.process := by
  cases a with
  | store e =>
      obtain ⟨-, rfl⟩ := Option.ite_none_right_eq_some.mp h |>.imp_right Option.some.inj
      exact ⟨rfl, rfl⟩
  | track order now list => exact absurd rfl (hother order now list)
  | record order =>
      obtain ⟨-, rfl⟩ := Option.ite_none_right_eq_some.mp h |>.imp_right Option.some.inj
      have hsame := rememberAll_sameRecording order s.dumpMeta s.store.conns
      exact ⟨hsame.instances_eq, hsame.1⟩
  | recordKey k =>
      obtain ⟨-, rfl⟩ := Option.ite_none_right_eq_some.mp h |>.imp_right Option.some.inj
      have hsame := rememberKey_sameRecording s.dumpMeta s.store.conns k
      exact ⟨hsame.instances_eq, hsame.1⟩
  | take =>
      obtain ⟨-, rfl⟩ := Option.ite_none_right_eq_some.mp h |>.imp_right Option.some.inj
      exact ⟨rfl, rfl⟩
  | account order =>
      obtain ⟨-, h⟩ := Option.ite_none_left_eq_some.mp h
      obtain rfl := Option.some.inj h
      have hsame := rememberAll_sameRecording order s.dumpMeta s.store.conns
      exact ⟨hsame.instances_eq, hsame.1⟩

/-- One act of a recording loses no instance and keeps the ceiling. -/
theorem Session.group_step {s s' : Session} {a : Act} (fires : Session.system.step s a = some s')
    (hprocess : s.dumpMeta.process.isSome = true)
    (hroom : s.dumpMeta.instances.length ≤ maxDumpProcs) (hdistinct : a.DistinctList) :
    s'.dumpMeta.process.isSome = true ∧
      (∀ id ∈ s.dumpMeta.instances, id ∈ s'.dumpMeta.instances) ∧
      s'.dumpMeta.instances.length ≤ maxDumpProcs := by
  by_cases hlook : ∃ order now list, a = .track order now list
  · obtain ⟨order, now, list, rfl⟩ := hlook
    obtain ⟨-, rfl⟩ := Option.ite_none_right_eq_some.mp fires |>.imp_right Option.some.inj
    have h := trackDump_followed order now hprocess hroom (hdistinct order now list rfl)
    exact ⟨trackDump_process order now s.dumpMeta list ▸ hprocess, h.kept, h.bounded⟩
  · obtain ⟨hinst, hselected⟩ := Session.instances_step fires fun order now list heq =>
      hlook ⟨order, now, list, heq⟩
    rw [hinst, hselected]
    exact ⟨hprocess, fun _ h => h, hroom⟩

theorem Session.group_run {s₀ s : Session} {hist : History Session Act}
    (run : Run Session.system s₀ hist s) (hprocess : s₀.dumpMeta.process.isSome = true)
    (hroom : s₀.dumpMeta.instances.length ≤ maxDumpProcs)
    (hdistinct : ∀ entry ∈ hist, entry.2.DistinctList) :
    s.dumpMeta.process.isSome = true ∧
      (∀ id ∈ s₀.dumpMeta.instances, id ∈ s.dumpMeta.instances) ∧
      s.dumpMeta.instances.length ≤ maxDumpProcs := by
  refine run.invariant_of_guard (G := fun _ a => a.DistinctList)
    (P := fun s => s.dumpMeta.process.isSome = true ∧
      (∀ id ∈ s₀.dumpMeta.instances, id ∈ s.dumpMeta.instances) ∧
      s.dumpMeta.instances.length ≤ maxDumpProcs) ⟨hprocess, fun _ h => h, hroom⟩ ?_ hdistinct
  intro s a s' ⟨hselected, hkept, hbounded⟩ ha fires
  obtain ⟨hselected', hkept', hbounded'⟩ := Session.group_step fires hselected hbounded ha
  exact ⟨hselected', fun id hid => hkept' id (hkept id hid), hbounded'⟩

/-- Throughout a recording with a selected process, from whatever instances it
begins with: no instance is removed and the ceiling holds, every look at a list
is one that `Followed` describes, and a listed process is a root of the search
exactly when its own number and start time are recorded. -/
theorem trackDump_genuine {s₀ s : Session} {hist : History Session Act}
    (run : Run Session.system s₀ hist s) (hprocess : s₀.dumpMeta.process.isSome = true)
    (hroom : s₀.dumpMeta.instances.length ≤ maxDumpProcs)
    (hdistinct : ∀ entry ∈ hist, entry.2.DistinctList) :
    (∀ id ∈ s₀.dumpMeta.instances, id ∈ s.dumpMeta.instances) ∧
    s.dumpMeta.instances.length ≤ maxDumpProcs ∧
    ∀ entry ∈ hist, ∀ order now list, entry.2 = .track order now list →
      Followed entry.1.dumpMeta (trackDump order now entry.1.dumpMeta list) list ∧
      (∃ looked, trackDump order now entry.1.dumpMeta list = trackProcesses (procMap list)
        (descendantsFrom list (groupRoots order entry.1.dumpMeta list)) looked) ∧
      ∀ p ∈ list, p.pid ∈ groupRoots order entry.1.dumpMeta list ↔
        p.identity ∈ entry.1.dumpMeta.instances := by
  obtain ⟨-, hkept, hbounded⟩ := Session.group_run run hprocess hroom hdistinct
  refine ⟨hkept, hbounded, fun entry hentry order now list heq => ?_⟩
  have hlist : (list.map ProcInfo.pid).Nodup := hdistinct entry hentry order now list heq
  obtain ⟨later, earlier, rfl⟩ := List.append_of_mem hentry
  obtain ⟨_, before, -⟩ := run.split
  cases before with
  | next prior _ =>
      obtain ⟨hselected, -, hroomNow⟩ := Session.group_run prior hprocess hroom fun entry hpast =>
        hdistinct entry (List.mem_append_right _ (List.mem_cons_of_mem _ hpast))
      exact ⟨trackDump_followed order now hselected hroomNow hlist,
        ⟨_, trackDump_eq order now list hselected⟩, fun p hp => pid_mem_groupRoots hlist hp⟩

/-- Process 8 is a child of the selected process 7. Later number 7 belongs to
another process with a child 9, while process 8 lives on elsewhere and has a
child 10. -/
def reusedRoot : List Act :=
  [.track .stored 20 [sampleProc 7 100, { sampleProc 8 110 with ppid := 7 }],
    .track .stored 30 [sampleProc 7 200, { sampleProc 9 210 with ppid := 7 }, sampleProc 8 110,
      { sampleProc 10 220 with ppid := 8 }]]

/-- The recording of the sample follows process 8 to process 10 and takes neither
the later process 7 nor process 9. -/
theorem trackDump_genuine_sample :
    (Session.system.play [] (Session.begin (Store.empty 0) 0 sampleMeta)
      reusedRoot).2.dumpMeta.instances = [⟨7, 100⟩, ⟨8, 110⟩, ⟨10, 220⟩] ∧
    (Session.system.play [] (Session.begin (Store.empty 0) 0 sampleMeta)
      reusedRoot).2.dumpMeta.instances.length ≤ maxDumpProcs := by
  refine ⟨by decide, (trackDump_genuine (Run.play .start reusedRoot) rfl (by decide) ?_).2.1⟩
  intro entry hentry order now list heq
  rcases System.mem_play hentry with hpast | hact
  · contradiction
  · rw [heq] at hact
    simp only [reusedRoot, List.mem_cons, List.not_mem_nil, or_false, Act.track.injEq] at hact
    obtain ⟨-, -, rfl⟩ | ⟨-, -, rfl⟩ := hact <;> decide

end SocketTrail.Recording
