/-
# The memory of a recording

While a dump is recorded, its metadata remembers the rows of the history, so
that clearing or evicting a row does not lose the owner of its packets, and the
processes of the selected group as they come and go.
-/

import SocketTrail.State.Rows

namespace SocketTrail.Recording

open SocketTrail.Foundation SocketTrail.Net SocketTrail.State

/-- A process-only recording stops by itself after this much time without a
process of its group. -/
def dumpIdleMs : ℕ := 15000

/-- The ceiling of the remembered rows. -/
def maxDumpConns : ℕ := 40000

/-- The ceiling of the remembered processes. -/
def maxDumpProcs : ℕ := 4096

structure DumpMeta where
  process : Option ProcInfo
  onlyGroup : Bool
  /-- The numbers of all processes of the group seen during the recording. -/
  pids : Finset ℤ
  /-- The processes of the group, each with its start time. -/
  instances : List Identity
  limitReached : Bool
  droppedAtStart : ℕ
  started : ℕ
  lastAlive : ℕ
  /-- The rows of the recording by tuple. -/
  conns : KeyedMap ConnKey Conn

/-- The row belongs to a process of the group. -/
def dumpOwns (m : DumpMeta) (c : Conn) : Bool :=
  match c.pid, c.ownerStarted with
  | some pid, some started => decide ({ pid := pid, started := started : Identity } ∈ m.instances)
  | _, _ => false

/-- Remember one row: a known tuple is merged, a new one enters if it belongs to
the group or everything is recorded. -/
def rememberDumpConn (m : DumpMeta) (key : ConnKey) (c : Conn) : DumpMeta :=
  if c.lastSeen < m.started then m
  else
    match m.conns.lookup key with
    | some old => { m with conns := m.conns.insert key (old.updateRecording c) }
    | none =>
        if !m.onlyGroup || dumpOwns m c then
          if m.conns.size ≥ maxDumpConns then { m with limitReached := true }
          else { m with conns := m.conns.insert key c }
        else m

/-- Remember the row of one tuple, if the history has it. -/
def rememberKey (m : DumpMeta) (conns : KeyedMap ConnKey Conn) (key : ConnKey) : DumpMeta :=
  match conns.lookup key with
  | none => m
  | some c => rememberDumpConn m key c

/-- Remember every row of the history. -/
def rememberAll (order : HashOrder ConnKey) (m : DumpMeta) (conns : KeyedMap ConnKey Conn) :
    DumpMeta :=
  (order.arrange conns.keys).foldl (fun m key => rememberKey m conns key) m

/-- Take one process of the group into the recording; `none` when the ceiling
ends the search. -/
def trackProcess (m : DumpMeta) (p : ProcInfo) : Option DumpMeta :=
  if p.identity ∉ m.instances ∧ m.instances.length ≥ maxDumpProcs then none
  else
    some
      { m with
        instances := if p.identity ∈ m.instances then m.instances else m.instances ++ [p.identity]
        pids := insert p.pid m.pids }

/-- Take the processes of the group into the recording, until the ceiling. -/
def trackProcesses (live : ℤ → Option ProcInfo) : List ℤ → DumpMeta → DumpMeta
  | [], m => m
  | pid :: rest, m =>
      match live pid with
      | none => trackProcesses live rest m
      | some p =>
          if p.started = 0 then trackProcesses live rest m
          else
            match trackProcess m p with
            | none => { m with limitReached := true }
            | some m => trackProcesses live rest m

/-- Follow the group in a process list: the processes that are alive and all
their descendants belong to it. -/
def trackDump (order : HashOrder Identity) (now : ℕ) (m : DumpMeta) (list : List ProcInfo) :
    DumpMeta :=
  if m.process.isNone then m
  else
    let live := procMap list
    let roots := ((order.arrange m.instances).filter fun id =>
      (live id.pid).any fun p => p.identity = id).map Identity.pid
    let m := if roots.isEmpty then m else { m with lastAlive := now }
    trackProcesses live (descendantsFrom list roots) m

/-! ## What remembering does -/

/-- The two memories belong to one recording and differ in the remembered rows
and the limit at most. -/
def SameRecording (m m' : DumpMeta) : Prop :=
  m'.process = m.process ∧ m'.onlyGroup = m.onlyGroup ∧ m'.pids = m.pids ∧
    m'.instances = m.instances ∧ m'.droppedAtStart = m.droppedAtStart ∧
    m'.started = m.started ∧ m'.lastAlive = m.lastAlive

theorem SameRecording.refl (m : DumpMeta) : SameRecording m m :=
  ⟨rfl, rfl, rfl, rfl, rfl, rfl, rfl⟩

theorem SameRecording.trans {a b c : DumpMeta} (hab : SameRecording a b)
    (hbc : SameRecording b c) : SameRecording a c := by
  obtain ⟨h₁, h₂, h₃, h₄, h₅, h₆, h₇⟩ := hab
  obtain ⟨h₁', h₂', h₃', h₄', h₅', h₆', h₇'⟩ := hbc
  exact ⟨h₁'.trans h₁, h₂'.trans h₂, h₃'.trans h₃, h₄'.trans h₄, h₅'.trans h₅, h₆'.trans h₆,
    h₇'.trans h₇⟩

theorem SameRecording.started_eq {m m' : DumpMeta} (h : SameRecording m m') :
    m'.started = m.started := h.2.2.2.2.2.1

theorem SameRecording.instances_eq {m m' : DumpMeta} (h : SameRecording m m') :
    m'.instances = m.instances := h.2.2.2.1

theorem SameRecording.onlyGroup_eq {m m' : DumpMeta} (h : SameRecording m m') :
    m'.onlyGroup = m.onlyGroup := h.2.1

theorem SameRecording.droppedAtStart_eq {m m' : DumpMeta} (h : SameRecording m m') :
    m'.droppedAtStart = m.droppedAtStart := h.2.2.2.2.1

theorem SameRecording.dumpOwns_eq {m m' : DumpMeta} (h : SameRecording m m') (c : Conn) :
    dumpOwns m' c = dumpOwns m c := by
  unfold dumpOwns
  rw [h.instances_eq]

/-- A row that belongs to the group names an instance of it. -/
theorem dumpOwns_eq_true {m : DumpMeta} {c : Conn} :
    dumpOwns m c = true ↔ ∃ id ∈ m.instances, c.pid = some id.pid ∧
      c.ownerStarted = some id.started := by
  unfold dumpOwns
  cases hpid : c.pid with
  | none => simp
  | some pid =>
      cases hstarted : c.ownerStarted with
      | none => simp
      | some started =>
          rw [decide_eq_true_eq]
          constructor
          · intro hmem
            exact ⟨_, hmem, rfl, rfl⟩
          · rintro ⟨id, hmem, hid, hst⟩
            rw [Option.some.injEq] at hid hst
            subst hid hst
            exact hmem

/-- What remembering can leave as the version of one tuple. -/
inductive Merge (m : DumpMeta) (conns : KeyedMap ConnKey Conn) (k : ConnKey) :
    Option Conn → Prop
  | kept (h : ∀ c, conns.lookup k = some c → c.lastSeen < m.started) :
      Merge m conns k (m.conns.lookup k)
  | merged (old c : Conn) (hold : m.conns.lookup k = some old) (hrow : conns.lookup k = some c)
      (hseen : m.started ≤ c.lastSeen) : Merge m conns k (some (old.updateRecording c))
  | entered (c : Conn) (hold : m.conns.lookup k = none) (hrow : conns.lookup k = some c)
      (hseen : m.started ≤ c.lastSeen) (howned : m.onlyGroup = true → dumpOwns m c = true) :
      Merge m conns k (some c)
  | refused (c : Conn) (hold : m.conns.lookup k = none) (hrow : conns.lookup k = some c)
      (hseen : m.started ≤ c.lastSeen) : Merge m conns k none

theorem Merge.congr {m m' : DumpMeta} {conns : KeyedMap ConnKey Conn} {k : ConnKey}
    {entry : Option Conn} (h : Merge m' conns k entry) (hsame : SameRecording m m')
    (hentry : m'.conns.lookup k = m.conns.lookup k) : Merge m conns k entry := by
  cases h with
  | kept h =>
      rw [hentry]
      exact .kept (by rwa [hsame.started_eq] at h)
  | merged old c hold hrow hseen =>
      exact .merged old c (hentry ▸ hold) hrow (hsame.started_eq ▸ hseen)
  | entered c hold hrow hseen howned =>
      refine .entered c (hentry ▸ hold) hrow (hsame.started_eq ▸ hseen) fun honly => ?_
      rw [← hsame.dumpOwns_eq]
      exact howned (hsame.onlyGroup_eq.trans honly)
  | refused c hold hrow hseen =>
      exact .refused c (hentry ▸ hold) hrow (hsame.started_eq ▸ hseen)

theorem rememberKey_sameRecording (m : DumpMeta) (conns : KeyedMap ConnKey Conn) (key : ConnKey) :
    SameRecording m (rememberKey m conns key) := by
  unfold rememberKey
  split
  · exact .refl m
  · unfold rememberDumpConn
    split
    · exact .refl m
    · split
      · exact ⟨rfl, rfl, rfl, rfl, rfl, rfl, rfl⟩
      · split
        · split <;> exact ⟨rfl, rfl, rfl, rfl, rfl, rfl, rfl⟩
        · exact .refl m

/-- Remembering one tuple concerns no other. -/
theorem rememberKey_lookup_ne {m : DumpMeta} {conns : KeyedMap ConnKey Conn} {key k : ConnKey}
    (hne : k ≠ key) : (rememberKey m conns key).conns.lookup k = m.conns.lookup k := by
  unfold rememberKey
  split
  · rfl
  · unfold rememberDumpConn
    split
    · rfl
    · split
      · exact AList.lookup_insert_ne hne
      · split
        · split
          · rfl
          · exact AList.lookup_insert_ne hne
        · rfl

theorem rememberKey_merge (m : DumpMeta) (conns : KeyedMap ConnKey Conn) (k : ConnKey) :
    Merge m conns k ((rememberKey m conns k).conns.lookup k) := by
  unfold rememberKey
  split
  · rename_i habsent
    exact .kept fun c hrow => by rw [habsent] at hrow; contradiction
  · rename_i c hrow
    unfold rememberDumpConn
    split
    · rename_i hold
      refine .kept fun c' hrow' => ?_
      rw [hrow, Option.some.injEq] at hrow'
      rwa [← hrow']
    · rename_i hseen
      rw [not_lt] at hseen
      split
      · rename_i old hold
        rw [AList.lookup_insert]
        exact .merged old c hold hrow hseen
      · rename_i hold
        split
        · rename_i howned
          split
          · dsimp only
            rw [hold]
            exact .refused c hold hrow hseen
          · rw [AList.lookup_insert]
            refine .entered c hold hrow hseen fun honly => ?_
            simpa [honly] using howned
        · rw [hold]
          exact .refused c hold hrow hseen

theorem rememberKeys_sameRecording (m : DumpMeta) (conns : KeyedMap ConnKey Conn)
    (keys : List ConnKey) :
    SameRecording m (keys.foldl (fun m key => rememberKey m conns key) m) := by
  induction keys generalizing m with
  | nil => exact .refl m
  | cons key rest ih =>
      exact (rememberKey_sameRecording m conns key).trans (ih (rememberKey m conns key))

theorem rememberAll_sameRecording (order : HashOrder ConnKey) (m : DumpMeta)
    (conns : KeyedMap ConnKey Conn) : SameRecording m (rememberAll order m conns) :=
  rememberKeys_sameRecording m conns _

theorem rememberKey_limitReached {m : DumpMeta} (conns : KeyedMap ConnKey Conn) (key : ConnKey)
    (h : m.limitReached = true) : (rememberKey m conns key).limitReached = true := by
  unfold rememberKey rememberDumpConn
  split
  · exact h
  · split
    · exact h
    · split
      · exact h
      · split
        · split
          · rfl
          · exact h
        · exact h

/-- Once the limit of a recording is reached, it stays so. -/
theorem rememberAll_limitReached (order : HashOrder ConnKey) {m : DumpMeta}
    (conns : KeyedMap ConnKey Conn) (h : m.limitReached = true) :
    (rememberAll order m conns).limitReached = true := by
  unfold rememberAll
  induction order.arrange conns.keys generalizing m with
  | nil => exact h
  | cons key rest ih => exact ih (rememberKey_limitReached conns key h)

/-- Remembering the whole history treats every tuple as remembering it alone. -/
theorem rememberAll_merge (order : HashOrder ConnKey) (m : DumpMeta)
    (conns : KeyedMap ConnKey Conn) (k : ConnKey) :
    Merge m conns k ((rememberAll order m conns).conns.lookup k) := by
  obtain ⟨habsent, heq⟩ | ⟨-, before, rest, -, hbefore, heq⟩ :=
    KeyedMap.foldl_visit (fun (m : DumpMeta) k => m.conns.lookup k)
      (fun m key => rememberKey m conns key) (fun _ _ _ hne => rememberKey_lookup_ne hne)
      (order.arrange conns.keys) (order.nodup_arrange.mpr conns.keys_nodup) m k
  · rw [rememberAll, heq]
    refine .kept fun c hrow => ?_
    have hmem : k ∈ conns := KeyedMap.mem_iff_exists_lookup.mpr ⟨c, hrow⟩
    exact absurd (order.mem_arrange.mpr (AList.mem_keys.mp hmem)) habsent
  · rw [rememberAll, heq]
    exact (rememberKey_merge _ conns k).congr (rememberKeys_sameRecording m conns before) hbefore

/-! ## Room in the memory -/

/-- The tuple can have a place in the memory: it has one, or its row was seen
since the recording began and is one to remember. -/
def Candidate (m : DumpMeta) (conns : KeyedMap ConnKey Conn) (k : ConnKey) : Prop :=
  k ∈ m.conns ∨ ∃ c, conns.lookup k = some c ∧ m.started ≤ c.lastSeen ∧
    (m.onlyGroup = true → dumpOwns m c = true)

/-- There is a place for the tuple, in whatever order the rows are remembered:
the other candidates do not fill the memory. -/
def HasRoom (m : DumpMeta) (conns : KeyedMap ConnKey Conn) (k : ConnKey) : Prop :=
  ∀ others : Finset ConnKey, k ∉ others → (∀ k' ∈ others, Candidate m conns k') →
    others.card < maxDumpConns

theorem HasRoom.of_size {m : DumpMeta} {conns : KeyedMap ConnKey Conn} {k : ConnKey}
    (h : m.conns.size + conns.size < maxDumpConns) : HasRoom m conns k := by
  intro others _ hcandidates
  have hsub : others ⊆ (m.conns.keys ++ conns.keys).toFinset := by
    intro k' hk'
    rw [List.mem_toFinset, List.mem_append, ← AList.mem_keys, ← AList.mem_keys]
    refine (hcandidates k' hk').imp_right ?_
    rintro ⟨c, hrow, -⟩
    exact KeyedMap.mem_iff_exists_lookup.mpr ⟨c, hrow⟩
  calc
    others.card ≤ (m.conns.keys ++ conns.keys).toFinset.card := Finset.card_le_card hsub
    _ ≤ (m.conns.keys ++ conns.keys).length := List.toFinset_card_le _
    _ = m.conns.size + conns.size := by
      rw [List.length_append, KeyedMap.size_eq_length_keys, KeyedMap.size_eq_length_keys]
    _ < maxDumpConns := h

theorem Candidate.of_rememberKey {m : DumpMeta} {conns : KeyedMap ConnKey Conn}
    {key k : ConnKey} (h : Candidate (rememberKey m conns key) conns k) :
    Candidate m conns k := by
  have hsame := rememberKey_sameRecording m conns key
  rcases h with hmem | ⟨c, hrow, hseen, howned⟩
  · obtain ⟨entry, hentry⟩ := KeyedMap.mem_iff_exists_lookup.mp hmem
    by_cases hkey : k = key
    · subst hkey
      have hmerge := rememberKey_merge m conns k
      rw [hentry] at hmerge
      generalize hresult : some entry = result at hmerge
      cases hmerge with
      | kept _ => exact .inl (KeyedMap.mem_iff_exists_lookup.mpr ⟨entry, hresult.symm⟩)
      | merged old c hold _ _ => exact .inl (KeyedMap.mem_iff_exists_lookup.mpr ⟨old, hold⟩)
      | entered c _ hrow hseen howned => exact .inr ⟨c, hrow, hseen, howned⟩
      | refused c _ _ _ => contradiction
    · rw [rememberKey_lookup_ne hkey] at hentry
      exact .inl (KeyedMap.mem_iff_exists_lookup.mpr ⟨entry, hentry⟩)
  · refine .inr ⟨c, hrow, hsame.started_eq ▸ hseen, fun honly => ?_⟩
    rw [← hsame.dumpOwns_eq]
    exact howned (hsame.onlyGroup_eq.trans honly)

/-- While the rows are remembered one by one, the memory holds candidates only,
so it is not full when the turn of a tuple with room comes. -/
theorem HasRoom.size_lt {m : DumpMeta} {conns : KeyedMap ConnKey Conn} {k : ConnKey}
    (h : HasRoom m conns k) (keys : List ConnKey)
    (habsent : (keys.foldl (fun m key => rememberKey m conns key) m).conns.lookup k = none) :
    (keys.foldl (fun m key => rememberKey m conns key) m).conns.size < maxDumpConns := by
  have hcandidates : ∀ (keys : List ConnKey) (m : DumpMeta) (k' : ConnKey),
      Candidate (keys.foldl (fun m key => rememberKey m conns key) m) conns k' →
        Candidate m conns k' := by
    intro keys
    induction keys with
    | nil => exact fun _ _ hk' => hk'
    | cons key rest ih => exact fun m k' hk' => (ih (rememberKey m conns key) k' hk').of_rememberKey
  rw [KeyedMap.size_eq_length_keys, ← List.toFinset_card_of_nodup (AList.keys_nodup _)]
  apply h
  · rw [List.mem_toFinset, ← AList.mem_keys, ← AList.lookup_eq_none]
    exact habsent
  · intro k' hk'
    rw [List.mem_toFinset, ← AList.mem_keys] at hk'
    exact hcandidates keys m k' (.inl hk')

/-- A row of the group that was seen since the recording began is remembered. -/
theorem rememberKey_isSome {m : DumpMeta} {conns : KeyedMap ConnKey Conn} {k : ConnKey} {c : Conn}
    (hrow : conns.lookup k = some c) (hseen : m.started ≤ c.lastSeen)
    (howned : dumpOwns m c = true)
    (hroom : m.conns.lookup k = none → m.conns.size < maxDumpConns) :
    ((rememberKey m conns k).conns.lookup k).isSome := by
  unfold rememberKey rememberDumpConn
  rw [hrow]
  dsimp only
  rw [if_neg (not_lt.mpr hseen)]
  split
  · rw [AList.lookup_insert]
    rfl
  · rename_i hnone
    rw [if_pos (by simp [howned]), if_neg (not_le.mpr (hroom hnone)), AList.lookup_insert]
    rfl

theorem rememberAll_isSome (order : HashOrder ConnKey) {m : DumpMeta}
    {conns : KeyedMap ConnKey Conn} {k : ConnKey} {c : Conn} (hrow : conns.lookup k = some c)
    (hseen : m.started ≤ c.lastSeen) (howned : dumpOwns m c = true) (hroom : HasRoom m conns k) :
    ((rememberAll order m conns).conns.lookup k).isSome := by
  obtain ⟨habsent, -⟩ | ⟨-, before, rest, -, -, heq⟩ :=
    KeyedMap.foldl_visit (fun (m : DumpMeta) k => m.conns.lookup k)
      (fun m key => rememberKey m conns key) (fun _ _ _ hne => rememberKey_lookup_ne hne)
      (order.arrange conns.keys) (order.nodup_arrange.mpr conns.keys_nodup) m k
  · have hmem : k ∈ conns := KeyedMap.mem_iff_exists_lookup.mpr ⟨c, hrow⟩
    exact absurd (order.mem_arrange.mpr (AList.mem_keys.mp hmem)) habsent
  · rw [rememberAll, heq]
    apply rememberKey_isSome hrow
    · rw [(rememberKeys_sameRecording m conns before).started_eq]
      exact hseen
    · rw [(rememberKeys_sameRecording m conns before).dumpOwns_eq]
      exact howned
    · exact hroom.size_lt before

/-- Following the group keeps every row and every process of the recording. -/
theorem trackProcesses_keeps (live : ℤ → Option ProcInfo) (found : List ℤ) (m : DumpMeta) :
    (trackProcesses live found m).conns = m.conns ∧
      (trackProcesses live found m).started = m.started ∧
      (trackProcesses live found m).onlyGroup = m.onlyGroup ∧
      ∀ id ∈ m.instances, id ∈ (trackProcesses live found m).instances := by
  induction found generalizing m with
  | nil => exact ⟨rfl, rfl, rfl, fun _ h => h⟩
  | cons pid rest ih =>
      unfold trackProcesses
      split
      · exact ih m
      · rename_i p _
        split
        · exact ih m
        · split
          · exact ⟨rfl, rfl, rfl, fun _ h => h⟩
          · rename_i m' htrack
            obtain ⟨hconns, hstarted, honly, hinstances⟩ := ih m'
            unfold trackProcess at htrack
            split at htrack
            · contradiction
            · rw [Option.some.injEq] at htrack
              subst htrack
              refine ⟨hconns, hstarted, honly, fun id hid => hinstances id ?_⟩
              dsimp only
              split
              · exact hid
              · exact List.mem_append_left _ hid

theorem trackDump_keeps (order : HashOrder Identity) (now : ℕ) (m : DumpMeta)
    (list : List ProcInfo) :
    (trackDump order now m list).conns = m.conns ∧
      (trackDump order now m list).started = m.started ∧
      (trackDump order now m list).onlyGroup = m.onlyGroup ∧
      ∀ id ∈ m.instances, id ∈ (trackDump order now m list).instances := by
  unfold trackDump
  split
  · exact ⟨rfl, rfl, rfl, fun _ h => h⟩
  · dsimp only
    split <;> exact trackProcesses_keeps _ _ _

end SocketTrail.Recording
