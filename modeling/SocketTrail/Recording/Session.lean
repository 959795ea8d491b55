/-
# A recording as a system

From the moment its metadata exists to the moment its plan is made, a recording
is a store, the metadata, and the acts of the program on the two: the
operations of the store, the merging of rows into the metadata, and the end, at
which the program takes the metadata away from the store, lets the store run on
and merges once more. An operation of the program is a short sequence of acts;
every run of the program is a run of this system.
-/

import SocketTrail.Attribution.Udp
import SocketTrail.Recording.Plan

namespace SocketTrail.Recording

open SocketTrail.Foundation SocketTrail.Net SocketTrail.State SocketTrail.Attribution

structure Session where
  store : Store
  /-- No operation of the store begins before this instant. -/
  now : ℕ
  dumpMeta : DumpMeta
  /-- The metadata still follow the store. -/
  attached : Bool

inductive Act
  | store (e : Event)
  | track (order : HashOrder Identity) (now : ℕ) (list : List ProcInfo)
  | record (order : HashOrder ConnKey)
  | recordKey (k : ConnKey)
  | take
  | account (order : HashOrder ConnKey)

/-- The event takes the row of the tuple out of the history, whether or not a
new row comes in its place before the event is over. -/
def Removes (k : ConnKey) (st : Store) (e : Event) : Prop :=
  match e.op with
  | .clear => True
  | .packet _ => (st.step e).conns.lookup k = none
  | .poll ips socks procs => ∃ done, done <+: socks ∧
      (Store.midPoll e.connOrder e.clock (st.setLocalIps ips) socks (procMap procs)
        done).1.conns.lookup k = none
  | _ => False

namespace Session

/-- The recording as it begins, after the last operation of the store ended at
`now`: nothing is remembered yet. -/
def begin (store : Store) (now : ℕ) (dumpMeta : DumpMeta) : Session where
  store := store
  now := max now dumpMeta.started
  dumpMeta := { dumpMeta with conns := ∅ }
  attached := true

/-- One act. -/
def step (s : Session) : Act → Option Session
  | .store e =>
      if s.now ≤ e.clock.start then
        some { s with store := s.store.step e, now := e.clock.finish }
      else none
  | .track order now list =>
      if s.attached then some { s with dumpMeta := trackDump order now s.dumpMeta list } else none
  | .record order =>
      if s.attached then some { s with dumpMeta := rememberAll order s.dumpMeta s.store.conns }
      else none
  | .recordKey k =>
      if s.attached then some { s with dumpMeta := rememberKey s.dumpMeta s.store.conns k }
      else none
  | .take => if s.attached then some { s with attached := false } else none
  | .account order =>
      if s.attached then none
      else some { s with dumpMeta := rememberAll order s.dumpMeta s.store.conns }

def system : System Session Act where
  step := step

/-- The plan that would be made now. -/
def plan (s : Session) (g : PlanInput) (path : String) : Annotate.Plan :=
  (dumpPlan { g with conns := s.store.conns } s.dumpMeta path).1

end Session

/-- The act merges the row of the tuple into the metadata. -/
def Act.Merges (k : ConnKey) : Act → Prop
  | .record _ => True
  | .recordKey k' => k' = k
  | .account _ => True
  | _ => False

namespace Session

/-- What an act does, in one of three ways: it runs the store, it merges rows
into the metadata, or it leaves both the rows and the store as they are. -/
inductive StepKind (s : Session) : Act → Session → Prop
  | store (e : Event) (hle : s.now ≤ e.clock.start) :
      StepKind s (.store e) { s with store := s.store.step e, now := e.clock.finish }
  | merge (a : Act) (m : DumpMeta) (hnot : ∀ e, a ≠ .store e) (hsame : SameRecording s.dumpMeta m)
      (hmerge : ∀ k, m.conns.lookup k = s.dumpMeta.conns.lookup k ∨
        (a.Merges k ∧ Merge s.dumpMeta s.store.conns k (m.conns.lookup k))) :
      StepKind s a { s with dumpMeta := m }
  | other (a : Act) (m : DumpMeta) (attached : Bool) (hnot : ∀ e, a ≠ .store e)
      (hconns : m.conns = s.dumpMeta.conns) (hstarted : m.started = s.dumpMeta.started)
      (honly : m.onlyGroup = s.dumpMeta.onlyGroup)
      (hinstances : ∀ id ∈ s.dumpMeta.instances, id ∈ m.instances) :
      StepKind s a { s with dumpMeta := m, attached := attached }

theorem stepKind {s s' : Session} {a : Act} (h : system.step s a = some s') : StepKind s a s' := by
  cases a with
  | store e =>
      obtain ⟨hle, rfl⟩ := Option.ite_none_right_eq_some.mp h |>.imp_right Option.some.inj
      exact .store e hle
  | track order now list =>
      obtain ⟨-, rfl⟩ := Option.ite_none_right_eq_some.mp h |>.imp_right Option.some.inj
      obtain ⟨hconns, hstarted, honly, hinstances⟩ := trackDump_keeps order now s.dumpMeta list
      exact .other _ _ s.attached (by simp) hconns hstarted honly hinstances
  | record order =>
      obtain ⟨-, rfl⟩ := Option.ite_none_right_eq_some.mp h |>.imp_right Option.some.inj
      exact .merge _ _ (by simp) (rememberAll_sameRecording ..)
        fun k => .inr ⟨trivial, rememberAll_merge order s.dumpMeta s.store.conns k⟩
  | recordKey key =>
      obtain ⟨-, rfl⟩ := Option.ite_none_right_eq_some.mp h |>.imp_right Option.some.inj
      refine .merge _ _ (by simp) (rememberKey_sameRecording ..) fun k => ?_
      by_cases hkey : k = key
      · subst hkey
        exact .inr ⟨rfl, rememberKey_merge s.dumpMeta s.store.conns k⟩
      · exact .inl (rememberKey_lookup_ne hkey)
  | take =>
      obtain ⟨-, rfl⟩ := Option.ite_none_right_eq_some.mp h |>.imp_right Option.some.inj
      exact .other _ s.dumpMeta false (by simp) rfl rfl rfl fun _ h => h
  | account order =>
      obtain ⟨-, h⟩ := Option.ite_none_left_eq_some.mp h
      obtain rfl := Option.some.inj h
      exact .merge _ _ (by simp) (rememberAll_sameRecording ..)
        fun k => .inr ⟨trivial, rememberAll_merge order s.dumpMeta s.store.conns k⟩

/-- The store of a recording runs on as the store of the program. -/
theorem storeRun {t₀ t : ℕ} {boot : Trace} {s₀ s : Session} {hist : History Session Act}
    (before : Run Store.timedSystem (Store.empty t₀, t₀) boot (s₀.store, t)) (hle : t ≤ s₀.now)
    (run : Run system s₀ hist s) :
    ∃ trace, ∃ t' ≤ s.now, Run Store.timedSystem (Store.empty t₀, t₀) trace (s.store, t') := by
  induction run with
  | start => exact ⟨boot, t, hle, before⟩
  | next _ fires ih =>
      obtain ⟨trace, t', hle', ih⟩ := ih
      cases stepKind fires with
      | store e hnow =>
          refine ⟨_, _, le_rfl, ih.next (e := e) ?_⟩
          simp [Store.timedSystem, System.timed, Store.system, hle'.trans hnow]
      | merge _ m _ _ _ => exact ⟨trace, t', hle', ih⟩
      | other _ m attached _ _ _ _ _ => exact ⟨trace, t', hle', ih⟩

/-- The store at every moment of a recording is a store of the program. -/
theorem programRun {t₀ now : ℕ} {boot : Trace} {st : Store} {dumpMeta : DumpMeta} {s : Session}
    {hist : History Session Act}
    (program : Run Store.timedSystem (Store.empty t₀, t₀) boot (st, now))
    (run : Run system (begin st now dumpMeta) hist s) :
    ∃ trace, ∃ t ≤ s.now, Run Store.timedSystem (Store.empty t₀, t₀) trace (s.store, t) :=
  storeRun program (le_max_left now dumpMeta.started) run

/-! ## What holds throughout a recording -/

/-- The rows and the remembered rows are well formed, and what is remembered was
seen during the recording. -/
structure Ok (s : Session) : Prop where
  rows : ∀ k c, s.store.conns.lookup k = some c → RowOk k c
  entries : ∀ k r, s.dumpMeta.conns.lookup k = some r →
    RowOk k r ∧ s.dumpMeta.started ≤ r.lastSeen

theorem rowOk_updateRecording {k : ConnKey} (old : Conn) {c : Conn} (h : RowOk k c) :
    RowOk k (old.updateRecording c) := by
  unfold Conn.updateRecording
  split
  · exact ⟨fun _ => rfl, h.unbound⟩
  · exact h

theorem updateRecording_lastSeen (old c : Conn) :
    (old.updateRecording c).lastSeen = c.lastSeen := by
  unfold Conn.updateRecording
  split <;> rfl

theorem Ok.step {s s' : Session} {a : Act} (h : s.Ok) (fires : system.step s a = some s') :
    s'.Ok := by
  cases stepKind fires with
  | store e _ => exact ⟨Store.rowOk_step h.rows e, h.entries⟩
  | merge _ m _ hsame hmerge =>
      refine ⟨h.rows, fun k r hentry => ?_⟩
      dsimp only at hentry ⊢
      rw [hsame.started_eq]
      rcases hmerge k with hkept | ⟨-, hmerged⟩
      · exact h.entries k r (hkept ▸ hentry)
      · rw [hentry] at hmerged
        generalize hresult : some r = result at hmerged
        cases hmerged with
        | kept _ => exact h.entries k r hresult.symm
        | merged old c _ hrow hseen =>
            rw [Option.some.injEq] at hresult
            rw [hresult, updateRecording_lastSeen]
            exact ⟨rowOk_updateRecording old (h.rows k c hrow), hseen⟩
        | entered c _ hrow hseen _ =>
            rw [Option.some.injEq] at hresult
            rw [hresult]
            exact ⟨h.rows k c hrow, hseen⟩
        | refused c _ _ _ => contradiction
  | other _ m _ _ hconns hstarted _ _ =>
      refine ⟨h.rows, fun k r hentry => ?_⟩
      dsimp only at hentry ⊢
      rw [hstarted]
      exact h.entries k r (hconns ▸ hentry)

theorem ok_begin {t₀ : ℕ} {boot : Trace} {st : Store} {now : ℕ} (dumpMeta : DumpMeta)
    (before : Run Store.timedSystem (Store.empty t₀, t₀) boot (st, now)) :
    (begin st now dumpMeta).Ok := by
  refine ⟨?_, fun k r hentry => by simp [begin] at hentry⟩
  refine before.invariant (P := fun s => ∀ k c, s.1.conns.lookup k = some c → RowOk k c) ?_ ?_
  · intro k c hrow
    simp [Store.empty] at hrow
  · intro s e s' h fires
    obtain ⟨-, hnext, -⟩ := timedStep fires
    rw [hnext]
    exact Store.rowOk_step h e

theorem ok_run {s₀ s : Session} {hist : History Session Act} (hstart : s₀.Ok)
    (run : Run system s₀ hist s) : s.Ok :=
  run.invariant (P := Ok) hstart fun _ _ _ h fires => h.step fires

/-! ## A sample recording -/

end Session

/-- A process-only recording of process 7 of the sample host, begun at 10. -/
def sampleMeta : DumpMeta where
  process := some (sampleProc 7 100)
  onlyGroup := true
  pids := {7}
  instances := [{ pid := 7, started := 100 }]
  limitReached := false
  droppedAtStart := 0
  started := 10
  lastAlive := 10
  conns := ∅

/-- What else the plan of a recording depends on. -/
def sampleInput : PlanInput where
  conns := ∅
  selfPids := ∅
  lang := .en
  tzOffset := 0
  now := 100
  order := .stored

end SocketTrail.Recording
