/-
# The capture of a dump

The handle on the capture process that writes a dump, the phase of the
recording, and the report that a finished recording leaves behind. A capture
process is named by its place among all capture processes ever spawned.
-/

import SocketTrail.State.Enrich
import Mathlib.Data.Nat.Notation

namespace SocketTrail.Recording

inductive DumpPhase
  | idle | starting | recording | finishing
  deriving DecidableEq, Repr

structure DumpOutcome where
  ok : Bool := false
  path : Option String := none
  size : ℕ := 0
  sidecar : Option String := none
  error : Option String := none
  unfiltered : Bool := false
  deriving DecidableEq, Repr

/-- The report of an operation that did not take place. -/
def DumpOutcome.failed (error : String) : DumpOutcome := { error := some error }

structure Dump where
  /-- The capture process that this handle owns. -/
  process : Option ℕ := none
  error : Option String := none
  path : Option String := none
  startedMs : Option ℕ := none
  deriving DecidableEq, Repr

namespace Dump

/-- Look after the capture process; `check` is what a look at it says. The first
failure is remembered. -/
def pollError (check : Except String Unit) (d : Dump) : Dump × Option String :=
  let d :=
    match d.error, d.process, check with
    | none, some _, .error e => { d with error := some e }
    | _, _, _ => d
  (d, d.error)

/-- The beginning of a start: a handle that owns a process refuses it. -/
def arm (lang : Lang) (d : Dump) : Except String Dump :=
  if d.process.isSome then .error (tr lang "Recording is already running" "Запись уже идет")
  else .ok { d with error := none }

/-- The end of a start: the process `p`, spawned at `started`, is ready. -/
def attach (path : String) (p started : ℕ) (d : Dump) : Dump :=
  { d with path := some path, process := some p, startedMs := some started }

/-- The beginning of a stop: the process leaves the handle. -/
def release (d : Dump) : Dump :=
  match d.process with
  | none => d
  | some _ => { d with process := none, startedMs := none }

/-- What a stop reports when the process ended with `ended`. -/
def stopped (d : Dump) (ended : Except String Unit) : Except String (Option String) :=
  match d.process with
  | none => .ok none
  | some _ => ended.map fun _ => d.path

@[simp]
theorem release_process (d : Dump) : d.release.process = none := by
  cases hprocess : d.process with
  | none => simp [release, hprocess]
  | some p => simp [release, hprocess]

@[simp]
theorem release_path (d : Dump) : d.release.path = d.path := by
  cases hprocess : d.process with
  | none => simp [release, hprocess]
  | some p => simp [release, hprocess]

@[simp]
theorem pollError_process (check : Except String Unit) (d : Dump) :
    (d.pollError check).1.process = d.process := by
  unfold pollError
  dsimp only
  split <;> rfl

@[simp]
theorem pollError_path (check : Except String Unit) (d : Dump) :
    (d.pollError check).1.path = d.path := by
  unfold pollError
  dsimp only
  split <;> rfl

/-- A look that finds nothing changes nothing. -/
theorem pollError_eq_self {check : Except String Unit} {d : Dump}
    (h : (d.pollError check).2.isSome = false) : (d.pollError check).1 = d := by
  unfold pollError at h ⊢
  dsimp only at h ⊢
  split
  · simp_all
  · rfl

end Dump

end SocketTrail.Recording
