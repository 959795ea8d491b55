/-
# Processes

The process inventory: one entry of the process list, the identity that tells a
process from a later one with the same number, and the search for the subtree
below a set of roots.
-/

import Mathlib.Data.Int.Notation
import Mathlib.Data.List.Basic

namespace SocketTrail.Net

/-- One process. -/
structure ProcInfo where
  pid : ℤ
  /-- The start time; zero when it is unknown. -/
  started : ℕ
  ppid : ℤ
  comm : String
  /-- The readable name: the name of the executable under Wine, else `comm`. -/
  name : String
  cmdline : String
  proton : Bool
  deriving DecidableEq, Repr

/-- A process number with the start time that makes it unique. -/
structure Identity where
  pid : ℤ
  started : ℕ
  deriving DecidableEq, Repr

def ProcInfo.identity (p : ProcInfo) : Identity where
  pid := p.pid
  started := p.started

/-- The process list by number. Of two entries with one number the later wins,
as when a list is collected into a map. -/
def procMap (list : List ProcInfo) (pid : ℤ) : Option ProcInfo :=
  list.reverse.find? fun p => p.pid = pid

/-- The search state: numbers seen, numbers found in order, numbers to expand. -/
structure Search where
  seen : List ℤ
  out : List ℤ
  stack : List ℤ

/-- Take one child into the search unless it was seen. -/
def Search.push (s : Search) (pid : ℤ) : Search :=
  if pid ∈ s.seen then s
  else { seen := pid :: s.seen, out := s.out ++ [pid], stack := pid :: s.stack }

/-- Expand the numbers on the stack. Every number enters the stack at most once,
so `fuel` bounds the number of expansions. -/
def Search.expand (procs : List ProcInfo) : ℕ → Search → List ℤ
  | 0, s => s.out
  | fuel + 1, s =>
      match s.stack with
      | [] => s.out
      | pid :: rest =>
          let kids := (procs.filter fun p => p.ppid = pid).map ProcInfo.pid
          Search.expand procs fuel (kids.foldl Search.push { s with stack := rest })

/-- The roots and all their descendants, the distinct roots first. -/
def descendantsFrom (procs : List ProcInfo) (roots : List ℤ) : List ℤ :=
  let start := roots.foldl (fun out pid => if pid ∈ out then out else out ++ [pid]) []
  Search.expand procs (start.length + procs.length + 1)
    { seen := start, out := start, stack := start.reverse }

/-- A process and all its descendants. -/
def descendants (procs : List ProcInfo) (root : ℤ) : List ℤ :=
  descendantsFrom procs [root]

/-- A number has an entry in the list exactly when the list by number has it. -/
theorem procMap_isSome {list : List ProcInfo} {q : ℤ} :
    (procMap list q).isSome = true ↔ ∃ p ∈ list, p.pid = q := by
  unfold procMap
  simp [List.find?_isSome]

theorem procMap_eq_some {list : List ProcInfo} {q : ℤ} {p : ProcInfo}
    (h : procMap list q = some p) : p ∈ list ∧ p.pid = q := by
  refine ⟨List.mem_reverse.mp (List.mem_of_find?_eq_some h), ?_⟩
  simpa using List.find?_some h

end SocketTrail.Net
