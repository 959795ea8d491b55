/-
# The subtree below a set of roots

`descendantsFrom` searches the process list with an explicit stack. The list
comes from the system as it is: parents may be missing, be their own parents or
form cycles, and a number may occur twice. `ChildOf` is one child link of the
list, and `Explored` is the invariant of the search: what was found is reachable,
and what was found and is no longer on the stack has all its children found.
-/

import Mathlib.Logic.Relation
import SocketTrail.Foundation.Permute
import SocketTrail.Net.Process

namespace SocketTrail.Net

open SocketTrail.Foundation

/-- A process with number `pid` is listed as a child of `parent`. -/
def ChildOf (procs : List ProcInfo) (parent pid : ℤ) : Prop :=
  ∃ p ∈ procs, p.ppid = parent ∧ p.pid = pid

/-- Child links lead from one of the roots to the number. -/
def Reached (procs : List ProcInfo) (roots : List ℤ) (q : ℤ) : Prop :=
  ∃ r ∈ roots, Relation.ReflTransGen (ChildOf procs) r q

namespace Search

/-- The search before its first turn. -/
def initial (roots : List ℤ) : Search :=
  let start := roots.foldl (fun out pid => if pid ∈ out then out else out ++ [pid]) []
  { seen := start, out := start, stack := start.reverse }

/-- The numbers of the listed children of a process, in the order of the list. -/
def kids (procs : List ProcInfo) (pid : ℤ) : List ℤ :=
  (procs.filter fun p => p.ppid = pid).map ProcInfo.pid

/-- One turn of the search: the top of the stack is expanded. -/
inductive Turn (procs : List ProcInfo) : Search → Search → Prop
  | pop (s : Search) (pid : ℤ) (rest : List ℤ) (hstack : s.stack = pid :: rest) :
      Turn procs s ((kids procs pid).foldl push { s with stack := rest })

theorem mem_kids {procs : List ProcInfo} {pid q : ℤ} :
    q ∈ kids procs pid ↔ ChildOf procs pid q := by
  simp [kids, ChildOf, and_assoc]

theorem expand_of_stack {procs : List ProcInfo} {s : Search} {pid : ℤ} {rest : List ℤ}
    (hstack : s.stack = pid :: rest) (fuel : ℕ) :
    expand procs (fuel + 1) s =
      expand procs fuel ((kids procs pid).foldl push { s with stack := rest }) := by
  conv_lhs => unfold expand
  rw [hstack]
  rfl

theorem expand_of_done {procs : List ProcInfo} {s : Search} (hstack : s.stack = []) (fuel : ℕ) :
    expand procs fuel s = s.out := by
  cases fuel with
  | zero => rfl
  | succ fuel =>
      unfold expand
      rw [hstack]

/-! ## The start -/

/-- The search starts from the distinct roots, in their order. -/
theorem initial_out (roots : List ℤ) : (initial roots).out = roots.eraseDups := by
  have h := foldl_join [] roots
  simpa [initial] using h

theorem nodup_initial (roots : List ℤ) : (initial roots).out.Nodup :=
  nodup_foldl_join List.nodup_nil roots

theorem initial_stack (roots : List ℤ) :
    (initial roots).stack = (initial roots).out.reverse := rfl

/-! ## One turn -/

/-- The numbers found are the numbers seen, each once, and only these are on the
stack. -/
structure Sound (s : Search) : Prop where
  nodup : s.out.Nodup
  seen : ∀ q, q ∈ s.seen ↔ q ∈ s.out
  stack : ∀ q ∈ s.stack, q ∈ s.out

/-- What taking children into the search does: nothing that was found is lost,
all the children are found, and what is new is a child and on the stack. -/
structure Grows (children : List ℤ) (s s' : Search) : Prop where
  out : s.out <+: s'.out
  stack : ∀ q ∈ s.stack, q ∈ s'.stack
  found : ∀ q ∈ children, q ∈ s'.out
  fresh : ∀ q ∈ s'.out, q ∈ s.out ∨ (q ∈ children ∧ q ∈ s'.stack)

theorem Sound.push {s : Search} (h : s.Sound) (pid : ℤ) : (s.push pid).Sound := by
  unfold Search.push
  split
  · exact h
  · rename_i hpid
    rw [h.seen] at hpid
    refine ⟨?_, fun q => ?_, fun q hq => ?_⟩
    · rw [← List.concat_eq_append]
      exact List.Nodup.concat hpid h.nodup
    · rw [List.mem_cons, List.mem_append, List.mem_singleton, h.seen, or_comm]
    · rw [List.mem_append, List.mem_singleton]
      rcases List.mem_cons.mp hq with rfl | hq
      · exact .inr rfl
      · exact .inl (h.stack q hq)

theorem Sound.grows_push {s : Search} (h : s.Sound) (pid : ℤ) : Grows [pid] s (s.push pid) := by
  unfold Search.push
  split
  · rename_i hpid
    rw [h.seen] at hpid
    refine ⟨List.prefix_rfl, fun _ hq => hq, ?_, fun _ hq => .inl hq⟩
    exact List.forall_mem_singleton.mpr hpid
  · refine ⟨List.prefix_append .., fun q hq => List.mem_cons_of_mem pid hq, ?_, fun q hq => ?_⟩
    · exact List.forall_mem_singleton.mpr (by simp)
    · rcases List.mem_append.mp hq with hq | hq
      · exact .inl hq
      · rw [List.mem_singleton] at hq
        exact .inr ⟨List.mem_singleton.mpr hq, hq ▸ List.mem_cons_self⟩

theorem Sound.foldl_push {s : Search} (h : s.Sound) (children : List ℤ) :
    (children.foldl Search.push s).Sound ∧ Grows children s (children.foldl Search.push s) := by
  induction children generalizing s with
  | nil => exact ⟨h, List.prefix_rfl, fun _ hq => hq, by simp, fun _ hq => .inl hq⟩
  | cons kid rest ih =>
      obtain ⟨hsound, hgrows⟩ := ih (h.push kid)
      have hkid := h.grows_push kid
      refine ⟨hsound, hkid.out.trans hgrows.out, fun q hq => hgrows.stack q (hkid.stack q hq), ?_,
        fun q hq => ?_⟩
      · exact List.forall_mem_cons.mpr
          ⟨hgrows.out.subset (hkid.found kid (List.mem_singleton_self kid)), hgrows.found⟩
      · rcases hgrows.fresh q hq with hq | ⟨hq, hstack⟩
        · rcases hkid.fresh q hq with hq | ⟨hq, hstack⟩
          · exact .inl hq
          · rw [List.mem_singleton] at hq
            exact .inr ⟨hq ▸ List.mem_cons_self, hgrows.stack q hstack⟩
        · exact .inr ⟨List.mem_cons_of_mem kid hq, hstack⟩

/-! ## The invariant -/

/-- The state of a search from the roots: what was found is reachable, and what
was found and is off the stack has its children found. -/
structure Explored (procs : List ProcInfo) (roots : List ℤ) (s : Search) : Prop extends
    s.Sound where
  first : roots.eraseDups <+: s.out
  reached : ∀ q ∈ s.out, Reached procs roots q
  closed : ∀ q ∈ s.out, q ∉ s.stack → ∀ kid, ChildOf procs q kid → kid ∈ s.out

theorem explored_initial (procs : List ProcInfo) (roots : List ℤ) :
    Explored procs roots (initial roots) where
  nodup := nodup_initial roots
  seen _ := Iff.rfl
  stack q hq := by rwa [initial_stack, List.mem_reverse] at hq
  first := initial_out roots ▸ List.prefix_rfl
  reached q hq := by
    rw [initial_out, List.mem_eraseDups] at hq
    exact ⟨q, hq, .refl⟩
  closed q hq hstack := by
    rw [initial_stack, List.mem_reverse] at hstack
    contradiction

theorem Explored.turn {procs : List ProcInfo} {roots : List ℤ} {s s' : Search}
    (h : Explored procs roots s) (hturn : Turn procs s s') : Explored procs roots s' := by
  obtain ⟨pid, rest, hstack⟩ := hturn
  have hpid : pid ∈ s.out := h.stack pid (by rw [hstack]; exact List.mem_cons_self)
  have hpopped : Sound { s with stack := rest } :=
    ⟨h.nodup, h.seen, fun q hq => h.stack q (by rw [hstack]; exact List.mem_cons_of_mem pid hq)⟩
  obtain ⟨hsound, hgrows⟩ := hpopped.foldl_push (kids procs pid)
  refine ⟨hsound, h.first.trans hgrows.out, fun q hq => ?_, fun q hq hoff kid hkid => ?_⟩
  · rcases hgrows.fresh q hq with hq | ⟨hq, -⟩
    · exact h.reached q hq
    · obtain ⟨r, hr, hpath⟩ := h.reached pid hpid
      exact ⟨r, hr, hpath.tail (mem_kids.mp hq)⟩
  · -- a number off the stack is the expanded one or was off the stack before
    rcases hgrows.fresh q hq with hq | ⟨-, hon⟩
    · by_cases hqpid : q = pid
      · subst hqpid
        exact hgrows.found kid (mem_kids.mpr hkid)
      · refine hgrows.out.subset (h.closed q hq ?_ kid hkid)
        rw [hstack, List.mem_cons, not_or]
        exact ⟨hqpid, fun hrest => hoff (hgrows.stack q hrest)⟩
    · contradiction

/-- A search with an empty stack has found all that is reachable. -/
theorem Explored.complete {procs : List ProcInfo} {roots : List ℤ} {s : Search}
    (h : Explored procs roots s) (hdone : s.stack = []) {q : ℤ} (hq : Reached procs roots q) :
    q ∈ s.out := by
  obtain ⟨r, hr, hpath⟩ := hq
  induction hpath with
  | refl => exact h.first.subset (List.mem_eraseDups.mpr hr)
  | tail _ hkid ih =>
      refine h.closed _ ih ?_ _ hkid
      rw [hdone]
      exact List.not_mem_nil

/-! ## Termination -/

/-- The numbers on the stack and the entries whose number was not seen: what the
search has left to expand at most. -/
def left (procs : List ProcInfo) (s : Search) : ℕ :=
  s.stack.length + (procs.filter fun p => p.pid ∉ s.seen).length

theorem left_push {procs : List ProcInfo} (s : Search) {pid : ℤ} (hpid : ∃ p ∈ procs, p.pid = pid) :
    left procs (s.push pid) ≤ left procs s := by
  unfold Search.push
  split
  · exact Nat.le_refl _
  · rename_i hnew
    obtain ⟨p, hp, hnum⟩ := hpid
    have hlt : (procs.filter fun p => p.pid ∉ pid :: s.seen).length <
        (procs.filter fun p => p.pid ∉ s.seen).length := by
      have hsplit : (procs.filter fun p => p.pid ∉ pid :: s.seen) =
          (procs.filter fun p => p.pid ∉ s.seen).filter fun p => p.pid ≠ pid := by
        rw [List.filter_filter]
        congr 1
        funext p
        simp
      rw [hsplit]
      refine List.length_filter_lt_length_iff_exists.mpr ⟨p, ?_, by simp [hnum]⟩
      exact List.mem_filter.mpr ⟨hp, by simpa [hnum] using hnew⟩
    simp only [left, List.length_cons]
    omega

theorem left_foldl_push {procs : List ProcInfo} (s : Search) {children : List ℤ}
    (h : ∀ q ∈ children, ∃ p ∈ procs, p.pid = q) :
    left procs (children.foldl push s) ≤ left procs s := by
  induction children generalizing s with
  | nil => exact Nat.le_refl _
  | cons kid rest ih =>
      obtain ⟨hkid, hrest⟩ := List.forall_mem_cons.mp h
      exact Nat.le_trans (ih (s.push kid) hrest) (left_push s hkid)

theorem left_turn {procs : List ProcInfo} {s s' : Search} (hturn : Turn procs s s') :
    left procs s' < left procs s := by
  obtain ⟨pid, rest, hstack⟩ := hturn
  refine Nat.lt_of_le_of_lt (left_foldl_push _ fun q hq => ?_) ?_
  · obtain ⟨p, hp, -, hnum⟩ := mem_kids.mp hq
    exact ⟨p, hp, hnum⟩
  · simp only [left, hstack, List.length_cons]
    omega

/-- With the fuel that it has left to expand the search runs to its end. -/
theorem expand_ends {procs : List ProcInfo} {s : Search} {fuel : ℕ} (h : left procs s ≤ fuel) :
    ∃ s', Relation.ReflTransGen (Turn procs) s s' ∧ s'.stack = [] ∧
      s'.out = expand procs fuel s := by
  induction fuel generalizing s with
  | zero =>
      have hdone : s.stack = [] := List.eq_nil_of_length_eq_zero (by unfold left at h; omega)
      exact ⟨s, .refl, hdone, rfl⟩
  | succ fuel ih =>
      cases hstack : s.stack with
      | nil => exact ⟨s, .refl, hstack, (expand_of_done hstack _).symm⟩
      | cons pid rest =>
          have hturn : Turn procs s _ := .pop s pid rest hstack
          have hlt := left_turn hturn
          obtain ⟨s', hrun, hdone, hout⟩ := ih (Nat.le_of_lt_succ (Nat.lt_of_lt_of_le hlt h))
          exact ⟨s', .head hturn hrun, hdone, by rw [hout, expand_of_stack hstack]⟩

theorem Explored.run {procs : List ProcInfo} {roots : List ℤ} {s s' : Search}
    (h : Explored procs roots s) (hrun : Relation.ReflTransGen (Turn procs) s s') :
    Explored procs roots s' := by
  induction hrun with
  | refl => exact h
  | tail _ hturn ih => exact ih.turn hturn

end Search

/-- The search ends, and what it returns is what it has found at its end. -/
theorem descendantsFrom_ends (procs : List ProcInfo) (roots : List ℤ) :
    ∃ s, Relation.ReflTransGen (Search.Turn procs) (Search.initial roots) s ∧ s.stack = [] ∧
      s.out = descendantsFrom procs roots := by
  refine Search.expand_ends ?_
  have hfilter := List.length_filter_le
    (fun p : ProcInfo => p.pid ∉ (Search.initial roots).seen) procs
  have hstack : (Search.initial roots).stack.length = (Search.initial roots).out.length := by
    rw [Search.initial_stack, List.length_reverse]
  unfold Search.left
  change _ ≤ (Search.initial roots).out.length + procs.length + 1
  omega

theorem mem_descendantsFrom {procs : List ProcInfo} {roots : List ℤ} {q : ℤ} :
    q ∈ descendantsFrom procs roots ↔ Reached procs roots q := by
  obtain ⟨s, hrun, hdone, hout⟩ := descendantsFrom_ends procs roots
  have h := (Search.explored_initial procs roots).run hrun
  rw [← hout]
  exact ⟨h.reached q, h.complete hdone⟩

/-- The subtree below a process is what child links reach from it. -/
theorem mem_descendants {procs : List ProcInfo} {root q : ℤ} :
    q ∈ descendants procs root ↔ Relation.ReflTransGen (ChildOf procs) root q := by
  refine mem_descendantsFrom.trans ⟨?_, fun hpath => ⟨root, List.mem_singleton_self root, hpath⟩⟩
  rintro ⟨r, hr, hpath⟩
  rwa [List.mem_singleton.mp hr] at hpath

/-- The subtree below a process holds that process and listed ones. -/
theorem listed_of_mem_descendants {procs : List ProcInfo} {root q : ℤ}
    (h : q ∈ descendants procs root) : q = root ∨ ∃ p ∈ procs, p.pid = q := by
  rcases Relation.ReflTransGen.cases_tail (mem_descendants.mp h) with heq | ⟨_, -, p, hp, -, hpid⟩
  · exact .inl heq
  · exact .inr ⟨p, hp, hpid⟩

/-- The search of the subtree ends on every process list and from all roots. It
returns the distinct roots in their order, then the rest, nothing twice, and
exactly the numbers that child links reach from a root. -/
theorem descendantsFrom_exact (procs : List ProcInfo) (roots : List ℤ) :
    (∃ s, Relation.ReflTransGen (Search.Turn procs) (Search.initial roots) s ∧ s.stack = [] ∧
      s.out = descendantsFrom procs roots) ∧
    (descendantsFrom procs roots).Nodup ∧
    roots.eraseDups <+: descendantsFrom procs roots ∧
    ∀ q, q ∈ descendantsFrom procs roots ↔
      ∃ r ∈ roots, Relation.ReflTransGen (ChildOf procs) r q := by
  obtain ⟨s, hrun, hdone, hout⟩ := descendantsFrom_ends procs roots
  have h := (Search.explored_initial procs roots).run hrun
  refine ⟨⟨s, hrun, hdone, hout⟩, ?_, ?_, fun q => mem_descendantsFrom⟩
  · rw [← hout]
    exact h.nodup
  · rw [← hout]
    exact h.first

end SocketTrail.Net
