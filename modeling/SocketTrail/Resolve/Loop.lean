/-
# The loop that identifies addresses

Beside everything else the program does, one loop asks the resolver about the addresses
of its rows, a few in a pass, and writes what it finds to the rows. A lookup that found
everything is remembered. One that did not is counted, and after three of them in a row
the address is left alone until ten minutes have passed since the last.

The lookups of a pass run beside each other while the rest of the program goes on, and
any of them may be lost; they are awaited in order, and applied when all of them ended.
-/

import SocketTrail.Foundation.Permute
import SocketTrail.Program.Selection
import SocketTrail.Resolve.Answers

namespace SocketTrail.Resolve

open SocketTrail.Foundation SocketTrail.Net SocketTrail.State SocketTrail.Attribution
  SocketTrail.Program

def whoisBatch : ℕ := 8

def maxRetries : ℕ := 3

/-- Ten minutes, in nanoseconds. -/
def retryAfter : ℕ := 600 * 10 ^ 9

/-- The addresses to identify. One connection to a large network does not take up the
whole batch, and what is not public is not told to the resolver. -/
def whoisTargets (g : App) (retry : IpAddr → Bool) (rows : HashOrder ConnKey) : List IpAddr :=
  let remotes := (rows.arrange g.store.conns.keys).map ConnKey.remote
  let strangers := remotes.filter fun ip => classify ip = .publicNet && !ip.isUnspecified
  let unknown := strangers.filter fun ip => (g.whois ip).isNone && retry ip
  unknown.eraseDups.take whoisBatch

/-- The program with the loop. -/
structure WhoisLoop where
  world : World
  /-- How many lookups of an address failed in a row, and when the last did. -/
  fails : KeyedMap IpAddr (ℕ × ℕ)
  /-- The lookups of the pass that are still awaited. -/
  asked : List IpAddr
  /-- The answers of the pass that are not applied yet. -/
  done : List (IpAddr × Whois)

inductive Event
  /-- Another part of the program takes a step. -/
  | other (clock : Clock) (e : Step)
  | pass (clock : Clock) (entries : HashOrder IpAddr) (rows : HashOrder ConnKey)
  /-- The next lookup ended: with what answered it, or without a result. -/
  | awaited (clock : Clock) (found : Option Resolver)
  /-- The next answer is applied. -/
  | apply (clock : Clock)

def Event.clock : Event → Clock
  | .other clock _ | .pass clock _ _ | .awaited clock _ | .apply clock => clock

/-- The step is one of this loop. -/
def resolves : Step → Bool
  | .background (.resolved _ _) => true
  | _ => false

namespace WhoisLoop

def initial (w : World) : WhoisLoop where
  world := w
  fails := ∅
  asked := []
  done := []

/-- The failures that are less than ten minutes old. -/
def retain (fails : KeyedMap IpAddr (ℕ × ℕ)) (clock : Clock) (entries : HashOrder IpAddr) :
    KeyedMap IpAddr (ℕ × ℕ) :=
  fails.filterMap fun ip entry =>
    if clock.read ((entries.arrange fails.keys).idxOf ip) - entry.2 < retryAfter then some entry
    else none

/-- The address has not failed too often. -/
def retry (fails : KeyedMap IpAddr (ℕ × ℕ)) (ip : IpAddr) : Bool :=
  (fails.lookup ip).all fun entry => entry.1 < maxRetries

/-- One more failure of an address. -/
def failed (fails : KeyedMap IpAddr (ℕ × ℕ)) (ip : IpAddr) (now : ℕ) :
    KeyedMap IpAddr (ℕ × ℕ) :=
  fails.insert ip (((fails.lookup ip).map Prod.fst).getD 0 + 1, now)

/-- Apply one answer. Half of an answer is written to the rows, but not remembered. -/
def applyAnswer (s : WhoisLoop) (clock : Clock) (ip : IpAddr) (w : Whois) : WhoisLoop :=
  let written := { s.world with app := s.world.app.resolved ip w }
  if w.failed then
    { s with
      fails := failed s.fails ip (clock.read 1)
      world := if w.asn.isNone && w.ptr.isNone then s.world else written }
  else { s with fails := s.fails.erase ip, world := written }

def step (s : WhoisLoop) : Event → Option WhoisLoop
  | .other _ e =>
      if resolves e then none else (s.world.step e).map fun w => { s with world := w }
  | .pass clock entries rows =>
      if s.asked = [] ∧ s.done = [] then
        let fails := retain s.fails clock entries
        some { s with fails := fails, asked := whoisTargets s.world.app (retry fails) rows }
      else none
  | .awaited _ found =>
      match s.asked with
      | [] => none
      | ip :: rest =>
          some
            { s with
              asked := rest
              done := s.done ++ (found.map fun r => (ip, lookup r ip)).toList }
  | .apply clock =>
      match s.asked, s.done with
      | [], (ip, w) :: rest => some { s.applyAnswer clock ip w with done := rest }
      | _, _ => none

def system : System WhoisLoop Event where
  step := step

/-- The program and the loop under a clock that never steps back. -/
def timedSystem : System (WhoisLoop × ℕ) Event := system.timed Event.clock

/-- The addresses of the pass that are not settled yet. -/
def unsettled (s : WhoisLoop) : List IpAddr := s.done.map Prod.fst ++ s.asked

/-! ## What a step does -/

inductive Stepped (s : WhoisLoop) : Event → WhoisLoop → Prop
  | other (clock : Clock) (e : Step) (w : World) (hown : resolves e = false)
      (hstep : s.world.step e = some w) : Stepped s (.other clock e) { s with world := w }
  | pass (clock : Clock) (entries : HashOrder IpAddr) (rows : HashOrder ConnKey)
      (hasked : s.asked = []) (hdone : s.done = []) :
      Stepped s (.pass clock entries rows)
        { s with
          fails := retain s.fails clock entries
          asked := whoisTargets s.world.app (retry (retain s.fails clock entries)) rows }
  | answered (clock : Clock) (r : Resolver) (ip : IpAddr) (rest : List IpAddr)
      (hasked : s.asked = ip :: rest) :
      Stepped s (.awaited clock (some r))
        { s with asked := rest, done := s.done ++ [(ip, lookup r ip)] }
  | lost (clock : Clock) (ip : IpAddr) (rest : List IpAddr) (hasked : s.asked = ip :: rest) :
      Stepped s (.awaited clock none) { s with asked := rest }
  | apply (clock : Clock) (ip : IpAddr) (w : Whois) (rest : List (IpAddr × Whois))
      (hasked : s.asked = []) (hdone : s.done = (ip, w) :: rest) :
      Stepped s (.apply clock) { s.applyAnswer clock ip w with done := rest }

theorem step_cases {s s' : WhoisLoop} {e : Event} (fires : s.step e = some s') :
    Stepped s e s' := by
  cases e with
  | other clock e =>
      obtain ⟨hown, hnext⟩ := Option.ite_none_left_eq_some.mp fires
      obtain ⟨w, hstep, rfl⟩ := Option.map_eq_some_iff.mp hnext
      exact .other clock e w (Bool.not_eq_true _ ▸ hown) hstep
  | pass clock entries rows =>
      obtain ⟨⟨hasked, hdone⟩, hnext⟩ := Option.ite_none_right_eq_some.mp fires
      exact Option.some.inj hnext ▸ .pass clock entries rows hasked hdone
  | awaited clock found =>
      unfold step at fires
      cases hasked : s.asked with
      | nil => simp [hasked] at fires
      | cons ip rest =>
          simp only [hasked, Option.some.injEq] at fires
          subst fires
          cases found with
          | none =>
              have hlost := Stepped.lost (s := s) clock ip rest hasked
              simpa using hlost
          | some r => exact .answered clock r ip rest hasked
  | apply clock =>
      unfold step at fires
      cases hasked : s.asked with
      | cons ip rest => simp [hasked] at fires
      | nil =>
          cases hdone : s.done with
          | nil => simp [hasked, hdone] at fires
          | cons entry rest =>
              simp only [hasked, hdone, Option.some.injEq] at fires
              exact fires ▸ .apply clock entry.1 entry.2 rest hasked hdone

variable {s s' : WhoisLoop} {e : Event} {ip : IpAddr}

theorem mem_whoisTargets {g : App} {retry : IpAddr → Bool} {rows : HashOrder ConnKey}
    (h : ip ∈ whoisTargets g retry rows) :
    (∃ k ∈ g.store.conns, k.remote = ip) ∧ classify ip = .publicNet ∧ ip.isUnspecified = false ∧
      g.whois ip = none ∧ retry ip = true := by
  have hunknown := List.mem_eraseDups.mp (List.mem_of_mem_take h)
  simp only [List.mem_filter, List.mem_map, HashOrder.mem_arrange, Bool.and_eq_true,
    decide_eq_true_eq, Bool.not_eq_true', Option.isNone_iff_eq_none] at hunknown
  obtain ⟨⟨⟨k, hk, rfl⟩, hscope, hspecified⟩, hwhois, hretry⟩ := hunknown
  exact ⟨⟨k, AList.mem_keys.mp hk, rfl⟩, hscope, hspecified, hwhois, hretry⟩

theorem nodup_whoisTargets (g : App) (retry : IpAddr → Bool) (rows : HashOrder ConnKey) :
    (whoisTargets g retry rows).Nodup :=
  (nodup_eraseDups _).sublist (List.take_sublist _ _)

/-- Only a new pass adds to what is not settled, and only when everything is. -/
theorem Stepped.unsettled (h : Stepped s e s') :
    List.Sublist s'.unsettled s.unsettled ∨
      ∃ clock entries rows, e = .pass clock entries rows ∧
        s'.fails = retain s.fails clock entries ∧ s'.world = s.world ∧
        s'.unsettled = whoisTargets s.world.app (retry s'.fails) rows := by
  cases h with
  | other => exact .inl (List.Sublist.refl _)
  | pass clock entries rows hasked hdone =>
      refine .inr ⟨clock, entries, rows, rfl, rfl, rfl, ?_⟩
      simp [WhoisLoop.unsettled, hdone]
  | answered clock r ip rest hasked =>
      have hsame : WhoisLoop.unsettled
          { s with asked := rest, done := s.done ++ [(ip, lookup r ip)] } = s.unsettled := by
        simp [WhoisLoop.unsettled, hasked]
      exact .inl (hsame ▸ List.Sublist.refl _)
  | lost clock ip rest hasked =>
      refine .inl (List.Sublist.append (List.Sublist.refl _) ?_)
      rw [hasked]
      exact List.sublist_cons_self ip rest
  | apply clock ip w rest hasked hdone =>
      refine .inl ?_
      have hafter : WhoisLoop.unsettled { s.applyAnswer clock ip w with done := rest } =
          rest.map Prod.fst := by
        unfold WhoisLoop.unsettled applyAnswer
        split <;> simp [hasked]
      have hbefore : s.unsettled = ip :: rest.map Prod.fst := by
        simp [WhoisLoop.unsettled, hasked, hdone]
      rw [hafter, hbefore]
      exact List.sublist_cons_self _ _

/-! ## Failures in a row -/

theorem lookup_retain {fails : KeyedMap IpAddr (ℕ × ℕ)} {clock : Clock}
    {entries : HashOrder IpAddr} {entry : ℕ × ℕ}
    (h : (retain fails clock entries).lookup ip = some entry) : fails.lookup ip = some entry := by
  rw [retain, KeyedMap.lookup_filterMap] at h
  obtain ⟨found, hfound, hkept⟩ := Option.bind_eq_some_iff.mp h
  obtain ⟨-, heq⟩ := Option.ite_none_right_eq_some.mp hkept
  rw [hfound, heq]

/-- A failure is kept for ten minutes. -/
theorem lookup_retain_of_recent {fails : KeyedMap IpAddr (ℕ × ℕ)} {clock : Clock}
    {entry : ℕ × ℕ} (h : fails.lookup ip = some entry)
    (hrecent : clock.finish < entry.2 + retryAfter) (entries : HashOrder IpAddr) :
    (retain fails clock entries).lookup ip = some entry := by
  have hread := clock.read_le_finish ((entries.arrange fails.keys).idxOf ip)
  have hpositive : 0 < retryAfter := by decide
  rw [retain, KeyedMap.lookup_filterMap, h]
  exact if_pos (by omega)

/-- No address is asked about twice at a time, none that failed too often, and no address
fails more often in a row than is allowed. -/
structure Counted (s : WhoisLoop) : Prop where
  nodup : s.unsettled.Nodup
  allowed : ∀ ip ∈ s.unsettled, retry s.fails ip = true
  bound : ∀ ip entry, s.fails.lookup ip = some entry → entry.1 ≤ maxRetries

theorem counted_initial (w : World) : (initial w).Counted where
  nodup := List.nodup_nil
  allowed ip hip := by contradiction
  bound ip entry hentry := by
    rw [initial, AList.lookup_empty] at hentry
    contradiction

/-- What becomes of the failures when an answer is applied. -/
theorem applyAnswer_fails (s : WhoisLoop) (clock : Clock) (ip : IpAddr) (w : Whois) :
    (s.applyAnswer clock ip w).fails =
      if w.failed then failed s.fails ip (clock.read 1) else s.fails.erase ip := by
  unfold applyAnswer
  split
  · rfl
  · rfl

theorem lookup_applyAnswer_of_ne {other : IpAddr} (hne : other ≠ ip) (s : WhoisLoop)
    (clock : Clock) (w : Whois) :
    (s.applyAnswer clock ip w).fails.lookup other = s.fails.lookup other := by
  rw [applyAnswer_fails]
  split
  · exact AList.lookup_insert_ne hne
  · exact AList.lookup_erase_ne hne

theorem Counted.step (h : s.Counted) (hstep : Stepped s e s') : s'.Counted := by
  have hunsettled := hstep.unsettled
  have hnodup : s'.unsettled.Nodup := by
    rcases hunsettled with hsub | ⟨_, _, rows, -, -, -, heq⟩
    · exact h.nodup.sublist hsub
    · rw [heq]
      exact nodup_whoisTargets _ _ _
  cases hstep with
  | other => exact ⟨hnodup, h.allowed, h.bound⟩
  | answered | lost =>
      rcases hunsettled with hsub | ⟨_, _, _, he, -⟩
      · exact ⟨hnodup, fun ip hip => h.allowed ip (hsub.subset hip), h.bound⟩
      · contradiction
  | pass clock entries rows hasked hdone =>
      refine ⟨hnodup, ?_, fun ip entry hentry => h.bound ip entry (lookup_retain hentry)⟩
      intro ip hip
      rw [WhoisLoop.unsettled, hdone, List.map_nil, List.nil_append] at hip
      obtain ⟨-, -, -, -, hretry⟩ := mem_whoisTargets hip
      exact hretry
  | apply clock ip w rest hasked hdone =>
      have hbefore : s.unsettled = ip :: rest.map Prod.fst := by
        simp [WhoisLoop.unsettled, hasked, hdone]
      have hfails : ∀ other, other ≠ ip →
          ({ s.applyAnswer clock ip w with done := rest } : WhoisLoop).fails.lookup other =
            s.fails.lookup other := fun other hne => lookup_applyAnswer_of_ne hne s clock w
      refine ⟨hnodup, ?_, ?_⟩
      · intro other hother
        rcases hunsettled with hsub | ⟨_, _, _, he, -⟩
        · have hnotin : ip ∉ rest.map Prod.fst := by
            have hcons := h.nodup
            rw [hbefore] at hcons
            exact (List.nodup_cons.mp hcons).1
          have hin : other ∈ rest.map Prod.fst := by
            unfold WhoisLoop.unsettled applyAnswer at hother
            split at hother <;> simpa [hasked] using hother
          have hne : other ≠ ip := fun heq => hnotin (heq ▸ hin)
          have hallowed := h.allowed other (hsub.subset hother)
          unfold retry at hallowed ⊢
          rw [hfails other hne]
          exact hallowed
        · contradiction
      · intro other entry hentry
        by_cases hne : other = ip
        · subst hne
          have hallowed := h.allowed other (hbefore ▸ List.mem_cons_self)
          change (s.applyAnswer clock other w).fails.lookup other = some entry at hentry
          rw [applyAnswer_fails] at hentry
          split at hentry
          · rw [failed, AList.lookup_insert, Option.some.injEq] at hentry
            subst hentry
            unfold retry at hallowed
            cases hold : s.fails.lookup other with
            | none => exact (by decide : 0 + 1 ≤ maxRetries)
            | some old =>
                rw [hold, Option.all_some, decide_eq_true_eq] at hallowed
                exact hallowed
          · rw [AList.lookup_erase] at hentry
            contradiction
        · rw [hfails other hne] at hentry
          exact h.bound other entry hentry

/-- The answer that a step applies. -/
def applied (s : WhoisLoop) : Event → Option (IpAddr × Whois)
  | .apply _ => s.done.head?
  | _ => none

/-- The step applies an answer about the address that is not complete. -/
def failsAt (ip : IpAddr) (entry : (WhoisLoop × ℕ) × Event) : Bool :=
  (applied entry.1.1 entry.2).any fun answer => answer.1 = ip && answer.2.failed

/-- So many failures are on record, if any, and the last of them is not from before the
instant. -/
def Recorded (s : WhoisLoop) (ip : IpAddr) (since count : ℕ) : Prop :=
  count = 0 ∨ ∃ entry, s.fails.lookup ip = some entry ∧ count ≤ entry.1 ∧ since ≤ entry.2

/-- What is on record stays on record for ten minutes, unless a lookup of the address
succeeds, and one more failure is one more on record. -/
theorem recorded_step {since count : ℕ} {x x' : WhoisLoop × ℕ} (h : Recorded x.1 ip since count)
    (hsince : since ≤ x.2) (hrecent : x'.2 < since + retryAfter)
    (fires : timedSystem.step x e = some x')
    (hfails : ∀ w, applied x.1 e = some (ip, w) → w.failed = true) :
    Recorded x'.1 ip since (if failsAt ip (x, e) then count + 1 else count) := by
  obtain ⟨hstart, hstep, hfinish⟩ := System.timed_step_eq_some fires
  obtain ⟨s', now⟩ := x'
  have hstepped : Stepped x.1 e s' := step_cases hstep
  cases hstepped with
  | other | answered | lost => exact h
  | pass clock entries rows hasked hdone =>
      rcases h with hzero | ⟨entry, hentry, hcount, hlast⟩
      · exact .inl hzero
      · refine .inr ⟨entry, ?_, hcount, hlast⟩
        apply lookup_retain_of_recent hentry
        rw [hfinish] at hrecent
        exact Nat.lt_of_lt_of_le hrecent (Nat.add_le_add_right hlast _)
  | apply clock other w rest hasked hdone =>
      have happlied : applied x.1 (.apply clock) = some (other, w) := by
        rw [applied, hdone, List.head?_cons]
      by_cases hne : ip = other
      · subst hne
        have hw := hfails w happlied
        have hcounts : failsAt ip (x, .apply clock) = true := by
          simp [failsAt, happlied, hw]
        have hread := clock.start_le_read 1
        have hnow : since ≤ clock.read 1 := hsince.trans (Nat.le_trans hstart hread)
        rw [if_pos hcounts]
        refine .inr ⟨(((x.1.fails.lookup ip).map Prod.fst).getD 0 + 1, clock.read 1), ?_, ?_, hnow⟩
        · change (x.1.applyAnswer clock ip w).fails.lookup ip = _
          rw [applyAnswer_fails, if_pos hw]
          exact AList.lookup_insert _
        · rcases h with rfl | ⟨entry, hentry, hcount, -⟩
          · exact Nat.succ_le_succ (Nat.zero_le _)
          · rw [hentry]
            exact Nat.succ_le_succ hcount
      · have hcounts : failsAt ip (x, .apply clock) = false := by
          simp [failsAt, happlied, Ne.symm hne]
        rw [hcounts]
        rcases h with hzero | ⟨entry, hentry, hcount, hlast⟩
        · exact .inl hzero
        · refine .inr ⟨entry, ?_, hcount, hlast⟩
          exact (lookup_applyAnswer_of_ne hne x.1 clock w).trans hentry

theorem counted_of_run {w : World} {t : ℕ} {hist : History (WhoisLoop × ℕ) Event}
    {x : WhoisLoop × ℕ} (run : Run timedSystem (initial w, t) hist x) : x.1.Counted := by
  apply run.invariant (P := fun x => x.1.Counted) (counted_initial w)
  intro x e x' hcounted fires
  obtain ⟨-, hstep, -⟩ := System.timed_step_eq_some fires
  exact hcounted.step (step_cases hstep)

theorem recorded_run {since : ℕ} {x x' : WhoisLoop × ℕ} {late : History (WhoisLoop × ℕ) Event}
    (run : Run timedSystem x late x') (hsince : since ≤ x.2) (hrecent : x'.2 < since + retryAfter)
    (hfails : ∀ entry ∈ late, ∀ w, applied entry.1.1 entry.2 = some (ip, w) → w.failed = true) :
    since ≤ x'.2 ∧ Recorded x'.1 ip since (late.countP (failsAt ip)) := by
  induction run with
  | start => exact ⟨hsince, .inl rfl⟩
  | @next late s s' e prior fires ih =>
      obtain ⟨hnow, hpast⟩ := List.forall_mem_cons.mp hfails
      obtain ⟨hstart, -, hfinish⟩ := System.timed_step_eq_some fires
      have hforward : s.2 ≤ s'.2 := by
        rw [hfinish]
        exact Nat.le_trans hstart (e.clock.read_le_finish 0)
      obtain ⟨hlate, hrecorded⟩ := ih (Nat.lt_of_le_of_lt hforward hrecent) hpast
      refine ⟨hlate.trans hforward, ?_⟩
      have hnext := recorded_step hrecorded hlate hrecent fires hnow
      rw [List.countP_cons]
      split <;> simp_all

/-- In less than ten minutes an address fails at most three times without a success in
between, whatever else the program does meanwhile. -/
theorem failures_bounded {w : World} {t : ℕ} {earlier late : History (WhoisLoop × ℕ) Event}
    {x x' : WhoisLoop × ℕ} (before : Run timedSystem (initial w, t) earlier x)
    (run : Run timedSystem x late x') (hrecent : x'.2 < x.2 + retryAfter)
    (hfails : ∀ entry ∈ late, ∀ w, applied entry.1.1 entry.2 = some (ip, w) → w.failed = true) :
    late.countP (failsAt ip) ≤ maxRetries := by
  obtain ⟨-, hrecorded⟩ := recorded_run run (Nat.le_refl x.2) hrecent hfails
  have hcounted := counted_of_run (before.append run)
  rcases hrecorded with hzero | ⟨entry, hentry, hcount, -⟩
  · rw [hzero]
    exact Nat.zero_le _
  · exact hcount.trans (hcounted.bound ip entry hentry)

/-- A program with one row, whose remote address is public. -/
def sampleWorld : World :=
  { sampleHost with
    app :=
      { sampleHost.app with
        store :=
          { Store.empty 0 with
            conns := (∅ : KeyedMap ConnKey Conn).insert (sampleKey .tcp)
              (Store.freshConn (sampleKey .tcp) true 0) } } }

/-- A pass at the instant, in which no tool can be started. -/
def failingPass (t : ℕ) : List Event :=
  [.pass (.still t) .stored .stored, .awaited (.still t) (some (.linux false fun _ _ => none)),
    .apply (.still t)]

/-- Three failures in a row, and a fourth pass that asks about nothing. -/
theorem failures_bounded_sample :
    let played := timedSystem.play [] (initial sampleWorld, 0)
      (failingPass 1 ++ failingPass 2 ++ failingPass 3 ++ failingPass 4)
    played.1.countP (failsAt (sampleKey .tcp).remote) = 3 ∧
      played.1.countP (failsAt (sampleKey .tcp).remote) ≤ maxRetries := by
  intro played
  refine ⟨by decide, ?_⟩
  apply failures_bounded .start (Run.start.play _) (by decide)
  have hfails : ∀ entry ∈ played.1,
      ((applied entry.1.1 entry.2).all fun answer => answer.2.failed) = true := by decide
  intro entry hentry w hw
  have hall := hfails entry hentry
  rw [hw] at hall
  exact hall

end WhoisLoop

end SocketTrail.Resolve
