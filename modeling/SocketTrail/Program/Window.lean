/-
# When the window counts as closed

The page of the window keeps a channel open, and the program counts the open channels.
One task looks at the count every second and takes the window for closed when it found
no channel often enough in a row; another one watches the process of the browser. The
channels, both tasks and the end of the program each take their steps in any order, and
every access to the shared counters is a step of its own.
-/

import SocketTrail.Foundation.Progress
import Mathlib.Algebra.Group.Nat.Defs
import Mathlib.Algebra.GroupWithZero.Nat

namespace SocketTrail.Program

open SocketTrail.Foundation

/-- How far a channel has come. -/
inductive Channel
  /-- It is counted. -/
  | counted
  /-- It sends; the first message goes out at once. -/
  | sending (first : Bool)
  deriving DecidableEq, Repr

/-- The task that looks at the count: how often in a row it found no channel. -/
structure Waiter where
  grace : ℕ
  idle : ℕ
  /-- It has seen that a page was there, and is about to read the count. -/
  looking : Bool
  returned : Bool
  deriving DecidableEq, Repr

/-- The watch on the browser's process, in the build for Linux. -/
inductive Watch
  | watching (seen : Bool)
  /-- It ended, and the window is closed or is left to the page. -/
  | over (closed : Bool)
  deriving DecidableEq, Repr

/-- Why the program is asked to end. -/
inductive Reason
  | page | browser
  deriving DecidableEq, Repr

structure Window where
  /-- The open channels, as a number of 64 bits. -/
  clients : ℕ
  seen : Bool
  closing : Bool
  channels : List Channel
  waiter : Waiter
  watch : Watch
  /-- The reasons that were sent, newest first. -/
  quit : List Reason
  deriving DecidableEq, Repr

inductive WindowStep
  /-- The page opens a channel, which is counted first and noted then. -/
  | connect
  | noted (i : ℕ)
  /-- The next message of a channel is due. -/
  | turn (i : ℕ)
  /-- The page is gone. -/
  | dropped (i : ℕ)
  /-- The program ends. -/
  | close
  /-- The task wakes up, and then reads the count. -/
  | wake
  | look
  /-- The watch looks for the browser's process, so long after its start. -/
  | probe (alive : Bool) (elapsed : ℕ)
  deriving DecidableEq, Repr

namespace Window

/-- Fifteen seconds, in milliseconds. -/
def browserStart : ℕ := 15000

def initial (grace : ℕ) : Window where
  clients := 0
  seen := false
  closing := false
  channels := []
  waiter := { grace := grace, idle := 0, looking := false, returned := false }
  watch := .watching false
  quit := []

/-- A channel ends, and is no longer counted. -/
def uncount (w : Window) (i : ℕ) : Window :=
  { w with channels := w.channels.eraseIdx i, clients := (w.clients + 2 ^ 64 - 1) % 2 ^ 64 }

/-- The channels and their count are apart from everything else. -/
theorem counted_kept (w : Window) (clients : ℕ) (channels : List Channel) :
    let w' := { w with clients := clients, channels := channels }
    w'.waiter = w.waiter ∧ w'.watch = w.watch ∧ w'.quit = w.quit ∧ w'.seen = w.seen ∧
      w'.closing = w.closing :=
  ⟨rfl, rfl, rfl, rfl, rfl⟩

theorem uncount_kept (w : Window) (i : ℕ) :
    (w.uncount i).waiter = w.waiter ∧ (w.uncount i).watch = w.watch ∧
      (w.uncount i).quit = w.quit ∧ (w.uncount i).seen = w.seen ∧
        (w.uncount i).closing = w.closing :=
  counted_kept w _ _

/-- The count was read. -/
def look (w : Window) : Window :=
  if w.clients = 0 then
    let idle := w.waiter.idle + 1
    if idle ≥ w.waiter.grace then
      { w with
        waiter := { w.waiter with idle := idle, looking := false, returned := true }
        quit := .page :: w.quit }
    else { w with waiter := { w.waiter with idle := idle, looking := false } }
  else { w with waiter := { w.waiter with idle := 0, looking := false } }

/-- The watch looked for the process. -/
def probe (w : Window) (seen alive : Bool) (elapsed : ℕ) : Window :=
  if alive then { w with watch := .watching true }
  else if seen then { w with watch := .over true, quit := .browser :: w.quit }
  else if elapsed > browserStart then
    -- a page that was seen stands for the process that was not found
    if w.seen then { w with watch := .over false }
    else { w with watch := .over true, quit := .browser :: w.quit }
  else w

def step (w : Window) : WindowStep → Option Window
  | .connect =>
      some
        { w with channels := w.channels ++ [.counted], clients := (w.clients + 1) % 2 ^ 64 }
  | .noted i =>
      match w.channels[i]? with
      | some .counted =>
          some { w with channels := w.channels.set i (.sending true), seen := true }
      | _ => none
  | .turn i =>
      match w.channels[i]? with
      | some (.sending _) =>
          if w.closing then some (w.uncount i)
          else some { w with channels := w.channels.set i (.sending false) }
      | _ => none
  | .dropped i =>
      match w.channels[i]? with
      | some (.sending _) => some (w.uncount i)
      | _ => none
  | .close => some { w with closing := true }
  | .wake =>
      if w.waiter.looking || w.waiter.returned then none
      else if w.seen then some { w with waiter := { w.waiter with looking := true } }
      else some { w with waiter := { w.waiter with idle := 0 } }
  | .look => if w.waiter.looking then some w.look else none
  | .probe alive elapsed =>
      match w.watch with
      | .watching seen => some (w.probe seen alive elapsed)
      | .over _ => none

def system : System Window WindowStep where
  step := step

/-! ## What a step does -/

inductive Stepped (w : Window) : WindowStep → Window → Prop
  | connect :
      Stepped w .connect
        { w with channels := w.channels ++ [.counted], clients := (w.clients + 1) % 2 ^ 64 }
  | noted (i : ℕ) (hat : w.channels[i]? = some .counted) :
      Stepped w (.noted i) { w with channels := w.channels.set i (.sending true), seen := true }
  | sent (i : ℕ) (first : Bool) (hat : w.channels[i]? = some (.sending first))
      (hopen : w.closing = false) :
      Stepped w (.turn i) { w with channels := w.channels.set i (.sending false) }
  | ended (i : ℕ) (first : Bool) (hat : w.channels[i]? = some (.sending first))
      (hclosing : w.closing = true) : Stepped w (.turn i) (w.uncount i)
  | dropped (i : ℕ) (first : Bool) (hat : w.channels[i]? = some (.sending first)) :
      Stepped w (.dropped i) (w.uncount i)
  | close : Stepped w .close { w with closing := true }
  | nobody (hsleeps : w.waiter.looking = false) (hwaits : w.waiter.returned = false)
      (hseen : w.seen = false) : Stepped w .wake { w with waiter := { w.waiter with idle := 0 } }
  | wakes (hsleeps : w.waiter.looking = false) (hwaits : w.waiter.returned = false)
      (hseen : w.seen = true) :
      Stepped w .wake { w with waiter := { w.waiter with looking := true } }
  | look (hlooking : w.waiter.looking = true) : Stepped w .look w.look
  | probe (seen alive : Bool) (elapsed : ℕ) (hwatch : w.watch = .watching seen) :
      Stepped w (.probe alive elapsed) (w.probe seen alive elapsed)

theorem step_cases {w w' : Window} {e : WindowStep} (fires : w.step e = some w') :
    Stepped w e w' := by
  cases e with
  | connect => exact Option.some.inj fires ▸ .connect
  | noted i =>
      unfold step at fires
      dsimp only at fires
      split at fires
      · rename_i hat
        exact Option.some.inj fires ▸ .noted i hat
      · contradiction
  | turn i =>
      unfold step at fires
      dsimp only at fires
      split at fires
      · rename_i first hat
        split at fires
        · rename_i hclosing
          exact Option.some.inj fires ▸ .ended i first hat hclosing
        · rename_i hopen
          exact Option.some.inj fires ▸ .sent i first hat (Bool.not_eq_true _ ▸ hopen)
      · contradiction
  | dropped i =>
      unfold step at fires
      dsimp only at fires
      split at fires
      · rename_i first hat
        exact Option.some.inj fires ▸ .dropped i first hat
      · contradiction
  | close => exact Option.some.inj fires ▸ .close
  | wake =>
      obtain ⟨hrests, hnext⟩ := Option.ite_none_left_eq_some.mp fires
      simp only [Bool.or_eq_true, not_or, Bool.not_eq_true] at hrests
      obtain ⟨hsleeps, hwaits⟩ := hrests
      split at hnext
      · rename_i hseen
        exact Option.some.inj hnext ▸ .wakes hsleeps hwaits hseen
      · rename_i hseen
        exact Option.some.inj hnext ▸ .nobody hsleeps hwaits (Bool.not_eq_true _ ▸ hseen)
  | look =>
      obtain ⟨hlooking, hnext⟩ := Option.ite_none_right_eq_some.mp fires
      exact Option.some.inj hnext ▸ .look hlooking
  | probe alive elapsed =>
      unfold step at fires
      dsimp only at fires
      split at fires
      · rename_i seen hwatch
        exact Option.some.inj fires ▸ .probe seen alive elapsed hwatch
      · contradiction

/-! ## The count -/

variable {w w' : Window} {e : WindowStep} {hist : History Window WindowStep} {g : ℕ}

/-- The task and the watch leave the channels alone. -/
theorem look_kept (w : Window) :
    w.look.clients = w.clients ∧ w.look.channels = w.channels ∧ w.look.closing = w.closing := by
  unfold Window.look
  split
  · dsimp only
    split <;> exact ⟨rfl, rfl, rfl⟩
  · exact ⟨rfl, rfl, rfl⟩

theorem probe_kept (w : Window) (seen alive : Bool) (elapsed : ℕ) :
    (w.probe seen alive elapsed).clients = w.clients ∧
      (w.probe seen alive elapsed).channels = w.channels ∧
        (w.probe seen alive elapsed).closing = w.closing := by
  unfold Window.probe
  repeat' split
  all_goals exact ⟨rfl, rfl, rfl⟩

theorem uncount_clients {i : ℕ} {c : Channel} (hcount : w.clients = w.channels.length % 2 ^ 64)
    (hat : w.channels[i]? = some c) :
    (w.uncount i).clients = (w.uncount i).channels.length % 2 ^ 64 := by
  obtain ⟨hi, -⟩ := List.getElem?_eq_some_iff.mp hat
  have hlength : (w.channels.eraseIdx i).length = w.channels.length - 1 :=
    List.length_eraseIdx_of_lt hi
  change (w.clients + 2 ^ 64 - 1) % 2 ^ 64 = (w.channels.eraseIdx i).length % 2 ^ 64
  rw [hlength, hcount]
  omega

/-- The count is the number of channels. -/
theorem Stepped.counted (h : Stepped w e w') (hcount : w.clients = w.channels.length % 2 ^ 64) :
    w'.clients = w'.channels.length % 2 ^ 64 := by
  cases h with
  | connect =>
      dsimp only
      rw [hcount, List.length_append, List.length_singleton]
      omega
  | noted i hat | sent i first hat hopen =>
      dsimp only
      rw [List.length_set]
      exact hcount
  | ended i first hat hclosing => exact uncount_clients hcount hat
  | dropped i first hat => exact uncount_clients hcount hat
  | close | nobody | wakes => exact hcount
  | look hlooking =>
      obtain ⟨hclients, hchannels, -⟩ := look_kept w
      rw [hclients, hchannels, hcount]
  | probe seen alive elapsed hwatch =>
      obtain ⟨hclients, hchannels, -⟩ := probe_kept w seen alive elapsed
      rw [hclients, hchannels, hcount]

/-! ## What the task has seen -/

/-- The move ends a turn of the task: it found that no page was there yet, or it read
the count. -/
def endsTick (entry : Window × WindowStep) : Bool :=
  match entry.2 with
  | .wake => !entry.1.seen
  | .look => true
  | _ => false

/-- A page was there, and no channel is open. -/
def deserted (entry : Window × WindowStep) : Bool :=
  entry.1.seen && entry.1.channels.length % 2 ^ 64 = 0

theorem deserted_iff {entry : Window × WindowStep} :
    deserted entry = true ↔ entry.1.seen = true ∧ entry.1.channels.length % 2 ^ 64 = 0 := by
  rw [deserted, Bool.and_eq_true, decide_eq_true_eq]

/-- How often in a row the task found the window deserted, up to now. -/
def desertedTicks (hist : History Window WindowStep) : ℕ :=
  ((hist.filter endsTick).takeWhile deserted).length

/-- A page opened a channel. -/
def Noted (hist : History Window WindowStep) : Prop := ∃ s i, (s, .noted i) ∈ hist

/-- The browser's process was found. -/
def Found (hist : History Window WindowStep) : Prop := ∃ s t, (s, .probe true t) ∈ hist

/-- The process was gone after it had been found, or it was never found, and no page
either. -/
def BrowserGone (hist : History Window WindowStep) : Prop :=
  ∃ s t earlier, (s, .probe false t) :: earlier <:+ hist ∧
    (Found earlier ∨ (browserStart < t ∧ ¬ Noted earlier))

/-- What the state of the window says about its history. -/
structure Told (g : ℕ) (hist : History Window WindowStep) (w : Window) : Prop where
  counted : w.clients = w.channels.length % 2 ^ 64
  noted : w.seen = true ↔ Noted hist
  grace : w.waiter.grace = g
  idle : w.waiter.idle = desertedTicks hist
  looking : w.waiter.looking = true → w.seen = true ∧ w.waiter.returned = false
  waits : w.waiter.returned = false → w.waiter.idle < max g 1
  returned : w.waiter.returned = true → w.waiter.idle = max g 1
  page : .page ∈ w.quit ↔ w.waiter.returned = true
  watching : ∀ seen, w.watch = .watching seen → (seen = true ↔ Found hist)
  browser : .browser ∈ w.quit ↔ BrowserGone hist

theorem noted_cons : Noted ((w, e) :: hist) ↔ (∃ i, e = .noted i) ∨ Noted hist := by
  constructor
  · rintro ⟨s, i, hmem⟩
    rcases List.mem_cons.mp hmem with heq | hpast
    · exact .inl ⟨i, (Prod.mk.inj heq).2.symm⟩
    · exact .inr ⟨s, i, hpast⟩
  · rintro (⟨i, rfl⟩ | ⟨s, i, hpast⟩)
    · exact ⟨w, i, List.mem_cons_self⟩
    · exact ⟨s, i, List.mem_cons_of_mem _ hpast⟩

theorem found_cons : Found ((w, e) :: hist) ↔ (∃ t, e = .probe true t) ∨ Found hist := by
  constructor
  · rintro ⟨s, t, hmem⟩
    rcases List.mem_cons.mp hmem with heq | hpast
    · exact .inl ⟨t, (Prod.mk.inj heq).2.symm⟩
    · exact .inr ⟨s, t, hpast⟩
  · rintro (⟨t, rfl⟩ | ⟨s, t, hpast⟩)
    · exact ⟨w, t, List.mem_cons_self⟩
    · exact ⟨s, t, List.mem_cons_of_mem _ hpast⟩

theorem browserGone_cons : BrowserGone ((w, e) :: hist) ↔
    (∃ t, e = .probe false t ∧ (Found hist ∨ (browserStart < t ∧ ¬ Noted hist))) ∨
      BrowserGone hist := by
  constructor
  · rintro ⟨s, t, earlier, hsuffix, hgone⟩
    rcases List.suffix_cons_iff.mp hsuffix with heq | hpast
    · obtain ⟨hentry, rfl⟩ := List.cons.inj heq
      exact .inl ⟨t, (Prod.mk.inj hentry).2.symm, hgone⟩
    · exact .inr ⟨s, t, earlier, hpast, hgone⟩
  · rintro (⟨t, rfl, hgone⟩ | ⟨s, t, earlier, hpast, hgone⟩)
    · exact ⟨w, t, hist, List.suffix_rfl, hgone⟩
    · exact ⟨s, t, earlier, hpast.trans (List.suffix_cons _ _), hgone⟩

/-- A move that ends no turn leaves the number of turns. -/
theorem desertedTicks_of_not_endsTick (h : endsTick (w, e) = false) :
    desertedTicks ((w, e) :: hist) = desertedTicks hist := by
  unfold desertedTicks
  rw [List.filter_cons_of_neg (by rw [h]; exact Bool.false_ne_true)]

theorem desertedTicks_of_endsTick (h : endsTick (w, e) = true) :
    desertedTicks ((w, e) :: hist) =
      if deserted (w, e) then desertedTicks hist + 1 else 0 := by
  unfold desertedTicks
  rw [List.filter_cons_of_pos h, List.takeWhile_cons]
  split <;> rfl

/-- The page, its channels and the end of the program move. -/
def outside : WindowStep → Bool
  | .connect | .noted _ | .turn _ | .dropped _ | .close => true
  | _ => false

theorem Stepped.outside (h : Stepped w e w') (hout : Window.outside e = true) :
    w'.waiter = w.waiter ∧ w'.watch = w.watch ∧ w'.quit = w.quit ∧
      (w'.seen = true ↔ (∃ i, e = .noted i) ∨ w.seen = true) := by
  cases h with
  | noted i hat => exact ⟨rfl, rfl, rfl, by simp⟩
  | connect | sent | close => exact ⟨rfl, rfl, rfl, (or_iff_right (by simp)).symm⟩
  | ended i | dropped i =>
      obtain ⟨hwaiter, hwatch, hquit, hseen, -⟩ := uncount_kept w i
      refine ⟨hwaiter, hwatch, hquit, ?_⟩
      rw [hseen]
      exact (or_iff_right (by simp)).symm
  | nobody | wakes | look | probe => contradiction

theorem Told.outside (h : Told g hist w) (hstep : Stepped w e w')
    (hout : Window.outside e = true) : Told g ((w, e) :: hist) w' := by
  obtain ⟨hwaiter, hwatch, hquit, hseen⟩ := hstep.outside hout
  have htick : endsTick (w, e) = false := by cases e <;> first | rfl | contradiction
  have hprobe : ∀ alive t, e ≠ .probe alive t := by
    rintro alive t rfl
    contradiction
  have hnoted : w'.seen = true ↔ Noted ((w, e) :: hist) := by rw [hseen, noted_cons, h.noted]
  constructor
  · exact hstep.counted h.counted
  · exact hnoted
  · rw [hwaiter]
    exact h.grace
  · rw [hwaiter, desertedTicks_of_not_endsTick htick]
    exact h.idle
  · rw [hwaiter]
    intro hlooking
    obtain ⟨hwas, hwaits⟩ := h.looking hlooking
    exact ⟨hseen.mpr (.inr hwas), hwaits⟩
  · rw [hwaiter]
    exact h.waits
  · rw [hwaiter]
    exact h.returned
  · rw [hwaiter, hquit]
    exact h.page
  · rw [hwatch]
    intro seen hwatching
    rw [h.watching seen hwatching, found_cons]
    simp [hprobe]
  · rw [hquit, h.browser, browserGone_cons]
    simp [hprobe]

/-- The task ends a turn. -/
theorem Told.tick {waiter : Waiter} {quit : List Reason} (h : Told g hist w)
    (htick : endsTick (w, e) = true) (hprobe : ∀ alive t, e ≠ .probe alive t)
    (hnoted : ∀ i, e ≠ .noted i) (hgrace : waiter.grace = g)
    (hidle : waiter.idle = if deserted (w, e) then w.waiter.idle + 1 else 0)
    (hlooking : waiter.looking = false)
    (hwaits : waiter.returned = false → waiter.idle < max g 1 ∧ quit = w.quit)
    (hreturned : waiter.returned = true → waiter.idle = max g 1 ∧ quit = .page :: w.quit)
    (hbefore : w.waiter.returned = false) :
    Told g ((w, e) :: hist) { w with waiter := waiter, quit := quit } := by
  have hbrowser : .browser ∈ quit ↔ Reason.browser ∈ w.quit := by
    cases hdone : waiter.returned with
    | false => rw [(hwaits hdone).2]
    | true =>
        rw [(hreturned hdone).2]
        simp
  constructor
  · exact h.counted
  · rw [noted_cons]
    simp [hnoted, h.noted]
  · exact hgrace
  · rw [desertedTicks_of_endsTick htick, hidle, h.idle]
  · intro hlooks
    exact absurd (hlooking.symm.trans hlooks) Bool.false_ne_true
  · exact fun hdone => (hwaits hdone).1
  · exact fun hdone => (hreturned hdone).1
  · cases hdone : waiter.returned with
    | false =>
        rw [(hwaits hdone).2, h.page, hbefore]
    | true =>
        rw [(hreturned hdone).2]
        simp
  · intro seen hwatching
    rw [h.watching seen hwatching, found_cons]
    simp [hprobe]
  · rw [hbrowser, h.browser, browserGone_cons]
    simp [hprobe]

theorem Told.look (h : Told g hist w) (hlooking : w.waiter.looking = true) :
    Told g ((w, .look) :: hist) w.look := by
  obtain ⟨hseen, hbefore⟩ := h.looking hlooking
  have hidle := h.waits hbefore
  have hgrace := h.grace
  by_cases hzero : w.clients = 0
  · have hdeserted : deserted (w, .look) = true := by
      have hcounted := h.counted
      rw [hzero] at hcounted
      exact deserted_iff.mpr ⟨hseen, hcounted.symm⟩
    by_cases hdone : w.waiter.idle + 1 ≥ w.waiter.grace
    · have hlook : w.look =
          { w with
            waiter :=
              { w.waiter with idle := w.waiter.idle + 1, looking := false, returned := true }
            quit := .page :: w.quit } := by simp [Window.look, hzero, hdone]
      rw [hlook]
      refine h.tick rfl (by simp) (by simp) hgrace ?_ rfl (by simp) ?_ hbefore
      · rw [hdeserted]
        rfl
      · intro _
        refine ⟨?_, rfl⟩
        dsimp only
        omega
    · have hlook : w.look =
          { w with waiter := { w.waiter with idle := w.waiter.idle + 1, looking := false } } := by
        simp [Window.look, hzero, hdone]
      rw [hlook]
      refine h.tick rfl (by simp) (by simp) hgrace ?_ rfl ?_ ?_ hbefore
      · rw [hdeserted]
        rfl
      · intro _
        refine ⟨?_, rfl⟩
        dsimp only
        omega
      · intro hreturned
        exact absurd (hbefore.symm.trans hreturned) Bool.false_ne_true
  · have hlook : w.look = { w with waiter := { w.waiter with idle := 0, looking := false } } := by
      simp [Window.look, hzero]
    have hdeserted : deserted (w, .look) = false := by
      have hcounted := h.counted
      rw [hcounted] at hzero
      exact Bool.eq_false_iff.mpr fun hdeserted => hzero (deserted_iff.mp hdeserted).2
    rw [hlook]
    refine h.tick rfl (by simp) (by simp) hgrace ?_ rfl ?_ ?_ hbefore
    · rw [hdeserted]
      rfl
    · exact fun _ => ⟨Nat.lt_of_lt_of_le Nat.zero_lt_one (Nat.le_max_right g 1), rfl⟩
    · intro hreturned
      exact absurd (hbefore.symm.trans hreturned) Bool.false_ne_true

/-- The watch ends a turn, and the other party and the page are as they were. -/
theorem Told.watched {alive : Bool} {t : ℕ} {watch : Watch} {quit : List Reason}
    (h : Told g hist w) (hpage : .page ∈ quit ↔ Reason.page ∈ w.quit)
    (hwatching : ∀ seen, watch = .watching seen →
      (seen = true ↔ Found ((w, .probe alive t) :: hist)))
    (hbrowser : .browser ∈ quit ↔ BrowserGone ((w, .probe alive t) :: hist)) :
    Told g ((w, .probe alive t) :: hist) { w with watch := watch, quit := quit } where
  counted := h.counted
  noted := by
    rw [noted_cons]
    simp [h.noted]
  grace := h.grace
  idle := by
    rw [desertedTicks_of_not_endsTick rfl]
    exact h.idle
  looking := h.looking
  waits := h.waits
  returned := h.returned
  page := hpage.trans h.page
  watching := hwatching
  browser := hbrowser

/-- The watch looks for the process. -/
theorem Told.probe {seen alive : Bool} {t : ℕ} (h : Told g hist w)
    (hwatch : w.watch = .watching seen) :
    Told g ((w, .probe alive t) :: hist) (w.probe seen alive t) := by
  have hfound := h.watching seen hwatch
  unfold Window.probe
  cases alive with
  | true =>
      rw [if_pos rfl]
      refine h.watched .rfl ?_ ?_
      · rintro s ⟨⟩
        simp [found_cons]
      · rw [h.browser, browserGone_cons]
        simp
  | false =>
      rw [if_neg Bool.false_ne_true]
      cases seen with
      | true =>
          rw [if_pos rfl]
          refine h.watched ?_ ?_ ?_
          · simp
          · simp
          · rw [browserGone_cons]
            simp [hfound.mp rfl]
      | false =>
          have hnever : ¬ Found hist := fun hpast => absurd (hfound.mpr hpast) Bool.false_ne_true
          rw [if_neg Bool.false_ne_true]
          by_cases hlate : t > browserStart
          · rw [if_pos hlate]
            by_cases hseen : w.seen = true
            · rw [if_pos hseen]
              refine h.watched .rfl ?_ ?_
              · simp
              · rw [h.browser, browserGone_cons]
                simp [hnever, h.noted.mp hseen]
            · have hunnoted : ¬ Noted hist := fun hpast => hseen (h.noted.mpr hpast)
              rw [if_neg hseen]
              refine h.watched ?_ ?_ ?_
              · simp
              · simp
              · rw [browserGone_cons]
                simp [hunnoted, hlate]
          · rw [if_neg hlate]
            refine h.watched .rfl ?_ ?_
            · intro s hs
              rw [h.watching s hs, found_cons]
              simp
            · rw [h.browser, browserGone_cons]
              simp [hnever, hlate]

theorem Told.step (h : Told g hist w) (hstep : Stepped w e w') : Told g ((w, e) :: hist) w' := by
  cases hstep with
  | connect => exact h.outside .connect rfl
  | noted i hat => exact h.outside (.noted i hat) rfl
  | sent i first hat hopen => exact h.outside (.sent i first hat hopen) rfl
  | ended i first hat hclosing => exact h.outside (.ended i first hat hclosing) rfl
  | dropped i first hat => exact h.outside (.dropped i first hat) rfl
  | close => exact h.outside .close rfl
  | nobody hsleeps hwaits hseen =>
      have htick : endsTick (w, .wake) = true := by simp [endsTick, hseen]
      refine h.tick htick (by simp) (by simp) h.grace (by simp [deserted, hseen]) hsleeps ?_ ?_
        hwaits
      · exact fun _ => ⟨Nat.lt_of_lt_of_le Nat.zero_lt_one (Nat.le_max_right g 1), rfl⟩
      · intro hreturned
        exact absurd (hwaits.symm.trans hreturned) Bool.false_ne_true
  | wakes hsleeps hwaits hseen =>
      have htick : endsTick (w, .wake) = false := by simp [endsTick, hseen]
      constructor
      · exact h.counted
      · rw [noted_cons]
        simp [h.noted]
      · exact h.grace
      · rw [desertedTicks_of_not_endsTick htick]
        exact h.idle
      · exact fun _ => ⟨hseen, hwaits⟩
      · exact h.waits
      · exact h.returned
      · exact h.page
      · intro seen hwatching
        rw [h.watching seen hwatching, found_cons]
        simp
      · rw [h.browser, browserGone_cons]
        simp
  | look hlooking => exact h.look hlooking
  | probe seen alive elapsed hwatch => exact h.probe hwatch

theorem told_initial (g : ℕ) : Told g [] (initial g) where
  counted := rfl
  noted := by simp [initial, Noted]
  grace := rfl
  idle := rfl
  looking h := by contradiction
  waits _ := Nat.lt_of_lt_of_le Nat.zero_lt_one (Nat.le_max_right g 1)
  returned h := by contradiction
  page := by simp [initial]
  watching seen h := by
    cases h
    simp [Found]
  browser := by
    constructor
    · intro h
      simp [initial] at h
    · rintro ⟨s, t, earlier, hsuffix, -⟩
      simp at hsuffix

theorem told_of_run (run : Run system (initial g) hist w) : Told g hist w :=
  run.historyInvariant (told_initial g) fun _ _ _ _ _ h fires => h.step (step_cases fires)

/-- In every order of the steps the program is asked to end for want of a page exactly
when the task found no open channel in so many turns in a row, after a page had been
there; and for want of a browser exactly when its process was gone after it had been
found, or was not found within fifteen seconds and no page came either. The browser is
watched as in the build for Linux; the other builds wait for the process they started. -/
theorem asked_to_end_iff (run : Run system (initial g) hist w) :
    w.clients = w.channels.length % 2 ^ 64 ∧
      (.page ∈ w.quit ↔ max g 1 ≤ desertedTicks hist) ∧
        (.browser ∈ w.quit ↔ BrowserGone hist) := by
  have htold := told_of_run run
  refine ⟨htold.counted, ?_, htold.browser⟩
  rw [htold.page, ← htold.idle]
  constructor
  · intro hreturned
    rw [htold.returned hreturned]
  · intro hle
    by_contra hreturned
    have hless := htold.waits (Bool.not_eq_true _ ▸ hreturned)
    omega

/-- A page comes and goes while the task, which waits for two turns, looks three times:
the first time the channel is still open. -/
theorem asked_to_end_iff_sample :
    let played := system.play [] (initial 2)
      [.connect, .noted 0, .turn 0, .wake, .look, .dropped 0, .wake, .look, .wake, .look]
    .page ∈ played.2.quit ∧ max 2 1 ≤ desertedTicks played.1 := by
  intro played
  obtain ⟨-, hpage, -⟩ := asked_to_end_iff (Run.start.play _ : Run system _ played.1 played.2)
  have hquit : .page ∈ played.2.quit := by decide
  exact ⟨hquit, hpage.mp hquit⟩

/-! ## The end of the channels -/

/-- The program without new pages, as when the server stops accepting. -/
def ending : System Window WindowStep where
  step w e := if e = .connect then none else w.step e

/-- The move is one of a channel, or of its page that is gone. -/
def ofChannel : WindowStep → Bool
  | .noted _ | .turn _ | .dropped _ => true
  | _ => false

/-- The steps that are left to a channel once the program ends. -/
def Channel.left : Channel → ℕ
  | .counted => 2
  | .sending _ => 1

def left (w : Window) : ℕ := (w.channels.map Channel.left).sum

theorem split_of_getElem? {l : List Channel} {i : ℕ} {c : Channel} (h : l[i]? = some c) :
    ∃ front back, l = front ++ c :: back ∧ i = front.length := by
  obtain ⟨hi, rfl⟩ := List.getElem?_eq_some_iff.mp h
  refine ⟨l.take i, l.drop (i + 1), ?_, ?_⟩
  · rw [List.getElem_cons_drop, List.take_append_drop]
  · rw [List.length_take, Nat.min_eq_left (Nat.le_of_lt hi)]

theorem left_set {i : ℕ} {c c' : Channel} (hat : w.channels[i]? = some c) :
    left { w with channels := w.channels.set i c' } + Channel.left c =
      left w + Channel.left c' := by
  obtain ⟨front, back, hsplit, rfl⟩ := split_of_getElem? hat
  simp [left, hsplit]
  omega

theorem left_uncount {i : ℕ} {c : Channel} (hat : w.channels[i]? = some c) :
    left (w.uncount i) + Channel.left c = left w := by
  obtain ⟨front, back, hsplit, rfl⟩ := split_of_getElem? hat
  have herase : (front ++ c :: back).eraseIdx front.length = front ++ back := by
    simp [List.eraseIdx_append_of_length_le]
  change ((w.channels.eraseIdx front.length).map Channel.left).sum + Channel.left c = left w
  rw [hsplit, herase]
  simp [left, hsplit]
  omega

/-- The end is not taken back. -/
theorem Stepped.closing (h : Stepped w e w') (hclosing : w.closing = true) :
    w'.closing = true := by
  cases h with
  | close => rfl
  | connect | noted | sent | nobody | wakes => exact hclosing
  | ended i | dropped i =>
      obtain ⟨-, -, -, -, hkept⟩ := uncount_kept w i
      exact hkept.trans hclosing
  | look hlooking => exact (look_kept w).2.2.trans hclosing
  | probe seen alive elapsed hwatch => exact (probe_kept w seen alive elapsed).2.2.trans hclosing

/-- Once the program ends, every step of a channel is one less that is left. -/
theorem progresses_ending :
    Progresses ending (fun w => w.closing = true) (fun w => w.channels = []) ofChannel left where
  keeps := by
    intro w e w' hclosing fires
    obtain ⟨-, hstep⟩ := Option.ite_none_left_eq_some.mp fires
    exact (step_cases hstep).closing hclosing
  works := by
    intro w e w' hclosing _ hwork fires
    obtain ⟨-, hstep⟩ := Option.ite_none_left_eq_some.mp fires
    cases step_cases hstep with
    | noted i hat =>
        have hset : left { w with channels := w.channels.set i (.sending true) } + _ = _ + _ :=
          left_set hat
        simp only [Channel.left] at hset
        change left { w with channels := w.channels.set i (.sending true) } < left w
        omega
    | sent i first hat hopen => exact absurd (hopen.symm.trans hclosing) Bool.false_ne_true
    | ended i first hat | dropped i first hat =>
        have herase := left_uncount hat
        simp only [Channel.left] at herase
        omega
    | connect | close | nobody | wakes | look | probe => contradiction
  waits := by
    intro w e w' hclosing _ hwork fires
    obtain ⟨hnew, hstep⟩ := Option.ite_none_left_eq_some.mp fires
    cases step_cases hstep with
    | connect => contradiction
    | noted | sent | ended | dropped => contradiction
    | close | nobody | wakes => exact Nat.le_refl _
    | look hlooking =>
        obtain ⟨-, hchannels, -⟩ := look_kept w
        rw [left, hchannels, left]
    | probe seen alive elapsed hwatch =>
        obtain ⟨-, hchannels, -⟩ := probe_kept w seen alive elapsed
        rw [left, hchannels, left]
  can := by
    intro w hclosing hopen
    obtain ⟨c, rest, hchannels⟩ := List.exists_cons_of_ne_nil hopen
    cases c with
    | counted =>
        refine ⟨.noted 0, { w with channels := w.channels.set 0 (.sending true), seen := true },
          rfl, ?_⟩
        simp [ending, step, hchannels]
    | sending first =>
        refine ⟨.turn 0, w.uncount 0, rfl, ?_⟩
        simp [ending, step, hchannels, hclosing]

/-- Without a new page no channel comes back. -/
theorem ending_empty (fires : ending.step w e = some w') (hempty : w.channels = []) :
    w'.channels = [] := by
  obtain ⟨hnew, hstep⟩ := Option.ite_none_left_eq_some.mp fires
  cases step_cases hstep with
  | connect => contradiction
  | noted i hat | sent i first hat | ended i first hat | dropped i first hat =>
      rw [hempty] at hat
      contradiction
  | look hlooking => exact (look_kept w).2.1.trans hempty
  | probe seen alive elapsed hwatch => exact (probe_kept w seen alive elapsed).2.1.trans hempty
  | close | nobody | wakes => exact hempty

/-- Once the program ends and takes no new page, no channel is left after two steps of
each, whether it ends itself or its page is gone, and whatever happens in between. -/
theorem channels_end (hclosing : w.closing = true) (run : Run ending w hist w')
    (hdone : left w ≤ workDone ofChannel hist) : w'.channels = [] := by
  have hmet := progresses_ending.goal_of_workDone hclosing run hdone
  clear hdone
  induction run with
  | start =>
      rcases hmet with ⟨entry, hentry, -⟩ | hnow
      · contradiction
      · exact hnow
  | @next hist s s' e prior fires ih =>
      rcases hmet with ⟨entry, hentry, hempty⟩ | hnow
      · rcases List.mem_cons.mp hentry with rfl | hpast
        · exact ending_empty fires hempty
        · exact ending_empty fires (ih (.inl ⟨entry, hpast, hempty⟩))
      · exact hnow

/-- Three pages are open when the program ends: one is counted already while the end is
on its way, and one is gone before its channel has ended. -/
theorem channels_end_sample :
    let opened := system.play [] (initial 10)
      [.connect, .noted 0, .connect, .connect, .noted 1, .close]
    let ended := ending.play [] opened.2 [.turn 0, .wake, .dropped 0, .noted 0, .look, .turn 0]
    opened.2.channels.length = 3 ∧ ended.2.channels = [] := by
  intro opened ended
  refine ⟨by decide, ?_⟩
  exact channels_end (by decide) (Run.start.play _ : Run ending _ ended.1 ended.2) (by decide)

end Window

end SocketTrail.Program
