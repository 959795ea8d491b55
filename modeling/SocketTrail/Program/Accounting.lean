/-
# From the capture to the history

The capture queues every packet it can and counts it as accepted behind the queue;
the consumer takes packets in batches, applies them, and counts them as processed
behind that. A recording that ends reads the one counter and waits for the other.
Every step of the three may fall between any two steps of the others.

`pushed`, `settled`, `refused`, `lostBatches` and `missed` are a record of what
happened. No step reads them.
-/

import SocketTrail.Foundation.Reassembly
import SocketTrail.Program.App

namespace SocketTrail.Program

open SocketTrail.Foundation SocketTrail.Net SocketTrail.State

/-! ## The three parties -/

/-- The sender of the live capture. -/
inductive SenderPc
  | idle
  /-- The packet is in the queue and not yet counted. -/
  | pushed (p : Packet)
  /-- The queue was full, and the packet is not yet counted. -/
  | refused (p : Packet)
  deriving DecidableEq, Repr

/-- The task that applies the packets. -/
inductive ConsumerPc
  | awaiting
  /-- A batch is taken, and the lock is not. -/
  | taken (batch : List Packet)
  /-- Under the lock, `rest` of a batch of `size` packets is left. -/
  | applying (size : ℕ) (rest : List Packet)
  /-- The first packet of `rest` panicked. -/
  | panicked (size : ℕ) (rest : List Packet)
  /-- The batch is not yet counted as processed. -/
  | done (size : ℕ)
  deriving DecidableEq, Repr

/-- The wait of a recording that ends. -/
inductive WaiterPc
  | idle
  | polling (target : ℕ)
  | returned (target : ℕ) (inTime : Bool)
  deriving DecidableEq, Repr

/-- What became of a packet of the queue: it is in the history, or its batch is
counted as dropped. -/
inductive Fate
  | applied | lost
  deriving DecidableEq, Repr

structure Pipeline where
  app : App
  queue : List Packet
  isOpen : Bool
  sender : SenderPc
  consumer : ConsumerPc
  waiter : WaiterPc
  /-- Every packet that was put into the queue. -/
  pushed : List Packet
  /-- The packets of the queue whose fate is known, in the order of the queue. -/
  settled : List (Packet × Fate)
  /-- The packets that are counted since the queue was full. -/
  refused : List Packet
  /-- The sizes of the batches that are counted since a packet panicked. -/
  lostBatches : List ℕ
  /-- How many events the capture itself has counted as dropped. -/
  missed : ℕ

/-- The queue is open, and nothing is counted. -/
def Pipeline.initial (g : App) : Pipeline where
  app := { g with accepted := 0, processed := 0, dropped := 0 }
  queue := []
  isOpen := true
  sender := .idle
  consumer := .awaiting
  waiter := .idle
  pushed := []
  settled := []
  refused := []
  lostBatches := []
  missed := 0

/-! ## Steps -/

/-- The packets that the consumer takes at once, at most. -/
def batchLimit : ℕ := 256

inductive Move
  /-- `PacketSender::send` tries the queue. -/
  | send (p : Packet)
  /-- `PacketSender::send` counts what the queue said. -/
  | count
  /-- The consumer takes the first `n` packets. -/
  | take (n : ℕ)
  | lock
  /-- The next packet of the batch is applied, with what its handling meets. -/
  | apply (clock : Clock) (connOrder : HashOrder ConnKey) (ipOrder : HashOrder IpAddr)
  /-- The next packet of the batch panics and leaves `left` of the program. -/
  | panic (left : App)
  | countLost
  | countProcessed
  /-- The receiver of the queue goes away. -/
  | close
  /-- The capture counts an event that it cannot use. -/
  | miss
  /-- A section of the loops and the requests that the lock lets through. -/
  | elsewhere (b : App.Background)
  /-- `wait_packet_accounting` reads its target. -/
  | readTarget
  /-- `wait_packet_accounting` compares, before its deadline or behind it. -/
  | poll (late : Bool)

/-- The sections that are steps of the sender or of the consumer. -/
def App.Background.counts : App.Background → Bool
  | .batch _ _ _ | .sent | .lost => true
  | _ => false

/-- The step is none of the sender and none of the wait. -/
def Move.passive : Move → Bool
  | .send _ | .count | .readTarget | .poll _ => false
  | _ => true

namespace Pipeline

/-- The sender tries the queue. -/
def send (cap : ℕ) (s : Pipeline) (p : Packet) : Option Pipeline :=
  match s.sender with
  | .idle =>
      if !s.isOpen then some s
      else if s.queue.length < cap then
        some { s with queue := s.queue ++ [p], pushed := s.pushed ++ [p], sender := .pushed p }
      else some { s with sender := .refused p }
  | _ => none

/-- The sender counts. -/
def count (s : Pipeline) : Option Pipeline :=
  match s.sender with
  | .idle => none
  | .pushed _ =>
      some { s with app := { s.app with accepted := s.app.accepted + 1 }, sender := .idle }
  | .refused p =>
      some
        { s with
          app := { s.app with dropped := s.app.dropped + 1 }
          sender := .idle
          refused := s.refused ++ [p] }

/-- A step of the consumer. -/
def consume (s : Pipeline) : Move → Option Pipeline
  | .take n =>
      match s.consumer with
      | .awaiting =>
          if s.isOpen ∧ 0 < n ∧ n ≤ batchLimit ∧ n ≤ s.queue.length then
            some { s with queue := s.queue.drop n, consumer := .taken (s.queue.take n) }
          else none
      | _ => none
  | .lock =>
      match s.consumer with
      | .taken batch => some { s with consumer := .applying batch.length batch }
      | _ => none
  | .apply clock connOrder ipOrder =>
      match s.consumer with
      | .applying size (p :: rest) =>
          some
            { s with
              app := s.app.applyHeard
                { packet := p, clock := clock, connOrder := connOrder, ipOrder := ipOrder }
              consumer := if rest.isEmpty then .done size else .applying size rest
              settled := s.settled ++ [(p, .applied)] }
      | _ => none
  | .panic left =>
      match s.consumer with
      | .applying size rest =>
          some
            { s with
              app :=
                { left with
                  accepted := s.app.accepted
                  processed := s.app.processed
                  dropped := s.app.dropped }
              consumer := .panicked size rest }
      | _ => none
  | .countLost =>
      match s.consumer with
      | .panicked size rest =>
          some
            { s with
              app := { s.app with dropped := s.app.dropped + size }
              consumer := .done size
              settled := s.settled ++ rest.map fun p => (p, .lost)
              lostBatches := s.lostBatches ++ [size] }
      | _ => none
  | .countProcessed =>
      match s.consumer with
      | .done size =>
          some
            { s with
              app := { s.app with processed := s.app.processed + size }
              consumer := .awaiting }
      | _ => none
  | _ => none

/-- The lock is free. -/
def unlocked (s : Pipeline) : Bool :=
  match s.consumer with
  | .awaiting | .taken _ => true
  | _ => false

def step (cap : ℕ) (s : Pipeline) : Move → Option Pipeline
  | .send p => s.send cap p
  | .count => s.count
  | .close =>
      match s.consumer with
      | .awaiting => some { s with isOpen := false }
      | _ => none
  | .miss =>
      some { s with app := { s.app with dropped := s.app.dropped + 1 }, missed := s.missed + 1 }
  | .elsewhere b =>
      if s.unlocked && !b.counts then some { s with app := s.app.background b } else none
  | .readTarget =>
      match s.waiter with
      | .polling _ => none
      | _ => some { s with waiter := .polling s.app.accepted }
  | .poll late =>
      match s.waiter with
      | .polling target =>
          if target ≤ s.app.processed then some { s with waiter := .returned target true }
          else if late then some { s with waiter := .returned target false }
          else some s
      | _ => none
  | m => s.consume m

/-- The parties as a transition system, with a queue of `cap` packets. -/
def system (cap : ℕ) : System Pipeline Move where
  step := step cap

/-! ## What a step can do -/

/-- Every step that can fire, with what it needs and where it leads. -/
inductive Steps (cap : ℕ) (s : Pipeline) : Move → Pipeline → Prop
  | sendClosed {p : Packet} (idle : s.sender = .idle) (closed : s.isOpen = false) :
      Steps cap s (.send p) s
  | sendPushed {p : Packet} (idle : s.sender = .idle) (opened : s.isOpen = true)
      (room : s.queue.length < cap) :
      Steps cap s (.send p)
        { s with queue := s.queue ++ [p], pushed := s.pushed ++ [p], sender := .pushed p }
  | sendRefused {p : Packet} (idle : s.sender = .idle) (opened : s.isOpen = true)
      (full : cap ≤ s.queue.length) : Steps cap s (.send p) { s with sender := .refused p }
  | countPushed {p : Packet} (pushed : s.sender = .pushed p) :
      Steps cap s .count
        { s with app := { s.app with accepted := s.app.accepted + 1 }, sender := .idle }
  | countRefused {p : Packet} (refused : s.sender = .refused p) :
      Steps cap s .count
        { s with
          app := { s.app with dropped := s.app.dropped + 1 }
          sender := .idle
          refused := s.refused ++ [p] }
  | take {n : ℕ} (pc : s.consumer = .awaiting)
      (within : s.isOpen ∧ 0 < n ∧ n ≤ batchLimit ∧ n ≤ s.queue.length) :
      Steps cap s (.take n)
        { s with queue := s.queue.drop n, consumer := .taken (s.queue.take n) }
  | lock {batch : List Packet} (pc : s.consumer = .taken batch) :
      Steps cap s .lock { s with consumer := .applying batch.length batch }
  | apply {clock : Clock} {connOrder : HashOrder ConnKey} {ipOrder : HashOrder IpAddr} {size : ℕ}
      {p : Packet} {rest : List Packet} (pc : s.consumer = .applying size (p :: rest)) :
      Steps cap s (.apply clock connOrder ipOrder)
        { s with
          app := s.app.applyHeard
            { packet := p, clock := clock, connOrder := connOrder, ipOrder := ipOrder }
          consumer := if rest.isEmpty then .done size else .applying size rest
          settled := s.settled ++ [(p, .applied)] }
  | panic {left : App} {size : ℕ} {rest : List Packet} (pc : s.consumer = .applying size rest) :
      Steps cap s (.panic left)
        { s with
          app :=
            { left with
              accepted := s.app.accepted
              processed := s.app.processed
              dropped := s.app.dropped }
          consumer := .panicked size rest }
  | countLost {size : ℕ} {rest : List Packet} (pc : s.consumer = .panicked size rest) :
      Steps cap s .countLost
        { s with
          app := { s.app with dropped := s.app.dropped + size }
          consumer := .done size
          settled := s.settled ++ rest.map fun p => (p, .lost)
          lostBatches := s.lostBatches ++ [size] }
  | countProcessed {size : ℕ} (pc : s.consumer = .done size) :
      Steps cap s .countProcessed
        { s with
          app := { s.app with processed := s.app.processed + size }
          consumer := .awaiting }
  | close (pc : s.consumer = .awaiting) : Steps cap s .close { s with isOpen := false }
  | miss :
      Steps cap s .miss
        { s with app := { s.app with dropped := s.app.dropped + 1 }, missed := s.missed + 1 }
  | elsewhere {b : App.Background} (free : s.unlocked = true) (other : b.counts = false) :
      Steps cap s (.elsewhere b) { s with app := s.app.background b }
  | readTarget (free : ∀ target, s.waiter ≠ .polling target) :
      Steps cap s .readTarget { s with waiter := .polling s.app.accepted }
  | pollReached {late : Bool} {target : ℕ} (polling : s.waiter = .polling target)
      (reached : target ≤ s.app.processed) :
      Steps cap s (.poll late) { s with waiter := .returned target true }
  | pollLate {target : ℕ} (polling : s.waiter = .polling target)
      (behind : s.app.processed < target) :
      Steps cap s (.poll true) { s with waiter := .returned target false }
  | pollAgain {target : ℕ} (polling : s.waiter = .polling target)
      (behind : s.app.processed < target) : Steps cap s (.poll false) s

/-- A step of the consumer is one of those. -/
theorem steps_of_consume {cap : ℕ} {s s' : Pipeline} {m : Move} (fires : s.consume m = some s') :
    Steps cap s m s' := by
  cases m with
  | take n =>
      simp only [consume] at fires
      split at fires
      · rename_i hpc
        obtain ⟨hthere, heq⟩ := Option.ite_none_right_eq_some.mp fires
        exact Option.some.inj heq ▸ .take hpc hthere
      · contradiction
  | lock =>
      simp only [consume] at fires
      split at fires
      · rename_i batch hpc
        exact Option.some.inj fires ▸ .lock hpc
      · contradiction
  | apply clock connOrder ipOrder =>
      simp only [consume] at fires
      split at fires
      · rename_i size p rest hpc
        exact Option.some.inj fires ▸ .apply hpc
      · contradiction
  | panic left =>
      simp only [consume] at fires
      split at fires
      · rename_i size rest hpc
        exact Option.some.inj fires ▸ .panic hpc
      · contradiction
  | countLost =>
      simp only [consume] at fires
      split at fires
      · rename_i size rest hpc
        exact Option.some.inj fires ▸ .countLost hpc
      · contradiction
  | countProcessed =>
      simp only [consume] at fires
      split at fires
      · rename_i size hpc
        exact Option.some.inj fires ▸ .countProcessed hpc
      · contradiction
  | _ => contradiction

theorem steps_of_send {cap : ℕ} {s s' : Pipeline} {p : Packet} (fires : s.send cap p = some s') :
    Steps cap s (.send p) s' := by
  unfold send at fires
  split at fires
  · rename_i hidle
    split at fires
    · rename_i hclosed
      exact Option.some.inj fires ▸ .sendClosed hidle (by simpa using hclosed)
    · rename_i hopen
      have hopened : s.isOpen = true := by simpa using hopen
      split at fires
      · rename_i hroom
        exact Option.some.inj fires ▸ .sendPushed hidle hopened hroom
      · rename_i hfull
        exact Option.some.inj fires ▸ .sendRefused hidle hopened (not_lt.mp hfull)
  · contradiction

theorem steps_of_count {cap : ℕ} {s s' : Pipeline} (fires : s.count = some s') :
    Steps cap s .count s' := by
  unfold count at fires
  split at fires
  · contradiction
  · rename_i p hpushed
    exact Option.some.inj fires ▸ .countPushed hpushed
  · rename_i p hrefused
    exact Option.some.inj fires ▸ .countRefused hrefused

theorem steps_of_step {cap : ℕ} {s s' : Pipeline} {m : Move} (fires : s.step cap m = some s') :
    Steps cap s m s' := by
  cases m with
  | send p => exact steps_of_send fires
  | count => exact steps_of_count fires
  | close =>
      simp only [step] at fires
      split at fires
      · rename_i hpc
        exact Option.some.inj fires ▸ .close hpc
      · contradiction
  | miss => exact Option.some.inj fires ▸ .miss
  | elsewhere b =>
      obtain ⟨hfree, heq⟩ := Option.ite_none_right_eq_some.mp fires
      simp only [Bool.and_eq_true, Bool.not_eq_true'] at hfree
      exact Option.some.inj heq ▸ .elsewhere hfree.1 hfree.2
  | readTarget =>
      simp only [step] at fires
      split at fires
      · contradiction
      · rename_i hfree
        exact Option.some.inj fires ▸ .readTarget hfree
  | poll late =>
      simp only [step] at fires
      split at fires
      · rename_i target hpolling
        split at fires
        · rename_i hreached
          exact Option.some.inj fires ▸ .pollReached hpolling hreached
        · rename_i hbehind
          cases late with
          | true => exact Option.some.inj fires ▸ .pollLate hpolling (not_le.mp hbehind)
          | false => exact Option.some.inj fires ▸ .pollAgain hpolling (not_le.mp hbehind)
      · contradiction
  | take n => exact steps_of_consume fires
  | lock => exact steps_of_consume fires
  | apply clock connOrder ipOrder => exact steps_of_consume fires
  | panic left => exact steps_of_consume fires
  | countLost => exact steps_of_consume fires
  | countProcessed => exact steps_of_consume fires

/-! ## What the counters say -/

/-- The packets that are taken and whose fate is open. -/
def inHand (s : Pipeline) : List Packet :=
  match s.consumer with
  | .taken batch => batch
  | .applying _ rest | .panicked _ rest => rest
  | .awaiting | .done _ => []

/-- The packets whose fate is known and that are not yet counted as processed. -/
def uncounted (s : Pipeline) : ℕ :=
  match s.consumer with
  | .applying size rest | .panicked size rest => size - rest.length
  | .done size => size
  | .awaiting | .taken _ => 0

/-- The batch in hand is the rest of a batch of its size. -/
def Sized (s : Pipeline) : Prop :=
  match s.consumer with
  | .applying size rest | .panicked size rest => rest.length ≤ size
  | _ => True

/-- The packets that are in the queue and not yet counted as accepted. -/
def unaccepted (s : Pipeline) : List Packet :=
  match s.sender with
  | .pushed p => [p]
  | _ => []

/-- The counters and the record agree. -/
structure Accounted (s : Pipeline) : Prop where
  /-- The queue gives the packets out in the order in which it took them in. -/
  stream : s.settled.map Prod.fst ++ s.inHand ++ s.queue = s.pushed
  sized : s.Sized
  accepted : s.app.accepted + s.unaccepted.length = s.pushed.length
  last : s.unaccepted <:+ s.pushed
  processed : s.app.processed + s.uncounted = s.settled.length
  dropped : s.app.dropped = s.refused.length + s.lostBatches.sum + s.missed
  lost : s.settled.countP (fun entry => entry.2 = .lost) ≤ s.lostBatches.sum

theorem initial_accounted (g : App) : Accounted (initial g) where
  stream := rfl
  sized := trivial
  accepted := rfl
  last := List.suffix_refl _
  processed := rfl
  dropped := rfl
  lost := le_rfl

end Pipeline

/-- The counters of the packets are the same. -/
structure App.SameCounters (g g' : App) : Prop where
  accepted : g'.accepted = g.accepted
  processed : g'.processed = g.processed
  dropped : g'.dropped = g.dropped

theorem App.refreshSelectedGroup_counters (g : App) (processes : List ProcInfo) (full : Bool) :
    SameCounters g (g.refreshSelectedGroup processes full) := by
  unfold refreshSelectedGroup
  split
  · exact ⟨rfl, rfl, rfl⟩
  · split
    · exact ⟨rfl, rfl, rfl⟩
    · split
      · split <;> exact ⟨rfl, rfl, rfl⟩
      · exact ⟨rfl, rfl, rfl⟩

theorem App.applyScan_counters (g : App) (p : Poll) : SameCounters g (g.applyScan p) := by
  unfold applyScan
  split
  · rename_i procs _
    have h := g.refreshSelectedGroup_counters procs true
    exact ⟨h.accepted, h.processed, h.dropped⟩
  · rename_i scanned procs _
    have h := refreshSelectedGroup_counters
      { g with procs := (g.procs.filter fun q => q.pid ∉ scanned) ++ procs }
      ((g.procs.filter fun q => q.pid ∉ scanned) ++ procs) false
    exact ⟨h.accepted, h.processed, h.dropped⟩

/-- The sections that are no step of the sender or the consumer leave the counters
as they are. -/
theorem App.background_counters (g : App) {b : Background} (h : b.counts = false) :
    SameCounters g (g.background b) := by
  cases b with
  | poll p =>
      have hscan := g.applyScan_counters p
      exact ⟨hscan.accepted, hscan.processed, hscan.dropped⟩
  | batch heard size panicked => contradiction
  | sent => contradiction
  | lost => contradiction
  | _ => exact ⟨rfl, rfl, rfl⟩

namespace Pipeline

section Steps

variable {cap : ℕ} {s s' : Pipeline}

/-- What the record says while the consumer is at a place. -/
theorem Accounted.at_consumer (h : Accounted s) {pc : ConsumerPc} (hpc : s.consumer = pc) :
    s.settled.map Prod.fst ++ { s with consumer := pc }.inHand ++ s.queue = s.pushed ∧
      { s with consumer := pc }.Sized ∧
      s.app.processed + { s with consumer := pc }.uncounted = s.settled.length := by
  subst hpc
  exact ⟨h.stream, h.sized, h.processed⟩

/-- What the counter of accepted packets says while the sender is at a place. -/
theorem Accounted.at_sender (h : Accounted s) {pc : SenderPc} (hpc : s.sender = pc) :
    s.app.accepted + { s with sender := pc }.unaccepted.length = s.pushed.length := by
  subst hpc
  exact h.accepted

/-- The consumer applies a packet. -/
theorem Accounted.apply (h : Accounted s) {app : App} {size : ℕ} {p : Packet} {rest : List Packet}
    (hpc : s.consumer = .applying size (p :: rest)) (haccepted : app.accepted = s.app.accepted)
    (hprocessed : app.processed = s.app.processed) (hdropped : app.dropped = s.app.dropped) :
    Accounted
      { s with
        app := app
        consumer := if rest.isEmpty then .done size else .applying size rest
        settled := s.settled ++ [(p, .applied)] } := by
  obtain ⟨hstream, hsized, hcounted⟩ := h.at_consumer hpc
  change s.settled.map Prod.fst ++ (p :: rest) ++ s.queue = s.pushed at hstream
  change rest.length + 1 ≤ size at hsized
  change s.app.processed + (size - (rest.length + 1)) = s.settled.length at hcounted
  have haccepted' : app.accepted + s.unaccepted.length = s.pushed.length := by
    rw [haccepted]
    exact h.accepted
  have hdropped' : app.dropped = s.refused.length + s.lostBatches.sum + s.missed :=
    hdropped.trans h.dropped
  have hlength : (s.settled ++ [(p, Fate.applied)]).length = s.settled.length + 1 :=
    List.length_append
  have hlost : (s.settled ++ [(p, Fate.applied)]).countP (fun entry => entry.2 = .lost) ≤
      s.lostBatches.sum := by
    rw [List.countP_append]
    exact h.lost
  cases rest with
  | nil =>
      refine ⟨?_, trivial, haccepted', h.last, ?_, hdropped', hlost⟩
      · change (s.settled ++ [(p, Fate.applied)]).map Prod.fst ++ [] ++ s.queue = s.pushed
        rw [← hstream]
        simp
      · change app.processed + size = (s.settled ++ [(p, Fate.applied)]).length
        rw [List.length_nil] at hsized hcounted
        omega
  | cons q rest =>
      refine ⟨?_, ?_, haccepted', h.last, ?_, hdropped', hlost⟩
      · change (s.settled ++ [(p, Fate.applied)]).map Prod.fst ++ (q :: rest) ++ s.queue = s.pushed
        rw [← hstream]
        simp
      · change (q :: rest).length ≤ size
        omega
      · change app.processed + (size - (q :: rest).length) =
          (s.settled ++ [(p, Fate.applied)]).length
        omega

/-- The batch of a packet that panicked is counted as dropped. -/
theorem Accounted.countLost (h : Accounted s) {size : ℕ} {rest : List Packet}
    (hpc : s.consumer = .panicked size rest) :
    Accounted
      { s with
        app := { s.app with dropped := s.app.dropped + size }
        consumer := .done size
        settled := s.settled ++ rest.map fun p => (p, .lost)
        lostBatches := s.lostBatches ++ [size] } := by
  obtain ⟨hstream, hsized, hprocessed⟩ := h.at_consumer hpc
  change s.settled.map Prod.fst ++ rest ++ s.queue = s.pushed at hstream
  change rest.length ≤ size at hsized
  change s.app.processed + (size - rest.length) = s.settled.length at hprocessed
  have hdropped := h.dropped
  have hlost := h.lost
  refine ⟨?_, trivial, h.accepted, h.last, ?_, ?_, ?_⟩
  · change (s.settled ++ rest.map fun p => (p, Fate.lost)).map Prod.fst ++ [] ++ s.queue = s.pushed
    rw [← hstream, List.map_append, List.map_map, List.append_nil]
    congr 2
    exact List.map_id rest
  · change s.app.processed + size = (s.settled ++ rest.map fun p => (p, Fate.lost)).length
    rw [List.length_append, List.length_map]
    omega
  · change s.app.dropped + size = s.refused.length + (s.lostBatches ++ [size]).sum + s.missed
    rw [List.sum_append, List.sum_singleton]
    omega
  · change (s.settled ++ rest.map fun p => (p, Fate.lost)).countP
      (fun entry => entry.2 = .lost) ≤ (s.lostBatches ++ [size]).sum
    have hrest := (rest.map fun p => (p, Fate.lost)).countP_le_length
      (p := fun entry => decide (entry.2 = .lost))
    rw [List.length_map] at hrest
    rw [List.countP_append, List.sum_append, List.sum_singleton]
    omega

theorem Accounted.step (h : Accounted s) {m : Move} (fires : s.step cap m = some s') :
    Accounted s' := by
  cases steps_of_step fires with
  | sendClosed => exact h
  | @sendPushed p idle =>
      have haccepted := h.at_sender idle
      have hstream := h.stream
      refine ⟨?_, h.sized, ?_, ⟨s.pushed, rfl⟩, h.processed, h.dropped, h.lost⟩
      · change s.settled.map Prod.fst ++ s.inHand ++ (s.queue ++ [p]) = s.pushed ++ [p]
        rw [← List.append_assoc, hstream]
      · change s.app.accepted + 1 = (s.pushed ++ [p]).length
        rw [List.length_append]
        exact congrArg (· + 1) haccepted
  | sendRefused idle =>
      have haccepted := h.at_sender idle
      exact ⟨h.stream, h.sized, haccepted, List.nil_suffix, h.processed, h.dropped, h.lost⟩
  | countPushed pushed =>
      have haccepted := h.at_sender pushed
      exact ⟨h.stream, h.sized, haccepted, List.nil_suffix, h.processed, h.dropped, h.lost⟩
  | @countRefused p refused =>
      have haccepted := h.at_sender refused
      have hdropped := h.dropped
      refine ⟨h.stream, h.sized, haccepted, List.nil_suffix, h.processed, ?_, h.lost⟩
      change s.app.dropped + 1 = (s.refused ++ [p]).length + s.lostBatches.sum + s.missed
      rw [List.length_append, List.length_singleton]
      omega
  | @take n pc =>
      obtain ⟨hstream, -, hprocessed⟩ := h.at_consumer pc
      refine ⟨?_, trivial, h.accepted, h.last, hprocessed, h.dropped, h.lost⟩
      change s.settled.map Prod.fst ++ s.queue.take n ++ s.queue.drop n = s.pushed
      rw [List.append_assoc, List.take_append_drop]
      simpa [inHand] using hstream
  | @lock batch pc =>
      obtain ⟨hstream, -, hprocessed⟩ := h.at_consumer pc
      refine ⟨hstream, le_rfl, h.accepted, h.last, ?_, h.dropped, h.lost⟩
      change s.app.processed + (batch.length - batch.length) = s.settled.length
      rw [Nat.sub_self]
      exact hprocessed
  | apply pc => exact h.apply pc rfl rfl rfl
  | panic pc =>
      obtain ⟨hstream, hsized, hprocessed⟩ := h.at_consumer pc
      exact ⟨hstream, hsized, h.accepted, h.last, hprocessed, h.dropped, h.lost⟩
  | countLost pc => exact h.countLost pc
  | countProcessed pc =>
      obtain ⟨hstream, -, hprocessed⟩ := h.at_consumer pc
      exact ⟨hstream, trivial, h.accepted, h.last, hprocessed, h.dropped, h.lost⟩
  | miss =>
      refine ⟨h.stream, h.sized, h.accepted, h.last, h.processed, ?_, h.lost⟩
      have hdropped := h.dropped
      change s.app.dropped + 1 = s.refused.length + s.lostBatches.sum + (s.missed + 1)
      omega
  | elsewhere _ other =>
      have hsame := s.app.background_counters other
      refine ⟨h.stream, h.sized, ?_, h.last, ?_, ?_, h.lost⟩
      · exact (congrArg (· + s.unaccepted.length) hsame.accepted).trans h.accepted
      · exact (congrArg (· + s.uncounted) hsame.processed).trans h.processed
      · exact hsame.dropped.trans h.dropped
  | close | readTarget | pollReached | pollLate | pollAgain =>
      exact ⟨h.stream, h.sized, h.accepted, h.last, h.processed, h.dropped, h.lost⟩

end Steps

/-! ## What no step takes back -/

/-- What was put into the queue, counted or decided stays so. -/
structure Grows (s s' : Pipeline) : Prop where
  pushed : s.pushed <+: s'.pushed
  settled : s.settled <+: s'.settled
  refused : s.refused <+: s'.refused
  accepted : s.app.accepted ≤ s'.app.accepted
  processed : s.app.processed ≤ s'.app.processed

theorem Grows.refl (s : Pipeline) : Grows s s :=
  ⟨List.prefix_refl _, List.prefix_refl _, List.prefix_refl _, le_rfl, le_rfl⟩

/-- A step that leaves the record and the counters alone. -/
theorem grows_of_same {s s' : Pipeline} (hpushed : s'.pushed = s.pushed)
    (hsettled : s'.settled = s.settled) (hrefused : s'.refused = s.refused)
    (haccepted : s'.app.accepted = s.app.accepted)
    (hprocessed : s'.app.processed = s.app.processed) : Grows s s' :=
  ⟨hpushed ▸ List.prefix_refl _, hsettled ▸ List.prefix_refl _, hrefused ▸ List.prefix_refl _,
    haccepted.ge, hprocessed.ge⟩

theorem Grows.trans {s s' s'' : Pipeline} (first : Grows s s') (second : Grows s' s'') :
    Grows s s'' :=
  ⟨first.pushed.trans second.pushed, first.settled.trans second.settled,
    first.refused.trans second.refused, first.accepted.trans second.accepted,
    first.processed.trans second.processed⟩

/-- The consumer leaves the sender and the wait alone. -/
structure Consumes (s s' : Pipeline) : Prop where
  grows : Grows s s'
  sender : s'.sender = s.sender
  refused : s'.refused = s.refused
  waiter : s'.waiter = s.waiter

/-- The sender and the wait move by their own steps only. -/
theorem step_passive {cap : ℕ} {s s' : Pipeline} {m : Move} (hpassive : m.passive = true)
    (fires : s.step cap m = some s') : Consumes s s' := by
  have settles (added : List (Packet × Fate)) : s.settled <+: s.settled ++ added :=
    List.prefix_append _ _
  cases steps_of_step fires with
  | take | lock | panic | close | miss =>
      exact ⟨grows_of_same rfl rfl rfl rfl rfl, rfl, rfl, rfl⟩
  | apply | countLost =>
      exact ⟨⟨List.prefix_refl _, settles _, List.prefix_refl _, le_rfl, le_rfl⟩, rfl, rfl, rfl⟩
  | countProcessed =>
      exact ⟨⟨List.prefix_refl _, List.prefix_refl _, List.prefix_refl _, le_rfl,
        Nat.le_add_right _ _⟩, rfl, rfl, rfl⟩
  | elsewhere _ other =>
      have hsame := s.app.background_counters other
      exact ⟨⟨List.prefix_refl _, List.prefix_refl _, List.prefix_refl _, hsame.accepted.ge,
        hsame.processed.ge⟩, rfl, rfl, rfl⟩
  | _ => contradiction

theorem step_grows {cap : ℕ} {s s' : Pipeline} {m : Move} (fires : s.step cap m = some s') :
    Grows s s' := by
  cases hpassive : m.passive with
  | true => exact (step_passive hpassive fires).grows
  | false =>
      cases steps_of_step fires with
      | sendClosed | sendRefused | readTarget | pollReached | pollLate | pollAgain =>
          exact grows_of_same rfl rfl rfl rfl rfl
      | sendPushed =>
          exact ⟨List.prefix_append _ _, List.prefix_refl _, List.prefix_refl _, le_rfl, le_rfl⟩
      | countPushed =>
          exact ⟨List.prefix_refl _, List.prefix_refl _, List.prefix_refl _, Nat.le_succ _, le_rfl⟩
      | countRefused =>
          exact ⟨List.prefix_refl _, List.prefix_refl _, List.prefix_append _ _, le_rfl, le_rfl⟩
      | _ => contradiction

theorem grows_of_run {cap : ℕ} {s₀ s : Pipeline} {hist : History Pipeline Move}
    (run : Run (system cap) s₀ hist s) : Grows s₀ s :=
  run.invariant (.refl s₀) fun _ _ _ h fires => h.trans (step_grows fires)

/-! ## The wait -/

/-- A wait for `target` is under way, or it has returned, in time only when so many
packets were processed. -/
def Waits (target : ℕ) (s : Pipeline) : Prop :=
  s.waiter = .polling target ∨
    ∃ inTime, s.waiter = .returned target inTime ∧ (inTime = true → target ≤ s.app.processed)

theorem Waits.step {cap target : ℕ} {s s' : Pipeline} {m : Move} (h : Waits target s)
    (hother : m ≠ .readTarget) (fires : s.step cap m = some s') : Waits target s' := by
  have hgrows := step_grows fires
  have kept (hwaiter : s'.waiter = s.waiter) : Waits target s' := by
    rcases h with hpolling | ⟨inTime, hreturned, hprocessed⟩
    · exact .inl (hwaiter.trans hpolling)
    · exact .inr ⟨inTime, hwaiter.trans hreturned,
        fun htrue => (hprocessed htrue).trans hgrows.processed⟩
  cases hpassive : m.passive with
  | true => exact kept (step_passive hpassive fires).waiter
  | false =>
      cases steps_of_step fires with
      | sendClosed | sendPushed | sendRefused | countPushed | countRefused => exact kept rfl
      | readTarget => exact absurd rfl hother
      | @pollReached late other polling reached =>
          rcases h with hpolling | ⟨inTime, hreturned, -⟩
          · obtain rfl := WaiterPc.polling.inj (hpolling.symm.trans polling)
            exact .inr ⟨true, rfl, fun _ => reached⟩
          · rw [hreturned] at polling
            contradiction
      | pollLate polling =>
          rcases h with hpolling | ⟨inTime, hreturned, -⟩
          · obtain rfl := WaiterPc.polling.inj (hpolling.symm.trans polling)
            exact .inr ⟨false, rfl, fun hfalse => by contradiction⟩
          · rw [hreturned] at polling
            contradiction
      | pollAgain => exact kept rfl
      | _ => contradiction

/-! ## Packets that are refused, and packets that are settled -/

/-- The packet is about to be counted as the `n`-th refused one, or it is. -/
def Refused (n : ℕ) (p : Packet) (s : Pipeline) : Prop :=
  (s.sender = .refused p ∧ s.refused.length = n) ∨ s.refused[n]? = some p

theorem Refused.step {cap n : ℕ} {p : Packet} {s s' : Pipeline} {m : Move} (h : Refused n p s)
    (fires : s.step cap m = some s') : Refused n p s' := by
  rcases h with ⟨hsender, hlength⟩ | hcounted
  · cases hpassive : m.passive with
    | true =>
        have hstep := step_passive hpassive fires
        exact .inl ⟨hstep.sender.trans hsender, (congrArg List.length hstep.refused).trans hlength⟩
    | false =>
        cases steps_of_step fires with
        | sendClosed idle | sendPushed idle | sendRefused idle =>
            rw [hsender] at idle
            contradiction
        | countPushed pushed =>
            rw [hsender] at pushed
            contradiction
        | countRefused refused =>
            obtain rfl := SenderPc.refused.inj (hsender.symm.trans refused)
            right
            subst hlength
            exact List.getElem?_concat_length
        | readTarget | pollReached | pollLate | pollAgain => exact .inl ⟨hsender, hlength⟩
        | _ => contradiction
  · exact .inr (getElem?_front_eq_some (step_grows fires).refused hcounted)

/-- What has become of a packet sent while the record was that of `before`: it was
put into the queue, it is counted as dropped, or the sender is about to do so. -/
def Handled (before s : Pipeline) (p : Packet) : Prop :=
  s.pushed[before.pushed.length]? = some p ∨ Refused before.refused.length p s

theorem Handled.step {cap : ℕ} {p : Packet} {before s s' : Pipeline} {m : Move}
    (h : Handled before s p) (fires : s.step cap m = some s') : Handled before s' p :=
  h.imp (fun hpushed => getElem?_front_eq_some (step_grows fires).pushed hpushed)
    fun hrefused => hrefused.step fires

/-- An open queue takes the packet or is full. -/
theorem handled_of_send {cap : ℕ} {p : Packet} {s s' : Pipeline} (hopen : s.isOpen = true)
    (fires : s.step cap (.send p) = some s') : Handled s s' p := by
  cases steps_of_step fires with
  | sendClosed _ closed =>
      rw [hopen] at closed
      contradiction
  | sendPushed => exact .inl List.getElem?_concat_length
  | sendRefused => exact .inr (.inl ⟨rfl, rfl⟩)

/-- The step of a history that decided about a packet: it was applied at its place,
or the batch that it was left in was counted as dropped. -/
def Decided (hist : History Pipeline Move) (n : ℕ) (p : Packet) : Fate → Prop
  | .applied =>
      ∃ before clock connOrder ipOrder size rest,
        (before, Move.apply clock connOrder ipOrder) ∈ hist ∧
          before.consumer = .applying size (p :: rest) ∧ before.settled.length = n
  | .lost =>
      ∃ before size rest, (before, Move.countLost) ∈ hist ∧
        before.consumer = .panicked size rest ∧ p ∈ rest

theorem Decided.cons {hist : History Pipeline Move} {n : ℕ} {p : Packet} {fate : Fate}
    (h : Decided hist n p fate) (entry : Pipeline × Move) : Decided (entry :: hist) n p fate := by
  cases fate with
  | applied =>
      obtain ⟨before, clock, connOrder, ipOrder, size, rest, hmem, hfacts⟩ := h
      exact ⟨before, clock, connOrder, ipOrder, size, rest, List.mem_cons_of_mem _ hmem, hfacts⟩
  | lost =>
      obtain ⟨before, size, rest, hmem, hfacts⟩ := h
      exact ⟨before, size, rest, List.mem_cons_of_mem _ hmem, hfacts⟩

/-- A step that settles a packet decides about it. -/
theorem decided_of_step {cap : ℕ} {s s' : Pipeline} {m : Move} (hist : History Pipeline Move)
    (fires : s.step cap m = some s') {n : ℕ} {p : Packet} {fate : Fate}
    (hsettled : s'.settled[n]? = some (p, fate)) :
    s.settled[n]? = some (p, fate) ∨ Decided ((s, m) :: hist) n p fate := by
  cases steps_of_step fires with
  | @apply clock connOrder ipOrder size q rest pc =>
      dsimp only at hsettled
      rw [List.getElem?_append] at hsettled
      split at hsettled
      · exact .inl hsettled
      · rename_i hbehind
        obtain ⟨hplace, hentry⟩ := List.getElem?_eq_some_iff.mp hsettled
        rw [List.length_singleton] at hplace
        rw [List.getElem_singleton] at hentry
        obtain ⟨rfl, rfl⟩ := Prod.mk.inj hentry
        right
        exact ⟨s, clock, connOrder, ipOrder, size, rest, List.mem_cons_self .., pc, by omega⟩
  | @countLost size rest pc =>
      dsimp only at hsettled
      rw [List.getElem?_append] at hsettled
      split at hsettled
      · exact .inl hsettled
      · obtain ⟨q, hq, hentry⟩ := List.mem_map.mp (List.mem_of_getElem? hsettled)
        obtain ⟨rfl, rfl⟩ := Prod.mk.inj hentry
        exact .inr ⟨s, size, rest, List.mem_cons_self .., pc, hq⟩
  -- no other step settles a packet
  | _ => exact .inl hsettled

theorem accounted_of_run {cap : ℕ} {g : App} {hist : History Pipeline Move} {s : Pipeline}
    (run : Run (system cap) (initial g) hist s) : Accounted s :=
  run.invariant (initial_accounted g) fun _ _ _ h fires => h.step fires

theorem decided_of_run {cap : ℕ} {g : App} {hist : History Pipeline Move} {s : Pipeline}
    (run : Run (system cap) (initial g) hist s) :
    ∀ n p fate, s.settled[n]? = some (p, fate) → Decided hist n p fate := by
  apply run.historyInvariant (P := fun hist s =>
    ∀ n p fate, s.settled[n]? = some (p, fate) → Decided hist n p fate)
  · intro n p fate h
    contradiction
  · intro hist s m s' _ ih fires n p fate h
    rcases decided_of_step hist fires h with hold | hnew
    · exact (ih n p fate hold).cons (s, m)
    · exact hnew

/-- A wait returns in time only when the packets that were accepted at its start
are settled. -/
theorem settled_of_wait {cap : ℕ} {g : App} {later earlier : History Pipeline Move}
    {w s : Pipeline} {target : ℕ}
    (run : Run (system cap) (initial g) (later ++ (w, .readTarget) :: earlier) s)
    (hlater : ∀ entry ∈ later, entry.2 ≠ .readTarget)
    (hreturned : s.waiter = .returned target true) {before : Pipeline} {p : Packet}
    (hcounted : (before, Move.count) ∈ earlier) (hpushed : before.sender = .pushed p) :
    ∃ fate, s.settled[before.pushed.length - 1]? = some (p, fate) := by
  -- the state that the wait starts in, and the run behind it
  obtain ⟨start, hstart, hbehind⟩ := run.split
  cases hstart with
  | next hprior fires =>
      have hwaitStep : w.step cap .readTarget = some start := fires
      have hwaits : Waits w.app.accepted start := by
        cases steps_of_step hwaitStep with
        | readTarget => exact .inl rfl
      have hend : Waits w.app.accepted s := by
        refine hbehind.invariant_of_guard (G := fun _ m => m ≠ .readTarget) hwaits ?_ hlater
        intro _ _ _ h hother fires
        exact h.step hother fires
      have hreached : w.app.accepted ≤ s.app.processed := by
        rcases hend with hpolling | ⟨inTime, hend, hprocessed⟩
        · rw [hreturned] at hpolling
          contradiction
        · rw [hreturned] at hend
          obtain ⟨-, rfl⟩ := WaiterPc.returned.inj hend
          exact hprocessed rfl
      -- the count of the packet, in front of the wait
      obtain ⟨later', earlier', rfl⟩ := List.append_of_mem hcounted
      obtain ⟨counted, hcount, hbefore⟩ := hprior.split
      cases hcount with
      | next hfirst hfires =>
          have haccounted := accounted_of_run hfirst
          have hend := accounted_of_run run
          have hcountStep : before.step cap .count = some counted := hfires
          have hnext : counted.app.accepted = before.app.accepted + 1 := by
            cases steps_of_step hcountStep with
            | countPushed => rfl
            | countRefused refused =>
                rw [hpushed] at refused
                contradiction
          have hgrows : Grows before s := (step_grows hcountStep).trans
            ((grows_of_run hbefore).trans ((step_grows hwaitStep).trans (grows_of_run hbehind)))
          have hstart := (grows_of_run hbefore).accepted
          have hposition : before.app.accepted + 1 = before.pushed.length := by
            have haccepted := haccounted.accepted
            unfold unaccepted at haccepted
            rw [hpushed] at haccepted
            exact haccepted
          have hsettled : before.pushed.length - 1 < s.settled.length := by
            have hprocessed := hend.processed
            omega
          have hlast : before.pushed[before.pushed.length - 1]? = some p := by
            have hsuffix := haccounted.last
            unfold unaccepted at hsuffix
            rw [hpushed] at hsuffix
            obtain ⟨front, hfront⟩ := hsuffix
            rw [← hfront, List.length_append, List.length_singleton, Nat.add_sub_cancel]
            exact List.getElem?_concat_length
          have hplace : (s.settled.map Prod.fst)[before.pushed.length - 1]? = some p := by
            have hpast := getElem?_front_eq_some hgrows.pushed hlast
            rw [← hend.stream, List.append_assoc, List.getElem?_append_left
              (by rw [List.length_map]; exact hsettled)] at hpast
            exact hpast
          rw [List.getElem?_map, Option.map_eq_some_iff] at hplace
          obtain ⟨⟨q, fate⟩, hentry, rfl⟩ := hplace
          exact ⟨fate, hentry⟩

/-- The step of the consumer that applies a packet. -/
def applies (h : App.Heard) : Move := .apply h.clock h.connOrder h.ipOrder

/-- The steps of a batch without a panic come to the section of a batch, as the
program has it. -/
theorem play_batch (cap : ℕ) (hist : History Pipeline Move) {s : Pipeline} {size : ℕ}
    {heard : List App.Heard} (hbatch : heard ≠ [])
    (hpc : s.consumer = .applying size (heard.map App.Heard.packet)) :
    ((system cap).play hist s (heard.map applies ++ [.countProcessed])).2.app =
      s.app.applyBatch heard size false := by
  induction heard generalizing hist s with
  | nil => exact absurd rfl hbatch
  | cons h rest ih =>
      rw [List.map_cons] at hpc
      have hstep : (system cap).step s (applies h) =
          some
            { s with
              app := s.app.applyHeard h
              consumer :=
                if (rest.map App.Heard.packet).isEmpty then .done size
                else .applying size (rest.map App.Heard.packet)
              settled := s.settled ++ [(h.packet, .applied)] } := by
        simp only [system, Pipeline.step, applies, Pipeline.consume, hpc]
      rw [List.map_cons, List.cons_append, System.play, hstep]
      dsimp only
      cases rest with
      | nil => rfl
      | cons next rest =>
          rw [ih _ (List.cons_ne_nil next rest) rfl]
          have hfold : (h :: next :: rest).foldl App.applyHeard s.app =
              (next :: rest).foldl App.applyHeard (s.app.applyHeard h) := rfl
          rw [App.applyBatch, App.applyBatch, hfold]

end Pipeline

/-- In every run, the counters never run ahead of the queue, a packet sent to an
open queue is in it or counted as dropped, and a wait that returns in time comes
after the fate of every packet that was accepted when it read its target: the
packet was applied, or its batch is counted as dropped. The steps that are left to
a batch without a panic come to the section of a batch of the whole program. -/
theorem accepted_accounted {cap : ℕ} {g : App} {hist : History Pipeline Move} {s : Pipeline}
    (run : Run (Pipeline.system cap) (.initial g) hist s) :
    (s.app.accepted ≤ s.pushed.length ∧ s.app.processed ≤ s.pushed.length) ∧
    (∀ before p, (before, Move.send p) ∈ hist → before.isOpen = true →
      Pipeline.Handled before s p) ∧
    (s.app.dropped = s.refused.length + s.lostBatches.sum + s.missed ∧
      s.settled.countP (fun entry => entry.2 = .lost) ≤ s.lostBatches.sum) ∧
    (∀ later earlier w target, hist = later ++ (w, .readTarget) :: earlier →
      (∀ entry ∈ later, entry.2 ≠ .readTarget) → s.waiter = .returned target true →
      ∀ before p, (before, Move.count) ∈ earlier → before.sender = .pushed p →
        ∃ fate, s.settled[before.pushed.length - 1]? = some (p, fate) ∧
          Pipeline.Decided hist (before.pushed.length - 1) p fate) ∧
    ∀ size (heard : List App.Heard), heard ≠ [] →
      s.consumer = .applying size (heard.map App.Heard.packet) →
      ((Pipeline.system cap).play hist s (heard.map Pipeline.applies ++ [.countProcessed])).2.app =
        s.app.applyBatch heard size false := by
  have haccounted := Pipeline.accounted_of_run run
  refine ⟨⟨?_, ?_⟩, ?_, ⟨haccounted.dropped, haccounted.lost⟩, ?_,
    fun size heard hbatch hpc => Pipeline.play_batch cap hist hbatch hpc⟩
  · have haccepted := haccounted.accepted
    omega
  · have hprocessed := haccounted.processed
    have hstream := congrArg List.length haccounted.stream
    simp only [List.length_append, List.length_map] at hstream
    omega
  · intro before p hsent hopen
    obtain ⟨later, earlier, rfl⟩ := List.append_of_mem hsent
    obtain ⟨sent, hstart, hbehind⟩ := run.split
    cases hstart with
    | next _ fires =>
        have hsend : before.step cap (.send p) = some sent := fires
        apply hbehind.invariant (P := fun s => Pipeline.Handled before s p)
        · exact Pipeline.handled_of_send hopen hsend
        · intro _ _ _ h hstep
          exact h.step hstep
  · rintro later earlier w target rfl hlater hreturned before p hcounted hpushed
    obtain ⟨fate, hsettled⟩ := Pipeline.settled_of_wait run hlater hreturned hcounted hpushed
    exact ⟨fate, hsettled, Pipeline.decided_of_run run _ _ _ hsettled⟩

/-- A packet for the queue, from the port. -/
def queuedPacket (sport : UInt16) : Packet where
  proto := .tcp
  src := .ofOctets 10 0 0 1
  sport := sport
  dst := .ofOctets 1 1 1 1
  dport := 443
  bytes := 60
  sni := none
  dnsAddrs := []

/-- Three packets are accepted and a wait begins. The first two are one batch, in which
the second packet panics; the third comes behind them, and the wait returns. A fourth
packet is accepted after the wait has read its target. -/
def sampleMoves : List Move :=
  [.send (queuedPacket 5000), .count, .send (queuedPacket 5001), .count, .take 2,
    .send (queuedPacket 5002), .count, .readTarget, .send (queuedPacket 5003), .count, .lock,
    .apply (.still 0) .stored .stored, .panic (.initial (Store.empty 0) "" (fun _ => none) 1),
    .countLost, .countProcessed, .poll false, .take 2, .lock, .apply (.still 1) .stored .stored,
    .apply (.still 2) .stored .stored, .countProcessed, .poll false]

def samplePipeline : History Pipeline Move × Pipeline :=
  (Pipeline.system 8192).play []
    (.initial (.initial (Store.empty 0) "" (fun _ => none) 1)) sampleMoves

/-- The wait returns in time, and by then every packet counted before it is decided: the
second is lost with its batch, the others are applied. -/
theorem accepted_accounted_sample :
    samplePipeline.2.waiter = .returned 3 true ∧
      samplePipeline.2.settled.map Prod.snd = [.applied, .lost, .applied, .applied] ∧
      (∃ fate, samplePipeline.2.settled[1]? = some (queuedPacket 5001, fate) ∧
        Pipeline.Decided samplePipeline.1 1 (queuedPacket 5001) fate) ∧
      ∃ fate, samplePipeline.2.settled[2]? = some (queuedPacket 5002, fate) ∧
        Pipeline.Decided samplePipeline.1 2 (queuedPacket 5002) fate := by
  have run : Run (Pipeline.system 8192) _ samplePipeline.1 samplePipeline.2 :=
    Run.start.play sampleMoves
  have hlater : ∀ entry ∈ samplePipeline.1.take 14, entry.2 ≠ .readTarget := by
    change ∀ entry ∈ [_, _, _, _, _, _, _, _, _, _, _, _, _, _], _
    simp
  have hwait := (accepted_accounted run).2.2.2.1 (samplePipeline.1.take 14)
    (samplePipeline.1.drop 15) _ 3 rfl hlater rfl
  have hsecond := hwait _ (queuedPacket 5001) (.tail _ (.tail _ (.tail _ (.head _)))) rfl
  have hthird := hwait _ (queuedPacket 5002) (.head _) rfl
  exact ⟨rfl, rfl, hsecond, hthird⟩

end SocketTrail.Program
