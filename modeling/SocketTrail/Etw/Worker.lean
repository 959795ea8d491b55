/-
# The worker of the event capture

The callback of the driver queues copies of its events, and the requests queue
their commands behind them. One worker takes them in order: it passes the first
copy of every packet on to the live queue and, while it records, to the file.
`accepted` lists these packets for a history of the worker, and `Recording` says
what it has written of them.

`offered` and `replies` are a record of what the worker said. No step reads them.
-/

import SocketTrail.Etw.Format
import SocketTrail.Foundation.Buffered
import SocketTrail.Foundation.Execution
import SocketTrail.Annotate.Rewrite
import Mathlib.Data.Finset.Option

namespace SocketTrail.Etw

open SocketTrail.Foundation SocketTrail.Net SocketTrail.Annotate SocketTrail.Pcap

/-! ## Copies of a packet -/

/-- The packets seen last, in the order of their first copies. -/
structure Dedup where
  order : List (ℕ × ℕ)
  set : Finset (ℕ × ℕ)

/-- How many packets are remembered. -/
def dedupLimit : ℕ := 8192

/-- Remember a packet, and forget the oldest one when there are too many. -/
def Dedup.remember (d : Dedup) (id : ℕ × ℕ) : Dedup :=
  let order := d.order ++ [id]
  let set := insert id d.set
  if dedupLimit < order.length then
    { order := order.tail, set := set \ order.head?.toFinset }
  else { order := order, set := set }

/-- Whether this is the first copy of a packet. -/
def Dedup.first (d : Dedup) (id : ℕ × ℕ) : Bool × Dedup :=
  if id ∈ d.set then (false, d) else (true, d.remember id)

/-! ## The state -/

/-- The capacity of the buffer in front of the file. -/
def bufferSize : ℕ := 2 ^ 20

/-- The file that is written, and the first error it met. -/
structure DumpWriter where
  path : String
  out : Buffered UInt8 bufferSize
  error : Option String

/-- What the queue of the live packets said. -/
inductive TrySend
  | sent | full | closed
  deriving DecidableEq, Repr

structure Worker where
  running : Bool
  seen : Dedup
  parsers : Parsers
  /-- The number of frames read, which tells the clock readings of the next one. -/
  frames : ℕ
  dump : Option DumpWriter
  fs : Fs
  /-- The error that the requests see. -/
  error : Option String
  /-- The events that were not understood. -/
  bad : ℕ
  dropped : ℕ
  accepted : ℕ
  /-- The packets handed to the live queue, with its answers. -/
  offered : List (Packet × TrySend)
  /-- The answers to the commands. -/
  replies : List (Except String Unit)

/-- A worker that starts. -/
def Worker.initial (fs : Fs) : Worker where
  running := true
  seen := { order := [], set := ∅ }
  parsers := { quic := { flows := ∅ }, tcp := { flows := ∅ } }
  frames := 0
  dump := none
  fs := fs
  error := none
  bad := 0
  dropped := 0
  accepted := 0
  offered := []
  replies := []

/-! ## Steps -/

inductive Work
  | frame (data : Bytes) (stamp : ℤ)
  | start (path : String)
  | stop
  | shutdown
  deriving DecidableEq, Repr

/-- What a failed operation on the file says, and what it leaves behind. -/
structure Fault where
  error : String
  fs : Fs
  out : Buffered UInt8 bufferSize

/-- A piece of work, with what it meets. -/
structure Event where
  work : Work
  lang : Lang
  fault : Option Fault
  queue : TrySend

namespace Worker

/-- Go on with a writer; its file is what the writer has passed on. -/
def put (w : Worker) (d : DumpWriter) : Worker :=
  { w with dump := some d, fs := Function.update w.fs d.path (some d.out.file) }

def reply (w : Worker) (result : Except String Unit) : Worker :=
  { w with replies := w.replies ++ [result] }

/-- Write the block of an event, while a recording runs and has met no error. -/
def record (w : Worker) (s : Stamped) (fault : Option Fault) : Worker :=
  match w.dump with
  | none => w
  | some d =>
      if d.error.isSome then w
      else
        match fault with
        | none => w.put { d with out := d.out.writeAll s.pieces }
        | some f =>
            { w with
              dump := some { d with out := f.out, error := some f.error }
              fs := f.fs
              error := some f.error }

/-- Hand a packet to the live queue. -/
def send (w : Worker) (p : Packet) (queue : TrySend) : Worker :=
  { w with
    offered := w.offered ++ [(p, queue)]
    accepted := if queue = .sent then w.accepted + 1 else w.accepted
    dropped := if queue = .full then w.dropped + 1 else w.dropped }

/-- Parse the frame of an event for the live queue. -/
def forward (c : Quic.Ciphers) (env : ℕ → Surroundings) (w : Worker) (p : PacketEvent)
    (queue : TrySend) : Worker :=
  let (pkt, parsers) := parseLinkLive c (env w.frames) p.linktype p.frame w.parsers
  let w := { w with parsers := parsers, frames := w.frames + 1 }
  match pkt with
  | none => w
  | some pkt => w.send pkt queue

def onFrame (c : Quic.Ciphers) (env : ℕ → Surroundings) (w : Worker) (e : Event) (data : Bytes)
    (stamp : ℤ) : Worker :=
  match packet data with
  | none => { w with bad := w.bad + 1, dropped := w.dropped + 1 }
  | some p =>
      if p.linktype = 0 then { w with dropped := w.dropped + 1 }
      else
        match w.seen.first p.id with
        | (false, _) => w
        | (true, seen) =>
            (({ w with seen := seen }).record { event := p, stamp := stamp } e.fault).forward c env
              p e.queue

def onStart (w : Worker) (e : Event) (path : String) : Worker :=
  if w.dump.isSome then
    w.reply (.error (tr e.lang "Recording is already running" "Запись уже идет"))
  else
    match e.fault with
    | some f => { w with fs := f.fs }.reply (.error f.error)
    | none =>
        let out := (Buffered.empty.writeAll writeHeader).flush
        { w.put { path := path, out := out, error := none } with error := none }.reply (.ok ())

def onStop (w : Worker) (e : Event) : Worker :=
  match w.dump with
  | none => w.reply (.ok ())
  | some d =>
      let (fs, flushed) : Fs × Except String Unit :=
        match e.fault with
        | none => (Function.update w.fs d.path (some d.out.flush.file), .ok ())
        | some f => (f.fs, .error f.error)
      { w with dump := none, fs := fs }.reply
        (match d.error with
        | some error => .error error
        | none => flushed)

/-- The worker ends. A recording that runs ends with it, and its writer passes on
what it can. -/
def onShutdown (w : Worker) (e : Event) : Worker :=
  match w.dump with
  | none => { w with running := false }
  | some d =>
      { w with
        running := false
        dump := none
        fs :=
          match e.fault with
          | none => Function.update w.fs d.path (some d.out.flush.file)
          | some f => f.fs }

/-- Take one piece of work. -/
def handle (c : Quic.Ciphers) (env : ℕ → Surroundings) (w : Worker) (e : Event) : Worker :=
  match e.work with
  | .frame data stamp => w.onFrame c env e data stamp
  | .start path => w.onStart e path
  | .stop => w.onStop e
  | .shutdown => w.onShutdown e

/-- The loop of the worker. -/
def consume (c : Quic.Ciphers) (env : ℕ → Surroundings) : System Worker Event where
  step w e := if w.running then some (w.handle c env e) else none

end Worker

/-! ## What a history accepts -/

/-- The event that an entry of a history records: a first copy of a kind that is
recorded. -/
def taken (entry : Worker × Event) : Option Stamped :=
  match entry.2.work with
  | .frame data stamp =>
      (packet data).bind fun p =>
        if p.linktype ≠ 0 ∧ (entry.1.seen.first p.id).1 = true then
          some { event := p, stamp := stamp }
        else none
  | _ => none

/-- The accepted events of a history, in the order in which they came. -/
def accepted (hist : History Worker Event) : List Stamped := hist.reverse.filterMap taken

/-- The frames of some events, as the live reader gets them. -/
def framesOf (events : List Stamped) : List (UInt16 × Bytes) :=
  events.map fun s => (s.event.linktype, s.event.frame)

/-- An event that is not understood, or of a kind that is not recorded. -/
def Event.unusable (e : Event) : Bool :=
  match e.work with
  | .frame data _ => (packet data).all fun p => p.linktype = 0
  | _ => false

@[simp]
theorem accepted_nil : accepted [] = [] := rfl

theorem accepted_cons (entry : Worker × Event) (hist : History Worker Event) :
    accepted (entry :: hist) = accepted hist ++ (taken entry).toList := by
  rw [accepted, List.reverse_cons, List.filterMap_append, accepted]
  cases h : taken entry <;> simp [h]

theorem mem_accepted {hist : History Worker Event} {s : Stamped} (h : s ∈ accepted hist) :
    Recordable s.event := by
  obtain ⟨entry, -, htaken⟩ := List.mem_filterMap.mp h
  unfold taken at htaken
  split at htaken
  · obtain ⟨p, hpacket, hp⟩ := Option.bind_eq_some_iff.mp htaken
    obtain ⟨hfirst, hp⟩ := Option.ite_none_right_eq_some.mp hp
    obtain rfl := Option.some.inj hp
    exact recordable hpacket hfirst.1
  · contradiction

/-! ## What a step does -/

namespace Worker

/-- What handling a piece of work does, and the event that it takes. -/
inductive Handles (c : Quic.Ciphers) (env : ℕ → Surroundings) (w : Worker) (e : Event) :
    Option Stamped → Worker → Prop
  | unusable (bad : ℕ) (hunusable : e.unusable = true) :
      Handles c env w e none { w with bad := bad, dropped := w.dropped + 1 }
  | copy (data : Bytes) (stamp : ℤ) (hwork : e.work = .frame data stamp)
      (husable : e.unusable = false) : Handles c env w e none w
  | first (data : Bytes) (s : Stamped) (hwork : e.work = .frame data s.stamp)
      (husable : e.unusable = false) (hfirst : s.event.id ∉ w.seen.set) :
      Handles c env w e (some s)
        ((({ w with seen := w.seen.remember s.event.id }).record s e.fault).forward c env s.event
          e.queue)
  | start (path : String) (hwork : e.work = .start path) : Handles c env w e none (w.onStart e path)
  | stop (hwork : e.work = .stop) : Handles c env w e none (w.onStop e)
  | shutdown (hwork : e.work = .shutdown) : Handles c env w e none (w.onShutdown e)

theorem handles (c : Quic.Ciphers) (env : ℕ → Surroundings) (w : Worker) (e : Event) :
    Handles c env w e (taken (w, e)) (w.handle c env e) := by
  unfold handle taken
  cases hwork : e.work with
  | start path => exact .start path hwork
  | stop => exact .stop hwork
  | shutdown => exact .shutdown hwork
  | frame data stamp =>
      dsimp only
      unfold onFrame
      cases hpacket : packet data with
      | none => exact .unusable _ (by simp [Event.unusable, hwork, hpacket])
      | some p =>
          dsimp only
          rw [Option.bind_some]
          by_cases hkind : p.linktype = 0
          · rw [if_pos hkind, if_neg (by simp [hkind])]
            exact .unusable _ (by simp [Event.unusable, hwork, hpacket, hkind])
          · rw [if_neg hkind]
            have husable : e.unusable = false := by
              simp [Event.unusable, hwork, hpacket, hkind]
            by_cases hseen : p.id ∈ w.seen.set
            · have hfirst : w.seen.first p.id = (false, w.seen) := if_pos hseen
              rw [hfirst, if_neg (by simp)]
              exact .copy data stamp hwork husable
            · have hfirst : w.seen.first p.id = (true, w.seen.remember p.id) := if_neg hseen
              rw [hfirst, if_pos ⟨hkind, rfl⟩]
              exact .first data { event := p, stamp := stamp } hwork husable hseen

/-- Writing changes the recording only. -/
theorem record_frame (w : Worker) (s : Stamped) (fault : Option Fault) :
    ∃ dump fs error, w.record s fault = { w with dump := dump, fs := fs, error := error } := by
  unfold record
  split
  · exact ⟨w.dump, w.fs, w.error, rfl⟩
  · split
    · exact ⟨w.dump, w.fs, w.error, rfl⟩
    · split
      · exact ⟨_, _, _, rfl⟩
      · exact ⟨_, _, _, rfl⟩

/-- The commands leave alone what belongs to the packets. -/
theorem onStart_frame (w : Worker) (e : Event) (path : String) :
    ∃ dump fs error replies, w.onStart e path =
      { w with dump := dump, fs := fs, error := error, replies := replies } := by
  unfold onStart
  split
  · exact ⟨_, _, _, _, rfl⟩
  · split
    · exact ⟨_, _, _, _, rfl⟩
    · exact ⟨_, _, _, _, rfl⟩

theorem onStop_frame (w : Worker) (e : Event) :
    ∃ dump fs replies, w.onStop e = { w with dump := dump, fs := fs, replies := replies } := by
  unfold onStop
  split
  · exact ⟨_, _, _, rfl⟩
  · exact ⟨_, _, _, rfl⟩

theorem onShutdown_frame (w : Worker) (e : Event) :
    ∃ dump fs, w.onShutdown e = { w with running := false, dump := dump, fs := fs } := by
  unfold onShutdown
  split
  · exact ⟨w.dump, w.fs, rfl⟩
  · exact ⟨_, _, rfl⟩

/-- Parsing changes what belongs to the packets only. -/
theorem forward_frame (c : Quic.Ciphers) (env : ℕ → Surroundings) (w : Worker) (p : PacketEvent)
    (queue : TrySend) :
    ∃ pkt parsers, parseLinkLive c (env w.frames) p.linktype p.frame w.parsers = (pkt, parsers) ∧
      w.forward c env p queue =
        { w with
          parsers := parsers
          frames := w.frames + 1
          offered := w.offered ++ pkt.toList.map (·, queue)
          accepted := w.accepted + if queue = .sent then pkt.toList.length else 0
          dropped := w.dropped + if queue = .full then pkt.toList.length else 0 } := by
  unfold forward
  cases parseLinkLive c (env w.frames) p.linktype p.frame w.parsers with
  | mk pkt parsers =>
      refine ⟨pkt, parsers, rfl, ?_⟩
      cases pkt with
      | none => simp
      | some pkt => cases queue <;> simp [send]

end Worker

/-! ## First copies -/

/-- The last packets of `ids` are remembered. -/
structure Dedup.Remembers (d : Dedup) (ids : List (ℕ × ℕ)) : Prop where
  order : d.order = ids.drop (ids.length - dedupLimit)
  set : d.set = d.order.toFinset
  nodup : d.order.Nodup

theorem Dedup.Remembers.length_le {d : Dedup} {ids : List (ℕ × ℕ)} (h : d.Remembers ids) :
    d.order.length ≤ dedupLimit := by
  rw [h.order, List.length_drop]
  omega

/-- A packet is new if it is not among the last ones that were. -/
theorem Dedup.Remembers.first_iff {d : Dedup} {ids : List (ℕ × ℕ)} (h : d.Remembers ids)
    (id : ℕ × ℕ) :
    (d.first id).1 = true ↔ id ∉ ids.drop (ids.length - dedupLimit) := by
  unfold first
  rw [← h.order, ← List.mem_toFinset, ← h.set]
  split <;> simp [*]

theorem Dedup.Remembers.remember {d : Dedup} {ids : List (ℕ × ℕ)} (h : d.Remembers ids)
    {id : ℕ × ℕ} (hnew : id ∉ d.set) : (d.remember id).Remembers (ids ++ [id]) := by
  have hle := h.length_le
  have hfresh : id ∉ d.order := by
    rw [h.set, List.mem_toFinset] at hnew
    exact hnew
  have hlength : d.order.length = ids.length - (ids.length - dedupLimit) := by
    rw [h.order, List.length_drop]
  have hnodup : (d.order ++ [id]).Nodup := by
    rw [List.nodup_append]
    refine ⟨h.nodup, List.nodup_singleton id, ?_⟩
    rintro x hx y hy rfl
    exact hfresh (List.mem_singleton.mp hy ▸ hx)
  have hset : insert id d.set = (d.order ++ [id]).toFinset := by
    ext x
    rw [h.set]
    simp
  unfold Dedup.remember
  dsimp only
  rw [List.length_append, List.length_singleton, hset]
  by_cases hfull : dedupLimit < d.order.length + 1
  · rw [if_pos hfull]
    have hpos : 0 < d.order.length := by
      unfold dedupLimit at hfull
      omega
    obtain ⟨old, rest, horder⟩ := List.exists_cons_of_ne_nil (List.ne_nil_of_length_pos hpos)
    rw [horder, List.cons_append] at hnodup
    obtain ⟨hold, hrest⟩ := List.nodup_cons.mp hnodup
    have hdropped : (ids ++ [id]).drop ((ids ++ [id]).length - dedupLimit) = rest ++ [id] := by
      have hcut : (ids ++ [id]).length - dedupLimit = ids.length - dedupLimit + 1 := by
        rw [List.length_append, List.length_singleton]
        omega
      rw [hcut, List.drop_append_of_le_length (by omega), ← List.drop_drop, ← h.order, horder]
      rfl
    constructor
    · rw [hdropped, horder]
      rfl
    · rw [horder]
      ext x
      by_cases hx : x = old
      · subst hx
        simpa [and_comm] using hold
      · simp [hx]
    · rw [horder]
      exact hrest
  · rw [if_neg hfull]
    constructor
    · have hall : ids.length - dedupLimit = 0 := by omega
      have hstill : (ids ++ [id]).length - dedupLimit = 0 := by
        rw [List.length_append, List.length_singleton]
        omega
      rw [hstill, List.drop_zero, h.order, hall, List.drop_zero]
    · rfl
    · exact hnodup

/-! ## A sequence of copies -/

namespace Dedup

/-- A filter that has seen no packet. -/
def fresh : Dedup where
  order := []
  set := ∅

/-- The filter after a sequence of calls. -/
def after (d : Dedup) : List (ℕ × ℕ) → Dedup
  | [] => d
  | id :: ids => (d.first id).2.after ids

/-- The packets that a sequence of calls lets pass, in the order of the calls. -/
def passed (d : Dedup) : List (ℕ × ℕ) → List (ℕ × ℕ)
  | [] => []
  | id :: ids =>
      let rest := (d.first id).2.passed ids
      if (d.first id).1 then id :: rest else rest

theorem remembers_fresh : fresh.Remembers [] :=
  ⟨rfl, rfl, List.nodup_nil⟩

/-- One call adds the packet to those that passed, if it lets it pass. -/
theorem Remembers.first {d : Dedup} {past : List (ℕ × ℕ)} (h : d.Remembers past)
    (id : ℕ × ℕ) :
    (d.first id).2.Remembers (if (d.first id).1 then past ++ [id] else past) := by
  by_cases hseen : id ∈ d.set
  · have hcall : d.first id = (false, d) := if_pos hseen
    rw [hcall]
    exact h
  · have hcall : d.first id = (true, d.remember id) := if_neg hseen
    rw [hcall]
    exact h.remember hseen

theorem Remembers.after {d : Dedup} {past : List (ℕ × ℕ)} (h : d.Remembers past)
    (ids : List (ℕ × ℕ)) : (d.after ids).Remembers (past ++ d.passed ids) := by
  induction ids generalizing d past with
  | nil => simpa [Dedup.after, passed] using h
  | cons id ids ih =>
      have hrest := ih (h.first id)
      simp only [Dedup.after, passed]
      split_ifs at hrest ⊢ with hpass
      · rwa [List.append_assoc, List.singleton_append] at hrest
      · exact hrest

end Dedup

/-- The window of the filter is exact: after any calls the next one refuses a packet
just if it is one of the last 8192 that passed; the queue and the set hold the same
packets, each once, and never more than that many. -/
theorem dedup_window (ids : List (ℕ × ℕ)) (id : ℕ × ℕ) :
    let d := Dedup.fresh.after ids
    let accepted := Dedup.fresh.passed ids
    ((d.first id).1 = false ↔ id ∈ accepted.drop (accepted.length - 8192)) ∧
    d.order.Nodup ∧ (∀ p, p ∈ d.set ↔ p ∈ d.order) ∧
    d.order.length ≤ 8192 ∧ d.set.card ≤ 8192 := by
  intro d accepted
  have h : d.Remembers accepted := Dedup.remembers_fresh.after ids
  have hcard : d.set.card = d.order.length := by
    rw [h.set]
    exact List.toFinset_card_of_nodup h.nodup
  refine ⟨?_, h.nodup, ?_, h.length_le, ?_⟩
  · rw [← Bool.not_eq_true, h.first_iff id, not_not]
    rfl
  · intro p
    rw [h.set, List.mem_toFinset]
  · rw [hcard]
    exact h.length_le

/-! ## The live queue -/

/-- What the worker has made of the events so far. -/
structure Live (c : Quic.Ciphers) (env : ℕ → Surroundings) (hist : History Worker Event)
    (w : Worker) : Prop where
  frames : w.frames = (accepted hist).length
  parsed : (w.offered.map Prod.fst, w.parsers) =
    parseFrames c env 0 PcapngReader.new.parsers (framesOf (accepted hist))
  dropped : w.dropped = hist.countP (fun entry => entry.2.unusable) +
    w.offered.countP (fun o => o.2 = .full)
  queued : w.accepted = w.offered.countP (fun o => o.2 = .sent)
  seen : w.seen.Remembers ((accepted hist).map fun s => s.event.id)

section Runs

variable {c : Quic.Ciphers} {env : ℕ → Surroundings} {hist : History Worker Event} {w : Worker}

theorem Live.initial (fs : Fs) : Live c env [] (.initial fs) where
  frames := rfl
  parsed := rfl
  dropped := rfl
  queued := rfl
  seen := ⟨rfl, rfl, List.nodup_nil⟩

/-- A step that takes no event and leaves alone what belongs to the packets. -/
theorem Live.frame (h : Live c env hist w) {e : Event} (hwork : e.unusable = false)
    (htaken : taken (w, e) = none) {w' : Worker} (hframes : w'.frames = w.frames)
    (hoffered : w'.offered = w.offered) (hparsers : w'.parsers = w.parsers)
    (hdropped : w'.dropped = w.dropped) (haccepted : w'.accepted = w.accepted)
    (hseen : w'.seen = w.seen) : Live c env ((w, e) :: hist) w' := by
  have hsame : accepted ((w, e) :: hist) = accepted hist := by
    rw [accepted_cons, htaken, Option.toList_none, List.append_nil]
  constructor
  · rw [hsame, hframes, h.frames]
  · rw [hsame, hoffered, hparsers, h.parsed]
  · rw [hdropped, hoffered, h.dropped, List.countP_cons_of_neg (by simp [hwork])]
  · rw [haccepted, hoffered, h.queued]
  · rw [hsame, hseen]
    exact h.seen

theorem Live.step (h : Live c env hist w) (e : Event) :
    Live c env ((w, e) :: hist) (w.handle c env e) := by
  have hcases := w.handles c env e
  generalize htaken : taken (w, e) = o at hcases
  generalize w.handle c env e = w' at hcases
  cases hcases with
  | unusable bad hunusable =>
      have hsame : accepted ((w, e) :: hist) = accepted hist := by
        rw [accepted_cons, htaken, Option.toList_none, List.append_nil]
      constructor
      · rw [hsame]
        exact h.frames
      · rw [hsame]
        exact h.parsed
      · rw [List.countP_cons, if_pos hunusable]
        have hdropped := h.dropped
        dsimp only
        omega
      · exact h.queued
      · rw [hsame]
        exact h.seen
  | copy data stamp hwork husable => exact h.frame husable htaken rfl rfl rfl rfl rfl rfl
  | start path hwork =>
      obtain ⟨dump, fs, error, replies, heq⟩ := w.onStart_frame e path
      rw [heq]
      exact h.frame (by simp [Event.unusable, hwork]) htaken rfl rfl rfl rfl rfl rfl
  | stop hwork =>
      obtain ⟨dump, fs, replies, heq⟩ := w.onStop_frame e
      rw [heq]
      exact h.frame (by simp [Event.unusable, hwork]) htaken rfl rfl rfl rfl rfl rfl
  | shutdown hwork =>
      obtain ⟨dump, fs, heq⟩ := w.onShutdown_frame e
      rw [heq]
      exact h.frame (by simp [Event.unusable, hwork]) htaken rfl rfl rfl rfl rfl rfl
  | first data s hwork husable hfirst =>
      obtain ⟨dump, fs, error, hrecord⟩ :=
        Worker.record_frame { w with seen := w.seen.remember s.event.id } s e.fault
      have hmore : accepted ((w, e) :: hist) = accepted hist ++ [s] := by
        rw [accepted_cons, htaken, Option.toList_some]
      obtain ⟨pkt, parsers, hparse, hforward⟩ := Worker.forward_frame c env
        { w with seen := w.seen.remember s.event.id, dump := dump, fs := fs, error := error }
        s.event e.queue
      have hparsed : parseFrames c env 0 PcapngReader.new.parsers
          (framesOf (accepted hist ++ [s])) = (w.offered.map Prod.fst ++ pkt.toList, parsers) := by
        have hnumber : (framesOf (accepted hist)).length = w.frames := by
          rw [framesOf, List.length_map, h.frames]
        have hsplit : framesOf (accepted hist ++ [s]) =
            framesOf (accepted hist) ++ [(s.event.linktype, s.event.frame)] := List.map_append
        dsimp only at hparse
        rw [hsplit, parseFrames_concat, ← h.parsed, Nat.zero_add, hnumber, hparse]
      have hcount (q : TrySend) (o : Option Packet) :
          (o.toList.map (·, e.queue)).countP (fun o => o.2 = q) =
            if e.queue = q then o.toList.length else 0 := by
        cases o <;> simp [List.countP_cons]
      rw [hrecord, hforward]
      constructor
      · rw [hmore, List.length_append, ← h.frames]
        rfl
      · rw [hmore, hparsed]
        simp [Function.comp_def]
      · rw [List.countP_cons_of_neg (by simp [husable]), List.countP_append, hcount]
        have hdropped := h.dropped
        dsimp only
        omega
      · rw [List.countP_append, hcount]
        have hqueued := h.queued
        dsimp only
        omega
      · rw [hmore, List.map_append]
        exact h.seen.remember hfirst

theorem live_of_run {fs : Fs} (run : Run (Worker.consume c env) (.initial fs) hist w) :
    Live c env hist w := by
  refine run.historyInvariant (P := Live c env) (.initial fs) ?_
  intro hist w e w' _ hlive fires
  obtain ⟨-, hnext⟩ := Option.ite_none_right_eq_some.mp fires
  exact Option.some.inj hnext ▸ hlive.step e

/-! ## Recordings -/

/-- The operations of the event on the file succeed, unless it starts a recording. -/
def Event.WritesWell (e : Event) : Prop := (∀ path, e.work ≠ .start path) → e.fault = none

/-- The events are written to the file of the recording. -/
def Recording (path : String) (events : List Stamped) (w : Worker) : Prop :=
  ∃ d, w.dump = some d ∧ d.path = path ∧ d.error = none ∧ d.out.content = file events

/-- A command that succeeds began a recording of no events. -/
theorem recording_of_start {e : Event} {path : String} (hwork : e.work = .start path)
    (hok : (w.handle c env e).replies = w.replies ++ [.ok ()]) :
    Recording path [] (w.handle c env e) := by
  unfold Worker.handle at hok ⊢
  rw [hwork] at hok ⊢
  dsimp only at hok ⊢
  unfold Worker.onStart at hok ⊢
  split at hok
  · simp [Worker.reply] at hok
  · rename_i hfree
    rw [if_neg hfree]
    split at hok
    · simp [Worker.reply] at hok
    · refine ⟨_, rfl, rfl, rfl, ?_⟩
      simp [file]

/-- Up to its end a recording writes the events that are accepted. -/
theorem Recording.step {path : String} {events : List Stamped} (h : Recording path events w)
    {e : Event} (hstop : e.work ≠ .stop) (hwrites : e.WritesWell)
    (hrunning : (w.handle c env e).running = true) :
    Recording path (events ++ (taken (w, e)).toList) (w.handle c env e) := by
  obtain ⟨d, hdump, hpath, herror, hcontent⟩ := h
  have hcases := w.handles c env e
  generalize htaken : taken (w, e) = o at hcases ⊢
  generalize w.handle c env e = w' at hcases hrunning ⊢
  cases hcases with
  | unusable bad hunusable =>
      rw [Option.toList_none, List.append_nil]
      exact ⟨d, hdump, hpath, herror, hcontent⟩
  | copy data stamp hwork husable =>
      rw [Option.toList_none, List.append_nil]
      exact ⟨d, hdump, hpath, herror, hcontent⟩
  | start path' hwork =>
      have hbusy : w.onStart e path' = w.reply (.error (tr e.lang "Recording is already running"
          "Запись уже идет")) := if_pos (by rw [hdump]; rfl)
      rw [hbusy, Option.toList_none, List.append_nil]
      exact ⟨d, hdump, hpath, herror, hcontent⟩
  | stop hwork => exact absurd hwork hstop
  | shutdown hwork =>
      obtain ⟨dump, fs, heq⟩ := w.onShutdown_frame e
      rw [heq] at hrunning
      contradiction
  | first data s hwork husable hfirst =>
      have hfault : e.fault = none := hwrites (by simp [hwork])
      obtain ⟨pkt, parsers, -, hforward⟩ := Worker.forward_frame c env
        (({ w with seen := w.seen.remember s.event.id }).record s e.fault) s.event e.queue
      rw [hforward]
      refine ⟨{ d with out := d.out.writeAll s.pieces }, ?_, hpath, herror, ?_⟩
      · dsimp only
        rw [Worker.record]
        dsimp only
        rw [hdump]
        dsimp only
        rw [herror, if_neg (by simp), hfault]
        rfl
      · rw [Option.toList_some, file_concat, ← hcontent]
        exact d.out.content_writeAll s.pieces

/-- The end of a recording leaves the file behind. -/
theorem Recording.stop {path : String} {events : List Stamped} (h : Recording path events w)
    {e : Event} (hwork : e.work = .stop) (hwrites : e.WritesWell) :
    (w.handle c env e).fs path = some (file events) ∧
      (w.handle c env e).replies = w.replies ++ [.ok ()] := by
  obtain ⟨d, hdump, hpath, herror, hcontent⟩ := h
  have hfault : e.fault = none := hwrites (by simp [hwork])
  unfold Worker.handle
  rw [hwork]
  dsimp only
  unfold Worker.onStop
  rw [hdump, hfault]
  dsimp only
  rw [herror]
  refine ⟨?_, rfl⟩
  change Function.update w.fs d.path (some d.out.flush.file) path = _
  rw [hpath, Function.update_self, Buffered.file_flush, hcontent]

/-- While the worker runs on, a recording that is not stopped goes on. -/
theorem Recording.run {path : String} {w₀ : Worker} (h : Recording path [] w₀)
    (run : Run (Worker.consume c env) w₀ hist w)
    (hstop : ∀ entry ∈ hist, entry.2.work ≠ .stop) (hwrites : ∀ entry ∈ hist, entry.2.WritesWell)
    (hrunning : w.running = true) : Recording path (accepted hist) w := by
  induction run with
  | start => exact h
  | next prior fires ih =>
      obtain ⟨hnow, hnext⟩ := Option.ite_none_right_eq_some.mp fires
      obtain rfl := Option.some.inj hnext
      obtain ⟨hstop', hstops⟩ := List.forall_mem_cons.mp hstop
      obtain ⟨hwrites', hwell⟩ := List.forall_mem_cons.mp hwrites
      rw [accepted_cons]
      exact (ih hstops hwell hnow).step hstop' hwrites' hrunning

/-- **The worker writes the accepted events, readably.** What stands between a
successful start and its stop is in the file, as long as the writing goes well: the
header and one block for each accepted event. The live reader reads its packets
from it, and every plan accepts it. A start in the meantime is turned away. Recorded
or not, every accepted event is offered to the live queue once if it is a packet,
and every other event is counted as dropped. -/
theorem worker_records_accepted {fs : Fs}
    (run : Run (Worker.consume c env) (.initial fs) hist w) :
    (∀ later between earlier w₁ w₂ start stop path,
      hist = later ++ (w₂, stop) :: (between ++ (w₁, start) :: earlier) →
        start.work = .start path → (w₁.handle c env start).replies = w₁.replies ++ [.ok ()] →
          stop.work = .stop → (∀ entry ∈ between, entry.2.work ≠ .stop) →
            (∀ entry ∈ (w₂, stop) :: between, entry.2.WritesWell) →
      (w₂.handle c env stop).fs path = some (file (accepted between)) ∧
        (w₂.handle c env stop).replies = w₂.replies ++ [.ok ()] ∧
        (∀ c' env', (PcapngReader.new.push c' env' (file (accepted between))).2 =
          (parseFrames c' env' 0 PcapngReader.new.parsers (framesOf (accepted between))).1) ∧
        (∀ s ∈ accepted between, s.event.linktype = 1 ∨ s.event.linktype = 101) ∧
        ∀ plan : Plan, ∃ result, plan.apply {} (file (accepted between)) = .ok result) ∧
    (∀ entry ∈ hist, ∀ path, entry.2.work = .start path → entry.1.dump.isSome = true →
      entry.1.handle c env entry.2 = entry.1.reply (.error
        (tr entry.2.lang "Recording is already running" "Запись уже идет"))) ∧
    w.offered.map Prod.fst =
      (parseFrames c env 0 PcapngReader.new.parsers (framesOf (accepted hist))).1 ∧
    w.dropped = hist.countP (fun entry => entry.2.unusable) +
      w.offered.countP (fun o => o.2 = .full) := by
  refine ⟨?_, ?_, ?_, (live_of_run run).dropped⟩
  · rintro later between earlier w₁ w₂ start stop path rfl hstart hok hstop hbetween hwell
    obtain ⟨_, hended, -⟩ := run.split
    cases hended with
    | next prior fires =>
        obtain ⟨hrunning, -⟩ := Option.ite_none_right_eq_some.mp fires
        obtain ⟨m, hstarted, hrecording⟩ := prior.split
        cases hstarted with
        | next _ fires' =>
            obtain ⟨-, hnext⟩ := Option.ite_none_right_eq_some.mp fires'
            obtain rfl := Option.some.inj hnext
            obtain ⟨hends, hwrites⟩ := List.forall_mem_cons.mp hwell
            have hrecorded :=
              (recording_of_start hstart hok).run hrecording hbetween hwrites hrunning
            have hrecordable : ∀ s ∈ accepted between, Recordable s.event :=
              fun s hs => mem_accepted hs
            obtain ⟨hfile, hreply⟩ := @Recording.stop c env _ _ _ hrecorded _ hstop hends
            refine ⟨hfile, hreply, ?_, ?_, ?_⟩
            · intro c' env'
              exact push_file c' env' hrecordable
            · intro s hs
              exact (hrecordable s hs).kind
            · intro plan
              obtain ⟨stats, happly⟩ := apply_of_capture plan (file_capture hrecordable)
              rw [file_eq_encodeAll]
              exact ⟨_, happly⟩
  · intro entry _ path hwork hbusy
    unfold Worker.handle
    rw [hwork]
    exact if_pos hbusy
  · rw [← (live_of_run run).parsed]

end Runs

/-! ## A sample recording -/

/-- An event with a frame of a kind: the packet `number` of group 42. -/
def sampleData (number kind : ℕ) (frame : Bytes) : Bytes :=
  leBytes 8 42 ++ leBytes 2 number ++ leBytes 4 0 ++ leBytes 2 kind ++ leBytes 14 0 ++
    leBytes 2 frame.length ++ leBytes 2 frame.length ++ frame

def sampleWork (work : Work) : Event where
  work := work
  lang := .en
  fault := none
  queue := .sent

/-- A packet is seen twice while a recording runs, and a third event is no packet. -/
def sampleRecording : List Event :=
  [sampleWork (.start "dump.pcapng"),
    sampleWork (.frame (sampleData 1 3 sampleFrame) 133000000000000000),
    sampleWork (.frame (sampleData 1 3 sampleFrame) 133000000000000000),
    sampleWork (.start "other.pcapng"), sampleWork (.frame (sampleData 2 9 []) 0),
    sampleWork .stop]

/-- The first copy of the sample packet is recorded. -/
def sampleStamped : Stamped where
  event := { group := 42, number := 1, linktype := 101, orig := 28, frame := sampleFrame }
  stamp := 133000000000000000

/-- The recording has the one packet, and the live queue was offered it once. -/
theorem worker_records_accepted_sample :
    let played := (Worker.consume Quic.sampleCiphers fun _ => sampleSurroundings).play []
      (.initial fun _ => none) sampleRecording
    played.2.fs "dump.pcapng" = some (file [sampleStamped]) ∧
      (PcapngReader.new.push Quic.sampleCiphers (fun _ => sampleSurroundings)
        (file [sampleStamped])).2 = [samplePacket] ∧
      played.2.offered.map Prod.fst = [samplePacket] ∧ played.2.dropped = 1 := by
  intro played
  have run : Run (Worker.consume Quic.sampleCiphers fun _ => sampleSurroundings)
      (.initial fun _ => none) played.1 played.2 := Run.start.play sampleRecording
  have hwell : ∀ entry ∈ played.1, entry.2.WritesWell := by
    intro entry hentry _
    have hplayed := (System.mem_play hentry).resolve_left (by simp)
    simp only [sampleRecording, List.mem_cons, List.not_mem_nil, or_false] at hplayed
    rcases hplayed with h | h | h | h | h | h <;> rw [h] <;> rfl
  have hbetween : accepted (played.1.tail.take 4) = [sampleStamped] := rfl
  have hall : accepted played.1 = [sampleStamped] := rfl
  have hpacket : (parseFrames Quic.sampleCiphers (fun _ => sampleSurroundings) 0
      PcapngReader.new.parsers (framesOf [sampleStamped])).1 = [samplePacket] := by decide +kernel
  obtain ⟨hrecorded, -, hoffered, hdropped⟩ := worker_records_accepted run
  obtain ⟨hfile, -, hread, -⟩ := hrecorded [] (played.1.tail.take 4) [] _ _
    (sampleWork (.start "dump.pcapng")) _ "dump.pcapng" rfl rfl rfl rfl (by decide)
    fun entry hentry => hwell entry (List.mem_of_mem_take (i := 5) hentry)
  rw [hbetween] at hfile hread
  rw [hall] at hoffered
  refine ⟨hfile, ?_, hoffered.trans hpacket, hdropped⟩
  rw [hread, hpacket]

end SocketTrail.Etw
