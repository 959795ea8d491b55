/-
# The program

The state that all parts of the program share behind one lock, and what each
lock-protected section does to it: the sections of the loops and of the request
handlers, and the sections with which an operation on the recording begins and
ends. Everything the program reads from outside (the process list, the sockets,
the clock, the iteration orders of its hash maps) is an input of the section.
-/

import SocketTrail.Recording.Finish
import Mathlib.Data.Finset.Option
import Mathlib.Data.Finset.Union

namespace SocketTrail.Program

open SocketTrail.Foundation SocketTrail.Net SocketTrail.State SocketTrail.Recording

structure App where
  store : Store
  procs : List ProcInfo
  selected : Option ℤ
  selectedInstance : Option Identity
  /-- The packets that found the queue full or were lost in a panic. -/
  dropped : ℕ
  accepted : ℕ
  processed : ℕ
  /-- The numbers of the selected process and its descendants. -/
  group : List ℤ
  dump : Dump
  dumpPhase : DumpPhase
  dumpOutcome : Option DumpOutcome
  dumpMeta : Option DumpMeta
  /-- The last dump that was stopped by itself. -/
  autoStopped : Option String
  captureOn : Bool
  iface : String
  whois : IpAddr → Option Whois
  /-- The roots of the program's own processes. -/
  selfRoots : Finset ℤ
  selfPids : Finset ℤ

namespace App

/-- The program at its start, with the names and lookups of earlier runs. -/
def initial (store : Store) (iface : String) (whois : IpAddr → Option Whois) (self : ℤ) : App where
  store := store
  procs := []
  selected := none
  selectedInstance := none
  dropped := 0
  accepted := 0
  processed := 0
  group := []
  dump := {}
  dumpPhase := .idle
  dumpOutcome := none
  dumpMeta := none
  autoStopped := none
  captureOn := false
  iface := iface
  whois := whois
  selfRoots := {self}
  selfPids := {self}

/-! ## The recording follows the program -/

/-- Remember the row of a tuple, while a recording runs. -/
def recordDumpConn (g : App) (key : ConnKey) : App :=
  { g with dumpMeta := g.dumpMeta.map fun m => rememberKey m g.store.conns key }

/-- Remember the history, while a recording runs. -/
def recordDump (g : App) (order : HashOrder ConnKey) : App :=
  { g with dumpMeta := g.dumpMeta.map fun m => rememberAll order m g.store.conns }

/-- Follow the recorded group in a process list, while a recording runs. -/
def trackDump (g : App) (order : HashOrder Identity) (now : ℕ) (list : List ProcInfo) : App :=
  { g with dumpMeta := g.dumpMeta.map fun m => Recording.trackDump order now m list }

/-! ## Polls -/

/-- Follow the selected process in a process list: a number that another process
has taken over is no longer selected. -/
def refreshSelectedGroup (g : App) (processes : List ProcInfo) (full : Bool) : App :=
  match g.selected with
  | none => g
  | some pid =>
      match processes.find? fun p => p.pid = pid with
      | none => { g with group := [] }
      | some process =>
          if some process.identity = g.selectedInstance then
            if full then { g with group := descendants processes pid } else g
          else { g with selected := none, selectedInstance := none, group := [] }

/-- What a poll has read: the whole process list, or the listed processes only. -/
inductive Scan
  | full (procs : List ProcInfo)
  | listed (scanned : List ℤ) (procs : List ProcInfo)

/-- What one poll applies, and the instants and iteration orders it meets. -/
structure Poll where
  scan : Scan
  socks : List SockEntry
  localIps : Option (Finset IpAddr)
  lang : Lang
  trackedAt : ℕ
  socketClock : Clock
  nameClock : Clock
  instanceOrder : HashOrder Identity
  evictOrder : HashOrder ConnKey
  rowOrder : HashOrder ConnKey

/-- Apply a process list. -/
def applyScan (g : App) (p : Poll) : App :=
  match p.scan with
  | .full procs =>
      let g := g.refreshSelectedGroup procs true
      let mine := g.selfRoots ∪ g.selfRoots.biUnion fun root => (descendants procs root).toFinset
      let g := { g with selfPids := mine }
      { g.trackDump p.instanceOrder p.trackedAt procs with procs := procs }
  | .listed scanned procs =>
      let known := (g.procs.filter fun q => q.pid ∉ scanned) ++ procs
      let g := { g with procs := known }.refreshSelectedGroup known false
      g.trackDump p.instanceOrder p.trackedAt known

/-- The section of a poll. -/
def applyPoll (g : App) (p : Poll) : App :=
  let g := g.applyScan p
  let polled := g.store.step
    { op := .poll p.localIps p.socks g.procs, clock := p.socketClock, connOrder := p.evictOrder }
  let named := polled.step
    { op := .enrich p.lang, clock := p.nameClock, connOrder := p.rowOrder }
  { g with store := named.applyWhois g.whois }.recordDump p.rowOrder

/-! ## Packets -/

/-- One packet of a batch, with what its handling meets. -/
structure Heard where
  packet : Packet
  clock : Clock
  connOrder : HashOrder ConnKey
  ipOrder : HashOrder IpAddr

/-- Apply one packet of a batch. -/
def applyHeard (g : App) (p : Heard) : App :=
  let (key, store) := g.store.applyPacket p.connOrder p.ipOrder p.clock p.packet
  { g with store := store }.recordDumpConn key

/-- The section of a batch of `size` packets. A panic loses the batch from the
packet on that caused it. -/
def applyBatch (g : App) (heard : List Heard) (size : ℕ) (panicked : Bool) : App :=
  let g := heard.foldl applyHeard g
  { g with
    dropped := if panicked then g.dropped + size else g.dropped
    processed := g.processed + size }

/-! ## Requests and the other loops -/

/-- Select a process of the list, or none. -/
def select (g : App) (pid : Option ℤ) : App :=
  { g with
    selected := pid
    selectedInstance :=
      pid.bind fun pid => (g.procs.find? fun p => p.pid = pid).map ProcInfo.identity
    group :=
      match pid with
      | some pid => descendants g.procs pid
      | none => [] }

/-- Apply one lookup; an answer that may be incomplete is not kept. -/
def resolved (g : App) (ip : IpAddr) (w : Whois) : App :=
  { g with
    whois := if w.failed then g.whois else Function.update g.whois ip (some w)
    store := g.store.whoisDone ip w }

/-- The sections that belong to no operation on the recording. -/
inductive Background
  | poll (p : Poll)
  | batch (heard : List Heard) (size : ℕ) (panicked : Bool)
  | select (pid : Option ℤ)
  | clear
  | resolved (ip : IpAddr) (w : Whois)
  /-- A name from the cache of the system. -/
  | learned (clock : Clock) (order : HashOrder IpAddr) (ip : IpAddr) (name : String) (ttl : ℕ)
  /-- The loop of the cache forgets lookups. -/
  | forget (keep : IpAddr → Bool)
  /-- The live capture starts, as a process or not, or ends. -/
  | live (pid : Option ℤ) (on : Bool)
  /-- The live capture queues a packet, or finds the queue full. -/
  | sent
  | lost

/-- One section of the loops and the requests. -/
def background (g : App) : Background → App
  | .poll p => g.applyPoll p
  | .batch heard size panicked => g.applyBatch heard size panicked
  | .select pid => g.select pid
  | .clear => { g with store := g.store.clear }
  | .resolved ip w => g.resolved ip w
  | .learned clock order ip name ttl =>
      { g with
        store := g.store.step { op := .learn ip name ttl, clock := clock, ipOrder := order } }
  | .forget keep => { g with whois := fun ip => if keep ip then g.whois ip else none }
  | .live pid on =>
      { g with
        selfRoots := g.selfRoots ∪ pid.toFinset
        selfPids := g.selfPids ∪ pid.toFinset
        captureOn := on }
  | .sent => { g with accepted := g.accepted + 1 }
  | .lost => { g with dropped := g.dropped + 1 }

/-! ## What the other sections leave to the recording -/

/-- The operation on the recording and its place are the same. -/
structure SameOperation (g g' : App) : Prop where
  dump : g'.dump = g.dump
  dumpPhase : g'.dumpPhase = g.dumpPhase
  dumpOutcome : g'.dumpOutcome = g.dumpOutcome
  dumpMeta : g'.dumpMeta.isSome = g.dumpMeta.isSome
  autoStopped : g'.autoStopped = g.autoStopped

theorem SameOperation.refl (g : App) : SameOperation g g := ⟨rfl, rfl, rfl, rfl, rfl⟩

theorem SameOperation.trans {a b c : App} (hab : SameOperation a b) (hbc : SameOperation b c) :
    SameOperation a c where
  dump := hbc.dump.trans hab.dump
  dumpPhase := hbc.dumpPhase.trans hab.dumpPhase
  dumpOutcome := hbc.dumpOutcome.trans hab.dumpOutcome
  dumpMeta := hbc.dumpMeta.trans hab.dumpMeta
  autoStopped := hbc.autoStopped.trans hab.autoStopped

theorem trackDump_same (g : App) (order : HashOrder Identity) (now : ℕ) (list : List ProcInfo) :
    SameOperation g (g.trackDump order now list) :=
  ⟨rfl, rfl, rfl, Option.isSome_map, rfl⟩

theorem applyHeard_same (g : App) (p : Heard) : SameOperation g (g.applyHeard p) :=
  ⟨rfl, rfl, rfl, Option.isSome_map, rfl⟩

theorem refreshSelectedGroup_same (g : App) (processes : List ProcInfo) (full : Bool) :
    SameOperation g (g.refreshSelectedGroup processes full) := by
  unfold refreshSelectedGroup
  split
  · exact .refl g
  · split
    · exact ⟨rfl, rfl, rfl, rfl, rfl⟩
    · split
      · split <;> exact ⟨rfl, rfl, rfl, rfl, rfl⟩
      · exact ⟨rfl, rfl, rfl, rfl, rfl⟩

theorem applyScan_same (g : App) (p : Poll) : SameOperation g (g.applyScan p) := by
  unfold applyScan
  split
  · rename_i procs _
    have hselected := g.refreshSelectedGroup_same procs true
    exact hselected.trans ⟨rfl, rfl, rfl, Option.isSome_map, rfl⟩
  · rename_i scanned procs _
    have hselected := refreshSelectedGroup_same
      { g with procs := (g.procs.filter fun q => q.pid ∉ scanned) ++ procs }
      ((g.procs.filter fun q => q.pid ∉ scanned) ++ procs) false
    have hknown : SameOperation g
        { g with procs := (g.procs.filter fun q => q.pid ∉ scanned) ++ procs } :=
      ⟨rfl, rfl, rfl, rfl, rfl⟩
    exact (hknown.trans hselected).trans (trackDump_same ..)

theorem applyPoll_same (g : App) (p : Poll) : SameOperation g (g.applyPoll p) := by
  apply (g.applyScan_same p).trans
  exact ⟨rfl, rfl, rfl, Option.isSome_map, rfl⟩

theorem applyBatch_same (g : App) (heard : List Heard) (size : ℕ) (panicked : Bool) :
    SameOperation g (g.applyBatch heard size panicked) := by
  have hfold (g : App) : SameOperation g (heard.foldl applyHeard g) := by
    induction heard generalizing g with
    | nil => exact .refl g
    | cons p rest ih => exact (g.applyHeard_same p).trans (ih (g.applyHeard p))
  exact (hfold g).trans ⟨rfl, rfl, rfl, rfl, rfl⟩

/-- The loops and the other requests leave the operation on the recording and
its place as they are. -/
theorem background_same (g : App) (b : Background) : SameOperation g (g.background b) := by
  cases b with
  | poll p => exact g.applyPoll_same p
  | batch heard size panicked => exact g.applyBatch_same heard size panicked
  | _ => exact ⟨rfl, rfl, rfl, rfl, rfl⟩

end App

end SocketTrail.Program
