/-
# The process view and process identity

The group of the selected process is a list of bare numbers. A number alone does
not say whose row a row is: `Faithful` states what has to hold for the group to
select by identity, and `KeepsIdentity` what a poll and a selection have to leave
alone. Every other section keeps `Faithful`, since a row only ever takes over the
number of a socket together with the start time of the listed process.
-/

import SocketTrail.Net.Reach
import SocketTrail.Program.View
import SocketTrail.Program.World
import SocketTrail.Attribution.Counted
import SocketTrail.State.Owners

namespace SocketTrail.Program

open SocketTrail.Foundation SocketTrail.Net SocketTrail.State
open SocketTrail.Attribution (sampleKey sampleProc sampleTcp)

/-- The row has the start time of the listed process with the number. -/
def Names (procs : List ProcInfo) (q : ℤ) (c : Conn) : Prop :=
  ∃ info, procMap procs q = some info ∧ c.ownerStarted = some info.started

namespace App

/-- The group selects by identity: what bears the number of a process of the
group belongs to the listed process with that number. -/
structure Faithful (g : App) : Prop where
  table : Listed (procMap g.procs) g.store.udpSockets
  rows : g.selectedInstance.isSome = true → ∀ k c, g.store.conns.lookup k = some c →
    ∀ q ∈ g.group, c.pid = some q → Names g.procs q c
  live : g.selectedInstance.isSome = true → ∀ q ∈ g.group, Borne g.store.udpSockets q →
    (procMap g.procs q).isSome = true

/-- A section leaves the numbers of the group to the processes that have them.

A poll: no row that keeps its owner has the number of a process of the group with
another start time than the process list, and no process that is gone from the
list, but not yet from the group, still has a socket. Of a row that the poll itself
removes, disputes or gives to another process nothing is asked; `keepsIdentity_of_rows`
is the condition on all rows before the poll. A selection: no row has the number of a
process of the new group with another start time. -/
def KeepsIdentity (g : App) : Background → Prop
  | .poll p =>
      (∀ k c c', g.store.conns.lookup k = some c → (g.applyPoll p).store.conns.lookup k = some c' →
        c'.pid = c.pid → c'.ownerStarted = c.ownerStarted →
          ∀ q ∈ (g.applyScan p).group, c.pid = some q → Names (g.applyScan p).procs q c) ∧
      ∀ q ∈ (g.applyScan p).group, Brought p.socks g.store.udpSockets q →
        (procMap (g.applyScan p).procs q).isSome = true
  | .select pid =>
      (g.select pid).selectedInstance.isSome = true →
        ∀ k c, g.store.conns.lookup k = some c →
          ∀ q ∈ (g.select pid).group, c.pid = some q → Names g.procs q c
  | _ => True

/-- A poll harms no one if every row before it that has a number of the group has the
start time of the scan's process with the number, and no process of the group that is
gone has a socket. -/
theorem keepsIdentity_of_rows {g : App} {p : Poll}
    (hrows : ∀ k c, g.store.conns.lookup k = some c → ∀ q ∈ (g.applyScan p).group,
      c.pid = some q → Names (g.applyScan p).procs q c)
    (hgone : ∀ q ∈ (g.applyScan p).group, Brought p.socks g.store.udpSockets q →
      (procMap (g.applyScan p).procs q).isSome = true) : g.KeepsIdentity (.poll p) :=
  ⟨fun k c _ hrow _ _ _ q hq hpid => hrows k c hrow q hq hpid, hgone⟩

/-- Where there are no rows yet, only a process that is gone can do harm. -/
theorem keepsIdentity_of_empty {g : App} (h : g.store.conns = ∅) :
    (∀ pid, g.KeepsIdentity (.select pid)) ∧
      ∀ p, (∀ q ∈ (g.applyScan p).group, (procMap (g.applyScan p).procs q).isSome = true) →
        g.KeepsIdentity (.poll p) := by
  have hnone (k : ConnKey) (c : Conn) : g.store.conns.lookup k ≠ some c := by
    rw [h, AList.lookup_empty]
    simp
  constructor
  · intro pid _ k c hrow
    exact absurd hrow (hnone k c)
  · intro p hlisted
    exact keepsIdentity_of_rows (fun k c hrow => absurd hrow (hnone k c)) fun q hq _ => hlisted q hq

/-! ## What a section leaves to the view -/

/-- The group, the process list and the UDP table are the same, and every row has
the owner of a row before. -/
structure SameView (g g' : App) : Prop where
  procs : g'.procs = g.procs
  selectedInstance : g'.selectedInstance = g.selectedInstance
  group : g'.group = g.group
  udpSockets : g'.store.udpSockets = g.store.udpSockets
  rows : ∀ k c', g'.store.conns.lookup k = some c' →
    ∃ c, g.store.conns.lookup k = some c ∧ c'.pid = c.pid ∧ c'.ownerStarted = c.ownerStarted

theorem SameView.of_store {g g' : App} (hstore : g'.store = g.store) (hprocs : g'.procs = g.procs)
    (hselected : g'.selectedInstance = g.selectedInstance) (hgroup : g'.group = g.group) :
    SameView g g' where
  procs := hprocs
  selectedInstance := hselected
  group := hgroup
  udpSockets := by rw [hstore]
  rows k c' hrow := ⟨c', hstore ▸ hrow, rfl, rfl⟩

theorem Faithful.congr {g g' : App} (h : g.Faithful) (hsame : SameView g g') : g'.Faithful where
  table := by
    rw [hsame.procs, hsame.udpSockets]
    exact h.table
  rows hselected k c' hrow q hq hpid := by
    rw [hsame.selectedInstance] at hselected
    rw [hsame.group] at hq
    obtain ⟨c, hbefore, hpid', hstarted⟩ := hsame.rows k c' hrow
    obtain ⟨info, hinfo, hnames⟩ := h.rows hselected k c hbefore q hq (hpid' ▸ hpid)
    exact ⟨info, hsame.procs ▸ hinfo, hstarted.trans hnames⟩
  live hselected q hq hborne := by
    rw [hsame.selectedInstance] at hselected
    rw [hsame.group] at hq
    rw [hsame.udpSockets] at hborne
    rw [hsame.procs]
    exact h.live hselected q hq hborne

/-! ## Packets -/

theorem Faithful.applyHeard {g : App} (h : g.Faithful) (p : Heard) : (g.applyHeard p).Faithful := by
  obtain ⟨rows, hframe⟩ := Store.applyPacket_frame p.connOrder p.ipOrder p.clock g.store p.packet
  have htable : (g.applyHeard p).store.udpSockets = g.store.udpSockets := by
    change (g.store.applyPacket p.connOrder p.ipOrder p.clock p.packet).2.udpSockets = _
    rw [hframe]
    rfl
  constructor
  · rw [htable]
    exact h.table
  · intro hselected k c hrow q hq hpid
    have hafter : OwnerAfter g.store (Borne g.store.udpSockets) (procMap g.procs) k c :=
      applyPacket_ownerAfter h.table hrow
    cases hafter with
    | kept c₀ hbefore hpid₀ hstarted =>
        obtain ⟨info, hinfo, hnames⟩ := h.rows hselected k c₀ hbefore q hq (hpid₀ ▸ hpid)
        exact ⟨info, hinfo, hstarted.trans hnames⟩
    | unowned hnone => rw [hnone] at hpid; contradiction
    | named q' hpid' hborne hlisted =>
        obtain rfl : q' = q := Option.some.inj (hpid'.symm.trans hpid)
        obtain ⟨info, hinfo⟩ := Option.isSome_iff_exists.mp (h.live hselected q' hq hborne)
        exact ⟨info, hinfo, hlisted info hinfo⟩
  · intro hselected q hq hborne
    rw [htable] at hborne
    exact h.live hselected q hq hborne

theorem Faithful.applyBatch {g : App} (h : g.Faithful) (heard : List Heard) (size : ℕ)
    (panicked : Bool) : (g.applyBatch heard size panicked).Faithful := by
  have hfold : (heard.foldl App.applyHeard g).Faithful := by
    induction heard generalizing g with
    | nil => exact h
    | cons p rest ih => exact ih (h.applyHeard p)
  exact hfold.congr (.of_store rfl rfl rfl rfl)

/-! ## Polls -/

theorem refreshSelectedGroup_store (g : App) (processes : List ProcInfo) (full : Bool) :
    (g.refreshSelectedGroup processes full).store = g.store := by
  unfold refreshSelectedGroup
  split
  · rfl
  · split
    · rfl
    · split
      · split <;> rfl
      · rfl

theorem applyScan_store (g : App) (p : Poll) : (g.applyScan p).store = g.store := by
  unfold applyScan
  split <;> exact refreshSelectedGroup_store ..

/-- The store of a poll whose sockets are applied. -/
def polledStore (g : App) (p : Poll) : Store :=
  g.store.step
    { op := .poll p.localIps p.socks (g.applyScan p).procs, clock := p.socketClock,
      connOrder := p.evictOrder }

theorem applyPoll_store (g : App) (p : Poll) :
    (g.applyPoll p).store =
      ((g.polledStore p).enrichNames p.rowOrder p.lang p.nameClock).applyWhois
        (g.applyScan p).whois := by
  unfold polledStore
  rw [← g.applyScan_store p]
  rfl

/-- After the sockets a poll changes names only. -/
theorem applyPoll_row {g : App} {p : Poll} {k : ConnKey} {c : Conn}
    (h : (g.applyPoll p).store.conns.lookup k = some c) :
    ∃ c₀, (g.polledStore p).conns.lookup k = some c₀ ∧ NamesOnly c₀ c := by
  rw [applyPoll_store] at h
  unfold Store.applyWhois Store.enrichNames at h
  dsimp only at h
  rw [KeyedMap.lookup_mapValues, Option.map_eq_some_iff] at h
  obtain ⟨c₁, hnamed, rfl⟩ := h
  rw [KeyedMap.lookup_mapValues, Option.map_eq_some_iff] at hnamed
  obtain ⟨c₀, hpolled, rfl⟩ := hnamed
  refine ⟨c₀, hpolled, ?_⟩
  obtain ⟨domain, ptr, asn, owner, hname⟩ := enrichName_namesOnly p.lang (g.polledStore p).dns
    (p.nameClock.read ((p.rowOrder.arrange (g.polledStore p).conns.keys).idxOf k)) k c₀
  obtain ⟨domain', ptr', asn', owner', hwhois⟩ :=
    applyWhoisRow_namesOnly (g.applyScan p).whois k { c₀ with domain, ptr, asn, owner }
  exact ⟨domain', ptr', asn', owner', by rw [hname, hwhois]⟩

theorem Faithful.applyPoll {g : App} {p : Poll} (hkeeps : g.KeepsIdentity (.poll p)) :
    (g.applyPoll p).Faithful := by
  obtain ⟨hkept, hgone⟩ := hkeeps
  have htable : (g.applyPoll p).store.udpSockets =
      (g.store.polled p.localIps p.socks (g.applyScan p).procs
        (p.socketClock.read 0)).udpSockets := by
    rw [applyPoll_store]
    exact Store.step_udpSockets_of_poll g.store rfl
  constructor
  · rw [htable]
    exact listed_polled
  · intro _ k c hrow q hq hpid
    obtain ⟨c₀, hpolled, domain, ptr, asn, owner, rfl⟩ := applyPoll_row hrow
    have hafter : OwnerAfter g.store (Brought p.socks g.store.udpSockets)
        (procMap (g.applyScan p).procs) k c₀ := poll_ownerAfter rfl hpolled
    cases hafter with
    | kept c₁ hbefore hpid₁ hstarted =>
        obtain ⟨info, hinfo, hnames⟩ :=
          hkept k c₁ _ hbefore hrow hpid₁ hstarted q hq (hpid₁.symm.trans hpid)
        exact ⟨info, hinfo, hstarted.trans hnames⟩
    | unowned hnone =>
        have hnone' : some q = none := hpid.symm.trans hnone
        contradiction
    | named q' hpid' hborne hlisted =>
        obtain rfl : q' = q := Option.some.inj (hpid'.symm.trans hpid)
        obtain ⟨info, hinfo⟩ := Option.isSome_iff_exists.mp (hgone q' hq hborne)
        exact ⟨info, hinfo, hlisted info hinfo⟩
  · intro _ q hq hborne
    rw [htable] at hborne
    exact hgone q hq (brought_of_borne_polled hborne)

/-- A poll that leaves a number of the group to the row of another process shows
that row in the process view. -/
theorem earlier_row_shown {g : App} {p : Poll} {k : ConnKey} {c c' : Conn}
    (hrow : (g.applyPoll p).store.conns.lookup k = some c') (hpid : c'.pid = c.pid)
    (hstarted : c'.ownerStarted = c.ownerStarted) {q : ℤ} (hq : q ∈ (g.applyScan p).group)
    (hnumber : c.pid = some q) (hother : ¬ Names (g.applyScan p).procs q c)
    {lower : String → String} (hlower : lower "" = "") (port : UInt16)
    (order : HashOrder ConnKey) :
    (k, c') ∈ (g.applyPoll p).selectConns lower port order openView ∧
      ¬ Names (g.applyPoll p).procs q c' := by
  constructor
  · apply mem_selectConns.mpr ⟨hrow, _⟩
    exact openView_shows hlower (hpid.trans hnumber) hq
  · rintro ⟨info, hinfo, hnames⟩
    exact hother ⟨info, hinfo, hstarted.symm.trans hnames⟩

/-! ## Selections -/

theorem Faithful.select {g : App} (h : g.Faithful) {pid : Option ℤ}
    (hkeeps : g.KeepsIdentity (.select pid)) : (g.select pid).Faithful where
  table := h.table
  rows := hkeeps
  live hselected q hq _ := by
    -- the selected process is listed, and so are its descendants
    cases pid with
    | none => contradiction
    | some root =>
        have hroot : ∃ p ∈ g.procs, p.pid = root := by
          simpa [App.select, List.find?_isSome] using hselected
        apply procMap_isSome.mpr
        rcases listed_of_mem_descendants hq with rfl | hlisted
        · exact hroot
        · exact hlisted

/-- A section that meets the condition keeps the group faithful. -/
theorem Faithful.background {g : App} (h : g.Faithful) {b : Background}
    (hkeeps : g.KeepsIdentity b) : (g.background b).Faithful := by
  cases b with
  | poll p => exact .applyPoll hkeeps
  | batch heard size panicked => exact h.applyBatch heard size panicked
  | select pid => exact h.select hkeeps
  | clear =>
      refine h.congr ⟨rfl, rfl, rfl, rfl, ?_⟩
      intro k c hrow
      simp [App.background, Store.clear] at hrow
  | resolved ip w =>
      refine h.congr ⟨rfl, rfl, rfl, rfl, ?_⟩
      intro k c hrow
      change (KeyedMap.mapValues (whoisRow ip w) g.store.conns).lookup k = some c at hrow
      rw [KeyedMap.lookup_mapValues, Option.map_eq_some_iff] at hrow
      obtain ⟨c₀, hbefore, rfl⟩ := hrow
      obtain ⟨domain, ptr, asn, owner, heq⟩ := whoisRow_namesOnly ip w k c₀
      rw [heq]
      exact ⟨c₀, hbefore, rfl, rfl⟩
  | learned clock order ip name ttl =>
      exact h.congr ⟨rfl, rfl, rfl, rfl, fun k c hrow => ⟨c, hrow, rfl, rfl⟩⟩
  | forget keep => exact h.congr (.of_store rfl rfl rfl rfl)
  | live pid on => exact h.congr (.of_store rfl rfl rfl rfl)
  | sent => exact h.congr (.of_store rfl rfl rfl rfl)
  | lost => exact h.congr (.of_store rfl rfl rfl rfl)

end App

/-! ## Runs of the program -/

namespace World

open App

/-- The sections of the operations on the recording leave the view alone. -/
theorem step_view {w w' : World} {e : Step} (fires : w.step e = some w') :
    (∃ b, e = .background b ∧ w'.app = w.app.background b) ∨
      ((∀ b, e ≠ .background b) ∧ SameView w.app w'.app) := by
  refine (step_app fires).imp id ?_
  rintro ⟨he, dump, phase, outcome, m, stopped, happ⟩
  rw [happ]
  exact ⟨he, .of_store rfl rfl rfl rfl⟩

end World

/-- A step of the program leaves the numbers of the group to the processes that
have them. -/
def Step.KeepsIdentity (w : World) : Step → Prop
  | .background b => w.app.KeepsIdentity b
  | _ => True

/-- The program at its start, with the names that earlier runs learned. -/
def World.fresh (now : ℕ) (names : KeyedMap IpAddr DnsEntry) (iface : String)
    (whois : IpAddr → Option Whois) (self : ℤ) (fs : Annotate.Fs) : World :=
  .initial (.initial { Store.empty now with dns := names } iface whois self) fs

theorem faithful_of_run {now : ℕ} {names : KeyedMap IpAddr DnsEntry} {iface : String}
    {whois : IpAddr → Option Whois} {self : ℤ} {fs : Annotate.Fs} {hist : History World Step}
    {w : World} (run : Run World.system (.fresh now names iface whois self fs) hist w)
    (hkeeps : ∀ entry ∈ hist, entry.2.KeepsIdentity entry.1) : w.app.Faithful := by
  apply Run.invariant_of_guard (P := fun w => w.app.Faithful)
    (G := fun w e => e.KeepsIdentity w) _ _ run hkeeps
  · constructor
    · intro port u hu
      contradiction
    · intro hselected
      contradiction
    · intro hselected
      contradiction
  · intro w e w' hfaithful hkeeps fires
    obtain ⟨b, rfl, happ⟩ | ⟨-, hsame⟩ := World.step_view fires
    · rw [happ]
      exact hfaithful.background hkeeps
    · exact hfaithful.congr hsame

/-- **The process view selects by identity** as long as no number of the group
changes hands under a row. -/
theorem selects_by_identity {now : ℕ} {names : KeyedMap IpAddr DnsEntry} {iface : String}
    {whois : IpAddr → Option Whois} {self : ℤ} {fs : Annotate.Fs} {hist : History World Step}
    {w : World} (run : Run World.system (.fresh now names iface whois self fs) hist w)
    (hkeeps : ∀ entry ∈ hist, entry.2.KeepsIdentity entry.1) {selected : ProcInfo}
    (hselected : w.app.selectedProcess = some selected) (lower : String → String)
    (port : UInt16) (order : HashOrder ConnKey) {f : Filter} (honly : f.onlySelected = true) :
    ∀ row ∈ w.app.selectConns lower port order f,
      ∃ p ∈ w.app.procs, p.pid ∈ w.app.group ∧ row.2.pid = some p.pid ∧
        row.2.ownerStarted = some p.started := by
  rintro ⟨k, c⟩ hrow
  have hfaithful := faithful_of_run run hkeeps
  obtain ⟨hlookup, hshown⟩ := App.mem_selectConns.mp hrow
  obtain ⟨q, hq, hpid⟩ := App.pid_mem_group_of_shows honly hshown
  have hinstance : w.app.selectedInstance.isSome = true := by
    obtain ⟨pid, -, hfound⟩ := Option.bind_eq_some_iff.mp hselected
    have hidentity := List.find?_some hfound
    rw [Bool.and_eq_true, decide_eq_true_eq, decide_eq_true_eq] at hidentity
    rw [← hidentity.2]
    rfl
  obtain ⟨info, hinfo, hstarted⟩ := hfaithful.rows hinstance k c hlookup q hq hpid
  obtain ⟨hmem, rfl⟩ := procMap_eq_some hinfo
  exact ⟨info, hmem, hq, hpid, hstarted⟩

/-- A poll of the whole sample host at an instant. -/
def samplePoll (t : ℕ) (procs : List ProcInfo) (socks : List SockEntry) : Step :=
  .background (.poll
    { scan := .full procs
      socks := socks
      localIps := none
      lang := .en
      trackedAt := t
      socketClock := .still t
      nameClock := .still t
      instanceOrder := .stored
      evictOrder := .stored
      rowOrder := .stored })

/-- A process is selected, and a connection of it is found. -/
def sampleSelection : List Step :=
  [samplePoll 10 [sampleProc 7 100] [], .background (.select (some 7)),
    samplePoll 20 [sampleProc 7 100] [sampleTcp (some 7)]]

/-- The program on a host where nothing is known yet. -/
def sampleHost : World := .fresh 0 ∅ "any" (fun _ => none) 1 fun _ => none

/-- The connection of the selected process is in its view, with its identity. -/
theorem selects_by_identity_sample :
    let w := (World.system.play [] sampleHost sampleSelection).2
    (∃ c, (sampleKey .tcp, c) ∈ w.app.selectConns id 8080 .stored App.openView) ∧
      ∀ row ∈ w.app.selectConns id 8080 .stored App.openView,
        ∃ p ∈ w.app.procs, p.pid ∈ w.app.group ∧ row.2.pid = some p.pid ∧
          row.2.ownerStarted = some p.started := by
  intro w
  have run : Run World.system sampleHost _ w := Run.start.play sampleSelection
  have hkeeps : ∀ entry ∈ (World.system.play [] sampleHost sampleSelection).1,
      entry.2.KeepsIdentity entry.1 := by
    refine List.forall_mem_cons.mpr ⟨?_, List.forall_mem_cons.mpr ⟨?_,
      List.forall_mem_cons.mpr ⟨?_, by simp⟩⟩⟩
    · exact (App.keepsIdentity_of_empty rfl).2 _ (by decide)
    · exact (App.keepsIdentity_of_empty rfl).1 _
    · exact (App.keepsIdentity_of_empty rfl).2 _ (by decide)
  have hselected : w.app.selectedProcess = some (sampleProc 7 100) := rfl
  refine ⟨?_, selects_by_identity run hkeeps hselected id 8080 .stored rfl⟩
  obtain ⟨c, hrow, hpid⟩ : ∃ c, w.app.store.conns.lookup (sampleKey .tcp) = some c ∧
      c.pid = some 7 := ⟨_, rfl, rfl⟩
  exact ⟨c, App.mem_selectConns.mpr ⟨hrow, App.openView_shows rfl hpid (by decide)⟩⟩

/-- A process ends, another one gets its number, and that one is selected. -/
def sampleReuse : List Step :=
  [samplePoll 10 [sampleProc 7 100] [sampleTcp (some 7)], samplePoll 20 [sampleProc 7 200] [],
    .background (.select (some 7))]

/-- The view of a process shows the connection of an earlier process with the
same number. -/
theorem selects_earlier_process :
    let w := (World.system.play [] sampleHost sampleReuse).2
    Run World.system sampleHost (World.system.play [] sampleHost sampleReuse).1 w ∧
      w.app.selectedProcess = some (sampleProc 7 200) ∧ (sampleProc 7 200).started ≠ 0 ∧
      ∃ row ∈ w.app.selectConns id 8080 .stored App.openView,
        ¬ ∃ p ∈ w.app.procs, p.pid ∈ w.app.group ∧ row.2.pid = some p.pid ∧
          row.2.ownerStarted = some p.started := by
  intro w
  refine ⟨Run.start.play sampleReuse, rfl, by decide, ?_⟩
  obtain ⟨c, hrow, hpid, hstarted⟩ : ∃ c, w.app.store.conns.lookup (sampleKey .tcp) = some c ∧
      c.pid = some 7 ∧ c.ownerStarted = some 100 := ⟨_, rfl, rfl, rfl⟩
  refine ⟨(sampleKey .tcp, c), ?_, ?_⟩
  · exact App.mem_selectConns.mpr ⟨hrow, App.openView_shows rfl hpid (by decide)⟩
  · rintro ⟨p, hp, -, -, hstart⟩
    obtain rfl := List.mem_singleton.mp hp
    rw [hstarted] at hstart
    revert hstart
    decide

end SocketTrail.Program
