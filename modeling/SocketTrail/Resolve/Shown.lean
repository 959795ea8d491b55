/-
# What becomes of the answers

No other part of the program remembers an answer of the resolver, so an address that is
being asked about has none, and at most one batch of public addresses is asked about at
a time. An answer that is remembered is whole. Every name, network and owner that a row
shows comes from one: from a lookup, or from the answers of earlier runs.
-/

import SocketTrail.Resolve.Loop
import SocketTrail.State.Rows

namespace SocketTrail.Program

open SocketTrail.Foundation SocketTrail.Net SocketTrail.State SocketTrail.Resolve

/-! ## Who remembers an answer -/

namespace App

theorem refreshSelectedGroup_whois (g : App) (processes : List ProcInfo) (full : Bool) :
    (g.refreshSelectedGroup processes full).whois = g.whois := by
  unfold refreshSelectedGroup
  split
  · rfl
  · split
    · rfl
    · split
      · split <;> rfl
      · rfl

theorem applyScan_whois (g : App) (p : Poll) : (g.applyScan p).whois = g.whois := by
  unfold applyScan
  split <;> exact refreshSelectedGroup_whois ..

theorem foldl_applyHeard_whois (g : App) (heard : List Heard) :
    (heard.foldl applyHeard g).whois = g.whois := by
  induction heard generalizing g with
  | nil => rfl
  | cons p rest ih => exact ih (g.applyHeard p)

/-- Outside the loop of the lookups answers are forgotten at most. -/
theorem background_whois {g : App} {b : Background} (hown : resolves (.background b) = false)
    {ip : IpAddr} {w : Whois} (h : (g.background b).whois ip = some w) : g.whois ip = some w := by
  cases b with
  | poll p =>
      change (g.applyScan p).whois ip = some w at h
      rwa [applyScan_whois] at h
  | batch heard size panicked =>
      change (heard.foldl applyHeard g).whois ip = some w at h
      rwa [foldl_applyHeard_whois] at h
  | resolved ip w => contradiction
  | forget keep => exact (Option.ite_none_right_eq_some.mp h).2
  | select | clear | learned | live | sent | lost => exact h

end App

theorem World.step_whois {w w' : World} {e : Step} (fires : w.step e = some w')
    (hown : resolves e = false) {ip : IpAddr} {x : Whois} (h : w'.app.whois ip = some x) :
    w.app.whois ip = some x := by
  obtain ⟨b, rfl, happ⟩ | ⟨-, dump, phase, outcome, m, stopped, happ⟩ := World.step_app fires
  · rw [happ] at h
    exact App.background_whois hown h
  · rw [happ] at h
    exact h

end SocketTrail.Program

namespace SocketTrail.Resolve

open SocketTrail.Foundation SocketTrail.Net SocketTrail.State SocketTrail.Attribution
  SocketTrail.Program

namespace WhoisLoop

variable {s s' : WhoisLoop} {e : Event} {ip : IpAddr}

theorem whois_applyAnswer_of_ne {other : IpAddr} (hne : other ≠ ip) (s : WhoisLoop)
    (clock : Clock) (w : Whois) :
    (s.applyAnswer clock ip w).world.app.whois other = s.world.app.whois other := by
  unfold applyAnswer App.resolved
  split
  · dsimp only
    split
    · rfl
    · simp
  · simp [Function.update_of_ne hne]

/-- What is being asked: a batch of addresses at most, each of them public and without
an answer. -/
structure Asking (s : WhoisLoop) : Prop where
  batch : s.unsettled.length ≤ whoisBatch
  strangers : ∀ ip ∈ s.unsettled, classify ip = .publicNet ∧ ip.isUnspecified = false
  unknown : ∀ ip ∈ s.unsettled, s.world.app.whois ip = none

theorem Asking.step (h : s.Asking) (hcounted : s.Counted) (hstep : Stepped s e s') :
    s'.Asking := by
  rcases hstep.unsettled with hsub | ⟨clock, entries, rows, -, -, hworld, heq⟩
  · refine ⟨hsub.length_le.trans h.batch, fun ip hip => h.strangers ip (hsub.subset hip), ?_⟩
    intro ip hip
    have hunknown := h.unknown ip (hsub.subset hip)
    cases hstep with
    | other clock e w hown hworld =>
        rw [Option.eq_none_iff_forall_ne_some] at hunknown ⊢
        intro x hx
        exact hunknown x (World.step_whois hworld hown hx)
    | pass | answered | lost => exact hunknown
    | apply clock other w rest hasked hdone =>
        -- the address whose answer is applied is settled, and it was open only once
        have hbefore : s.unsettled = other :: rest.map Prod.fst := by
          simp [WhoisLoop.unsettled, hasked, hdone]
        have hne : ip ≠ other := by
          have hnodup := hcounted.nodup
          rw [hbefore] at hnodup
          have hin : ip ∈ rest.map Prod.fst := by
            unfold WhoisLoop.unsettled applyAnswer at hip
            split at hip <;> simpa [hasked] using hip
          exact fun heq => (List.nodup_cons.mp hnodup).1 (heq ▸ hin)
        exact (whois_applyAnswer_of_ne hne s clock w).trans hunknown
  · have htarget {ip : IpAddr} (hip : ip ∈ s'.unsettled) := mem_whoisTargets (heq ▸ hip)
    refine ⟨heq ▸ List.length_take_le _ _, ?_, ?_⟩
    · intro ip hip
      obtain ⟨-, hscope, hspecified, -, -⟩ := htarget hip
      exact ⟨hscope, hspecified⟩
    · intro ip hip
      obtain ⟨-, -, -, hunknown, -⟩ := htarget hip
      rw [hworld]
      exact hunknown

theorem asking_of_run {w : World} {t : ℕ} {hist : History (WhoisLoop × ℕ) Event}
    {x : WhoisLoop × ℕ} (run : Run timedSystem (initial w, t) hist x) : x.1.Asking := by
  apply run.historyInvariant (P := fun _ x => x.1.Asking)
  · exact ⟨Nat.zero_le _, by simp [initial, WhoisLoop.unsettled],
      by simp [initial, WhoisLoop.unsettled]⟩
  · intro hist x e x' prior h fires
    obtain ⟨-, hstep, -⟩ := System.timed_step_eq_some fires
    exact h.step (counted_of_run prior) (step_cases hstep)

/-- Whatever the program does meanwhile, the resolver is asked about no more than one
batch of different addresses at a time, only about public ones that it has no answer
for, and about none whose lookups have failed three times in a row within ten minutes. -/
theorem asks_strangers_once {w : World} {t : ℕ} {earlier late : History (WhoisLoop × ℕ) Event}
    {x x' : WhoisLoop × ℕ} (before : Run timedSystem (initial w, t) earlier x)
    (run : Run timedSystem x late x') :
    x'.1.unsettled.length ≤ 8 ∧ x'.1.unsettled.Nodup ∧
      ∀ ip ∈ x'.1.unsettled, classify ip = .publicNet ∧ ip.isUnspecified = false ∧
        x'.1.world.app.whois ip = none ∧
        (x'.2 < x.2 + 600 * 10 ^ 9 →
          (∀ entry ∈ late, ∀ w, applied entry.1.1 entry.2 = some (ip, w) → w.failed = true) →
          late.countP (failsAt ip) < 3) := by
  have hasking := asking_of_run (before.append run)
  have hcounted := counted_of_run (before.append run)
  refine ⟨hasking.batch, hcounted.nodup, fun ip hip => ?_⟩
  obtain ⟨hscope, hspecified⟩ := hasking.strangers ip hip
  refine ⟨hscope, hspecified, hasking.unknown ip hip, fun hrecent hfails => ?_⟩
  obtain ⟨-, hrecorded⟩ := recorded_run run (Nat.le_refl x.2) hrecent hfails
  rcases hrecorded with hzero | ⟨entry, hentry, hcount, -⟩
  · rw [hzero]
    decide
  · have hallowed := hcounted.allowed ip hip
    rw [retry, hentry, Option.all_some, decide_eq_true_eq] at hallowed
    exact Nat.lt_of_le_of_lt hcount hallowed

/-- After two failures the address of the one row is asked about once more. -/
theorem asks_strangers_once_sample :
    let played := timedSystem.play [] (initial sampleWorld, 0)
      (failingPass 1 ++ failingPass 2 ++ [.pass (.still 3) .stored .stored])
    (sampleKey .tcp).remote ∈ played.2.1.unsettled ∧
      classify (sampleKey .tcp).remote = .publicNet ∧
      played.1.countP (failsAt (sampleKey .tcp).remote) = 2 ∧
      played.1.countP (failsAt (sampleKey .tcp).remote) < 3 := by
  intro played
  have hasked : (sampleKey .tcp).remote ∈ played.2.1.unsettled := by decide
  have hcount : played.1.countP (failsAt (sampleKey .tcp).remote) = 2 := by decide
  obtain ⟨-, -, hall⟩ := asks_strangers_once .start (Run.start.play _ : Run timedSystem _ played.1 _)
  obtain ⟨hscope, -, -, hfew⟩ := hall _ hasked
  have hfails : ∀ entry ∈ played.1,
      ((applied entry.1.1 entry.2).all fun answer => answer.2.failed) = true := by decide
  refine ⟨hasked, hscope, hcount, hfew (by decide) ?_⟩
  intro entry hentry w hw
  have hfailed := hfails entry hentry
  rw [hw] at hfailed
  exact hfailed

end WhoisLoop

/-! ## Where the names of a row come from -/

/-- What a row shows of the answers. -/
def found (c : Conn) : Option String × Option String × Option String := (c.ptr, c.asn, c.owner)

theorem found_attributeUdp (c : Conn) (owner : UdpMatch)
    (procs : Option (ℤ → Option ProcInfo)) : found (attributeUdp c owner procs) = found c := by
  by_cases hc : c.ownerAmbiguous = true
  · rw [attributeUdp_of_ambiguous hc]
  · rw [Bool.not_eq_true] at hc
    obtain ⟨-, -, heq⟩ | ⟨o, -, -, -, pname, heq⟩ | heq := attributeUdp_cases c owner procs hc
    · rw [heq]
    · rw [heq]
      rfl
    · rw [heq]
      rfl

theorem found_countPacket (p : Packet) (outgoing : Bool) (owner : UdpMatch) (now : ℕ) (c : Conn) :
    found (Store.countPacket p outgoing owner now c) = found c := by
  obtain ⟨base, state, closed, hbase, heq⟩ := countPacket_eq p outgoing owner now c
  have hfound : found base = found c := by
    rw [hbase]
    split
    · exact found_attributeUdp c owner none
    · rfl
  rw [heq]
  exact hfound

theorem found_showSocket (procs : ProcMap) (t : ℕ) (s : SockEntry) (owner : UdpMatch) (c : Conn) :
    found (Store.showSocket procs t s owner c) = found c := by
  unfold Store.showSocket
  split
  · have hreuse : found (Store.checkReuse procs s c) = found c := by
      unfold Store.checkReuse
      split <;> rfl
    unfold Store.takeOwner
    split
    · exact hreuse
    · exact hreuse
  · exact found_attributeUdp (Store.markShown t s c) owner (some procs)

theorem found_settle (procs : ProcMap) (t : ℕ) (shown : Bool) (k : ConnKey) (owner : UdpMatch)
    (c : Conn) : found (Store.settle procs t shown k owner c) = found c := by
  obtain heq | ⟨state, heq⟩ | ⟨-, -, -, -, heq⟩ := settle_cases procs t shown k owner c
  · rw [heq]
  · rw [heq]
    rfl
  · rw [heq]
    exact found_attributeUdp c owner (some procs)

theorem found_enrichName (lang : Lang) (dns : KeyedMap IpAddr DnsEntry) (now : ℕ) (k : ConnKey)
    (c : Conn) : found (enrichName lang dns now k c) = found c := by
  unfold enrichName
  split <;> rfl

/-- What the row shows comes from trusted answers about its address, the network and its
owner from one. -/
structure Sourced (T : IpAddr → Whois → Prop) (ip : IpAddr) (c : Conn) : Prop where
  ptr : c.ptr = none ∨ ∃ w, T ip w ∧ w.ptr = c.ptr
  network : (c.asn = none ∧ c.owner = none) ∨ ∃ w, T ip w ∧ w.asn = c.asn ∧ w.owner = c.owner

/-- The rows of the store show only what comes from trusted answers about their
addresses. -/
def SourcedRows (T : IpAddr → Whois → Prop) (st : Store) : Prop :=
  ∀ k c, st.conns.lookup k = some c → Sourced T k.remote c

section Rows

variable {T T' : IpAddr → Whois → Prop} {ip : IpAddr} {c c' : Conn} {st : Store} {e : State.Event}

theorem Sourced.mono (h : Sourced T ip c) (hT : ∀ ip w, T ip w → T' ip w) : Sourced T' ip c where
  ptr := h.ptr.imp_right fun ⟨w, hw, heq⟩ => ⟨w, hT ip w hw, heq⟩
  network := h.network.imp_right fun ⟨w, hw, heq⟩ => ⟨w, hT ip w hw, heq⟩

theorem Sourced.congr (h : Sourced T ip c) (hfound : found c' = found c) : Sourced T ip c' := by
  simp only [found, Prod.mk.injEq] at hfound
  obtain ⟨hptr, hasn, howner⟩ := hfound
  constructor
  · rw [hptr]
    exact h.ptr
  · rw [hasn, howner]
    exact h.network

theorem Sourced.fresh (k : ConnKey) (fromPackets : Bool) (now : ℕ) :
    Sourced T ip (Store.freshConn k fromPackets now) := ⟨.inl rfl, .inl ⟨rfl, rfl⟩⟩

theorem Sourced.known {k : ConnKey} (h : Sourced T k.remote c) {whois : IpAddr → Option Whois}
    (hknown : ∀ ip w, whois ip = some w → T ip w) :
    Sourced T k.remote (applyWhoisRow whois k c) := by
  unfold applyWhoisRow
  split
  · exact h
  · split
    · exact h
    · rename_i w hw
      have hT := hknown k.remote w hw
      constructor
      · cases hptr : c.ptr with
        | none => exact .inr ⟨w, hT, rfl⟩
        | some p =>
            rcases h.ptr with hnone | ⟨w', hT', hw'⟩
            · exact absurd (hptr.symm.trans hnone) (by simp)
            · exact .inr ⟨w', hT', hw'.trans hptr⟩
      · dsimp only
        cases hasn : c.asn with
        | none => exact .inr ⟨w, hT, rfl, rfl⟩
        | some a =>
            rcases h.network with ⟨hnone, -⟩ | ⟨w', hT', hasn', howner'⟩
            · exact absurd (hasn.symm.trans hnone) (by simp)
            · exact .inr ⟨w', hT', hasn'.trans hasn, howner'⟩

theorem Sourced.resolved {k : ConnKey} (h : Sourced T k.remote c) {w : Whois} (hT : T ip w) :
    Sourced T k.remote (whoisRow ip w k c) := by
  unfold whoisRow
  split
  · rename_i hremote
    subst hremote
    constructor
    · cases hptr : w.ptr with
      | none => exact h.ptr
      | some p => exact .inr ⟨w, hT, hptr⟩
    · dsimp only
      cases hasn : w.asn with
      | none => exact h.network
      | some a => exact .inr ⟨w, hT, hasn, rfl⟩
  · exact h

private theorem sourced_mapValues {f : ConnKey → Conn → Conn} {conns : KeyedMap ConnKey Conn}
    (hf : ∀ k c, Sourced T k.remote c → Sourced T k.remote (f k c))
    (hrows : ∀ k c, conns.lookup k = some c → Sourced T k.remote c) :
    ∀ k c, (conns.mapValues f).lookup k = some c → Sourced T k.remote c := by
  intro k c hrow
  rw [KeyedMap.lookup_mapValues, Option.map_eq_some_iff] at hrow
  obtain ⟨c₀, hold, rfl⟩ := hrow
  exact hf k c₀ (hrows k c₀ hold)

/-- An operation that brings no other answers than trusted ones. -/
def Brings (T : IpAddr → Whois → Prop) : Op → Prop
  | .whois known => ∀ ip w, known ip = some w → T ip w
  | .resolved ip w => T ip w
  | _ => True

theorem SourcedRows.step (hrows : SourcedRows T st) (hbrings : Brings T e.op) :
    SourcedRows T (st.step e) := by
  intro k c hrow
  unfold Store.step at hrow
  cases hop : e.op with
  | packet p =>
      rw [hop] at hrow
      obtain ⟨-, hold⟩ | ⟨-, c₀, hbase, rfl⟩ := Store.applyPacket_cases hrow
      · exact hrows k c hold
      · have hc₀ : Sourced T k.remote c₀ := by
          rcases hbase with hold | ⟨-, rfl⟩
          · exact hrows k c₀ hold
          · exact .fresh k _ _
        exact hc₀.congr (found_countPacket ..)
  | poll ips socks procs =>
      rw [hop] at hrow
      have hrows' : SourcedRows T (st.setLocalIps ips) := by cases ips <;> exact hrows
      refine Store.applySockets_invariant (R := fun k c => Sourced T k.remote c) hrows' ?_ ?_ ?_ hrow
      · intro s _ _ i
        exact (Sourced.fresh s.key _ _).congr (found_showSocket ..)
      · intro s _ _ c hc
        exact hc.congr (found_showSocket ..)
      · intro k c shown hc
        exact hc.congr (found_settle ..)
  | clear =>
      rw [hop] at hrow
      simp [Store.clear] at hrow
  | learn ip name ttl =>
      rw [hop] at hrow
      exact hrows k c hrow
  | enrich lang =>
      rw [hop] at hrow
      refine sourced_mapValues ?_ hrows k c hrow
      intro k c hc
      exact hc.congr (found_enrichName ..)
  | whois known =>
      rw [hop] at hrow hbrings
      exact sourced_mapValues (fun k c hc => hc.known hbrings) hrows k c hrow
  | resolved ip w =>
      rw [hop] at hrow hbrings
      exact sourced_mapValues (fun k c hc => hc.resolved hbrings) hrows k c hrow

/-- The other parts of the program bring no answers but those that are remembered. -/
theorem background_sourced {g : App} {b : App.Background}
    (hown : resolves (.background b) = false) (hrows : SourcedRows T g.store)
    (hknown : ∀ ip w, g.whois ip = some w → T ip w) : SourcedRows T (g.background b).store := by
  cases b with
  | poll p =>
      have hpolled : SourcedRows T (g.polledStore p) := hrows.step trivial
      have hnamed : SourcedRows T ((g.polledStore p).enrichNames p.rowOrder p.lang p.nameClock) :=
        hpolled.step (e := { op := .enrich p.lang, clock := p.nameClock, connOrder := p.rowOrder })
          trivial
      have hscan : ∀ ip w, (g.applyScan p).whois ip = some w → T ip w := by
        intro ip w hw
        rw [App.applyScan_whois] at hw
        exact hknown ip w hw
      change SourcedRows T (g.applyPoll p).store
      rw [App.applyPoll_store]
      exact hnamed.step (e := { op := .whois (g.applyScan p).whois, clock := p.nameClock }) hscan
  | batch heard size panicked =>
      change SourcedRows T (heard.foldl App.applyHeard g).store
      clear hknown hown
      induction heard generalizing g with
      | nil => exact hrows
      | cons p rest ih =>
          apply ih
          exact hrows.step (e :=
            { op := .packet p.packet, clock := p.clock, connOrder := p.connOrder,
              ipOrder := p.ipOrder }) trivial
  | clear => exact hrows.step (e := { op := .clear, clock := .still 0 }) trivial
  | resolved ip w => contradiction
  | learned clock order ip name ttl => exact hrows
  | select | forget | live | sent | lost => exact hrows

end Rows

/-! ## Runs -/

namespace WhoisLoop

variable {s s' : WhoisLoop} {e : Event} {hist : History WhoisLoop Event}
  {earlier : IpAddr → Option Whois} {ip : IpAddr} {w : Whois}

/-- A lookup of the address ended with the answer. -/
def Answered (hist : History WhoisLoop Event) (ip : IpAddr) (w : Whois) : Prop :=
  ∃ s clock r rest, (s, Event.awaited clock (some r)) ∈ hist ∧ s.asked = ip :: rest ∧
    w = lookup r ip

theorem Answered.proper (h : Answered hist ip w) : Proper w := by
  obtain ⟨-, -, r, -, -, -, rfl⟩ := h
  exact proper_lookup r ip

theorem Answered.next (h : Answered hist ip w) (entry : WhoisLoop × Event) :
    Answered (entry :: hist) ip w := by
  obtain ⟨s, clock, r, rest, hentry, hrest⟩ := h
  exact ⟨s, clock, r, rest, List.mem_cons_of_mem entry hentry, hrest⟩

/-- An answer about the address: of a lookup in this run, or of an earlier run. -/
def Trusted (earlier : IpAddr → Option Whois) (hist : History WhoisLoop Event) (ip : IpAddr)
    (w : Whois) : Prop :=
  earlier ip = some w ∨ Answered hist ip w ∧ Proper w

/-- What is remembered is whole, and so is what the rows show of it. -/
structure Sound (earlier : IpAddr → Option Whois) (hist : History WhoisLoop Event)
    (s : WhoisLoop) : Prop where
  known : ∀ ip w, s.world.app.whois ip = some w →
    earlier ip = some w ∨ (Answered hist ip w ∧ Proper w ∧ w.failed = false)
  rows : SourcedRows (Trusted earlier hist) s.world.app.store
  answers : ∀ entry ∈ s.done, Answered hist entry.1 entry.2

theorem Sound.trusted (h : Sound earlier hist s) (ip : IpAddr) (w : Whois)
    (hw : s.world.app.whois ip = some w) : Trusted earlier hist ip w := by
  rcases h.known ip w hw with hearlier | ⟨hanswered, hproper, -⟩
  · exact .inl hearlier
  · exact .inr ⟨hanswered, hproper⟩

theorem Sound.next (h : Sound earlier hist s) (entry : WhoisLoop × Event) :
    Sound earlier (entry :: hist) s where
  known ip w hw := (h.known ip w hw).imp_right fun ⟨hanswered, hwhole⟩ =>
    ⟨hanswered.next entry, hwhole⟩
  rows k c hrow := (h.rows k c hrow).mono fun _ _ hT =>
    hT.imp_right fun ⟨hanswered, hproper⟩ => ⟨hanswered.next entry, hproper⟩
  answers answer hanswer := (h.answers answer hanswer).next entry

theorem Sound.other {w : World} {e : Step} (h : Sound earlier hist s) (hown : resolves e = false)
    (fires : s.world.step e = some w) : Sound earlier hist { s with world := w } where
  known ip x hx := h.known ip x (World.step_whois fires hown hx)
  rows := by
    obtain ⟨b, rfl, happ⟩ | ⟨-, dump, phase, outcome, m, stopped, happ⟩ := World.step_app fires
    · change SourcedRows _ w.app.store
      rw [happ]
      exact background_sourced hown h.rows h.trusted
    · change SourcedRows _ w.app.store
      rw [happ]
      exact h.rows
  answers := h.answers

theorem Sound.apply {clock : Clock} {rest : List (IpAddr × Whois)} (h : Sound earlier hist s)
    (hdone : s.done = (ip, w) :: rest) :
    Sound earlier hist { s.applyAnswer clock ip w with done := rest } := by
  have hanswers : ∀ entry ∈ (ip, w) :: rest, Answered hist entry.1 entry.2 := hdone ▸ h.answers
  obtain ⟨hanswered, hrest⟩ := List.forall_mem_cons.mp hanswers
  have hproper := hanswered.proper
  have hrows : SourcedRows (Trusted earlier hist) (s.world.app.resolved ip w).store :=
    h.rows.step (e := { op := .resolved ip w, clock := clock }) (.inr ⟨hanswered, hproper⟩)
  unfold applyAnswer
  cases hfailed : w.failed with
  | true =>
      have hkept : (s.world.app.resolved ip w).whois = s.world.app.whois := by
        simp [App.resolved, hfailed]
      rw [if_pos rfl]
      refine ⟨?_, ?_, hrest⟩
      · intro ip' x hx
        dsimp only at hx
        split at hx
        · exact h.known ip' x hx
        · rw [hkept] at hx
          exact h.known ip' x hx
      · dsimp only
        split
        · exact h.rows
        · exact hrows
  | false =>
      rw [if_neg Bool.false_ne_true]
      refine ⟨?_, hrows, hrest⟩
      intro ip' x hx
      change (s.world.app.resolved ip w).whois ip' = some x at hx
      simp only [App.resolved, hfailed, Bool.false_eq_true, if_false, Function.update_apply] at hx
      split at hx
      · rename_i heq
        cases hx
        rw [heq]
        exact .inr ⟨hanswered, hproper, hfailed⟩
      · exact h.known ip' x hx

theorem Sound.step (h : Sound earlier hist s) (hstep : Stepped s e s') :
    Sound earlier ((s, e) :: hist) s' := by
  have hnext := h.next (s, e)
  cases hstep with
  | other clock e w hown hworld => exact hnext.other hown hworld
  | pass clock entries rows hasked hdone => exact ⟨hnext.known, hnext.rows, hnext.answers⟩
  | answered clock r ip rest hasked =>
      refine ⟨hnext.known, hnext.rows, ?_⟩
      intro entry hentry
      rcases List.mem_append.mp hentry with hbefore | hnew
      · exact hnext.answers entry hbefore
      · rw [List.mem_singleton.mp hnew]
        exact ⟨s, clock, r, rest, List.mem_cons_self, hasked, rfl⟩
  | lost clock ip rest hasked => exact ⟨hnext.known, hnext.rows, hnext.answers⟩
  | apply clock ip w rest hasked hdone => exact hnext.apply hdone

/-- In every run, whatever the tools print, an answer that is remembered is a whole one
of a lookup of its address or one of an earlier run, and every row shows only what such
answers about its address, or halves of answers, say. -/
theorem shown_from_answers {now : ℕ} {names : KeyedMap IpAddr DnsEntry} {iface : String}
    {self : ℤ} {fs : Annotate.Fs}
    (run : Run system (initial (.fresh now names iface earlier self fs)) hist s) :
    (∀ ip w, s.world.app.whois ip = some w →
      earlier ip = some w ∨ (Answered hist ip w ∧ Proper w ∧ w.failed = false)) ∧
      ∀ k c, s.world.app.store.conns.lookup k = some c →
        Sourced (Trusted earlier hist) k.remote c := by
  have hsound : Sound earlier hist s := by
    apply run.historyInvariant (P := Sound earlier)
    · refine ⟨fun ip w hw => .inl hw, ?_, by simp [initial]⟩
      intro k c hrow
      have hempty : (∅ : KeyedMap ConnKey Conn).lookup k = some c := hrow
      rw [AList.lookup_empty] at hempty
      contradiction
    · intro hist s e s' _ h fires
      exact h.step (step_cases fires)
  exact ⟨hsound.known, hsound.rows⟩

/-- A resolver that knows the name of every address, and nothing of networks. -/
def sampleResolver : Resolver :=
  .windows fun _ ty =>
    if ty = 12 then some ⟨0, [⟨12, ["one.example.".toList]⟩]⟩ else some ⟨9003, []⟩

/-- A packet opens a row, and a pass finds the name of its address. -/
theorem shown_from_answers_sample :
    let played := system.play [] (initial sampleHost)
      [.other (.still 1) (.background
          (.batch [⟨samplePacket .tcp, .still 1, .stored, .stored⟩] 1 false)),
        .pass (.still 2) .stored .stored, .awaited (.still 3) (some sampleResolver),
        .apply (.still 4)]
    ∃ c, played.2.world.app.store.conns.lookup (sampleKey .tcp) = some c ∧
      c.ptr = some "one.example" ∧
      Sourced (Trusted (fun _ => none) played.1) (sampleKey .tcp).remote c := by
  intro played
  obtain ⟨-, hrows⟩ := shown_from_answers (Run.start.play _ : Run system _ played.1 played.2)
  have hnamed : (played.2.world.app.store.conns.lookup (sampleKey .tcp)).bind Conn.ptr =
      some "one.example" := by decide
  obtain ⟨c, hrow, hptr⟩ := Option.bind_eq_some_iff.mp hnamed
  exact ⟨c, hrow, hptr, hrows _ c hrow⟩

end WhoisLoop

end SocketTrail.Resolve
