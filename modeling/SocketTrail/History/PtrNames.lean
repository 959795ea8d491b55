/-
# PTR names give way to DNS names

A row that has no name takes the PTR name that a lookup brings, and keeps it
when a later lookup brings another. The naming pass recognises a PTR name by
comparing the two, so it lets a DNS name replace the name of the row exactly as
long as the last PTR answer is the one under which the row goes.
-/

import SocketTrail.History.Consistency
import SocketTrail.History.Naming

namespace SocketTrail.History

open SocketTrail.Foundation SocketTrail.Net SocketTrail.State SocketTrail.Attribution

/-- The operation gives a row without a name the PTR name `p`. -/
def TakesPtr (st : Store) (e : Event) (k : ConnKey) (p : String) : Prop :=
  ∃ c, st.conns.lookup k = some c ∧ c.domain = none ∧
    match e.op with
    | .enrich _ => dnsName st.dns (passTime st e k) k = none ∧ c.ptr = some p
    | .whois known => ∃ w, known k.remote = some w ∧ w.ptr = some p
    | .resolved ip w => k.remote = ip ∧ w.ptr = some p
    | _ => False

/-- The naming pass writes the name of the row anew: from a DNS name, or as a
label. -/
def WritesName (st : Store) (e : Event) (k : ConnKey) : Prop :=
  ∃ lang c, e.op = .enrich lang ∧ st.conns.lookup k = some c ∧ c.sni = none ∧
    ((Replaceable k c ∧ dnsName st.dns (passTime st e k) k ≠ none) ∨
      (dnsName st.dns (passTime st e k) k = none ∧ ∃ d, c.domain = some d ∧ IsLabel k d))

/-- The PTR name that the history shows for a tuple. -/
def rowPtr (st : Store) (k : ConnKey) : Option String :=
  (st.conns.lookup k).bind Conn.ptr

/-- The last PTR answer of a history for the address of a tuple, or `ptr` when
there is none. -/
def ptrSince (k : ConnKey) : History Store Event → Option String → Option String
  | [], ptr => ptr
  | (_, e) :: rest, ptr => (ptrAnswer k e).or (ptrSince k rest ptr)

/-- A PTR name is only ever replaced by another. -/
theorem ptrSince_isSome (k : ConnKey) (hist : History Store Event) {ptr : Option String}
    (h : ptr.isSome) : (ptrSince k hist ptr).isSome := by
  induction hist with
  | nil => exact h
  | cons entry rest ih =>
      rw [ptrSince, Option.isSome_or, ih]
      exact Bool.or_true _

section Pass

variable {st : Store} {e : Event} {k : ConnKey} {c : Conn} {p : String} {ptr : Option String}

/-- A row that takes a PTR name goes by it, and has some PTR name. -/
theorem named_of_takesPtr (h : TakesPtr st e k p)
    (hconsistent : ∀ c, st.conns.lookup k = some c → Consistent k c) :
    ∃ c, (st.step e).conns.lookup k = some c ∧ Named p c.ptr c ∧ c.ptr.isSome := by
  obtain ⟨c, hrow, hdomain, hsource⟩ := h
  have hsni : c.sni = none := by
    cases hsni : c.sni with
    | none => rfl
    | some s =>
        have hnamed := (hconsistent c hrow).named s hsni
        rw [hdomain] at hnamed
        contradiction
  cases hop : e.op with
  | packet p => simp [hop] at hsource
  | poll ips socks procs => simp [hop] at hsource
  | clear => simp [hop] at hsource
  | learn ip name ttl => simp [hop] at hsource
  | enrich lang =>
      rw [hop] at hsource
      obtain ⟨hname, hptr⟩ := hsource
      refine ⟨_, enrich_lookup hop hrow, ?_⟩
      have henrich : enrichName lang st.dns (passTime st e k) k c =
          { c with domain := some p } := by
        unfold enrichName
        rw [hsni, enrichedDomain_of_ptr hdomain hptr hname]
        rfl
      rw [henrich]
      exact ⟨⟨hsni, rfl, fun _ => rfl⟩, by simp [hptr]⟩
  | whois known =>
      rw [hop] at hsource
      obtain ⟨w, hknown, hptr⟩ := hsource
      have hstep : (st.step e).conns.lookup k = some (applyWhoisRow known k c) := by
        unfold Store.step
        rw [hop]
        exact KeyedMap.lookup_mapValues_of_lookup _ hrow
      refine ⟨_, hstep, ?_⟩
      unfold applyWhoisRow
      rw [hdomain, hknown]
      simp only [Option.isSome_none, Bool.and_false, Bool.false_eq_true, if_false, hptr]
      refine ⟨⟨hsni, rfl, fun _ => rfl⟩, ?_⟩
      cases c.ptr <;> rfl
  | resolved ip w =>
      rw [hop] at hsource
      obtain ⟨haddress, hptr⟩ := hsource
      have hstep : (st.step e).conns.lookup k = some (whoisRow ip w k c) := by
        unfold Store.step
        rw [hop]
        exact KeyedMap.lookup_mapValues_of_lookup _ hrow
      refine ⟨_, hstep, ?_⟩
      unfold whoisRow
      rw [if_pos haddress, hdomain, hptr]
      exact ⟨⟨hsni, rfl, fun _ => rfl⟩, rfl⟩

/-- A naming pass that does not write the name of the row leaves it alone. -/
theorem named_enrich {lang : Lang} (hop : e.op = .enrich lang)
    (hrow : st.conns.lookup k = some c) (hc : Named p ptr c) (hquiet : ¬ WritesName st e k) :
    ∃ c', (st.step e).conns.lookup k = some c' ∧ Named p ptr c' := by
  have hdomain : enrichedDomain lang st.dns (passTime st e k) k c = some p := by
    cases hname : dnsName st.dns (passTime st e k) k with
    | some m =>
        apply enrichedDomain_of_not_replaceable hc.domain
        intro hfree
        exact hquiet ⟨lang, c, hop, hrow, hc.sni, .inl ⟨hfree, by simp [hname]⟩⟩
    | none =>
        apply enrichedDomain_of_no_label hc.domain _ hname
        intro hlabel
        exact hquiet ⟨lang, c, hop, hrow, hc.sni, .inr ⟨hname, p, hc.domain, hlabel⟩⟩
  refine ⟨_, enrich_lookup hop hrow, ?_⟩
  have henrich : enrichName lang st.dns (passTime st e k) k c = { c with domain := some p } := by
    unfold enrichName
    rw [hc.sni, hdomain]
    rfl
  rw [henrich]
  exact ⟨hc.sni, rfl, hc.ptr⟩

/-- Along a run that neither disturbs the row nor writes its name, the row goes
by its name, and the last PTR answer is its PTR name. -/
theorem named_run {st₀ : Store} {later : History Store Event} {c₀ : Conn}
    (run : Run Store.system st₀ later st) (hrow : st₀.conns.lookup k = some c₀)
    (hc₀ : Named p c₀.ptr c₀)
    (hcalm : ∀ entry ∈ later, Undisturbed entry.1 entry.2 k ∧ ¬ WritesName entry.1 entry.2 k) :
    ∃ c, st.conns.lookup k = some c ∧ Named p (ptrSince k later c₀.ptr) c := by
  induction run with
  | start => exact ⟨c₀, hrow, hc₀⟩
  | @next earlier s s' e prior fires ih =>
      obtain ⟨c, hrow', hc⟩ := ih fun entry hentry => hcalm entry (List.mem_cons_of_mem _ hentry)
      obtain ⟨hundisturbed, hquiet⟩ := hcalm (s, e) (List.mem_cons_self ..)
      have hnext : s.step e = s' := by simpa [Store.system] using fires
      rw [← hnext, ptrSince]
      by_cases hop : ∃ lang, e.op = .enrich lang
      · obtain ⟨lang, hop⟩ := hop
        have hanswer : ptrAnswer k e = none := by
          unfold ptrAnswer
          rw [hop]
        rw [hanswer, Option.none_or]
        exact named_enrich hop hrow' hc hquiet
      · exact named_step hrow' hc hundisturbed fun lang h => hop ⟨lang, h⟩

/-- The next naming pass gives the row the DNS name of its address exactly when
the row goes by its PTR name, by a label, or by this name already. -/
theorem rowName_enrich_iff {lang : Lang} {d m : String} (hop : e.op = .enrich lang)
    (hrow : st.conns.lookup k = some c) (hsni : c.sni = none) (hdomain : c.domain = some d)
    (hname : dnsName st.dns (passTime st e k) k = some m) :
    rowName (st.step e) k = some m ↔ c.ptr = some d ∨ IsLabel k d ∨ d = m := by
  have henrich : (enrichName lang st.dns (passTime st e k) k c).domain =
      enrichedDomain lang st.dns (passTime st e k) k c := by
    unfold enrichName
    rw [hsni]
    rfl
  rw [rowName_of_lookup (enrich_lookup hop hrow), henrich]
  by_cases hfree : Replaceable k c
  · have hthaw := (replaceable_iff hdomain).mp hfree
    rw [enrichedDomain_of_dnsName hfree hname]
    exact ⟨fun _ => hthaw.imp id .inl, fun _ => rfl⟩
  · have hfrozen := mt (replaceable_iff hdomain).mpr hfree
    rw [not_or] at hfrozen
    rw [enrichedDomain_of_not_replaceable hdomain hfree]
    simp [hfrozen.1, hfrozen.2]

end Pass

/-- When the address of a row has a valid DNS name, the next naming pass gives
the row this name: always, when the row goes by a label of its address; and,
when it goes by the PTR name of an earlier operation, if and only if the last
PTR answer since then is still this name, or the name is a label of the address
or the DNS name itself. -/
theorem ptrName_replaced {now : ℕ} {hist : History Store Event} {st : Store} {k : ConnKey}
    {e : Event} {lang : Lang} {m : String} (run : Run Store.system (Store.empty now) hist st)
    (hop : e.op = .enrich lang) (hname : dnsName st.dns (passTime st e k) k = some m) :
    (∀ c d, st.conns.lookup k = some c → c.sni = none → c.domain = some d → IsLabel k d →
      rowName (st.step e) k = some m) ∧
    ∀ later s₀ e₀ earlier p, hist = later ++ (s₀, e₀) :: earlier → TakesPtr s₀ e₀ k p →
      (∀ entry ∈ later, Undisturbed entry.1 entry.2 k ∧ ¬ WritesName entry.1 entry.2 k) →
        (rowName (st.step e) k = some m ↔
          ptrSince k later (rowPtr (s₀.step e₀) k) = some p ∨ IsLabel k p ∨ p = m) := by
  constructor
  · intro c d hrow hsni hdomain hlabel
    exact (rowName_enrich_iff hop hrow hsni hdomain hname).mpr (.inr (.inl hlabel))
  · intro later s₀ e₀ earlier p hhist htakes hcalm
    subst hhist
    obtain ⟨middle, hbefore, hafter⟩ := Run.split run
    cases hbefore with
    | next prior fires =>
        have hnext : s₀.step e₀ = middle := by simpa [Store.system] using fires
        subst hnext
        have hconsistent := consistent_stable.run Consistent.fresh prior k
        obtain ⟨c₀, hrow₀, hc₀, hsome⟩ := named_of_takesPtr htakes hconsistent
        obtain ⟨c, hrow, hc⟩ := named_run hafter hrow₀ hc₀ hcalm
        have hptr₀ : rowPtr (s₀.step e₀) k = c₀.ptr := by
          rw [rowPtr, hrow₀]
          rfl
        have hptr := hc.ptr (ptrSince_isSome k later hsome)
        rw [rowName_enrich_iff hop hrow hc.sni hc.domain hname, hptr, hptr₀]

/-! ## A lookup that is asked again -/

/-- The sample connection, without a name. -/
def shownRun : History Store Event × Store :=
  Store.system.play [] (Store.empty 0) [pollAt 10 [sampleTcp (some 7)] [sampleProc 7 100]]

/-- What follows the first answer: another lookup, and a DNS name. -/
def againRun (again : String) : History Store Event × Store :=
  Store.system.play [] (shownRun.2.step (resolvedAt 20 (some "old.example.net")))
    [resolvedAt 30 (some again), learnAt 40 "example.com" 60]

/-- The whole history up to the naming pass. -/
def ptrHistory (again : String) : History Store Event :=
  (againRun again).1 ++ (shownRun.2, resolvedAt 20 (some "old.example.net")) :: shownRun.1

theorem ptrHistory_run (again : String) :
    Run Store.system (Store.empty 0) (ptrHistory again) (againRun again).2 := by
  have hshown : Run Store.system (Store.empty 0) shownRun.1 shownRun.2 := Run.start.play _
  have hfirst := hshown.next (e := resolvedAt 20 (some "old.example.net")) rfl
  exact hfirst.append (Run.start.play _)

theorem shownRun_takesPtr :
    TakesPtr shownRun.2 (resolvedAt 20 (some "old.example.net")) (sampleKey .tcp)
      "old.example.net" :=
  ⟨_, rfl, rfl, rfl, rfl⟩

theorem againRun_calm (again : String) :
    ∀ entry ∈ (againRun again).1, Undisturbed entry.1 entry.2 (sampleKey .tcp) ∧
      ¬ WritesName entry.1 entry.2 (sampleKey .tcp) := by
  intro entry hentry
  have hplayed := (System.mem_play hentry).resolve_left List.not_mem_nil
  simp only [List.mem_cons, List.not_mem_nil, or_false] at hplayed
  constructor
  · apply undisturbed_of_onlyNames
    rcases hplayed with heq | heq <;> rw [heq] <;> rfl
  · rintro ⟨lang, c, hop, -⟩
    rcases hplayed with heq | heq <;> rw [heq] at hop <;> cases hop

/-- When the lookup is answered alike, the DNS name replaces the PTR name. -/
theorem ptrName_replaced_sample :
    rowName ((againRun "old.example.net").2.step (enrichAt 50)) (sampleKey .tcp) =
      some "example.com" := by
  have hname : dnsName (againRun "old.example.net").2.dns
      (passTime (againRun "old.example.net").2 (enrichAt 50) (sampleKey .tcp)) (sampleKey .tcp) =
        some "example.com" := by decide +kernel
  refine ((ptrName_replaced (ptrHistory_run _) rfl hname).2 _ _ _ _ _ rfl shownRun_takesPtr
    (againRun_calm _)).mpr (.inl ?_)
  decide +kernel

/-- When it is answered with another PTR name, the row keeps the old one. -/
theorem ptrName_outlives_dnsName :
    ∃ hist st later s₀ e₀ earlier, Run Store.system (Store.empty 0) hist st ∧
      hist = later ++ (s₀, e₀) :: earlier ∧
      TakesPtr s₀ e₀ (sampleKey .tcp) "old.example.net" ∧
      (∀ entry ∈ later, Undisturbed entry.1 entry.2 (sampleKey .tcp) ∧
        ¬ WritesName entry.1 entry.2 (sampleKey .tcp)) ∧
      dnsName st.dns (passTime st (enrichAt 50) (sampleKey .tcp)) (sampleKey .tcp) =
        some "example.com" ∧
      rowName (st.step (enrichAt 50)) (sampleKey .tcp) = some "old.example.net" :=
  ⟨_, _, _, _, _, _, ptrHistory_run "new.example.net", rfl, shownRun_takesPtr, againRun_calm _,
    by decide +kernel, by decide +kernel⟩

end SocketTrail.History
