/-
# Where the name of a row comes from

A row does not store the source of its name. The naming pass works it out again
each time: a name that is neither the PTR name of the row nor a label of its
address counts as a DNS name and is kept, every other one gives way to the DNS
name of the moment. The two agree with the real source for as long as no lookup
brings the DNS name itself as a PTR name, and none replaces the PTR name under
which the row goes.
-/

import SocketTrail.Attribution.Counted
import SocketTrail.State.Eviction

namespace SocketTrail.History

open SocketTrail.Foundation SocketTrail.Net SocketTrail.State SocketTrail.Attribution

/-! ## The naming pass -/

/-- The name is the label of the address, in either language. -/
def IsLabel (k : ConnKey) (d : String) : Prop :=
  (wellKnownLabel k.remote k.rport).any (fun texts => d = texts.1 || d = texts.2) = true

instance (k : ConnKey) (d : String) : Decidable (IsLabel k d) := by
  unfold IsLabel
  infer_instance

/-- The label of the address, in the language of the moment. -/
def labelText (lang : Lang) (k : ConnKey) : Option String :=
  (wellKnownLabel k.remote k.rport).map fun texts => tr lang texts.1 texts.2

/-- The one valid DNS name of the address of a tuple. -/
def dnsName (dns : KeyedMap IpAddr DnsEntry) (now : ℕ) (k : ConnKey) : Option String :=
  (dns.lookup k.remote).bind (·.unique now)

/-- The name of the row may be replaced: it has none, or it goes under its PTR
name or under a label. -/
def Replaceable (k : ConnKey) (c : Conn) : Prop :=
  ∀ d, c.domain = some d → c.ptr = some d ∨ IsLabel k d

section Pass

variable {lang : Lang} {dns : KeyedMap IpAddr DnsEntry} {now : ℕ} {k : ConnKey} {c : Conn}
  {d n : String}

private theorem frozen_eq_false (h : Replaceable k c) :
    (c.domain.any fun d => c.ptr ≠ some d &&
      !(wellKnownLabel k.remote k.rport).any fun texts => d = texts.1 || d = texts.2) = false := by
  cases hd : c.domain with
  | none => rfl
  | some d =>
      rcases h d hd with hptr | hlabel
      · simp [hptr]
      · unfold IsLabel at hlabel
        rw [Option.any_some, hlabel]
        simp

private theorem frozen_eq_true (hd : c.domain = some d) (h : ¬ Replaceable k c) :
    (c.domain.any fun d => c.ptr ≠ some d &&
      !(wellKnownLabel k.remote k.rport).any fun texts => d = texts.1 || d = texts.2) = true := by
  have hneither : ¬ (c.ptr = some d ∨ IsLabel k d) := by
    intro hd'
    apply h
    intro d' hd''
    rw [hd, Option.some.injEq] at hd''
    exact hd'' ▸ hd'
  rw [not_or] at hneither
  unfold IsLabel at hneither
  rw [Bool.not_eq_true] at hneither
  rw [hd, Option.any_some, hneither.2]
  simp [hneither.1]

/-- A DNS name replaces what may be replaced. -/
theorem enrichedDomain_of_dnsName (h : Replaceable k c) (hname : dnsName dns now k = some n) :
    enrichedDomain lang dns now k c = some n := by
  unfold dnsName at hname
  unfold enrichedDomain
  dsimp only
  rw [frozen_eq_false h, hname]

/-- A name that may not be replaced stays. -/
theorem enrichedDomain_of_not_replaceable (hd : c.domain = some d) (h : ¬ Replaceable k c) :
    enrichedDomain lang dns now k c = some d := by
  have hlabel : ¬ IsLabel k d := by
    intro hlabel
    apply h
    intro d' hd'
    rw [hd, Option.some.injEq] at hd'
    exact .inr (hd' ▸ hlabel)
  unfold IsLabel at hlabel
  unfold enrichedDomain
  dsimp only
  rw [frozen_eq_true hd h, hd, Option.any_some, if_neg hlabel]
  simp

/-- Without a DNS name a label is put into the language of the moment. -/
theorem enrichedDomain_of_label (hd : c.domain = some d) (hlabel : IsLabel k d)
    (hname : dnsName dns now k = none) :
    enrichedDomain lang dns now k c = labelText lang k := by
  unfold dnsName at hname
  unfold IsLabel at hlabel
  unfold enrichedDomain
  dsimp only
  rw [hname, hd]
  dsimp only
  have hany : (some d).any (fun d => (wellKnownLabel k.remote k.rport).any
      fun texts => d = texts.1 || d = texts.2) = true := hlabel
  rw [if_pos hany]
  rfl

/-- Without a DNS name every other name stays. -/
theorem enrichedDomain_of_no_label (hd : c.domain = some d) (hlabel : ¬ IsLabel k d)
    (hname : dnsName dns now k = none) :
    enrichedDomain lang dns now k c = some d := by
  unfold dnsName at hname
  unfold IsLabel at hlabel
  unfold enrichedDomain
  dsimp only
  rw [hname, hd]
  dsimp only
  have hany : ¬ (some d).any (fun d => (wellKnownLabel k.remote k.rport).any
      fun texts => d = texts.1 || d = texts.2) = true := hlabel
  rw [if_neg hany]
  rfl

/-- A row without a name takes its PTR name when there is no DNS name. -/
theorem enrichedDomain_of_ptr (hd : c.domain = none) (hptr : c.ptr = some n)
    (hname : dnsName dns now k = none) :
    enrichedDomain lang dns now k c = some n := by
  unfold dnsName at hname
  unfold enrichedDomain
  dsimp only
  rw [hname, hd, hptr]
  rfl

end Pass

/-! ## The other operations -/

/-- A snapshot row shows that the TCP tuple has changed hands. -/
def Disputes (st : Store) (e : Event) (k : ConnKey) : Prop :=
  ∃ ips socks procs, e.op = .poll ips socks procs ∧ ∃ done s, done ++ [s] <+: socks ∧
    s.key = k ∧ s.proto = .tcp ∧ s.rport ≠ 0 ∧
      ∃ c, (Store.midPoll e.connOrder e.clock (st.setLocalIps ips) socks (procMap procs)
        done).1.conns.lookup k = some c ∧ Store.tcpReused (procMap procs) s c = true

/-- A packet of the tuple brings an SNI. -/
def BringsSni (st : Store) (e : Event) (k : ConnKey) : Prop :=
  ∃ p, e.op = .packet p ∧ st.packetKey p = k ∧ p.sni ≠ none

/-- What ends the life of a name otherwise than in a naming pass. -/
structure Undisturbed (st : Store) (e : Event) (k : ConnKey) : Prop where
  notForgotten : e.op ≠ .clear
  kept : ¬ st.Evicts e k
  noSni : ¬ BringsSni st e k
  undisputed : ¬ Disputes st e k

/-- The operation only ever writes names. -/
def onlyNames : Op → Bool
  | .learn .. | .enrich _ | .whois _ | .resolved .. => true
  | _ => false

/-- Such an operation ends the life of no name. -/
theorem undisturbed_of_onlyNames {st : Store} {e : Event} (h : onlyNames e.op = true)
    (k : ConnKey) : Undisturbed st e k where
  notForgotten hop := by
    rw [hop] at h
    contradiction
  kept hevicts := by
    unfold Store.Evicts at hevicts
    cases hop : e.op <;> rw [hop] at h hevicts <;> first | exact hevicts | contradiction
  noSni := by
    rintro ⟨p, hop, -⟩
    rw [hop] at h
    contradiction
  undisputed := by
    rintro ⟨ips, socks, procs, hop, -⟩
    rw [hop] at h
    contradiction

/-- The PTR name that a finished lookup brings for the address of the tuple. -/
def ptrAnswer (k : ConnKey) (e : Event) : Option String :=
  match e.op with
  | .resolved ip w => if k.remote = ip then w.ptr else none
  | _ => none

/-- A row under the name `d`, with the PTR name `ptr` unless that is unknown. -/
structure Named (d : String) (ptr : Option String) (c : Conn) : Prop where
  sni : c.sni = none
  domain : c.domain = some d
  ptr : ptr.isSome → c.ptr = ptr

theorem Named.congr {d : String} {ptr : Option String} {c c' : Conn} (h : Named d ptr c)
    (hsni : c'.sni = c.sni) (hdomain : c'.domain = c.domain) (hptr : c'.ptr = c.ptr) :
    Named d ptr c' where
  sni := hsni.trans h.sni
  domain := hdomain.trans h.domain
  ptr hknown := hptr.trans (h.ptr hknown)

theorem attributeUdp_names (c : Conn) (owner : UdpMatch)
    (procs : Option (ℤ → Option ProcInfo)) :
    (attributeUdp c owner procs).sni = c.sni ∧ (attributeUdp c owner procs).domain = c.domain ∧
      (attributeUdp c owner procs).ptr = c.ptr := by
  by_cases hc : c.ownerAmbiguous = true
  · rw [attributeUdp_of_ambiguous hc]
    exact ⟨rfl, rfl, rfl⟩
  · rw [Bool.not_eq_true] at hc
    obtain ⟨-, -, heq⟩ | ⟨o, -, -, -, pname, heq⟩ | heq := attributeUdp_cases c owner procs hc
    · rw [heq]
      exact ⟨rfl, rfl, rfl⟩
    · rw [heq]
      exact ⟨rfl, rfl, rfl⟩
    · rw [heq]
      exact ⟨rfl, rfl, rfl⟩

theorem Named.attributed {d : String} {ptr : Option String} {c : Conn} (h : Named d ptr c)
    (owner : UdpMatch) (procs : Option (ℤ → Option ProcInfo)) :
    Named d ptr (attributeUdp c owner procs) := by
  obtain ⟨hsni, hdomain, hptr⟩ := attributeUdp_names c owner procs
  exact h.congr hsni hdomain hptr

/-- A packet without an SNI renames nothing. -/
theorem Named.packet {d : String} {ptr : Option String} {c : Conn} (h : Named d ptr c)
    {p : Packet} (hsni : p.sni = none) (outgoing : Bool) (owner : UdpMatch) (now : ℕ) :
    Named d ptr (Store.countPacket p outgoing owner now c) := by
  obtain ⟨base, state, closed, hbase, heq⟩ := countPacket_eq p outgoing owner now c
  have hnamed : Named d ptr base := by
    rw [hbase]
    split
    · exact h.attributed owner none
    · exact h
  rw [heq, hsni]
  exact hnamed.congr rfl rfl rfl

/-- A socket renames its row only when it disputes it. -/
theorem Named.shown {d : String} {ptr : Option String} {c : Conn} (h : Named d ptr c)
    {procs : ProcMap} {s : SockEntry}
    (hfits : s.proto = .tcp → Store.tcpReused procs s c = false) (t : ℕ) (owner : UdpMatch) :
    Named d ptr (Store.showSocket procs t s owner c) := by
  unfold Store.showSocket
  split
  · rename_i htcp
    have hreuse : Named d ptr (Store.checkReuse procs s c) := by
      unfold Store.checkReuse
      rw [hfits htcp]
      exact h.congr rfl rfl rfl
    unfold Store.takeOwner
    split
    · exact hreuse.congr rfl rfl rfl
    · exact hreuse.congr rfl rfl rfl
  · have hmarked : Named d ptr (Store.markShown t s c) := h.congr rfl rfl rfl
    exact hmarked.attributed owner (some procs)

theorem Named.settled {d : String} {ptr : Option String} {c : Conn} (h : Named d ptr c)
    (procs : ProcMap) (t : ℕ) (shown : Bool) (k : ConnKey) (owner : UdpMatch) :
    Named d ptr (Store.settle procs t shown k owner c) := by
  obtain heq | ⟨state, heq⟩ | ⟨-, -, -, -, heq⟩ := settle_cases procs t shown k owner c
  · rw [heq]
    exact h
  · rw [heq]
    exact h.congr rfl rfl rfl
  · rw [heq]
    exact (h.attributed owner (some procs)).congr rfl rfl rfl

/-- A lookup that is known already renames nothing that has a name. -/
theorem Named.whois {d : String} {ptr : Option String} {c : Conn} (h : Named d ptr c)
    (known : IpAddr → Option Whois) (k : ConnKey) : Named d ptr (applyWhoisRow known k c) := by
  unfold applyWhoisRow
  split
  · exact h
  · split
    · exact h
    · refine ⟨h.sni, ?_, fun hknown => ?_⟩
      · change c.domain.or _ = some d
        rw [h.domain]
        rfl
      · obtain ⟨p, hp⟩ := Option.isSome_iff_exists.mp hknown
        have hptr := h.ptr hknown
        change c.ptr.or _ = ptr
        rw [hptr, hp]
        rfl

/-- A finished lookup renames nothing that has a name, but its PTR name is
taken over. -/
theorem Named.resolved {d : String} {ptr : Option String} {c : Conn} (h : Named d ptr c)
    (ip : IpAddr) (w : Whois) (k : ConnKey) :
    Named d ((if k.remote = ip then w.ptr else none).or ptr) (whoisRow ip w k c) := by
  unfold whoisRow
  split
  · refine ⟨h.sni, ?_, fun hknown => ?_⟩
    · change c.domain.or w.ptr = some d
      rw [h.domain]
      rfl
    · change w.ptr.or c.ptr = w.ptr.or ptr
      cases hw : w.ptr with
      | some p => rfl
      | none =>
          rw [hw, Option.none_or] at hknown
          rw [Option.none_or, Option.none_or]
          exact h.ptr hknown
  · exact h

section Step

variable {st : Store} {e : Event} {k : ConnKey} {c : Conn} {d : String} {ptr : Option String}

/-- Outside a naming pass an undisturbed row keeps its name, and the last PTR
answer for its address is its PTR name. -/
theorem named_step (hrow : st.conns.lookup k = some c) (hc : Named d ptr c)
    (hcalm : Undisturbed st e k) (hop : ∀ lang, e.op ≠ .enrich lang) :
    ∃ c', (st.step e).conns.lookup k = some c' ∧ Named d ((ptrAnswer k e).or ptr) c' := by
  have hkept := hcalm.kept
  unfold Store.Evicts at hkept
  unfold Store.step ptrAnswer
  cases hop' : e.op with
  | packet p =>
      rw [hop'] at hkept
      by_cases hkey : k = st.packetKey p
      · have hsni : p.sni = none := by
          by_contra hsni
          exact hcalm.noSni ⟨p, hop', hkey.symm, hsni⟩
        subst hkey
        refine ⟨_, Store.applyPacket_lookup_self, ?_⟩
        rw [hrow, Option.getD_some]
        exact hc.packet hsni _ _ _
      · exact ⟨c, (Store.applyPacket_lookup_of_ne hkey hkept).trans hrow, hc⟩
  | poll ips socks procs =>
      rw [hop'] at hkept
      have hrow' : (st.setLocalIps ips).conns.lookup k = some c := by cases ips <;> exact hrow
      apply Store.applySockets_follow (R := Named d ptr) hrow' hkept hc
      · intro done s hfront hkey hport c hmid hc
        apply hc.shown
        intro htcp
        rw [← Bool.not_eq_true]
        intro hreused
        exact hcalm.undisputed ⟨ips, socks, procs, hop', done, s, hfront, hkey, htcp, hport,
          c, hmid, hreused⟩
      · intro c shown hc
        exact hc.settled _ _ _ _ _
  | clear => exact absurd hop' hcalm.notForgotten
  | learn ip name ttl => exact ⟨c, hrow, hc⟩
  | enrich lang => exact absurd hop' (hop lang)
  | whois known =>
      exact ⟨_, KeyedMap.lookup_mapValues_of_lookup _ hrow, hc.whois known k⟩
  | resolved ip w =>
      exact ⟨_, KeyedMap.lookup_mapValues_of_lookup _ hrow, hc.resolved ip w k⟩

/-- The reading of the clock at which a naming pass reaches the row. -/
def passTime (st : Store) (e : Event) (k : ConnKey) : ℕ :=
  e.clock.read ((e.connOrder.arrange st.conns.keys).idxOf k)

/-- A naming pass names every row on its own. -/
theorem enrich_lookup {lang : Lang} (hop : e.op = .enrich lang)
    (hrow : st.conns.lookup k = some c) :
    (st.step e).conns.lookup k = some (enrichName lang st.dns (passTime st e k) k c) := by
  unfold Store.step
  rw [hop]
  exact KeyedMap.lookup_mapValues_of_lookup _ hrow

end Step

/-! ## The first DNS name -/

/-- The name under which the history shows a tuple. -/
def rowName (st : Store) (k : ConnKey) : Option String :=
  (st.conns.lookup k).bind Conn.domain

/-- The naming pass gives the row its name from a DNS name of the address. -/
def NamedByDns (st : Store) (e : Event) (k : ConnKey) (n : String) : Prop :=
  ∃ lang c, e.op = .enrich lang ∧ st.conns.lookup k = some c ∧ c.sni = none ∧ Replaceable k c ∧
    dnsName st.dns (passTime st e k) k = some n

/-- The naming pass meets a row whose DNS name is also its PTR name or a label
of its address, and has another name for it: another DNS name, or the label in
another language. -/
def Renames (st : Store) (e : Event) (k : ConnKey) (n : String) : Prop :=
  ∃ lang c, e.op = .enrich lang ∧ st.conns.lookup k = some c ∧ (c.ptr = some n ∨ IsLabel k n) ∧
    match dnsName st.dns (passTime st e k) k with
    | some m => m ≠ n
    | none => IsLabel k n ∧ labelText lang k ≠ some n

section Kept

variable {st : Store} {e : Event} {k : ConnKey} {c : Conn} {n : String}

theorem rowName_of_lookup (hrow : st.conns.lookup k = some c) : rowName st k = c.domain := by
  rw [rowName, hrow]
  rfl

theorem replaceable_iff (hdomain : c.domain = some n) :
    Replaceable k c ↔ c.ptr = some n ∨ IsLabel k n := by
  constructor
  · intro h
    exact h n hdomain
  · intro h d hd
    rw [hdomain, Option.some.injEq] at hd
    exact hd ▸ h

/-- A name that is no label is safe while the PTR name is another. -/
theorem not_renames (hptr : (st.conns.lookup k).bind Conn.ptr ≠ some n) (hlabel : ¬ IsLabel k n) :
    ¬ Renames st e k n := by
  rintro ⟨lang, c, -, hrow, hthaw, -⟩
  rw [hrow] at hptr
  exact hthaw.elim hptr hlabel

/-- One naming pass keeps the name unless it renames the row. -/
theorem enrichedDomain_eq_iff {lang : Lang} (hop : e.op = .enrich lang)
    (hrow : st.conns.lookup k = some c) (hdomain : c.domain = some n) :
    enrichedDomain lang st.dns (passTime st e k) k c = some n ↔ ¬ Renames st e k n := by
  have hrenames : Renames st e k n ↔ (c.ptr = some n ∨ IsLabel k n) ∧
      match dnsName st.dns (passTime st e k) k with
      | some m => m ≠ n
      | none => IsLabel k n ∧ labelText lang k ≠ some n := by
    constructor
    · rintro ⟨lang', c', hop', hrow', hrest⟩
      rw [hop, Op.enrich.injEq] at hop'
      rw [hrow, Option.some.injEq] at hrow'
      subst hop' hrow'
      exact hrest
    · intro hrest
      exact ⟨lang, c, hop, hrow, hrest⟩
  rw [hrenames]
  by_cases hfree : Replaceable k c
  · have hthaw := (replaceable_iff hdomain).mp hfree
    cases hname : dnsName st.dns (passTime st e k) k with
    | some m =>
        rw [enrichedDomain_of_dnsName hfree hname]
        simp [hthaw]
    | none =>
        by_cases hlabel : IsLabel k n
        · rw [enrichedDomain_of_label hdomain hlabel hname]
          simp [hlabel]
        · rw [enrichedDomain_of_no_label hdomain hlabel hname]
          simp [hlabel]
  · have hfrozen := mt (replaceable_iff hdomain).mpr hfree
    rw [enrichedDomain_of_not_replaceable hdomain hfree]
    simp [hfrozen]

/-- A step that does not end the life of the name keeps it unless it is a naming
pass that renames the row. -/
theorem rowName_step (hrow : st.conns.lookup k = some c) (hc : Named n none c)
    (hcalm : Undisturbed st e k) :
    ∃ c', (st.step e).conns.lookup k = some c' ∧ c'.sni = none ∧
      (c'.domain = some n ↔ ¬ Renames st e k n) := by
  by_cases hop : ∃ lang, e.op = .enrich lang
  · obtain ⟨lang, hop⟩ := hop
    refine ⟨_, enrich_lookup hop hrow, ?_⟩
    have henrich : enrichName lang st.dns (passTime st e k) k c =
        { c with domain := enrichedDomain lang st.dns (passTime st e k) k c } := by
      unfold enrichName
      rw [hc.sni]
      rfl
    rw [henrich]
    exact ⟨hc.sni, enrichedDomain_eq_iff hop hrow hc.domain⟩
  · have hother : ∀ lang, e.op ≠ .enrich lang := fun lang h => hop ⟨lang, h⟩
    obtain ⟨c', hrow', hc'⟩ := named_step hrow hc hcalm hother
    refine ⟨c', hrow', hc'.sni, fun _ hrenames => ?_, fun _ => hc'.domain⟩
    obtain ⟨lang, -, hop', -⟩ := hrenames
    exact hother lang hop'

/-- A row that was named by DNS goes by this name, and has no SNI. -/
theorem named_of_namedByDns (h : NamedByDns st e k n) :
    ∃ c, (st.step e).conns.lookup k = some c ∧ Named n none c := by
  obtain ⟨lang, c, hop, hrow, hsni, hfree, hname⟩ := h
  have henrich : enrichName lang st.dns (passTime st e k) k c = { c with domain := some n } := by
    unfold enrichName
    rw [hsni, enrichedDomain_of_dnsName hfree hname]
    rfl
  refine ⟨_, enrich_lookup hop hrow, ?_⟩
  rw [henrich]
  exact ⟨hsni, rfl, by simp⟩

end Kept

/-- Once a naming pass has given a row its DNS name, the row goes by this name
in every state of every run that does not disturb it otherwise, if and only if
no naming pass of the run meets the row while its PTR name is this name, or this
name is a label of its address, with another name at hand. -/
theorem dnsName_kept {st₀ st : Store} {naming : Event} {hist : History Store Event} {k : ConnKey}
    {n : String} (hnamed : NamedByDns st₀ naming k n)
    (run : Run Store.system (st₀.step naming) hist st)
    (hcalm : ∀ entry ∈ hist, Undisturbed entry.1 entry.2 k) :
    ((∀ entry ∈ hist, rowName entry.1 k = some n) ∧ rowName st k = some n) ↔
      ∀ entry ∈ hist, ¬ Renames entry.1 entry.2 k n := by
  -- a row that was not renamed yet is there, and still without an SNI
  suffices hfollow : (((∀ entry ∈ hist, rowName entry.1 k = some n) ∧ rowName st k = some n) ↔
      ∀ entry ∈ hist, ¬ Renames entry.1 entry.2 k n) ∧
      ((∀ entry ∈ hist, ¬ Renames entry.1 entry.2 k n) →
        ∃ c, st.conns.lookup k = some c ∧ Named n none c) from hfollow.1
  induction run with
  | start =>
      obtain ⟨c, hrow, hc⟩ := named_of_namedByDns hnamed
      refine ⟨?_, fun _ => ⟨c, hrow, hc⟩⟩
      rw [rowName_of_lookup hrow]
      simp [hc.domain]
  | @next earlier s s' e prior fires ih =>
      obtain ⟨hiff, hrows⟩ := ih fun entry hentry => hcalm entry (List.mem_cons_of_mem _ hentry)
      have hcalmNow := hcalm (s, e) (List.mem_cons_self ..)
      have hnext : s.step e = s' := by simpa [Store.system] using fires
      have hstep : (∀ entry ∈ earlier, ¬ Renames entry.1 entry.2 k n) →
          ∃ c', s'.conns.lookup k = some c' ∧ c'.sni = none ∧
            (c'.domain = some n ↔ ¬ Renames s e k n) := by
        intro hpast
        obtain ⟨c, hrow, hc⟩ := hrows hpast
        rw [← hnext]
        exact rowName_step hrow hc hcalmNow
      rw [List.forall_mem_cons, List.forall_mem_cons]
      refine ⟨⟨?_, ?_⟩, ?_⟩
      · rintro ⟨⟨hnow, hpast⟩, hafter⟩
        have hkept := hiff.mp ⟨hpast, hnow⟩
        obtain ⟨c', hrow', -, hsame⟩ := hstep hkept
        rw [rowName_of_lookup hrow'] at hafter
        exact ⟨hsame.mp hafter, hkept⟩
      · rintro ⟨hkeeps, hkept⟩
        obtain ⟨hpast, hnow⟩ := hiff.mpr hkept
        obtain ⟨c', hrow', -, hsame⟩ := hstep hkept
        refine ⟨⟨hnow, hpast⟩, ?_⟩
        rw [rowName_of_lookup hrow']
        exact hsame.mpr hkeeps
      · rintro ⟨hkeeps, hkept⟩
        obtain ⟨c', hrow', hsni, hsame⟩ := hstep hkept
        exact ⟨c', hrow', hsni, hsame.mpr hkeeps, by simp⟩

/-! ## A PTR name that is the DNS name -/

/-- A DNS name of the sample remote address. -/
def learnAt (t : ℕ) (name : String) (ttl : ℕ) : Event where
  op := .learn (sampleKey .tcp).remote name ttl
  clock := .still t

/-- A naming pass. -/
def enrichAt (t : ℕ) : Event where
  op := .enrich .en
  clock := .still t

/-- A finished lookup of the sample remote address. -/
def resolvedAt (t : ℕ) (ptr : Option String) : Event where
  op := .resolved (sampleKey .tcp).remote { ptr := ptr, asn := none, owner := none, failed := true }
  clock := .still t

/-- The sample connection, with a DNS name for its remote address. -/
def learnedStore : Store :=
  (Store.system.play [] (Store.empty 0)
    [pollAt 10 [sampleTcp (some 7)] [sampleProc 7 100], learnAt 20 "a.example.com" 60]).2

theorem learnedStore_named :
    NamedByDns learnedStore (enrichAt 30) (sampleKey .tcp) "a.example.com" := by
  refine ⟨.en, _, rfl, rfl, rfl, ?_, by decide +kernel⟩
  intro d hd
  cases hd

/-- What happens after the sample row was named: a lookup, the expiry of the DNS
name with the announcement of another, and the next naming pass. -/
def laterEvents (ptr : Option String) : List Event :=
  [resolvedAt 40 ptr, learnAt 70000 "b.example.com" 60, enrichAt 70010]

/-- The run of these events after the sample row was named. -/
def laterRun (ptr : Option String) : History Store Event × Store :=
  Store.system.play [] (learnedStore.step (enrichAt 30)) (laterEvents ptr)

theorem laterRun_calm (ptr : Option String) :
    ∀ entry ∈ (laterRun ptr).1, Undisturbed entry.1 entry.2 (sampleKey .tcp) := by
  intro entry hentry
  apply undisturbed_of_onlyNames
  have hplayed := (System.mem_play hentry).resolve_left List.not_mem_nil
  simp only [laterEvents, List.mem_cons, List.not_mem_nil, or_false] at hplayed
  rcases hplayed with heq | heq | heq <;> rw [heq] <;> rfl

/-- When the lookup finds another PTR name, the row keeps its DNS name. -/
theorem dnsName_kept_sample :
    rowName (laterRun (some "cdn.example.net")).2 (sampleKey .tcp) = some "a.example.com" := by
  have hrun : Run Store.system (learnedStore.step (enrichAt 30))
      (laterRun (some "cdn.example.net")).1 (laterRun (some "cdn.example.net")).2 :=
    Run.start.play _
  refine ((dnsName_kept learnedStore_named hrun (laterRun_calm _)).mpr ?_).2
  intro entry hentry
  apply not_renames _ (by decide)
  revert entry
  decide +kernel

/-- When the lookup finds the DNS name itself, the next DNS name of the address
replaces the name of the row. -/
theorem dnsName_lost_to_ptr :
    ∃ before hist st, Run Store.system (Store.empty 0) before learnedStore ∧
      NamedByDns learnedStore (enrichAt 30) (sampleKey .tcp) "a.example.com" ∧
      Run Store.system (learnedStore.step (enrichAt 30)) hist st ∧
      (∀ entry ∈ hist, Undisturbed entry.1 entry.2 (sampleKey .tcp)) ∧
      rowName st (sampleKey .tcp) = some "b.example.com" :=
  ⟨_, _, (laterRun (some "a.example.com")).2, Run.start.play _, learnedStore_named,
    Run.start.play _, laterRun_calm _, by decide +kernel⟩

end SocketTrail.History
