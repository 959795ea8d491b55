/-
# Addresses behind aliases

`Chain` follows aliases of the answer section in the order in which they stand, and
`Entry` says what an address record may give. `dns_answers_mapped` says that the
addresses of a response are recorded so, in order, and none is left out of a
response that is well-formed.
-/

import Mathlib.Data.List.TakeWhile
import SocketTrail.Pcap.DnsMessage

namespace SocketTrail.Pcap

open SocketTrail.Foundation SocketTrail.Net

/-! ## Chains -/

/-- The aliases `links` of `rs`, each behind the one before it, lead from the name `q`
to the name `x`. Names are compared without the case of ASCII letters. -/
inductive Chain (q : String) : List DnsRecord → List DnsRecord → String → Prop
  | start {rs : List DnsRecord} {x : String} (same : eqIgnoreAsciiCase q x = true) :
      Chain q rs [] x
  | link {earlier later links : List DnsRecord} {c : DnsRecord} {t x : String}
      (leads : Chain q earlier links c.owner) (target : c.content = .cname (some t))
      (same : eqIgnoreAsciiCase t x = true) :
      Chain q (earlier ++ c :: later) (links ++ [c]) x

/-- The name that was asked for, if any, leads to `x`. -/
def Leads (q : Option String) (rs : List DnsRecord) (x : String) : Prop :=
  ∃ name links, q = some name ∧ Chain name rs links x

theorem Chain.append {q x : String} {rs links : List DnsRecord} (h : Chain q rs links x)
    (more : List DnsRecord) : Chain q (rs ++ more) links x := by
  cases h with
  | start same => exact .start same
  | link leads target same =>
      rw [List.append_assoc, List.cons_append]
      exact .link leads target same

/-- A chain through one more record ends there or does without it. -/
theorem chain_snoc {q x : String} {rs links : List DnsRecord} {r : DnsRecord} :
    Chain q (rs ++ [r]) links x ↔ Chain q rs links x ∨ ∃ before t, links = before ++ [r] ∧
      Chain q rs before r.owner ∧ r.content = .cname (some t) ∧ eqIgnoreAsciiCase t x = true := by
  constructor
  · intro h
    generalize hall : rs ++ [r] = all at h
    cases h with
    | start same => exact .inl (.start same)
    | @link earlier later before c t _ leads target same =>
        rcases List.eq_nil_or_concat later with rfl | ⟨later, last, rfl⟩
        · obtain ⟨rfl, hlast⟩ := List.append_inj' hall rfl
          obtain rfl := List.singleton_inj.mp hlast
          exact .inr ⟨before, t, rfl, leads, target, same⟩
        · rw [List.concat_eq_append, ← List.cons_append, ← List.append_assoc] at hall
          obtain ⟨rfl, -⟩ := List.append_inj' hall rfl
          exact .inl (.link leads target same)
  · rintro (h | ⟨before, t, rfl, leads, target, same⟩)
    · exact h.append [r]
    · exact .link leads target same

theorem leads_snoc {q : Option String} {rs : List DnsRecord} {r : DnsRecord} {x : String} :
    Leads q (rs ++ [r]) x ↔ Leads q rs x ∨ (Leads q rs r.owner ∧
      ∃ t, r.content = .cname (some t) ∧ eqIgnoreAsciiCase t x = true) := by
  constructor
  · rintro ⟨name, links, rfl, hchain⟩
    rcases chain_snoc.mp hchain with hold | ⟨before, t, -, hbefore, htarget, hsame⟩
    · exact .inl ⟨name, links, rfl, hold⟩
    · exact .inr ⟨⟨name, before, rfl, hbefore⟩, t, htarget, hsame⟩
  · rintro (⟨name, links, rfl, hchain⟩ | ⟨⟨name, before, rfl, hbefore⟩, t, htarget, hsame⟩)
    · exact ⟨name, links, rfl, hchain.append [r]⟩
    · exact ⟨name, before ++ [r], rfl, .link hbefore htarget hsame⟩

theorem Leads.append {q : Option String} {rs : List DnsRecord} {x : String} (h : Leads q rs x)
    (more : List DnsRecord) : Leads q (rs ++ more) x := by
  obtain ⟨name, links, hname, hchain⟩ := h
  exact ⟨name, links, hname, hchain.append more⟩

/-! ## Entries -/

/-- What is recorded for the address record `r` behind the records `before`: its
address, under the name that was asked for if that leads to its owner and under its
owner otherwise, for no longer than it and the aliases in front of it live. -/
structure Entry (q : Option String) (entry : String × IpAddr × ℕ) (before : List DnsRecord)
    (r : DnsRecord) : Prop where
  address : r.content = .address entry.2.1
  asked : Leads q before r.owner → q = some entry.1
  own : ¬ Leads q before r.owner → entry.1 = r.owner
  ttl : entry.2.2 ≤ r.ttl
  links : ∀ name links, q = some name → Chain name before links r.owner →
    ∀ c ∈ links, entry.2.2 ≤ c.ttl

/-- The address records, each with the records in front of it. -/
def addressesIn (before : List DnsRecord) : List DnsRecord → List (List DnsRecord × DnsRecord)
  | [] => []
  | r :: rs =>
      if r.IsAddress then (before, r) :: addressesIn (before ++ [r]) rs
      else addressesIn (before ++ [r]) rs

/-- The entries are those of all address records, in order. -/
def Recorded (q : Option String) (entries : List (String × IpAddr × ℕ)) (rs : List DnsRecord) :
    Prop :=
  List.Forall₂ (fun entry place => Entry q entry place.1 place.2) entries (addressesIn [] rs)

theorem addressesIn_snoc (before rs : List DnsRecord) (r : DnsRecord) :
    addressesIn before (rs ++ [r]) =
      addressesIn before rs ++ if r.IsAddress then [(before ++ rs, r)] else [] := by
  induction rs generalizing before with
  | nil => rw [List.nil_append, addressesIn, addressesIn, List.append_nil, List.nil_append]; rfl
  | cons first rest ih =>
      rw [List.cons_append, addressesIn, ih, addressesIn, List.append_assoc, List.singleton_append]
      split <;> rfl

theorem length_addressesIn (before rs : List DnsRecord) :
    (addressesIn before rs).length = rs.countP fun r => r.IsAddress := by
  induction rs generalizing before with
  | nil => rfl
  | cons r rs ih =>
      rw [addressesIn, List.countP_cons]
      by_cases haddress : r.IsAddress
      · rw [if_pos haddress, if_pos (decide_eq_true haddress), List.length_cons, ih]
      · rw [if_neg haddress, if_neg (by simpa using haddress), ih, Nat.add_zero]

/-! ## The walk -/

/-- What the walk knows behind the records `rs`: the names that the aliases lead to,
no lifetime of an alias that is shorter than its own, and the entries. -/
structure Walked (q : Option String) (rs : List DnsRecord) (a : Answers) : Prop where
  chain : ∀ x, (a.chain.any fun c => eqIgnoreAsciiCase c x) = true ↔ Leads q rs x
  length : a.chain.length ≤ 1 + rs.countP fun r => r.IsAlias
  ttl : ∀ name links x, q = some name → Chain name rs links x → ∀ c ∈ links, a.chainTtl ≤ c.ttl
  entries : Recorded q a.addrs rs

theorem walked_start (q : Option String) : Walked q [] (.start q) where
  chain x := by
    have hempty {name : String} {links : List DnsRecord} (h : Chain name [] links x) :
        eqIgnoreAsciiCase name x = true := by
      generalize hnil : ([] : List DnsRecord) = rs at h
      cases h with
      | start same => exact same
      | link => simp at hnil
    cases q with
    | none =>
        refine iff_of_false (by simp [Answers.start]) ?_
        rintro ⟨name, links, hname, -⟩
        contradiction
    | some name =>
        have hchain : (Answers.start (some name)).chain = [name] := rfl
        rw [hchain, List.any_cons, List.any_nil, Bool.or_false]
        constructor
        · exact fun hsame => ⟨name, [], rfl, .start hsame⟩
        · rintro ⟨name', links, hname, h⟩
          obtain rfl := Option.some.inj hname
          exact hempty h
  length := by
    cases q with
    | none => exact Nat.zero_le _
    | some name => exact le_rfl
  ttl name links x _ h c hc := by
    generalize hnil : ([] : List DnsRecord) = rs at h
    cases h with
    | start => contradiction
    | link => simp at hnil
  entries := .nil

section Step

variable {q : Option String} {rs : List DnsRecord} {a : Answers} {r : DnsRecord}

theorem countP_snoc (P : DnsRecord → Bool) (rs : List DnsRecord) (r : DnsRecord) :
    (rs ++ [r]).countP P = rs.countP P + if P r then 1 else 0 := by
  rw [List.countP_append, List.countP_singleton]

/-- A record that gives neither an entry nor a link leaves everything as it is. -/
theorem Walked.unchanged (h : Walked q rs a) (haddress : ¬ r.IsAddress)
    (hlink : ¬ (Leads q rs r.owner ∧ ∃ t, r.content = .cname (some t))) :
    Walked q (rs ++ [r]) a where
  chain x := by
    rw [h.chain, leads_snoc, or_iff_left]
    rintro ⟨hleads, t, htarget, -⟩
    exact hlink ⟨hleads, t, htarget⟩
  length := by
    have hlength := h.length
    rw [countP_snoc]
    omega
  ttl name links x hname hchain c hc := by
    rcases chain_snoc.mp hchain with hold | ⟨before, t, -, hbefore, htarget, -⟩
    · exact h.ttl name links x hname hold c hc
    · exact absurd ⟨⟨name, before, hname, hbefore⟩, t, htarget⟩ hlink
  entries := by
    have hentries := h.entries
    rw [Recorded, addressesIn_snoc, if_neg haddress, List.append_nil]
    exact hentries

/-- An address record is recorded. -/
theorem Walked.address (h : Walked q rs a) {ip : IpAddr} (hcontent : r.content = .address ip) :
    Walked q (rs ++ [r]) (a.see q r) := by
  have haddress : r.IsAddress := ⟨ip, hcontent⟩
  have hlink : ¬ (Leads q rs r.owner ∧ ∃ t, r.content = .cname (some t)) := by
    rintro ⟨-, t, htarget⟩
    rw [hcontent] at htarget
    contradiction
  have hsame (x : String) : Leads q (rs ++ [r]) x ↔ Leads q rs x := by
    rw [leads_snoc, or_iff_left]
    rintro ⟨hleads, t, htarget, -⟩
    exact hlink ⟨hleads, t, htarget⟩
  have hsee : a.see q r = { a with addrs := a.addrs ++
      [(if a.chain.any fun c => eqIgnoreAsciiCase c r.owner then q.getD r.owner else r.owner, ip,
        if a.chain.any fun c => eqIgnoreAsciiCase c r.owner then min r.ttl a.chainTtl
        else r.ttl)] } := by
    rw [Answers.see, hcontent]
  rw [hsee]
  constructor
  · intro x
    rw [hsame]
    exact h.chain x
  · have hlength := h.length
    rw [countP_snoc]
    dsimp only
    omega
  · intro name links x hname hchain c hc
    rcases chain_snoc.mp hchain with hold | ⟨before, t, -, hbefore, htarget, -⟩
    · exact h.ttl name links x hname hold c hc
    · exact absurd ⟨⟨name, before, hname, hbefore⟩, t, htarget⟩ hlink
  · rw [Recorded, addressesIn_snoc, if_pos haddress, List.nil_append]
    refine List.rel_append h.entries (.cons ?_ .nil)
    by_cases hleads : Leads q rs r.owner
    · have hchained := (h.chain r.owner).mpr hleads
      rw [if_pos hchained, if_pos hchained]
      refine ⟨hcontent, fun _ => ?_, fun hnot => absurd hleads hnot, min_le_left _ _, ?_⟩
      · obtain ⟨name, -, rfl, -⟩ := hleads
        rfl
      · intro name links hname hchain c hc
        exact (min_le_right _ _).trans (h.ttl name links _ hname hchain c hc)
    · have hfree := mt (h.chain r.owner).mp hleads
      rw [if_neg hfree, if_neg hfree]
      refine ⟨hcontent, fun hnow => absurd hnow hleads, fun _ => rfl, le_rfl, ?_⟩
      intro name links hname hchain c hc
      exact absurd ⟨name, links, hname, hchain⟩ hleads

/-- An alias that the names so far lead to becomes a link. -/
theorem Walked.cname (h : Walked q rs a) {t : String} (hcontent : r.content = .cname (some t))
    (hleads : Leads q rs r.owner) (hfew : a.chain.length < 16) :
    Walked q (rs ++ [r]) (a.see q r) := by
  have hchained := (h.chain r.owner).mpr hleads
  have hsee : a.see q r = { a with
      chain := a.chain ++ [t], chainTtl := min a.chainTtl (min r.ttl a.chainTtl) } := by
    rw [Answers.see, hcontent]
    dsimp only
    rw [if_pos ⟨hfew, hchained⟩, if_pos hchained]
  have hcount : (rs ++ [r]).countP (fun r => r.IsAlias) = rs.countP (fun r => r.IsAlias) + 1 := by
    rw [countP_snoc, if_pos (decide_eq_true ⟨some t, hcontent⟩)]
  have haddress : ¬ r.IsAddress := by
    rintro ⟨ip, hip⟩
    rw [hcontent] at hip
    contradiction
  rw [hsee]
  constructor
  · intro x
    rw [List.any_append, Bool.or_eq_true, h.chain, leads_snoc]
    simp [hcontent, hleads]
  · have hlength := h.length
    rw [hcount, List.length_append, List.length_singleton]
    omega
  · intro name links x hname hchain c hc
    rcases chain_snoc.mp hchain with hold | ⟨before, t', rfl, hbefore, -, -⟩
    · exact (min_le_left _ _).trans (h.ttl name links x hname hold c hc)
    · rw [List.mem_append, List.mem_singleton] at hc
      rcases hc with hearlier | rfl
      · exact (min_le_left _ _).trans (h.ttl name before _ hname hbefore c hearlier)
      · exact (min_le_right _ _).trans (min_le_left _ _)
  · have hentries := h.entries
    rw [Recorded, addressesIn_snoc, if_neg haddress, List.append_nil]
    exact hentries

/-- One more record. -/
theorem Walked.see (h : Walked q rs a) (hfew : (rs ++ [r]).countP (fun r => r.IsAlias) ≤ 15) :
    Walked q (rs ++ [r]) (a.see q r) := by
  rcases hcontent : r.content with ip | target | -
  · exact h.address hcontent
  · have haddress : ¬ r.IsAddress := by
      rintro ⟨ip, hip⟩
      rw [hcontent] at hip
      contradiction
    by_cases hlink : Leads q rs r.owner ∧ ∃ t, r.content = .cname (some t)
    · obtain ⟨hleads, t, htarget⟩ := hlink
      have hlength := h.length
      rw [countP_snoc, if_pos (decide_eq_true ⟨some t, htarget⟩)] at hfew
      exact h.cname htarget hleads (by omega)
    · have hsame : a.see q r = a := by
        rw [Answers.see, hcontent]
        cases target with
        | none => rfl
        | some t =>
            dsimp only
            rw [if_neg]
            rintro ⟨-, hchained⟩
            exact hlink ⟨(h.chain r.owner).mp hchained, t, hcontent⟩
      rw [hsame]
      exact h.unchanged haddress hlink
  · have hsame : a.see q r = a := by rw [Answers.see, hcontent]
    rw [hsame]
    apply h.unchanged
    · rintro ⟨ip, hip⟩
      rw [hcontent] at hip
      contradiction
    · rintro ⟨-, t, ht⟩
      rw [hcontent] at ht
      contradiction

end Step

/-- The walk over records with few enough aliases. -/
theorem walked_foldl {q : Option String} {rs : List DnsRecord}
    (hfew : rs.countP (fun r => r.IsAlias) ≤ 15) :
    Walked q rs (rs.foldl (Answers.see q) (.start q)) := by
  induction rs using List.reverseRecOn with
  | nil => exact walked_start q
  | append_singleton rs r ih =>
      have hless : rs.countP (fun r => r.IsAlias) ≤ 15 := by
        rw [List.countP_append] at hfew
        omega
      rw [List.foldl_append]
      exact (ih hless).see hfew

/-! ## Sixty-four addresses -/

/-- The walk takes in a beginning of the records, and no more than 64 addresses. -/
theorem gather_eq_foldl (q : Option String) (rs : List DnsRecord) {a : Answers}
    (hfew : a.addrs.length ≤ maxDnsAddrs) :
    ∃ seen, seen <+: rs ∧ Answers.gather q rs a = seen.foldl (Answers.see q) a ∧
      (Answers.gather q rs a).addrs.length ≤ maxDnsAddrs := by
  induction rs generalizing a with
  | nil => exact ⟨[], List.prefix_rfl, rfl, hfew⟩
  | cons r rs ih =>
      rw [Answers.gather]
      split
      · exact ⟨[], List.nil_prefix, rfl, hfew⟩
      · rename_i hroom
        have hnext : (a.see q r).addrs.length ≤ maxDnsAddrs := by
          rcases a.see_addrs q r with ⟨entry, hentry, -⟩ | ⟨hsame, -⟩
          · rw [hentry, List.length_append, List.length_singleton]
            omega
          · rw [hsame]
            exact hfew
        obtain ⟨seen, hseen, hwalk, hcount⟩ := ih hnext
        exact ⟨r :: seen, (List.cons_prefix_cons).mpr ⟨rfl, hseen⟩, hwalk, hcount⟩

/-- Records without an address add none. -/
theorem foldl_see_addrs {q : Option String} {rs : List DnsRecord}
    (hnone : rs.countP (fun r => r.IsAddress) = 0) (a : Answers) :
    (rs.foldl (Answers.see q) a).addrs = a.addrs := by
  induction rs generalizing a with
  | nil => rfl
  | cons r rs ih =>
      rw [List.countP_cons] at hnone
      rw [List.foldl_cons, ih (by omega)]
      rcases a.see_addrs q r with ⟨entry, -, haddress⟩ | ⟨hsame, -⟩
      · rw [if_pos (decide_eq_true haddress)] at hnone
        omega
      · exact hsame

/-- The walk takes all addresses in if there are no more than 64. -/
theorem gather_addrs {q : Option String} {rs : List DnsRecord} {a : Answers}
    (hfew : a.addrs.length + rs.countP (fun r => r.IsAddress) ≤ maxDnsAddrs) :
    (Answers.gather q rs a).addrs = (rs.foldl (Answers.see q) a).addrs := by
  induction rs generalizing a with
  | nil => rfl
  | cons r rs ih =>
      rw [Answers.gather]
      split
      · rename_i hfull
        rw [foldl_see_addrs (by omega)]
      · rw [List.foldl_cons]
        apply ih
        rw [List.countP_cons] at hfew
        rcases a.see_addrs q r with ⟨entry, hentry, haddress⟩ | ⟨hsame, haddress⟩
        · rw [if_pos (decide_eq_true haddress)] at hfew
          rw [hentry, List.length_append, List.length_singleton]
          omega
        · rw [hsame]
          omega

/-! ## The result -/

theorem RecordsAt.front {d : Bytes} {limit p stop : ℕ} {rs front : List DnsRecord}
    (h : RecordsAt d limit p rs stop) (hfront : front <+: rs) :
    ∃ middle, RecordsAt d limit p front middle := by
  induction h generalizing front with
  | nil =>
      obtain rfl := List.prefix_nil.mp hfront
      exact ⟨_, .nil⟩
  | cons first _ ih =>
      cases front with
      | nil => exact ⟨_, .nil⟩
      | cons r more =>
          obtain ⟨rfl, hmore⟩ := List.cons_prefix_cons.mp hfront
          obtain ⟨middle, hmiddle⟩ := ih hmore
          exact ⟨middle, .cons first hmiddle⟩

/-- The entries of a response whose answers are all of class IN. -/
theorem recorded_of_response {d : Bytes} {names : List String} {rs : List DnsRecord}
    (h : Response d maxDnsSteps names rs) (hinternet : ∀ r ∈ rs, r.Internet)
    (haliases : rs.countP (fun r => r.IsAlias) ≤ 15)
    (haddresses : rs.countP (fun r => r.IsAddress) ≤ maxDnsAddrs) :
    Recorded names.head? (parseDns d) rs := by
  have hall : rs.takeWhile (fun r => r.Internet) = rs := by
    rw [List.takeWhile_eq_self_iff]
    exact fun r hr => decide_eq_true (hinternet r hr)
  have hroom : (Answers.start names.head?).addrs.length +
      rs.countP (fun r => r.IsAddress) ≤ maxDnsAddrs := by
    rw [Answers.start, List.length_nil, Nat.zero_add]
    exact haddresses
  rw [parseDns_eq h, hall, gather_addrs hroom]
  exact (walked_foldl haliases).entries

/-- **The answers of a DNS response are mapped soundly and completely.** Whatever
response is accepted, the entries are those of the address records among the answers
that were read, in order and at most 64, each under the name and for no longer than
the aliases in front of it say. Of a response that is well-formed, with answers of
class IN, no address is left out. No name takes more than 128 labels and pointers. -/
theorem dns_answers_mapped {d : Bytes} {names : List String} :
    (∀ p count, Accepted d maxDnsSteps names p count →
      (∀ rs stop, RecordsAt d maxDnsSteps p rs stop → rs.length ≤ count →
        rs.countP (fun r => r.IsAlias) ≤ 15) →
      (parseDns d).length ≤ 64 ∧
        ∃ rs stop, RecordsAt d maxDnsSteps p rs stop ∧ rs.length ≤ count ∧
          Recorded names.head? (parseDns d) rs) ∧
    (∀ rs, Response d maxDnsSteps names rs → (∀ r ∈ rs, r.Internet) →
      rs.countP (fun r => r.IsAlias) ≤ 15 → rs.countP (fun r => r.IsAddress) ≤ 64 →
      Recorded names.head? (parseDns d) rs) := by
  refine ⟨?_, fun rs h => recorded_of_response h⟩
  intro p count haccepted haliases
  obtain ⟨rs, stop, hrecords, hcount, -, hread⟩ :=
    exists_recordsAt (d := d) (p := p) (q := names.head?) count (.start names.head?)
  obtain ⟨seen, hseen, hwalk, hfew⟩ :=
    gather_eq_foldl names.head? rs (a := .start names.head?) (Nat.zero_le _)
  obtain ⟨middle, hmiddle⟩ := hrecords.front hseen
  have hlength := hseen.length_le.trans hcount
  rw [parseDns_of_accepted haccepted, hread]
  refine ⟨hfew, seen, middle, hmiddle, hlength, ?_⟩
  rw [hwalk]
  exact (walked_foldl (haliases seen middle hmiddle hlength)).entries

/-- The name with one label of one byte. -/
def letterName (b : UInt8) : DomainName where
  labels := [[b]]
  sizes := by simp
  short := Nat.le_of_ble_eq_true rfl

/-- The question for `a`, which is another name for `b`, and the address of `b`. -/
def sampleMessage : DnsMessage where
  questions := [letterName 0x61]
  answers :=
    [{ owner := letterName 0x61, rclass := 1, ttl := 5, data := .cname (letterName 0x62) },
      { owner := letterName 0x62, rclass := 1, ttl := 9, data := .v4 0x01020304 }]
  few := by decide

/-- The address of `b` is recorded for `a`. -/
theorem dns_answers_mapped_sample :
    Recorded (some "a") (parseDns sampleMessage.encode)
      (sampleMessage.answers.map DnsAnswer.record) := by
  have hnames : (sampleMessage.questions.map DomainName.text).head? = some "a" := by decide
  rw [← hnames]
  exact dns_answers_mapped.2 _ sampleMessage.response (by decide) (by decide) (by decide)

example : parseDns sampleMessage.encode = [("a", .ofOctets 1 2 3 4, 5)] := by decide

/-- A name of 127 labels, as many as a name can have. -/
def longName : DomainName where
  labels := List.replicate 127 [0x61]
  sizes label h := by
    rw [List.eq_of_mem_replicate h]
    decide
  short := by decide +kernel

/-- The response for that name; its only answer refers back to the question. -/
def longMessage : Bytes :=
  [0, 0, 0x81, 0x80, 0, 1, 0, 1, 0, 0, 0, 0] ++ (longName.encode ++
    ([0, 1, 0, 1] ++ [0xC0, 12, 0, 1, 0, 1, 0, 0, 0, 9, 0, 4, 1, 2, 3, 4]))

def longRecord : DnsRecord where
  owner := longName.text
  rclass := 1
  ttl := 9
  content := .address (.ofOctets 1 2 3 4)

/-- The message is well-formed; its last name takes 129 labels and pointers. -/
theorem longMessage_response : Response longMessage 129 [longName.text] [longRecord] := by
  have hname : Stands longMessage 12 _ := Stands.append [0, 0, 0x81, 0x80, 0, 1, 0, 1, 0, 0, 0, 0]
    (encodeLabels longName.labels ++
      ([0, 1, 0, 1] ++ [0xC0, 12, 0, 1, 0, 1, 0, 0, 0, 9, 0, 4, 1, 2, 3, 4]))
  have hlength : (encodeLabels longName.labels).length = 255 := by decide +kernel
  have hfew : longName.labels.length + 1 + 1 ≤ 129 := by decide +kernel
  have hlabels := nameAt_encodeLabels longName.sizes hname
  have hquestion : IsName longMessage 129 12 (nameText longName.labels) _ :=
    .intro hlabels (by omega) longName.short
  have hbehind := hname.skip
  rw [hlength] at hbehind hquestion
  have hanswer : Stands longMessage 271 [0xC0, 12, 0, 1, 0, 1, 0, 0, 0, 9, 0, 4, 1, 2, 3, 4] :=
    hbehind.tail.tail.tail.tail
  have hagain : NameAt longMessage 271 longName.labels _ 273 :=
    .pointer hanswer.getElem? rfl hanswer.tail.getElem? hlabels
  have howner : IsName longMessage 129 271 (nameText longName.labels) 273 :=
    .intro hagain hfew longName.short
  have hdata := hanswer.tail.tail
  have hlifetime := Stands.getSlice (x := [0, 0, 0, 9]) hdata.tail.tail.tail.tail
  have hbytes := @Stands.getSlice _ [1, 2, 3, 4] [] _
    hdata.tail.tail.tail.tail.tail.tail.tail.tail.tail.tail
  have hrecord : RecordAt longMessage 129 271 longRecord 287 :=
    .intro howner (hdata.be16_eq.trans rfl) (hdata.tail.tail.be16_eq.trans rfl) hlifetime rfl
      (hdata.tail.tail.tail.tail.tail.tail.tail.tail.be16_eq.trans rfl) hbytes
      (.inl ⟨rfl, rfl, rfl⟩)
  have hheader : longMessage.length = 12 + _ := hname.length
  refine .intro ⟨?_, ⟨0x8180, rfl, by decide, by decide⟩, rfl, rfl, .cons hquestion .nil⟩
    (.cons hrecord .nil)
  rw [hheader]
  exact Nat.le_add_right _ _

/-- The decoder gives that name up, and with it the only address. -/
theorem not_dns_answers_mapped : ¬ ∀ (d : Bytes) (limit : ℕ) (names : List String)
    (rs : List DnsRecord), Response d limit names rs → (∀ r ∈ rs, r.Internet) →
      rs.countP (fun r => r.IsAlias) ≤ 15 → rs.countP (fun r => r.IsAddress) ≤ 64 →
      Recorded names.head? (parseDns d) rs := by
  intro hall
  have hrecorded := hall _ _ _ _ longMessage_response (List.forall_mem_singleton.mpr rfl)
    (by decide) (by decide)
  have hempty : parseDns longMessage = [] := by decide +kernel
  rw [hempty] at hrecorded
  have hlength := hrecorded.length_eq
  rw [length_addressesIn] at hlength
  contradiction

end SocketTrail.Pcap
