/-
# The order of the answers

`Reaches` follows the aliases of a response wherever they stand. An address gets the
name that was asked for only if its aliases stand in front of it, so
`names_order_free_iff`: the order of the answers does not matter exactly if no
address stands behind an alias.
-/

import Mathlib.Data.Set.List
import SocketTrail.Pcap.DnsChains

namespace SocketTrail.Pcap

open SocketTrail.Foundation SocketTrail.Net

/-! ## Aliases in any order -/

/-- The name that was asked for leads to `x` through aliases of `rs`, whatever their
order. -/
inductive Reaches (q : Option String) (rs : List DnsRecord) : String → Prop
  | asked {name x : String} (asked : q = some name) (same : eqIgnoreAsciiCase name x = true) :
      Reaches q rs x
  | link {c : DnsRecord} {t x : String} (mem : c ∈ rs) (leads : Reaches q rs c.owner)
      (target : c.content = .cname (some t)) (same : eqIgnoreAsciiCase t x = true) :
      Reaches q rs x

theorem Reaches.mono {q : Option String} {rs rs' : List DnsRecord} {x : String}
    (h : Reaches q rs x) (hsub : rs ⊆ rs') : Reaches q rs' x := by
  induction h with
  | asked hq same => exact .asked hq same
  | link mem _ target same ih => exact .link (hsub mem) ih target same

/-- A chain in the order of the records is one in any order. -/
theorem Leads.reaches {q : Option String} {rs : List DnsRecord} {x : String} (h : Leads q rs x) :
    Reaches q rs x := by
  obtain ⟨name, links, rfl, hchain⟩ := h
  induction hchain with
  | start same => exact .asked rfl same
  | link leads target same ih =>
      exact .link (by simp) (ih.mono (List.subset_append_left _ _)) target same

theorem leads_of_same {q : Option String} {name x : String} (rs : List DnsRecord)
    (hq : q = some name) (hsame : eqIgnoreAsciiCase name x = true) : Leads q rs x :=
  ⟨name, [], hq, .start hsame⟩

/-- Aliases of a response that lead to a name can be put in order. -/
theorem Reaches.exists_leads {q : Option String} {rs : List DnsRecord} {x : String}
    (h : Reaches q rs x) :
    ∃ links : List DnsRecord, links.Nodup ∧ links ⊆ rs ∧ (∀ c ∈ links, c.IsAlias) ∧
      (∀ c ∈ links, ∀ t y, c.content = .cname (some t) → eqIgnoreAsciiCase t y = true →
        Leads q links y) ∧ Leads q links x := by
  induction h with
  | asked hq same =>
      exact ⟨[], List.nodup_nil, List.nil_subset _, by simp, by simp, leads_of_same [] hq same⟩
  | @link c t x mem _ target same ih =>
      obtain ⟨links, hnodup, hsub, halias, hclosed, howner⟩ := ih
      by_cases hmem : c ∈ links
      · exact ⟨links, hnodup, hsub, halias, hclosed, hclosed c hmem t x target same⟩
      · have hnew {y : String} (t : String) (htarget : c.content = .cname (some t))
            (hsame : eqIgnoreAsciiCase t y = true) : Leads q (links ++ [c]) y :=
          leads_snoc.mpr (.inr ⟨howner, t, htarget, hsame⟩)
        refine ⟨links ++ [c], ?_, ?_, ?_, ?_, hnew t target same⟩
        · rw [List.nodup_append]
          refine ⟨hnodup, List.nodup_singleton c, ?_⟩
          rintro a ha b hb rfl
          exact hmem (List.mem_singleton.mp hb ▸ ha)
        · exact List.append_subset.mpr ⟨hsub, List.cons_subset.mpr ⟨mem, List.nil_subset _⟩⟩
        · intro b hb
          rcases List.mem_append.mp hb with hold | hlast
          · exact halias b hold
          · obtain rfl := List.mem_singleton.mp hlast
            exact ⟨some t, target⟩
        · intro b hb t' y htarget hsame
          rcases List.mem_append.mp hb with hold | hlast
          · exact (hclosed b hold t' y htarget hsame).append [c]
          · obtain rfl := List.mem_singleton.mp hlast
            exact hnew t' htarget hsame

/-! ## The names of the addresses -/

/-- The records in front of an address record are those that stand there. -/
theorem mem_addressesIn {front rs before : List DnsRecord} {r : DnsRecord} :
    (before, r) ∈ addressesIn front rs ↔
      r.IsAddress ∧ ∃ middle after, rs = middle ++ r :: after ∧ before = front ++ middle := by
  induction rs generalizing front with
  | nil => simp [addressesIn]
  | cons first rest ih =>
      have hstep : (before, r) ∈ addressesIn front (first :: rest) ↔
          (r.IsAddress ∧ r = first ∧ before = front) ∨
            (before, r) ∈ addressesIn (front ++ [first]) rest := by
        rw [addressesIn]
        split
        · rename_i haddress
          rw [List.mem_cons, Prod.mk.injEq]
          refine or_congr_left ⟨?_, fun h => ⟨h.2.2, h.2.1⟩⟩
          rintro ⟨rfl, rfl⟩
          exact ⟨haddress, rfl, rfl⟩
        · rename_i haddress
          refine (or_iff_right ?_).symm
          rintro ⟨hr, rfl, -⟩
          exact haddress hr
      rw [hstep, ih]
      constructor
      · rintro (⟨haddress, rfl, rfl⟩ | ⟨haddress, middle, after, rfl, rfl⟩)
        · exact ⟨haddress, [], rest, rfl, (List.append_nil _).symm⟩
        · exact ⟨haddress, first :: middle, after, rfl, List.append_assoc ..⟩
      · rintro ⟨haddress, middle, after, hrs, rfl⟩
        rcases List.cons_eq_append_iff.mp hrs with ⟨rfl, hcons⟩ | ⟨middle, rfl, rfl⟩
        · obtain ⟨rfl, -⟩ := List.cons.inj hcons
          exact .inl ⟨haddress, rfl, List.append_nil _⟩
        · exact .inr ⟨haddress, middle, after, rfl, (List.append_assoc front [first] middle).symm⟩

/-- Of two lists in step, one has a certain member if the other has. -/
theorem exists_mem_iff_of_forall₂ {α β : Type} {R : α → β → Prop} {P : α → Prop} {Q : β → Prop}
    {as : List α} {bs : List β} (h : List.Forall₂ R as bs) (hstep : ∀ a b, R a b → (P a ↔ Q b)) :
    (∃ a ∈ as, P a) ↔ ∃ b ∈ bs, Q b := by
  induction h with
  | nil => simp
  | cons first _ ih =>
      rw [List.exists_mem_cons_iff, List.exists_mem_cons_iff, hstep _ _ first, ih]

/-- The pairs of a name and an address that are recorded for a response. -/
def namedAddresses (d : Bytes) : Set (String × IpAddr) :=
  { pair | ∃ ttl, (pair.1, pair.2, ttl) ∈ parseDns d }

/-- The record `r` behind the records `before` gives this name and address. -/
structure Gives (q : Option String) (before : List DnsRecord) (r : DnsRecord)
    (pair : String × IpAddr) : Prop where
  address : r.content = .address pair.2
  asked : Leads q before r.owner → q = some pair.1
  own : ¬ Leads q before r.owner → pair.1 = r.owner

theorem Entry.gives {q : Option String} {entry : String × IpAddr × ℕ} {before : List DnsRecord}
    {r : DnsRecord} (h : Entry q entry before r) (pair : String × IpAddr) :
    (entry.1, entry.2.1) = pair ↔ Gives q before r pair := by
  constructor
  · rintro rfl
    exact ⟨h.address, h.asked, h.own⟩
  · intro hgives
    refine Prod.ext ?_ (RecordContent.address.inj (h.address.symm.trans hgives.address))
    by_cases hleads : Leads q before r.owner
    · exact Option.some.inj ((h.asked hleads).symm.trans (hgives.asked hleads))
    · exact (h.own hleads).trans (hgives.own hleads).symm

/-- What is recorded is what the address records give. -/
theorem mem_namedAddresses {d : Bytes} {q : Option String} {rs : List DnsRecord}
    (h : Recorded q (parseDns d) rs) {pair : String × IpAddr} :
    pair ∈ namedAddresses d ↔
      ∃ before r after, rs = before ++ r :: after ∧ Gives q before r pair := by
  have hentries : pair ∈ namedAddresses d ↔
      ∃ entry ∈ parseDns d, (entry.1, entry.2.1) = pair := by
    constructor
    · rintro ⟨ttl, hmem⟩
      exact ⟨_, hmem, rfl⟩
    · rintro ⟨⟨name, ip, ttl⟩, hmem, rfl⟩
      exact ⟨ttl, hmem⟩
  rw [hentries, exists_mem_iff_of_forall₂ h fun entry place hentry => hentry.gives pair]
  constructor
  · rintro ⟨⟨before, r⟩, hmem, hgives⟩
    obtain ⟨-, middle, after, rfl, rfl⟩ := mem_addressesIn.mp hmem
    exact ⟨_, r, after, rfl, hgives⟩
  · rintro ⟨before, r, after, rfl, hgives⟩
    exact ⟨(before, r), mem_addressesIn.mpr ⟨⟨_, hgives.address⟩, before, after, rfl, rfl⟩, hgives⟩

/-! ## Responses in another order -/

theorem RecordsAt.exists_answers {d : Bytes} {limit p stop : ℕ} {rs : List DnsRecord}
    (h : RecordsAt d limit p rs stop) : ∀ r ∈ rs, ∃ x : DnsAnswer, x.record = r := by
  induction h with
  | nil => simp
  | cons first _ ih => exact List.forall_mem_cons.mpr ⟨first.exists_answer, ih⟩

theorem QuestionsAt.exists_names {d : Bytes} {limit p stop : ℕ} {names : List String}
    (h : QuestionsAt d limit p names stop) : ∀ name ∈ names, ∃ n : DomainName, n.text = name := by
  induction h with
  | nil => simp
  | cons first _ ih => exact List.forall_mem_cons.mpr ⟨first.exists_domainName, ih⟩

/-- The answers of a response may stand in any other order. -/
theorem Response.exists_of_perm {d : Bytes} {limit : ℕ} {names : List String}
    {rs rs' : List DnsRecord} (h : Response d limit names rs) (hperm : rs'.Perm rs) :
    ∃ d', Response d' maxDnsSteps names rs' := by
  obtain ⟨haccepted, hanswers⟩ := h
  obtain ⟨questions, hquestions⟩ : names ∈ Set.range (List.map DomainName.text) := by
    rw [Set.range_list_map]
    exact haccepted.questions.exists_names
  obtain ⟨answers, hrecords⟩ : rs' ∈ Set.range (List.map DnsAnswer.record) := by
    rw [Set.range_list_map]
    exact fun r hr => hanswers.exists_answers r (hperm.mem_iff.mp hr)
  have hcount := congrArg List.length hquestions
  have htotal := (congrArg List.length hrecords).trans hperm.length_eq
  rw [List.length_map] at hcount htotal
  let m : DnsMessage :=
    { questions := questions
      answers := answers
      few := ⟨hcount ▸ (drop_of_be16 haccepted.asked).1,
        htotal ▸ (drop_of_be16 haccepted.answered).1⟩ }
  have hresponse : Response m.encode maxDnsSteps (questions.map DomainName.text)
      (answers.map DnsAnswer.record) := m.response
  rw [hquestions, hrecords] at hresponse
  exact ⟨m.encode, hresponse⟩

/-- The answers of the response `d` may stand in any order: the same names are
recorded for the same addresses, and an address that the name asked for leads to
gets that name. -/
def OrderFree (names : List String) (rs : List DnsRecord) (d : Bytes) : Prop :=
  ∀ d' rs', Response d' maxDnsSteps names rs' → rs'.Perm rs →
    namedAddresses d' = namedAddresses d ∧
      ∀ r ∈ rs, ∀ name ip, names.head? = some name → r.content = .address ip →
        Reaches names.head? rs r.owner → (name, ip) ∈ namedAddresses d'

/-- The name that was asked for is `x`, without the case of ASCII letters. -/
def Asked (q : Option String) (x : String) : Prop :=
  ∃ name, q = some name ∧ eqIgnoreAsciiCase name x = true

theorem Asked.leads {q : Option String} {x : String} (h : Asked q x) (rs : List DnsRecord) :
    Leads q rs x := by
  obtain ⟨name, hq, hsame⟩ := h
  exact ⟨name, [], hq, .start hsame⟩

/-- No address of `rs` stands behind an alias: those that the name asked for leads to
are addresses of that name itself. -/
def NoneBehindAlias (q : Option String) (rs : List DnsRecord) : Prop :=
  ∀ r ∈ rs, r.IsAddress → Reaches q rs r.owner → Asked q r.owner

section Order

variable {d : Bytes} {names : List String} {rs : List DnsRecord}

theorem asked_of_leads_nil {q : Option String} {x : String} (h : Leads q [] x) : Asked q x := by
  cases h.reaches with
  | asked hq same => exact ⟨_, hq, same⟩
  | link mem => contradiction

/-- If no address stands behind an alias, its name does not depend on the order. -/
theorem mem_namedAddresses_of_noneBehindAlias (h : Recorded names.head? (parseDns d) rs)
    (hnone : NoneBehindAlias names.head? rs) {pair : String × IpAddr} :
    pair ∈ namedAddresses d ↔ ∃ r ∈ rs, r.content = .address pair.2 ∧
      (Asked names.head? r.owner → names.head? = some pair.1) ∧
        (¬ Asked names.head? r.owner → pair.1 = r.owner) := by
  have hleads {before after : List DnsRecord} {r : DnsRecord} (hrs : rs = before ++ r :: after)
      (haddress : r.IsAddress) : Leads names.head? before r.owner ↔ Asked names.head? r.owner := by
    refine ⟨fun hbefore => ?_, fun hasked => hasked.leads before⟩
    have hsub : before ⊆ rs := hrs ▸ List.subset_append_left _ _
    exact hnone r (by simp [hrs]) haddress (hbefore.reaches.mono hsub)
  rw [mem_namedAddresses h]
  constructor
  · rintro ⟨before, r, after, hrs, haddress, hasked, hown⟩
    rw [hleads hrs ⟨_, haddress⟩] at hasked hown
    exact ⟨r, by simp [hrs], haddress, hasked, hown⟩
  · rintro ⟨r, hr, haddress, hasked, hown⟩
    obtain ⟨before, after, hrs⟩ := List.append_of_mem hr
    rw [← hleads hrs ⟨_, haddress⟩] at hasked hown
    exact ⟨before, r, after, hrs, haddress, hasked, hown⟩

/-- The answers of a response with aliases for an address can stand so that the
address is behind all of them, or in front of all. -/
theorem exists_two_orders {q : Option String} {r : DnsRecord} (hr : r ∈ rs)
    (hreaches : Reaches q rs r.owner) :
    ∃ links behind others, (links ++ behind).Perm rs ∧ (∀ c ∈ links, c.IsAlias) ∧
      Leads q links r.owner ∧ (r :: others).Perm rs := by
  obtain ⟨links, hnodup, hsub, halias, -, hleads⟩ := hreaches.exists_leads
  obtain ⟨sorted, hsorted, hsublist⟩ := hnodup.subperm hsub
  obtain ⟨behind, hbehind⟩ := hsublist.exists_perm_append
  obtain ⟨before, after, rfl⟩ := List.append_of_mem hr
  exact ⟨links, behind, before ++ after, ((hsorted.symm.append_right behind).trans hbehind.symm),
    halias, hleads, List.perm_middle.symm⟩

/-- Behind its aliases, an address is not recorded under its own name. -/
theorem owner_notMem_namedAddresses {links behind : List DnsRecord} {x : String} {ip : IpAddr}
    (h : Recorded names.head? (parseDns d) (links ++ behind)) (halias : ∀ c ∈ links, c.IsAlias)
    (hleads : Leads names.head? links x) (hnot : ¬ Asked names.head? x) :
    (x, ip) ∉ namedAddresses d := by
  intro hmem
  obtain ⟨before, r, after, hrs, haddress, hasked, hown⟩ := (mem_namedAddresses h).mp hmem
  have hname (hnow : Leads names.head? before r.owner) : False :=
    hnot ⟨x, hasked hnow, by simp [eqIgnoreAsciiCase]⟩
  have hsame : x = r.owner := hown hname
  rcases List.append_eq_append_iff.mp hrs with ⟨more, rfl, -⟩ | ⟨more, rfl, hcons⟩
  · exact hname (hsame ▸ hleads.append more)
  · cases more with
    | nil =>
        rw [List.append_nil] at hleads
        exact hname (hsame ▸ hleads)
    | cons first more =>
        obtain ⟨rfl, -⟩ := List.cons.inj hcons
        obtain ⟨target, htarget⟩ := halias r (by simp)
        rw [htarget] at haddress
        contradiction

/-- **The order of the answers does not matter exactly if no address stands behind an
alias.** An address behind an alias keeps its own name in some orders. -/
theorem names_order_free_iff (h : Response d maxDnsSteps names rs)
    (hinternet : ∀ r ∈ rs, r.Internet) (haliases : rs.countP (fun r => r.IsAlias) ≤ 15)
    (haddresses : rs.countP (fun r => r.IsAddress) ≤ 64) :
    OrderFree names rs d ↔ NoneBehindAlias names.head? rs := by
  have hrecorded {d' : Bytes} {rs' : List DnsRecord} (h' : Response d' maxDnsSteps names rs')
      (hperm : rs'.Perm rs) : Recorded names.head? (parseDns d') rs' :=
    recorded_of_response h' (fun r hr => hinternet r (hperm.mem_iff.mp hr))
      ((hperm.countP_eq _).trans_le haliases) ((hperm.countP_eq _).trans_le haddresses)
  constructor
  · intro hfree r hr haddress hreaches
    by_contra hnot
    obtain ⟨ip, hip⟩ := haddress
    obtain ⟨links, behind, others, hlast, halias, hleads, hfirst⟩ := exists_two_orders hr hreaches
    obtain ⟨d₁, h₁⟩ := h.exists_of_perm hlast
    obtain ⟨d₂, h₂⟩ := h.exists_of_perm hfirst
    have hgives : Gives names.head? [] r (r.owner, ip) :=
      ⟨hip, fun hnow => absurd (asked_of_leads_nil hnow) hnot, fun _ => rfl⟩
    have hown : (r.owner, ip) ∈ namedAddresses d₂ :=
      (mem_namedAddresses (hrecorded h₂ hfirst)).mpr ⟨[], r, others, rfl, hgives⟩
    rw [(hfree d₂ _ h₂ hfirst).1, ← (hfree d₁ _ h₁ hlast).1] at hown
    exact owner_notMem_namedAddresses (hrecorded h₁ hlast) halias hleads hnot hown
  · intro hnone d' rs' h' hperm
    have hnone' : NoneBehindAlias names.head? rs' := fun r hr haddress hreaches =>
      hnone r (hperm.mem_iff.mp hr) haddress (hreaches.mono hperm.subset)
    have hmem (pair : String × IpAddr) := @mem_namedAddresses_of_noneBehindAlias d' names rs'
      (hrecorded h' hperm) hnone' pair
    constructor
    · ext pair
      rw [hmem, mem_namedAddresses_of_noneBehindAlias (hrecorded h (.refl rs)) hnone]
      simp only [hperm.mem_iff]
    · intro r hr name ip hname hip hreaches
      have hasked := hnone r hr ⟨ip, hip⟩ hreaches
      exact (hmem _).mpr
        ⟨r, hperm.mem_iff.mpr hr, hip, fun _ => hname, fun hnot => absurd hasked hnot⟩

end Order

/-- The question for `a`, two addresses of it, and an alias to a name without one. -/
def addressesMessage : DnsMessage where
  questions := [letterName 0x61]
  answers :=
    [{ owner := letterName 0x61, rclass := 1, ttl := 9, data := .v4 0x01020304 },
      { owner := letterName 0x61, rclass := 1, ttl := 5, data := .cname (letterName 0x62) },
      { owner := letterName 0x61, rclass := 1, ttl := 7, data := .v4 0x05060708 }]
  few := by decide

/-- The same answers, the alias in front of both addresses. -/
def aliasedMessage : DnsMessage where
  questions := addressesMessage.questions
  answers :=
    [{ owner := letterName 0x61, rclass := 1, ttl := 5, data := .cname (letterName 0x62) },
      { owner := letterName 0x61, rclass := 1, ttl := 7, data := .v4 0x05060708 },
      { owner := letterName 0x61, rclass := 1, ttl := 9, data := .v4 0x01020304 }]
  few := by decide

/-- No address is behind the alias, so `a` has both addresses in any order. -/
theorem names_order_free_iff_sample :
    OrderFree ["a"] (addressesMessage.answers.map DnsAnswer.record) addressesMessage.encode ∧
      namedAddresses aliasedMessage.encode = namedAddresses addressesMessage.encode := by
  have hnames : addressesMessage.questions.map DomainName.text = ["a"] := by decide
  have hresponse := addressesMessage.response
  have haliased := aliasedMessage.response
  rw [show aliasedMessage.questions.map DomainName.text = ["a"] from hnames] at haliased
  rw [hnames] at hresponse
  have hfree : OrderFree ["a"] (addressesMessage.answers.map DnsAnswer.record)
      addressesMessage.encode := by
    refine (names_order_free_iff hresponse (by decide) (by decide) (by decide)).mpr ?_
    intro r hr haddress _
    have howner : ∀ r ∈ addressesMessage.answers.map DnsAnswer.record, r.owner = "a" := by decide
    exact ⟨"a", rfl, by rw [howner r hr]; decide⟩
  exact ⟨hfree, (hfree _ _ haliased (by decide)).1⟩

/-- The answers of the response to `a` in the other order: the address comes first. -/
def swappedMessage : DnsMessage where
  questions := sampleMessage.questions
  answers := sampleMessage.answers.reverse
  few := sampleMessage.few

/-- In front of its alias, the address is recorded for `b`. -/
theorem not_names_order_free : ¬ ∀ (d : Bytes) (names : List String) (rs : List DnsRecord),
    Response d maxDnsSteps names rs → (∀ r ∈ rs, r.Internet) →
      rs.countP (fun r => r.IsAlias) ≤ 15 → rs.countP (fun r => r.IsAddress) ≤ 64 →
      OrderFree names rs d := by
  intro hall
  have hfree := hall _ _ _ sampleMessage.response (by decide) (by decide) (by decide)
  have hswapped := (hfree _ _ swappedMessage.response (by decide)).1
  have hfirst : parseDns sampleMessage.encode = [("a", .ofOctets 1 2 3 4, 5)] := by decide
  have hsecond : parseDns swappedMessage.encode = [("b", .ofOctets 1 2 3 4, 9)] := by decide
  have hmem : ("a", IpAddr.ofOctets 1 2 3 4) ∈ namedAddresses sampleMessage.encode :=
    ⟨5, by simp [hfirst]⟩
  rw [← hswapped] at hmem
  obtain ⟨ttl, hmem⟩ := hmem
  rw [hsecond] at hmem
  simp at hmem

end SocketTrail.Pcap
