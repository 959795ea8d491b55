/-
# The records of a DNS response

`Response` relates a message to what it says: the names it asks for and its answer
records. The parser is a walk over these records, `parseDns_eq`; it ends in front of
a record of another class and behind the 64th address.
-/

import SocketTrail.Pcap.DnsName

namespace SocketTrail.Pcap

open SocketTrail.Foundation SocketTrail.Net

/-! ## Records -/

/-- What an answer record says: an address, another name for its owner, or
something that the parser does not use. The data of an alias may be no name. -/
inductive RecordContent
  | address (ip : IpAddr)
  | cname (target : Option String)
  | other
  deriving DecidableEq, Repr

structure DnsRecord where
  owner : String
  rclass : ℕ
  ttl : ℕ
  content : RecordContent
  deriving DecidableEq, Repr

namespace DnsRecord

/-- The record is of class IN. -/
def Internet (r : DnsRecord) : Prop := r.rclass = 1

instance (r : DnsRecord) : Decidable r.Internet := inferInstanceAs (Decidable (_ = _))

def IsAddress (r : DnsRecord) : Prop := ∃ ip, r.content = .address ip

instance (r : DnsRecord) : Decidable r.IsAddress :=
  match h : r.content with
  | .address ip => isTrue ⟨ip, h⟩
  | .cname _ => isFalse fun ⟨ip, hip⟩ => by rw [h] at hip; contradiction
  | .other => isFalse fun ⟨ip, hip⟩ => by rw [h] at hip; contradiction

def IsAlias (r : DnsRecord) : Prop := ∃ target, r.content = .cname target

instance (r : DnsRecord) : Decidable r.IsAlias :=
  match h : r.content with
  | .cname target => isTrue ⟨target, h⟩
  | .address _ => isFalse fun ⟨target, ht⟩ => by rw [h] at ht; contradiction
  | .other => isFalse fun ⟨target, ht⟩ => by rw [h] at ht; contradiction

end DnsRecord

/-- What the data of a record from position `p` on says: four bytes of type A,
sixteen of type AAAA, the name of a CNAME, or anything else. -/
def ContentAt (d : Bytes) (limit rtype p : ℕ) (rdata : Bytes) : RecordContent → Prop
  | .address ip =>
      (rtype = 1 ∧ rdata.length = 4 ∧ ip = .ofOctets (rdata.getD 0 0) (rdata.getD 1 0)
        (rdata.getD 2 0) (rdata.getD 3 0)) ∨
      (rtype = 28 ∧ rdata.length = 16 ∧ ip = .ofBytes rdata)
  | .cname target => rtype = 5 ∧ ∀ text, target = some text ↔ ∃ after, IsName d limit p text after
  | .other => ¬ (rtype = 1 ∧ rdata.length = 4) ∧ ¬ (rtype = 28 ∧ rdata.length = 16) ∧ rtype ≠ 5

/-- The record that stands from position `p` up to `next`. Its names take no more
than `limit` labels and pointers. -/
inductive RecordAt (d : Bytes) (limit p : ℕ) (r : DnsRecord) : ℕ → Prop
  | intro {after rtype rdlen : ℕ} {lifetime rdata : Bytes}
      (owner : IsName d limit p r.owner after)
      (type : be16 d after = some rtype)
      (internet : be16 d (after + 2) = some r.rclass)
      (ttl : getSlice d (after + 4) 4 = some lifetime)
      (ttlValue : r.ttl = beNat lifetime)
      (length : be16 d (after + 8) = some rdlen)
      (data : getSlice d (after + 10) rdlen = some rdata)
      (content : ContentAt d limit rtype (after + 10) rdata r.content) :
      RecordAt d limit p r (after + 10 + rdlen)

/-- Records one behind the other, from position `p` on. -/
inductive RecordsAt (d : Bytes) (limit : ℕ) : ℕ → List DnsRecord → ℕ → Prop
  | nil {p : ℕ} : RecordsAt d limit p [] p
  | cons {p next stop : ℕ} {r : DnsRecord} {rs : List DnsRecord} (first : RecordAt d limit p r next)
      (rest : RecordsAt d limit next rs stop) : RecordsAt d limit p (r :: rs) stop

/-- Questions one behind the other: a name each, and its type and class. -/
inductive QuestionsAt (d : Bytes) (limit : ℕ) : ℕ → List String → ℕ → Prop
  | nil {p : ℕ} : QuestionsAt d limit p [] p
  | cons {p after stop : ℕ} {name : String} {names : List String}
      (first : IsName d limit p name after) (rest : QuestionsAt d limit (after + 4) names stop) :
      QuestionsAt d limit p (name :: names) stop

/-- The message is a response without an error that is not cut off; its questions
are for these names, and `count` answers are to follow from position `p` on. -/
structure Accepted (d : Bytes) (limit : ℕ) (names : List String) (p count : ℕ) : Prop where
  header : 12 ≤ d.length
  flags : ∃ flags, be16 d 2 = some flags ∧ flags &&& 0x8000 ≠ 0 ∧ flags &&& 0x020f = 0
  asked : be16 d 4 = some names.length
  answered : be16 d 6 = some count
  questions : QuestionsAt d limit 12 names p

/-- A response that asks for these names and has these answers. -/
inductive Response (d : Bytes) (limit : ℕ) (names : List String) (rs : List DnsRecord) : Prop
  | intro {p stop : ℕ} (accepted : Accepted d limit names p rs.length)
      (answers : RecordsAt d limit p rs stop)

/-! ## The walk over the records -/

/-- Take a record of class IN in. -/
def Answers.see (q : Option String) (a : Answers) (r : DnsRecord) : Answers :=
  let chained := a.chain.any fun c => eqIgnoreAsciiCase c r.owner
  let ttl := if chained then min r.ttl a.chainTtl else r.ttl
  match r.content with
  | .address ip =>
      { a with addrs := a.addrs ++ [(if chained then q.getD r.owner else r.owner, ip, ttl)] }
  | .cname (some target) =>
      if a.chain.length < 16 ∧ chained then
        { a with chain := a.chain ++ [target], chainTtl := min a.chainTtl ttl }
      else a
  | .cname none => a
  | .other => a

/-- Take records in, up to the 64th address. -/
def Answers.gather (q : Option String) : List DnsRecord → Answers → Answers
  | [], a => a
  | r :: rs, a => if maxDnsAddrs ≤ a.addrs.length then a else gather q rs (a.see q r)

/-- What is known in front of the first record. -/
def Answers.start (q : Option String) : Answers :=
  { addrs := [], chain := q.toList, chainTtl := 2 ^ 32 - 1 }

/-- The walk changes the addresses by adding some. -/
theorem Answers.see_addrs (q : Option String) (a : Answers) (r : DnsRecord) :
    (∃ entry, (a.see q r).addrs = a.addrs ++ [entry] ∧ r.IsAddress) ∨
      ((a.see q r).addrs = a.addrs ∧ ¬ r.IsAddress) := by
  unfold Answers.see DnsRecord.IsAddress
  dsimp only
  split
  · rename_i ip hcontent
    exact .inl ⟨_, rfl, ip, hcontent⟩
  · rename_i target hcontent
    right
    constructor
    · split <;> rfl
    · rw [hcontent]
      simp
  · rename_i hcontent
    exact .inr ⟨rfl, by rw [hcontent]; simp⟩
  · rename_i hcontent
    exact .inr ⟨rfl, by rw [hcontent]; simp⟩

/-! ## The parser walks over the records -/

section Parser

variable {d : Bytes} {p : ℕ} {q : Option String}

/-- What some data says is determined. -/
theorem exists_contentAt (d : Bytes) (rtype p : ℕ) (rdata : Bytes) :
    ∃ content, ContentAt d maxDnsSteps rtype p rdata content := by
  by_cases hv4 : rtype = 1 ∧ rdata.length = 4
  · exact ⟨.address _, .inl ⟨hv4.1, hv4.2, rfl⟩⟩
  · by_cases hv6 : rtype = 28 ∧ rdata.length = 16
    · exact ⟨.address _, .inr ⟨hv6.1, hv6.2, rfl⟩⟩
    · by_cases halias : rtype = 5
      · refine ⟨.cname ((dnsName d p).map Prod.fst), halias, fun text => ?_⟩
        rw [Option.map_eq_some_iff]
        constructor
        · rintro ⟨⟨text, after⟩, hname, rfl⟩
          exact ⟨after, dnsName_iff.mp hname⟩
        · rintro ⟨after, hname⟩
          exact ⟨(text, after), dnsName_iff.mpr hname, rfl⟩
      · exact ⟨.other, hv4, hv6, halias⟩

/-- A record of class IN is taken in for what it says. -/
theorem record_of_recordAt {r : DnsRecord} {next : ℕ} (h : RecordAt d maxDnsSteps p r next)
    (a : Answers) : a.record d q p = if r.Internet then some (next, a.see q r) else none := by
  obtain ⟨howner, htype, hclass, hlifetime, httl, hlength, hdata, hcontent⟩ := h
  rename_i after rtype rdlen lifetime rdata
  have hname := dnsName_iff.mpr howner
  obtain ⟨hrdata, -⟩ := drop_of_getSlice hdata
  unfold Answers.record
  simp only [hname, htype, hclass, hlifetime, hlength, hdata, Option.bind_eq_bind, Option.bind_some,
    Option.map_some, Option.getD_some, ← httl, ne_eq, Option.some.injEq]
  by_cases hinternet : r.Internet
  · have hone : r.rclass = 1 := hinternet
    rw [if_neg (not_not.mpr hone), if_pos hinternet]
    unfold Answers.see
    dsimp only
    rcases hkind : r.content with ip | target | -
    · rw [hkind] at hcontent
      rcases hcontent with ⟨rfl, hfour, rfl⟩ | ⟨rfl, hsixteen, rfl⟩
      · rw [if_pos ⟨rfl, hrdata.symm.trans hfour⟩]
      · rw [if_neg (by simp), if_pos ⟨rfl, hrdata.symm.trans hsixteen⟩]
    · rw [hkind] at hcontent
      obtain ⟨rfl, htarget⟩ := hcontent
      rw [if_neg (by simp), if_neg (by simp)]
      cases target with
      | none =>
          dsimp only
          have hnone : dnsName d (after + 10) = none := by
            cases hread : dnsName d (after + 10) with
            | none => rfl
            | some pair =>
                exact absurd ((htarget pair.1).mpr ⟨pair.2, dnsName_iff.mp hread⟩) (by simp)
          rw [hnone]
          split <;> rfl
      | some text =>
          obtain ⟨stop, hstop⟩ := (htarget text).mp rfl
          rw [dnsName_iff.mpr hstop]
          simp only [true_and]
          split <;> rfl
    · rw [hkind] at hcontent
      obtain ⟨hv4, hv6, halias⟩ := hcontent
      rw [hrdata] at hv4 hv6
      rw [if_neg hv4, if_neg hv6, if_neg (by simp [halias])]
  · have hother : ¬ r.rclass = 1 := hinternet
    rw [if_pos hother, if_neg hinternet]

/-- A record that is taken in is one of class IN that stands there. -/
theorem recordAt_of_record {a a' : Answers} {next : ℕ} (h : a.record d q p = some (next, a')) :
    ∃ r : DnsRecord, RecordAt d maxDnsSteps p r next ∧ r.Internet ∧ a' = a.see q r := by
  have hread := h
  unfold Answers.record at h
  obtain ⟨⟨name, after⟩, hname, h⟩ := Option.bind_eq_some_iff.mp h
  obtain ⟨rtype, htype, h⟩ := Option.bind_eq_some_iff.mp h
  dsimp only at h htype
  split at h
  · contradiction
  · rename_i hclass
    obtain ⟨rdlen, hlength, h⟩ := Option.bind_eq_some_iff.mp h
    obtain ⟨rdata, hdata, -⟩ := Option.bind_eq_some_iff.mp h
    have hinside := length_of_be16 hlength
    have hlifetime : getSlice d (after + 4) 4 = some ((d.drop (after + 4)).take 4) :=
      if_pos (by omega)
    obtain ⟨content, hcontent⟩ := exists_contentAt d rtype (after + 10) rdata
    let r : DnsRecord :=
      { owner := name, rclass := 1, ttl := beNat ((d.drop (after + 4)).take 4), content := content }
    have hrecord : RecordAt d maxDnsSteps p r (after + 10 + rdlen) :=
      .intro (dnsName_iff.mp hname) htype (not_not.mp hclass) hlifetime rfl hlength hdata hcontent
    have hinternet : r.Internet := rfl
    have hsame := (record_of_recordAt (q := q) hrecord a).symm.trans hread
    rw [if_pos hinternet, Option.some.injEq, Prod.mk.injEq] at hsame
    exact ⟨r, hsame.1 ▸ hrecord, rfl, hsame.2.symm⟩

/-- The loop walks over the records that are there, up to the first one of another
class. -/
theorem records_of_recordsAt {rs : List DnsRecord} {stop : ℕ}
    (h : RecordsAt d maxDnsSteps p rs stop) (a : Answers) :
    Answers.records d q rs.length p a =
      Answers.gather q (rs.takeWhile fun r => r.Internet) a := by
  induction h generalizing a with
  | nil => rfl
  | @cons p next stop r rs first rest ih =>
      rw [List.length_cons, Answers.records, record_of_recordAt first]
      by_cases hinternet : r.Internet
      · have hkept : (r :: rs).takeWhile (fun r => r.Internet) =
            r :: rs.takeWhile fun r => r.Internet := by simp [hinternet]
        rw [hkept, if_pos hinternet, Answers.gather]
        dsimp only
        rw [ih]
      · have hstopped : (r :: rs).takeWhile (fun r => r.Internet) = [] := by simp [hinternet]
        rw [hstopped, if_neg hinternet, Answers.gather]
        split <;> rfl

/-- The loop walks over records that are there, whatever follows them. -/
theorem exists_recordsAt (count : ℕ) (a : Answers) :
    ∃ rs stop, RecordsAt d maxDnsSteps p rs stop ∧ rs.length ≤ count ∧
      (∀ r ∈ rs, r.Internet) ∧ Answers.records d q count p a = Answers.gather q rs a := by
  induction count generalizing p a with
  | zero => exact ⟨[], p, .nil, le_rfl, by simp, rfl⟩
  | succ count ih =>
      rw [Answers.records]
      split
      · exact ⟨[], p, .nil, Nat.zero_le _, by simp, rfl⟩
      · rename_i hfew
        split
        · exact ⟨[], p, .nil, Nat.zero_le _, by simp, rfl⟩
        · rename_i next a' hread
          obtain ⟨r, hrecord, hinternet, rfl⟩ := recordAt_of_record hread
          obtain ⟨rs, stop, hrest, hcount, hclass, hwalk⟩ := ih (p := next) (a.see q r)
          refine ⟨r :: rs, stop, .cons hrecord hrest, Nat.succ_le_succ hcount,
            List.forall_mem_cons.mpr ⟨hinternet, hclass⟩, ?_⟩
          rw [hwalk, Answers.gather, if_neg hfew]

/-- The questions are passed over. -/
theorem skipQuestions_of_questionsAt {names : List String} {stop : ℕ}
    (h : QuestionsAt d maxDnsSteps p names stop) (qname : Option String) :
    skipQuestions d names.length p qname = some (stop, qname.or names.head?) := by
  induction h generalizing qname with
  | nil => rw [List.length_nil, skipQuestions, List.head?_nil, Option.or_none]
  | @cons p after stop name names first rest ih =>
      rw [List.length_cons, skipQuestions, dnsName_iff.mpr first]
      simp only [Option.bind_eq_bind, Option.bind_some]
      rw [ih, Option.or_assoc, List.head?_cons, Option.some_or]

/-- The parser of an accepted response goes on to the answers. -/
theorem parseDns_of_accepted {names : List String} {count : ℕ}
    (h : Accepted d maxDnsSteps names p count) :
    parseDns d = (Answers.records d names.head? count p (.start names.head?)).addrs := by
  obtain ⟨flags, hflags, hresponse, herror⟩ := h.flags
  have hheader := h.header
  rw [parseDns, if_neg (by omega), hflags, h.asked, h.answered]
  simp only [Option.getD_some, hresponse, herror, ne_eq, not_true_eq_false, or_self, if_false]
  rw [skipQuestions_of_questionsAt h.questions none, Option.none_or]
  rfl

/-- The parser of a response walks over its records. -/
theorem parseDns_eq {names : List String} {rs : List DnsRecord}
    (h : Response d maxDnsSteps names rs) :
    parseDns d = (Answers.gather names.head? (rs.takeWhile fun r => r.Internet)
      (.start names.head?)).addrs := by
  obtain ⟨haccepted, hanswers⟩ := h
  rw [parseDns_of_accepted haccepted, records_of_recordsAt hanswers]

end Parser

end SocketTrail.Pcap
