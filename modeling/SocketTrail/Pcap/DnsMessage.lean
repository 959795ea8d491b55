/-
# DNS messages written out

A `DnsMessage` is written without compression. It is read back as the response that
it is, `DnsMessage.response`, so whatever answers a response may have, in whatever
order, there is a message that has them.
-/

import SocketTrail.Pcap.DnsRecords
import SocketTrail.Pcap.Frame

namespace SocketTrail.Pcap

open SocketTrail.Foundation SocketTrail.Net

/-! ## Answers -/

/-- The data of an answer. A CNAME may hold no name, and the data of another type any
bytes. -/
inductive AnswerData
  | v4 (addr : BitVec 32)
  | v6 (addr : BitVec 128)
  | cname (target : DomainName)
  | noName
  | other (type : UInt16) (unused : type ∉ [1, 28, 5]) (bytes : { b : Bytes // b.length < 65536 })

namespace AnswerData

def type : AnswerData → UInt16
  | v4 _ => 1
  | v6 _ => 28
  | cname _ => 5
  | noName => 5
  | other type _ _ => type

def bytes : AnswerData → Bytes
  | v4 addr => beBytes 4 addr.toNat
  | v6 addr => beBytes 16 addr.toNat
  | cname target => target.encode
  | noName => [0x80]
  | other _ _ bytes => bytes.1

def content : AnswerData → RecordContent
  | v4 addr => .address (.v4 addr)
  | v6 addr => .address (.v6 addr)
  | cname target => .cname (some target.text)
  | noName => .cname none
  | other .. => .other

end AnswerData

structure DnsAnswer where
  owner : DomainName
  rclass : UInt16
  ttl : UInt32
  data : AnswerData

namespace DnsAnswer

def encode (x : DnsAnswer) : Bytes :=
  x.owner.encode ++ (beBytes 2 x.data.type.toNat ++ (beBytes 2 x.rclass.toNat ++
    (beBytes 4 x.ttl.toNat ++ (beBytes 2 x.data.bytes.length ++ x.data.bytes))))

/-- The record that the answer is. -/
def record (x : DnsAnswer) : DnsRecord where
  owner := x.owner.text
  rclass := x.rclass.toNat
  ttl := x.ttl.toNat
  content := x.data.content

end DnsAnswer

/-- A name that is written out is as long as it says. -/
theorem length_encodeLabels (labels : List Bytes) :
    (encodeLabels labels).length = wireLength labels := by
  induction labels with
  | nil => rfl
  | cons label rest ih =>
      rw [encodeLabels, List.length_cons, List.length_append, ih, wireLength_cons]
      omega

theorem AnswerData.length_bytes_lt (x : AnswerData) : x.bytes.length < 65536 := by
  cases x with
  | v4 addr => exact (length_beBytes 4 addr.toNat).trans_lt (by decide)
  | v6 addr => exact (length_beBytes 16 addr.toNat).trans_lt (by decide)
  | cname target =>
      have hlength : target.encode.length ≤ 255 :=
        (length_encodeLabels target.labels).trans_le target.short
      exact hlength.trans_lt (by decide)
  | noName => decide
  | other type unused bytes => exact bytes.2

/-- There is one name at a position at most. -/
theorem IsName.unique {d : Bytes} {p after after' : ℕ} {text text' : String}
    (h : IsName d maxDnsSteps p text after) (h' : IsName d maxDnsSteps p text' after') :
    text = text' := by
  have hsame := (dnsName_iff.mpr h).symm.trans (dnsName_iff.mpr h')
  exact congrArg Prod.fst (Option.some.inj hsame)

/-- The data says what it is written for. -/
theorem AnswerData.contentAt (x : AnswerData) {d rest : Bytes} {p : ℕ}
    (h : Stands d p (x.bytes ++ rest)) :
    ContentAt d maxDnsSteps x.type.toNat p x.bytes x.content := by
  cases x with
  | v4 addr => exact .inl ⟨rfl, rfl, (ofOctets_beBytes addr).symm⟩
  | v6 addr => exact .inr ⟨rfl, rfl, (ofBytes_beBytes addr).symm⟩
  | cname target =>
      refine ⟨rfl, fun text => ?_⟩
      rw [Option.some.injEq]
      constructor
      · rintro rfl
        exact ⟨_, target.isName h⟩
      · rintro ⟨after, hname⟩
        exact (target.isName h).unique hname
  | noName =>
      refine ⟨rfl, fun text => iff_of_false (by simp) ?_⟩
      rintro ⟨after, ⟨hname, -, -⟩⟩
      have hmark : d[p]? = some 0x80 := h.getElem?
      cases hname with
      | root here =>
          rw [hmark] at here
          contradiction
      | label nonempty short here =>
          rw [hmark, Option.some.injEq] at here
          have hlength := congrArg UInt8.toNat here
          rw [UInt8.toNat_ofNat'] at hlength
          have hvalue : (0x80 : UInt8).toNat = 128 := rfl
          omega
      | pointer here mark =>
          rw [hmark] at here
          obtain rfl := Option.some.inj here
          contradiction
  | other type unused bytes =>
      have hnot (n : UInt16) (hn : n ∈ [1, 28, 5]) : type.toNat ≠ n.toNat := fun hsame =>
        unused (UInt16.toNat_inj.mp hsame ▸ hn)
      exact ⟨fun h => hnot 1 (by decide) h.1, fun h => hnot 28 (by decide) h.1, hnot 5 (by decide)⟩

/-- An answer that is written out is the record that stands there. -/
theorem DnsAnswer.recordAt (x : DnsAnswer) {d rest : Bytes} {p : ℕ}
    (h : Stands d p (x.encode ++ rest)) :
    RecordAt d maxDnsSteps p x.record (p + x.encode.length) := by
  have hlength : p + x.encode.length =
      p + x.owner.encode.length + 10 + x.data.bytes.length := by
    simp only [DnsAnswer.encode, List.length_append, length_beBytes]
    omega
  rw [DnsAnswer.encode] at h
  simp only [List.append_assoc] at h
  have htype := h.skip
  have hclass := htype.skip
  have httl := hclass.skip
  have hcount := httl.skip
  have hdata := hcount.skip
  simp only [length_beBytes, Nat.add_assoc] at hclass httl hcount hdata
  have hslice := httl.getSlice
  rw [length_beBytes] at hslice
  have hback : x.ttl.toNat = beNat (beBytes 4 x.ttl.toNat) :=
    (beNat_beBytes_of_lt x.ttl.toNat_lt).symm
  rw [hlength]
  exact .intro (x.owner.isName h) (htype.be16 x.data.type.toNat_lt) (hclass.be16 x.rclass.toNat_lt)
    hslice hback (hcount.be16 x.data.length_bytes_lt) hdata.getSlice (x.data.contentAt hdata)

/-- Every record of a response can be written out. -/
theorem RecordAt.exists_answer {d : Bytes} {limit p next : ℕ} {r : DnsRecord}
    (h : RecordAt d limit p r next) : ∃ x : DnsAnswer, x.record = r := by
  obtain ⟨howner, -, hclass, hlifetime, httl, -, -, hcontent⟩ := h
  rename_i after rtype rdlen lifetime rdata
  obtain ⟨owner, howner⟩ := howner.exists_domainName
  have hdata : ∃ data : AnswerData, data.content = r.content := by
    rcases hkind : r.content with ip | target | -
    · cases ip with
      | v4 addr => exact ⟨.v4 addr, rfl⟩
      | v6 addr => exact ⟨.v6 addr, rfl⟩
    · cases target with
      | none => exact ⟨.noName, rfl⟩
      | some text =>
          rw [hkind] at hcontent
          obtain ⟨stop, hname⟩ := (hcontent.2 text).mp rfl
          obtain ⟨target, rfl⟩ := hname.exists_domainName
          exact ⟨.cname target, rfl⟩
    · exact ⟨.other 16 (by decide) ⟨[], by decide⟩, rfl⟩
  obtain ⟨data, hdata⟩ := hdata
  have hclassLt : r.rclass < 65536 := (drop_of_be16 hclass).1
  have httlLt : r.ttl < 2 ^ 32 := by
    have hlt := beNat_lt lifetime
    rw [(drop_of_getSlice hlifetime).1] at hlt
    rw [httl]
    exact hlt
  refine ⟨⟨owner, UInt16.ofNat r.rclass, UInt32.ofNat r.ttl, data⟩, ?_⟩
  rw [DnsAnswer.record, howner, hdata]
  dsimp only
  rw [UInt16.toNat_ofNat', UInt32.toNat_ofNat', Nat.mod_eq_of_lt hclassLt, Nat.mod_eq_of_lt httlLt]

/-! ## Messages -/

/-- A response that asks for some names and has some answers. -/
structure DnsMessage where
  questions : List DomainName
  answers : List DnsAnswer
  few : questions.length < 65536 ∧ answers.length < 65536

def encodeQuestions : List DomainName → Bytes
  | [] => []
  | n :: rest => n.encode ++ (0 :: 1 :: 0 :: 1 :: encodeQuestions rest)

def encodeAnswers (answers : List DnsAnswer) : Bytes := (answers.map DnsAnswer.encode).flatten

def DnsMessage.encode (m : DnsMessage) : Bytes :=
  0 :: 0 :: (beBytes 2 0x8180 ++ (beBytes 2 m.questions.length ++ (beBytes 2 m.answers.length ++
    (0 :: 0 :: 0 :: 0 :: (encodeQuestions m.questions ++ encodeAnswers m.answers)))))

theorem questionsAt_encode {d rest : Bytes} {p : ℕ} {questions : List DomainName}
    (h : Stands d p (encodeQuestions questions ++ rest)) :
    QuestionsAt d maxDnsSteps p (questions.map DomainName.text)
      (p + (encodeQuestions questions).length) := by
  induction questions generalizing p with
  | nil => exact .nil
  | cons n more ih =>
      rw [encodeQuestions, List.append_assoc] at h
      have hmore := ih h.skip.tail.tail.tail.tail
      have hlength : p + n.encode.length + 1 + 1 + 1 + 1 + (encodeQuestions more).length =
          p + (encodeQuestions (n :: more)).length := by
        rw [encodeQuestions, List.length_append]
        simp only [List.length_cons]
        omega
      rw [hlength] at hmore
      exact .cons (n.isName h) hmore

theorem recordsAt_encode {d rest : Bytes} {p : ℕ} {answers : List DnsAnswer}
    (h : Stands d p (encodeAnswers answers ++ rest)) :
    RecordsAt d maxDnsSteps p (answers.map DnsAnswer.record)
      (p + (encodeAnswers answers).length) := by
  induction answers generalizing p with
  | nil => exact .nil
  | cons x more ih =>
      have hcons : encodeAnswers (x :: more) = x.encode ++ encodeAnswers more := rfl
      rw [hcons, List.append_assoc] at h
      have hmore := ih h.skip
      rw [hcons, List.length_append, ← Nat.add_assoc]
      exact .cons (x.recordAt h) hmore

/-- A message that is written out is the response that it is. -/
theorem DnsMessage.response (m : DnsMessage) :
    Response m.encode maxDnsSteps (m.questions.map DomainName.text)
      (m.answers.map DnsAnswer.record) := by
  have hflags := (Stands.start m.encode).tail.tail
  have hasked := hflags.skip
  have hanswered := hasked.skip
  have hquestions := hanswered.skip.tail.tail.tail.tail
  have hanswers := hquestions.skip
  rw [← List.append_nil (encodeAnswers m.answers)] at hanswers
  refine .intro (p := 12 + (encodeQuestions m.questions).length) ?_ (recordsAt_encode hanswers)
  have hlength := hquestions.length
  constructor
  · rw [hlength]
    exact Nat.le_add_right _ _
  · exact ⟨0x8180, hflags.be16 (by decide), by decide, by decide⟩
  · rw [List.length_map]
    exact hasked.be16 m.few.1
  · rw [List.length_map]
    exact hanswered.be16 m.few.2
  · exact questionsAt_encode hquestions

end SocketTrail.Pcap
