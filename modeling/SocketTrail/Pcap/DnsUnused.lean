/-
# Records that are not used

A record of a type that the parser does not use is passed over. A record of another
class ends the walk, and with it every later address is lost:
`unused_record_ignored_iff` says when a record that is put in affects only itself.
-/

import SocketTrail.Pcap.DnsOrder

namespace SocketTrail.Pcap

open SocketTrail.Foundation SocketTrail.Net

/-- The parser has no use for the record: it is of another class than IN, or it is
neither an address nor an alias. -/
def DnsRecord.Unused (r : DnsRecord) : Prop := ¬ r.Internet ∨ r.content = .other

/-! ## Walks -/

section Walk

variable {q : Option String} {a : Answers} {front behind : List DnsRecord} {x : DnsRecord}

theorem gather_full (rs : List DnsRecord) (hfull : maxDnsAddrs ≤ a.addrs.length) :
    Answers.gather q rs a = a := by
  cases rs with
  | nil => rfl
  | cons r rs => rw [Answers.gather, if_pos hfull]

theorem gather_append (front behind : List DnsRecord) (a : Answers) :
    Answers.gather q (front ++ behind) a =
      Answers.gather q behind (Answers.gather q front a) := by
  induction front generalizing a with
  | nil => rfl
  | cons r front ih =>
      rw [List.cons_append, Answers.gather, Answers.gather]
      split
      · rename_i hfull
        exact (gather_full behind hfull).symm
      · exact ih _

/-- A walk that does not end with 64 addresses takes all records in. -/
theorem gather_eq_foldl_of_lt {rs : List DnsRecord}
    (h : (Answers.gather q rs a).addrs.length < maxDnsAddrs) :
    Answers.gather q rs a = rs.foldl (Answers.see q) a := by
  induction rs generalizing a with
  | nil => rfl
  | cons r rs ih =>
      rw [Answers.gather] at h ⊢
      split at h
      · omega
      · rename_i hroom
        rw [if_neg hroom, List.foldl_cons]
        exact ih h

theorem length_foldl_see (q : Option String) (rs : List DnsRecord) (a : Answers) :
    (rs.foldl (Answers.see q) a).addrs.length =
      a.addrs.length + rs.countP (fun r => r.IsAddress) := by
  induction rs generalizing a with
  | nil => rfl
  | cons r rs ih =>
      rw [List.foldl_cons, ih, List.countP_cons]
      rcases a.see_addrs q r with ⟨entry, hentry, haddress⟩ | ⟨hsame, haddress⟩
      · rw [if_pos (decide_eq_true haddress), hentry, List.length_append, List.length_singleton]
        omega
      · rw [if_neg (by simpa using haddress), hsame]
        omega

/-- A record that says nothing of use is passed over. -/
theorem gather_cons_other (hother : x.content = .other) (rs : List DnsRecord) :
    Answers.gather q (x :: rs) a = Answers.gather q rs a := by
  have hsame : a.see q x = a := by rw [Answers.see, hother]
  rw [Answers.gather, hsame]
  split
  · rename_i hfull
    exact (gather_full rs hfull).symm
  · rfl

end Walk

/-! ## The result -/

/-- A record of another class hides what is behind it. -/
theorem takeWhile_internet_append {front : List DnsRecord} (h : ∃ r ∈ front, ¬ r.Internet)
    (behind : List DnsRecord) :
    (front ++ behind).takeWhile (fun r => r.Internet) = front.takeWhile fun r => r.Internet := by
  rw [List.takeWhile_append, if_neg]
  intro hlength
  have hall := (List.takeWhile_prefix fun r : DnsRecord => decide r.Internet).eq_of_length hlength
  obtain ⟨r, hr, hother⟩ := h
  exact hother (of_decide_eq_true (List.takeWhile_eq_self_iff.mp hall r hr))

/-- **A record that is not used affects only itself exactly if** it is of class IN, or
a record of another class stands in front of it already, or no address of class IN
follows before the next record of another class. -/
theorem unused_record_ignored_iff {d d' : Bytes} {names : List String}
    {front behind : List DnsRecord} {x : DnsRecord}
    (h : Response d maxDnsSteps names (front ++ behind))
    (h' : Response d' maxDnsSteps names (front ++ x :: behind)) (hunused : x.Unused)
    (hfew : (parseDns d).length < 64) :
    parseDns d' = parseDns d ↔ x.Internet ∨ (∃ r ∈ front, ¬ r.Internet) ∨
      ∀ r ∈ behind.takeWhile (fun r => r.Internet), ¬ r.IsAddress := by
  rw [parseDns_eq h] at hfew ⊢
  rw [parseDns_eq h']
  by_cases hfront : ∃ r ∈ front, ¬ r.Internet
  · rw [takeWhile_internet_append hfront, takeWhile_internet_append hfront]
    exact iff_of_true rfl (.inr (.inl hfront))
  · have hall : ∀ r ∈ front, decide r.Internet = true := fun r hr =>
      decide_eq_true (not_not.mp fun hother => hfront ⟨r, hr, hother⟩)
    rw [List.takeWhile_append_of_pos hall] at hfew ⊢
    rw [List.takeWhile_append_of_pos hall]
    by_cases hinternet : x.Internet
    · have hother : x.content = .other := hunused.resolve_left (not_not.mpr hinternet)
      have hkept : (x :: behind).takeWhile (fun r => r.Internet) =
          x :: behind.takeWhile fun r => r.Internet := by simp [hinternet]
      rw [hkept, gather_append, gather_append, gather_cons_other hother]
      exact iff_of_true rfl (.inl hinternet)
    · have hstopped : (x :: behind).takeWhile (fun r => r.Internet) = [] := by simp [hinternet]
      rw [hstopped, List.append_nil, or_iff_right hinternet, or_iff_right hfront]
      rw [gather_append] at hfew ⊢
      have hwalk := gather_eq_foldl_of_lt hfew
      have hlength := length_foldl_see names.head? (behind.takeWhile fun r => r.Internet)
        (Answers.gather names.head? front (.start names.head?))
      rw [hwalk]
      constructor
      · intro hsame r hr haddress
        rw [← hsame] at hlength
        have hnone := List.countP_eq_zero.mp (Nat.left_eq_add.mp hlength) r hr
        exact hnone (decide_eq_true haddress)
      · intro hnone
        have hcount : (behind.takeWhile fun r => r.Internet).countP (fun r => r.IsAddress) = 0 :=
          List.countP_eq_zero.mpr fun r hr => by simpa using hnone r hr
        exact (foldl_see_addrs hcount _).symm

/-- The question for `a`, and its address. -/
def directMessage : DnsMessage where
  questions := [letterName 0x61]
  answers := [{ owner := letterName 0x61, rclass := 1, ttl := 9, data := .v4 0x01020304 }]
  few := by decide

/-- A pointer record of the given class for the name `b`. -/
def unusedAnswer (rclass : UInt16) : DnsAnswer where
  owner := letterName 0x62
  rclass := rclass
  ttl := 9
  data := .other 12 (by decide) ⟨[0], by decide⟩

/-- The response for `a` with such a record in front of the address. -/
def longerMessage (rclass : UInt16) : DnsMessage where
  questions := directMessage.questions
  answers := unusedAnswer rclass :: directMessage.answers
  few := ⟨by decide, Nat.lt_of_le_of_lt (m := 2) le_rfl (by decide)⟩

/-- A record of class IN that is not used changes nothing. -/
theorem unused_record_ignored_iff_sample :
    parseDns (longerMessage 1).encode = parseDns directMessage.encode :=
  (@unused_record_ignored_iff _ _ _ [] _ _ directMessage.response (longerMessage 1).response
    (.inr rfl) (by decide)).mpr (.inl rfl)

/-- A record of multicast DNS with the highest bit of the class set hides the
address behind it. -/
theorem not_unused_record_ignored : ¬ ∀ (d d' : Bytes) (names : List String)
    (front behind : List DnsRecord) (x : DnsRecord),
    Response d maxDnsSteps names (front ++ behind) →
      Response d' maxDnsSteps names (front ++ x :: behind) → x.Unused →
      (parseDns d).length < 64 → parseDns d' = parseDns d := by
  intro hall
  have hsame := hall _ _ _ [] _ (unusedAnswer 0x8001).record directMessage.response
    (longerMessage 0x8001).response (.inr rfl) (by decide)
  have hfirst : parseDns directMessage.encode = [("a", .ofOctets 1 2 3 4, 9)] := by decide
  have hsecond : parseDns (longerMessage 0x8001).encode = [] := by decide
  rw [hfirst, hsecond] at hsame
  contradiction

end SocketTrail.Pcap
