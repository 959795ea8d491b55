/-
# Names in a DNS message

`NameAt` reads a name as RFC 1035 writes it, labels and compression pointers up to
the root. `dnsName_iff` says that the decoder finds these names and no others, as
long as they take at most 128 labels and pointers, the root included.
-/

import SocketTrail.Pcap.Dns

namespace SocketTrail.Pcap

open SocketTrail.Foundation

/-! ## The text of a name -/

/-- Labels behind the first one, each with the dot in front of it. -/
def dottedText : List Bytes → String
  | [] => ""
  | label :: rest => "." ++ (fromUtf8Lossy label ++ dottedText rest)

/-- The labels of a name with dots between them. -/
def nameText : List Bytes → String
  | [] => ""
  | label :: rest => fromUtf8Lossy label ++ dottedText rest

/-- The length of a name in a message without compression. -/
def wireLength (labels : List Bytes) : ℕ := 1 + (labels.map fun label => 1 + label.length).sum

theorem wireLength_cons (label : Bytes) (rest : List Bytes) :
    wireLength (label :: rest) = 1 + label.length + wireLength rest := by
  rw [wireLength, List.map_cons, List.sum_cons, wireLength]
  omega

/-- Some text comes out of some bytes. -/
theorem isEmpty_append_fromUtf8Lossy (out : String) {label : Bytes} (h : label ≠ []) :
    (out ++ fromUtf8Lossy label).isEmpty = false := by
  obtain ⟨first, rest, rfl⟩ := List.exists_cons_of_ne_nil h
  have hsize : 0 < (utf8Char first rest).1.utf8Size := Char.utf8Size_pos _
  have htext : fromUtf8Lossy (first :: rest) = String.ofList ((utf8Char first rest).1 ::
      utf8Chars (utf8Char first rest).2 rest) := by
    rw [fromUtf8Lossy, utf8Chars]
  rw [String.isEmpty, String.utf8ByteSize_append, htext, String.ofList_cons,
    String.utf8ByteSize_append, String.utf8ByteSize_singleton, beq_eq_false_iff_ne]
  omega

/-- Add a label to the text of the labels in front of it. -/
def addLabel (out : String) (label : Bytes) : String :=
  (if out.isEmpty then out else out ++ ".") ++ fromUtf8Lossy label

/-- Labels are added to a text behind dots. -/
theorem foldl_addLabel {out : String} (hout : out.isEmpty = false) {labels : List Bytes}
    (hlabels : ∀ label ∈ labels, label ≠ []) :
    labels.foldl addLabel out = out ++ dottedText labels := by
  induction labels generalizing out with
  | nil => rw [List.foldl_nil, dottedText, String.append_empty]
  | cons label rest ih =>
      obtain ⟨hlabel, hrest⟩ := List.forall_mem_cons.mp hlabels
      have hadd : addLabel out label = out ++ "." ++ fromUtf8Lossy label := by
        rw [addLabel, hout]
        rfl
      rw [List.foldl_cons, hadd, ih (isEmpty_append_fromUtf8Lossy _ hlabel) hrest, dottedText,
        String.append_assoc, String.append_assoc]

/-- The decoder puts the text of a name together label by label. -/
theorem foldl_addLabel_empty {labels : List Bytes} (hlabels : ∀ label ∈ labels, label ≠ []) :
    labels.foldl addLabel "" = nameText labels := by
  cases labels with
  | nil => rfl
  | cons label rest =>
      obtain ⟨hlabel, hrest⟩ := List.forall_mem_cons.mp hlabels
      have hadd : addLabel "" label = fromUtf8Lossy label := String.empty_append
      have hsome := isEmpty_append_fromUtf8Lossy "" hlabel
      rw [String.empty_append] at hsome
      rw [List.foldl_cons, hadd, foldl_addLabel hsome hrest, nameText]

/-! ## Names -/

/-- The labels that stand at position `p`, how many labels and pointers it takes to
read them, the root included, and the position behind the name. -/
inductive NameAt (d : Bytes) : ℕ → List Bytes → ℕ → ℕ → Prop
  | root {p : ℕ} (here : d[p]? = some 0) : NameAt d p [] 1 (p + 1)
  | label {p steps after : ℕ} {label : Bytes} {rest : List Bytes} (nonempty : 1 ≤ label.length)
      (short : label.length ≤ 63) (here : d[p]? = some (UInt8.ofNat label.length))
      (bytes : getSlice d (p + 1) label.length = some label)
      (more : NameAt d (p + 1 + label.length) rest steps after) :
      NameAt d p (label :: rest) (steps + 1) after
  | pointer {p steps after : ℕ} {high low : UInt8} {labels : List Bytes}
      (here : d[p]? = some high) (mark : high.toNat / 64 = 3) (next : d[p + 1]? = some low)
      (target : NameAt d (high.toNat % 64 * 256 + low.toNat) labels steps after) :
      NameAt d p labels (steps + 1) (p + 2)

/-- A name of at most 255 bytes stands at position `p` and takes no more than `limit`
labels and pointers. -/
inductive IsName (d : Bytes) (limit p : ℕ) : String → ℕ → Prop
  | intro {labels : List Bytes} {steps after : ℕ} (name : NameAt d p labels steps after)
      (few : steps ≤ limit) (short : wireLength labels ≤ maxDnsName) :
      IsName d limit p (nameText labels) after

/-- The most labels and pointers that the decoder follows. -/
def maxDnsSteps : ℕ := 128

theorem NameAt.nonempty {d : Bytes} {p steps after : ℕ} {labels : List Bytes}
    (h : NameAt d p labels steps after) :
    ∀ label ∈ labels, 1 ≤ label.length ∧ label.length ≤ 63 := by
  induction h with
  | root => simp
  | label nonempty short _ _ _ ih => exact List.forall_mem_cons.mpr ⟨⟨nonempty, short⟩, ih⟩
  | pointer _ _ _ _ ih => exact ih

section Decoder

variable {d : Bytes}

/-- The decoder reads a name that stands there. -/
theorem dnsNameFrom_of_nameAt {p steps stop : ℕ} {labels : List Bytes}
    (h : NameAt d p labels steps stop) {guard : ℕ} (hguard : steps ≤ guard) (out : String)
    {wire : ℕ} (hwire : wire + wireLength labels ≤ maxDnsName + 1) (after : Option ℕ) :
    dnsNameFrom d guard p out wire after =
      some (labels.foldl addLabel out, after.getD stop) := by
  induction h generalizing guard out wire after with
  | root here =>
      obtain ⟨guard, rfl⟩ := Nat.exists_eq_add_of_le' hguard
      rw [dnsNameFrom, here]
      rfl
  | @label p steps stop label rest nonempty short here bytes more ih =>
      obtain ⟨guard, rfl⟩ := Nat.exists_eq_add_of_le' (Nat.le_of_add_left_le hguard)
      have hlen : (UInt8.ofNat label.length).toNat = label.length := by
        rw [UInt8.toNat_ofNat']
        omega
      rw [wireLength_cons] at hwire
      have hpos : 1 ≤ wireLength rest := Nat.le_add_right ..
      rw [dnsNameFrom, here]
      simp only [Option.bind_eq_bind, Option.bind_some, hlen, bytes]
      rw [if_neg (by omega), if_neg (by omega), if_neg (by omega), ih (by omega) _ (by omega)]
      rfl
  | @pointer p steps stop high low labels here mark next target ih =>
      obtain ⟨guard, rfl⟩ := Nat.exists_eq_add_of_le' (Nat.le_of_add_left_le hguard)
      rw [dnsNameFrom, here]
      simp only [Option.bind_eq_bind, Option.bind_some, mark, next]
      rw [if_neg (by omega), if_pos (by omega), if_neg (by simp), ih (by omega) _ hwire]
      cases after <;> rfl

/-- What the decoder reads is a name that stands there. -/
theorem nameAt_of_dnsNameFrom {guard p wire stop : ℕ} {out text : String} {after : Option ℕ}
    (hwire : wire ≤ maxDnsName) (h : dnsNameFrom d guard p out wire after = some (text, stop)) :
    ∃ labels steps stop', NameAt d p labels steps stop' ∧ steps ≤ guard ∧
      wire + wireLength labels ≤ maxDnsName + 1 ∧ text = labels.foldl addLabel out ∧
      stop = after.getD stop' := by
  induction guard generalizing p out wire after with
  | zero => contradiction
  | succ guard ih =>
      rw [dnsNameFrom] at h
      obtain ⟨len, hlen, h⟩ := Option.bind_eq_some_iff.mp h
      dsimp only at h
      split at h
      · rename_i hzero
        have hroot : d[p]? = some 0 := by
          rw [hlen]
          exact congrArg some (UInt8.toNat_inj.mp hzero)
        obtain ⟨rfl, rfl⟩ := Prod.mk.inj (Option.some.inj h)
        exact ⟨[], 1, p + 1, .root hroot, by omega, by simpa [wireLength] using hwire, rfl, rfl⟩
      · rename_i hpos
        split at h
        · rename_i hlong
          split at h
          · contradiction
          · rename_i hmark
            obtain ⟨low, hlow, h⟩ := Option.bind_eq_some_iff.mp h
            obtain ⟨labels, steps, stop', hname, hsteps, hlabels, htext, hstop⟩ := ih hwire h
            refine ⟨labels, steps + 1, p + 2, .pointer hlen (not_not.mp hmark) hlow hname, by omega,
              hlabels, htext, ?_⟩
            rw [hstop]
            cases after <;> rfl
        · rename_i hshort
          obtain ⟨label, hlabel, h⟩ := Option.bind_eq_some_iff.mp h
          split at h
          · contradiction
          · rename_i hlegal
            obtain ⟨hlength, -⟩ := drop_of_getSlice hlabel
            obtain ⟨labels, steps, stop', hname, hsteps, hlabels, htext, hstop⟩ :=
              ih (Nat.le_of_not_lt hlegal) h
            rw [← hlength] at hlabel hname
            have hhere : d[p]? = some (UInt8.ofNat label.length) := by
              rw [hlen, hlength, UInt8.ofNat_toNat]
            refine ⟨label :: labels, steps + 1, stop', .label (by omega) (by omega) hhere hlabel
              hname, by omega, ?_, htext, hstop⟩
            rw [wireLength_cons]
            omega

/-- The decoder finds exactly the names that take few enough labels and pointers. -/
theorem dnsName_iff {p stop : ℕ} {text : String} :
    dnsName d p = some (text, stop) ↔ IsName d maxDnsSteps p text stop := by
  constructor
  · intro h
    obtain ⟨labels, steps, stop', hname, hsteps, hlabels, rfl, rfl⟩ :=
      nameAt_of_dnsNameFrom (by decide) h
    have hnonempty : ∀ label ∈ labels, label ≠ [] := fun label hlabel =>
      List.ne_nil_of_length_pos (hname.nonempty label hlabel).1
    rw [foldl_addLabel_empty hnonempty]
    exact .intro hname hsteps (by omega)
  · rintro ⟨hname, hsteps, hshort⟩
    rename_i labels steps
    have hnonempty : ∀ label ∈ labels, label ≠ [] := fun label hlabel =>
      List.ne_nil_of_length_pos (hname.nonempty label hlabel).1
    have hwire : 1 + wireLength labels ≤ maxDnsName + 1 := by omega
    have hread := dnsNameFrom_of_nameAt hname hsteps "" hwire none
    rw [foldl_addLabel_empty hnonempty] at hread
    exact hread

end Decoder

/-! ## Names without compression -/

/-- Labels that make up a name of legal length. -/
structure DomainName where
  labels : List Bytes
  sizes : ∀ label ∈ labels, 1 ≤ label.length ∧ label.length ≤ 63
  short : wireLength labels ≤ maxDnsName

def encodeLabels : List Bytes → Bytes
  | [] => [0]
  | label :: rest => UInt8.ofNat label.length :: (label ++ encodeLabels rest)

namespace DomainName

def encode (n : DomainName) : Bytes := encodeLabels n.labels

def text (n : DomainName) : String := nameText n.labels

end DomainName

/-- Labels that are written out stand there. -/
theorem nameAt_encodeLabels {d rest : Bytes} {p : ℕ} {labels : List Bytes}
    (hsizes : ∀ label ∈ labels, 1 ≤ label.length ∧ label.length ≤ 63)
    (h : Stands d p (encodeLabels labels ++ rest)) :
    NameAt d p labels (labels.length + 1) (p + (encodeLabels labels).length) := by
  induction labels generalizing p with
  | nil => exact .root h.getElem?
  | cons label more ih =>
      obtain ⟨⟨hpos, hle⟩, hmore⟩ := List.forall_mem_cons.mp hsizes
      rw [encodeLabels, List.cons_append, List.append_assoc] at h
      have hname := ih hmore h.tail.skip
      have hstop : p + 1 + label.length + (encodeLabels more).length =
          p + (encodeLabels (label :: more)).length := by
        rw [encodeLabels, List.length_cons, List.length_append]
        omega
      rw [hstop] at hname
      exact .label hpos hle h.getElem? h.tail.getSlice hname

theorem two_mul_length_lt_wireLength {labels : List Bytes}
    (hsizes : ∀ label ∈ labels, 1 ≤ label.length ∧ label.length ≤ 63) :
    2 * labels.length + 1 ≤ wireLength labels := by
  induction labels with
  | nil => exact le_rfl
  | cons label rest ih =>
      obtain ⟨⟨hpos, -⟩, hrest⟩ := List.forall_mem_cons.mp hsizes
      have hmore := ih hrest
      rw [List.length_cons, wireLength_cons]
      omega

/-- A name ends inside the message. -/
theorem NameAt.after_le {d : Bytes} {p steps after : ℕ} {labels : List Bytes}
    (h : NameAt d p labels steps after) : after ≤ d.length := by
  induction h with
  | root here => exact (List.getElem?_eq_some_iff.mp here).1
  | label _ _ _ _ _ ih => exact ih
  | pointer _ _ next _ _ => exact (List.getElem?_eq_some_iff.mp next).1

/-- A name that is written out takes few enough labels. -/
theorem DomainName.isName (n : DomainName) {d rest : Bytes} {p : ℕ}
    (h : Stands d p (n.encode ++ rest)) : IsName d maxDnsSteps p n.text (p + n.encode.length) := by
  have hlength := two_mul_length_lt_wireLength n.sizes
  have hshort : wireLength n.labels ≤ 255 := n.short
  have hfew : n.labels.length + 1 ≤ 128 := by omega
  exact .intro (nameAt_encodeLabels n.sizes h) hfew n.short

/-- The labels of a name in a message can be written out. -/
theorem IsName.exists_domainName {d : Bytes} {limit p after : ℕ} {text : String}
    (h : IsName d limit p text after) : ∃ n : DomainName, n.text = text := by
  cases h with
  | intro name _ short => exact ⟨⟨_, name.nonempty, short⟩, rfl⟩

end SocketTrail.Pcap
