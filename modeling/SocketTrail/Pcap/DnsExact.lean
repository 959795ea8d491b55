/-
# Which DNS names are unreadable

`Path` follows the encoding of a name label by label and pointer by pointer, whether
or not it ever ends. `Unreadable` says what it may meet that makes the bytes no name: a
byte of no meaning or of none at all, a loop, or labels of more than 255 bytes.
`dnsName_exact` says that the decoder reads the names and nothing that is unreadable,
and that besides it gives up only names of too many labels and pointers.
-/

import SocketTrail.Pcap.DnsName

namespace SocketTrail.Pcap

open SocketTrail.Foundation

/-! ## The text of a name -/

/-- The text of a label of ASCII bytes. -/
def asciiText (label : Bytes) : String := String.ofList (label.map fun b => Char.ofNat b.toNat)

theorem utf8Chars_ascii {label : Bytes} (h : ∀ b ∈ label, b.toNat < 128) :
    utf8Chars 0 label = label.map fun b => Char.ofNat b.toNat := by
  induction label with
  | nil => rfl
  | cons b rest ih =>
      obtain ⟨hb, hrest⟩ := List.forall_mem_cons.mp h
      have hchar : utf8Char b rest = (Char.ofNat b.toNat, 0) :=
        if_pos (UInt8.lt_iff_toNat_lt.mpr hb)
      rw [utf8Chars, hchar, List.map_cons, ih hrest]

theorem fromUtf8Lossy_ascii {label : Bytes} (h : ∀ b ∈ label, b.toNat < 128) :
    fromUtf8Lossy label = asciiText label := by
  rw [fromUtf8Lossy, utf8Chars_ascii h, asciiText]

theorem dottedText_eq_intercalate (first : String) (labels : List Bytes) :
    first ++ dottedText labels = String.intercalate "." (first :: labels.map fromUtf8Lossy) := by
  induction labels generalizing first with
  | nil => rw [dottedText, List.map_nil, String.intercalate_singleton, String.append_empty]
  | cons label rest ih =>
      rw [dottedText, ih, List.map_cons, String.intercalate_cons_cons, String.append_assoc]

/-- The text of a name is that of its labels with dots between them. -/
theorem nameText_eq_intercalate (labels : List Bytes) :
    nameText labels = String.intercalate "." (labels.map fromUtf8Lossy) := by
  cases labels with
  | nil => exact String.intercalate_nil.symm
  | cons label rest => exact dottedText_eq_intercalate _ _

/-! ## Following an encoding -/

/-- One label or one pointer takes a reader on from position `p`: the label passed, if
it is one, and the next position. -/
inductive Hop (d : Bytes) : ℕ → List Bytes → ℕ → Prop
  | label {p : ℕ} {label : Bytes} (nonempty : 1 ≤ label.length) (short : label.length ≤ 63)
      (here : d[p]? = some (UInt8.ofNat label.length))
      (bytes : getSlice d (p + 1) label.length = some label) :
      Hop d p [label] (p + 1 + label.length)
  | pointer {p : ℕ} {high low : UInt8} (here : d[p]? = some high) (mark : high.toNat / 64 = 3)
      (next : d[p + 1]? = some low) : Hop d p [] (high.toNat % 64 * 256 + low.toNat)

/-- Labels and pointers lead from one position to another, past these labels. -/
inductive Path (d : Bytes) : ℕ → List Bytes → ℕ → Prop
  | stay {p : ℕ} : Path d p [] p
  | hop {p q r : ℕ} {first rest : List Bytes} (step : Hop d p first q)
      (more : Path d q rest r) : Path d p (first ++ rest) r

/-- Nothing can be read at a position: the byte is missing or its label type is
reserved, or its label or its pointer is cut off by the end of the message. -/
inductive Broken (d : Bytes) (p : ℕ) : Prop
  | missing (here : d[p]? = none)
  | reserved {b : UInt8} (here : d[p]? = some b) (kind : b.toNat / 64 = 1 ∨ b.toNat / 64 = 2)
  | cutLabel {b : UInt8} (here : d[p]? = some b) (short : b.toNat ≤ 63)
      (outside : d.length < p + 1 + b.toNat)
  | cutPointer {b : UInt8} (here : d[p]? = some b) (mark : b.toNat / 64 = 3)
      (next : d[p + 1]? = none)

/-- At least one label or pointer leads from one position to another. -/
def GoesOn (d : Bytes) (p r : ℕ) : Prop :=
  ∃ first q rest, Hop d p first q ∧ Path d q rest r

/-- Labels and pointers lead from a position back to itself. -/
def Loops (d : Bytes) (p : ℕ) : Prop := GoesOn d p p

/-- The encoding at position `p` comes to a position where nothing can be read, to a
loop, or past labels that are too long for a name. -/
def Unreadable (d : Bytes) (p : ℕ) : Prop :=
  ∃ labels q, Path d p labels q ∧ (Broken d q ∨ Loops d q ∨ maxDnsName < wireLength labels)

/-- A pointer to itself is unreadable. -/
example : Unreadable [0xC0, 0x00] 0 :=
  have itself : Hop [0xC0, 0x00] 0 [] 0 := @Hop.pointer _ 0 0xC0 0x00 rfl rfl rfl
  ⟨[], 0, .stay, .inr (.inl ⟨[], 0, [], itself, .stay⟩)⟩

section Following

variable {d : Bytes} {p q steps after : ℕ} {labels passed : List Bytes}

/-- The length byte of a label. -/
theorem toNat_labelByte {label : Bytes} (h : label.length ≤ 63) :
    (UInt8.ofNat label.length).toNat = label.length := by
  rw [UInt8.toNat_ofNat']
  omega

/-- A name goes on behind its first label or pointer. -/
theorem NameAt.hop (h : NameAt d p labels steps after) (hstep : Hop d p passed q) :
    ∃ rest steps' after', NameAt d q rest steps' after' ∧ labels = passed ++ rest ∧
      steps = steps' + 1 := by
  cases h with
  | root here =>
      cases hstep with
      | label nonempty short here' bytes =>
          have hbyte := congrArg UInt8.toNat (Option.some.inj (here.symm.trans here'))
          rw [toNat_labelByte short] at hbyte
          change 0 = _ at hbyte
          omega
      | pointer here' mark next =>
          rw [← Option.some.inj (here.symm.trans here')] at mark
          contradiction
  | label nonempty short here bytes more =>
      cases hstep with
      | label nonempty' short' here' bytes' =>
          have hbyte := congrArg UInt8.toNat (Option.some.inj (here.symm.trans here'))
          rw [toNat_labelByte short, toNat_labelByte short'] at hbyte
          rw [← hbyte] at bytes' ⊢
          obtain rfl := Option.some.inj (bytes.symm.trans bytes')
          exact ⟨_, _, _, more, rfl, rfl⟩
      | pointer here' mark next =>
          rw [← Option.some.inj (here.symm.trans here'), toNat_labelByte short] at mark
          omega
  | pointer here mark next target =>
      cases hstep with
      | label nonempty short here' bytes =>
          rw [Option.some.inj (here.symm.trans here'), toNat_labelByte short] at mark
          omega
      | pointer here' mark' next' =>
          obtain rfl := Option.some.inj (here.symm.trans here')
          obtain rfl := Option.some.inj (next.symm.trans next')
          exact ⟨_, _, _, target, rfl, rfl⟩

/-- A name goes on wherever its labels and pointers lead. -/
theorem NameAt.along (hpath : Path d p passed q) (h : NameAt d p labels steps after) :
    ∃ rest steps' after', NameAt d q rest steps' after' ∧ labels = passed ++ rest ∧
      steps' ≤ steps := by
  induction hpath generalizing labels steps after with
  | stay => exact ⟨_, _, _, h, rfl, le_rfl⟩
  | hop step _ ih =>
      obtain ⟨behind, stepsBehind, afterBehind, hbehind, rfl, rfl⟩ := h.hop step
      obtain ⟨rest, steps', after', hrest, rfl, hle⟩ := ih hbehind
      exact ⟨rest, steps', after', hrest, (List.append_assoc ..).symm, by omega⟩

/-- What is broken about a byte that is there. -/
theorem Broken.of_byte {b : UInt8} (h : Broken d p) (here : d[p]? = some b) :
    (b.toNat / 64 = 1 ∨ b.toNat / 64 = 2) ∨
      (b.toNat ≤ 63 ∧ d.length < p + 1 + b.toNat) ∨ (b.toNat / 64 = 3 ∧ d[p + 1]? = none) := by
  cases h with
  | missing here' => exact absurd (here.symm.trans here') (by simp)
  | reserved here' kind =>
      obtain rfl := Option.some.inj (here.symm.trans here')
      exact .inl kind
  | cutLabel here' short outside =>
      obtain rfl := Option.some.inj (here.symm.trans here')
      exact .inr (.inl ⟨short, outside⟩)
  | cutPointer here' mark next =>
      obtain rfl := Option.some.inj (here.symm.trans here')
      exact .inr (.inr ⟨mark, next⟩)

theorem NameAt.not_broken (h : NameAt d p labels steps after) : ¬ Broken d p := by
  intro hbroken
  cases h with
  | root here =>
      have hinside := (List.getElem?_eq_some_iff.mp here).1
      have hbyte := hbroken.of_byte here
      rw [UInt8.toNat_zero] at hbyte
      omega
  | label nonempty short here bytes more =>
      have hinside := le_of_getSlice bytes
      have hbyte := hbroken.of_byte here
      rw [toNat_labelByte short] at hbyte
      omega
  | pointer here mark next target =>
      rcases hbroken.of_byte here with hkind | ⟨hshort, -⟩ | ⟨-, hnext⟩
      · omega
      · omega
      · exact absurd (next.symm.trans hnext) (by simp)

/-- A name does not lead back to where it begins: each label and pointer leaves fewer
to come. -/
theorem NameAt.not_loops (h : NameAt d p labels steps after) : ¬ Loops d p := by
  rintro ⟨first, q, rest, hstep, hback⟩
  induction steps using Nat.strong_induction_on generalizing labels after with
  | h steps ih =>
      obtain ⟨behind, stepsBehind, afterBehind, hbehind, -, rfl⟩ := h.hop hstep
      obtain ⟨again, stepsAgain, afterAgain, hagain, -, hle⟩ := hbehind.along hback
      exact ih stepsAgain (by omega) hagain

theorem wireLength_le_append (first rest : List Bytes) :
    wireLength first ≤ wireLength (first ++ rest) := by
  rw [wireLength, wireLength, List.map_append, List.sum_append]
  omega

/-- Bytes that are unreadable are no name of legal length. -/
theorem Unreadable.not_nameAt (h : Unreadable d p) (hshort : wireLength labels ≤ maxDnsName) :
    ¬ NameAt d p labels steps after := by
  intro hname
  obtain ⟨passed, q, hpath, hbad⟩ := h
  obtain ⟨rest, steps', after', hrest, rfl, -⟩ := hname.along hpath
  rcases hbad with hbroken | hloops | hlong
  · exact hrest.not_broken hbroken
  · exact hrest.not_loops hloops
  · have := wireLength_le_append passed rest
    omega

/-! ## Every encoding is a name or is unreadable -/

theorem Hop.inside (h : Hop d p passed q) : p < d.length := by
  cases h with
  | label _ _ here _ => exact (List.getElem?_eq_some_iff.mp here).1
  | pointer here _ _ => exact (List.getElem?_eq_some_iff.mp here).1

theorem Path.snoc {r : ℕ} {last : List Bytes} (h : Path d p passed q) (hstep : Hop d q last r) :
    Path d p (passed ++ last) r := by
  induction h with
  | stay => simpa using Path.hop hstep .stay
  | hop step _ ih =>
      rw [List.append_assoc]
      exact .hop step (ih hstep)

theorem GoesOn.snoc {v : ℕ} (h : GoesOn d v p) (hstep : Hop d p passed q) : GoesOn d v q := by
  obtain ⟨first, next, rest, hfirst, hrest⟩ := h
  exact ⟨first, next, _, hfirst, hrest.snoc hstep⟩

/-- A label or a pointer in front of a name makes a name. -/
theorem Hop.nameAt (h : Hop d p passed q) (hname : NameAt d q labels steps after) :
    ∃ labels' steps' after', NameAt d p labels' steps' after' := by
  cases h with
  | label nonempty short here bytes => exact ⟨_, _, _, .label nonempty short here bytes hname⟩
  | pointer here mark next => exact ⟨_, _, _, .pointer here mark next hname⟩

/-- What a position holds: the root, a label or a pointer, or nothing that can be read. -/
theorem root_or_hop_or_broken (d : Bytes) (p : ℕ) :
    d[p]? = some 0 ∨ (∃ passed q, Hop d p passed q) ∨ Broken d p := by
  cases here : d[p]? with
  | none => exact .inr (.inr (.missing here))
  | some b =>
      have hbyte := b.toNat_lt
      obtain hzero | hlabel | hreserved | hpointer :
          b.toNat = 0 ∨ (1 ≤ b.toNat ∧ b.toNat ≤ 63) ∨
            (b.toNat / 64 = 1 ∨ b.toNat / 64 = 2) ∨ b.toNat / 64 = 3 := by omega
      · left
        rw [← UInt8.ofNat_toNat (x := b), hzero]
        rfl
      · right
        by_cases hinside : p + 1 + b.toNat ≤ d.length
        · have hslice : getSlice d (p + 1) b.toNat = some ((d.drop (p + 1)).take b.toNat) :=
            if_pos hinside
          have hlength := (drop_of_getSlice hslice).1
          generalize (d.drop (p + 1)).take b.toNat = label at hslice hlength
          rw [← hlength] at hslice
          have hhere : d[p]? = some (UInt8.ofNat label.length) := by
            rw [here, hlength, UInt8.ofNat_toNat]
          exact .inl ⟨_, _, .label (by omega) (by omega) hhere hslice⟩
        · exact .inr (.cutLabel here hlabel.2 (by omega))
      · exact .inr (.inr (.reserved here hreserved))
      · right
        cases next : d[p + 1]? with
        | none => exact .inr (.cutPointer here hpointer next)
        | some low => exact .inl ⟨_, _, .pointer here hpointer next⟩

/-- Follow an encoding from `p` on, when `met` are positions on the way to `p`. Each new
position leaves fewer that were not met. -/
theorem nameAt_or_stuck_of_met {met : Finset ℕ} (hmet : ∀ v ∈ met, v < d.length ∧ GoesOn d v p) :
    (∃ labels steps after, NameAt d p labels steps after) ∨
      ∃ passed q, Path d p passed q ∧ (Broken d q ∨ Loops d q) := by
  induction hleft : d.length - met.card using Nat.strong_induction_on generalizing p met with
  | h left ih =>
      rcases root_or_hop_or_broken d p with hroot | ⟨passed, q, hstep⟩ | hbroken
      · exact .inl ⟨_, _, _, .root hroot⟩
      · by_cases hagain : p ∈ met
        · exact .inr ⟨[], p, .stay, .inr (hmet p hagain).2⟩
        · have hmet' : ∀ v ∈ insert p met, v < d.length ∧ GoesOn d v q := by
            intro v hv
            rcases Finset.mem_insert.mp hv with rfl | hv
            · exact ⟨hstep.inside, _, _, _, hstep, .stay⟩
            · exact ⟨(hmet v hv).1, (hmet v hv).2.snoc hstep⟩
          have hcard : (insert p met).card ≤ d.length := by
            rw [← Finset.card_range d.length]
            exact Finset.card_le_card fun v hv => Finset.mem_range.mpr (hmet' v hv).1
          rw [Finset.card_insert_of_notMem hagain] at hcard
          have hfewer : d.length - (insert p met).card < left := by
            rw [Finset.card_insert_of_notMem hagain]
            omega
          rcases ih _ hfewer hmet' rfl with ⟨labels, steps, after, hname⟩ | ⟨rest, r, hrest, hbad⟩
          · exact .inl (hstep.nameAt hname)
          · exact .inr ⟨_, r, .hop hstep hrest, hbad⟩
      · exact .inr ⟨[], p, .stay, .inl hbroken⟩

/-- Following an encoding finds its root, unless it gets stuck or runs in a circle. -/
theorem nameAt_or_stuck (d : Bytes) (p : ℕ) :
    (∃ labels steps after, NameAt d p labels steps after) ∨
      ∃ passed q, Path d p passed q ∧ (Broken d q ∨ Loops d q) :=
  @nameAt_or_stuck_of_met d p ∅ (by simp)

/-- A name leads past all of its labels. -/
theorem NameAt.exists_path (h : NameAt d p labels steps after) : ∃ q, Path d p labels q := by
  induction h with
  | root => exact ⟨_, .stay⟩
  | label nonempty short here bytes _ ih =>
      obtain ⟨q, hpath⟩ := ih
      exact ⟨q, .hop (.label nonempty short here bytes) hpath⟩
  | pointer here mark next _ ih =>
      obtain ⟨q, hpath⟩ := ih
      exact ⟨q, .hop (.pointer here mark next) hpath⟩

/-- The labels of a name and the number of its labels and pointers are those of its
position. -/
theorem NameAt.unique {labels' : List Bytes} {steps' after' : ℕ}
    (h : NameAt d p labels steps after) (h' : NameAt d p labels' steps' after') :
    labels = labels' ∧ steps = steps' := by
  induction h generalizing labels' steps' after' with
  | root here =>
      cases h' with
      | root => exact ⟨rfl, rfl⟩
      | label nonempty short here' bytes more =>
          have hname : NameAt d _ [] 1 _ := .root here
          obtain ⟨_, _, _, -, habsurd, -⟩ := hname.hop (.label nonempty short here' bytes)
          exact absurd habsurd (by simp)
      | pointer here' mark next target =>
          rw [← Option.some.inj (here.symm.trans here')] at mark
          contradiction
  | label nonempty short here bytes _ ih =>
      obtain ⟨rest, stepsRest, afterRest, hrest, rfl, rfl⟩ :=
        h'.hop (.label nonempty short here bytes)
      obtain ⟨rfl, rfl⟩ := ih hrest
      exact ⟨rfl, rfl⟩
  | pointer here mark next _ ih =>
      obtain ⟨rest, stepsRest, afterRest, hrest, rfl, rfl⟩ := h'.hop (.pointer here mark next)
      obtain ⟨rfl, rfl⟩ := ih hrest
      exact ⟨rfl, rfl⟩

end Following

/-! ## The decoder -/

theorem dnsName_eq_none_of_unreadable {d : Bytes} {p : ℕ} (h : Unreadable d p) :
    dnsName d p = none := by
  rw [Option.eq_none_iff_forall_not_mem]
  rintro ⟨text, stop⟩ hread
  obtain ⟨hname, -, hshort⟩ := dnsName_iff.mp hread
  exact h.not_nameAt hshort hname

/-- The decoder gives up what is unreadable, and names of more than 127 labels and
pointers. -/
theorem dnsName_eq_none_iff {d : Bytes} {p : ℕ} :
    dnsName d p = none ↔ Unreadable d p ∨
      ∃ labels steps after, NameAt d p labels steps after ∧ maxDnsSteps < steps := by
  constructor
  · intro hnone
    rcases nameAt_or_stuck d p with ⟨labels, steps, after, hname⟩ | ⟨passed, q, hpath, hbad⟩
    · by_cases hlong : maxDnsName < wireLength labels
      · obtain ⟨q, hpath⟩ := hname.exists_path
        exact .inl ⟨labels, q, hpath, .inr (.inr hlong)⟩
      · refine .inr ⟨labels, steps, after, hname, Nat.lt_of_not_le fun hfew => ?_⟩
        have hread := dnsName_iff.mpr (.intro hname hfew (Nat.le_of_not_lt hlong))
        exact absurd (hnone.symm.trans hread) (by simp)
    · exact .inl ⟨passed, q, hpath, hbad.imp_right .inl⟩
  · rintro (hunreadable | ⟨labels, steps, after, hname, hmany⟩)
    · exact dnsName_eq_none_of_unreadable hunreadable
    · rw [Option.eq_none_iff_forall_not_mem]
      rintro ⟨text, stop⟩ hread
      obtain ⟨hname', hfew, -⟩ := dnsName_iff.mp hread
      rw [(hname.unique hname').2] at hmany
      omega

/-- The decoder reads exactly the names of at most 255 bytes: each of ASCII labels and at
most 127 labels and pointers gives its text and the position behind it; whatever is read
is a name with that text and that end; no name is read where the encoding is cut off,
has a reserved label type, runs in a circle or takes more than 255 bytes; and besides
these only names of more than 127 labels and pointers are not read. -/
theorem dnsName_exact (d : Bytes) (p : ℕ) :
    (∀ labels steps after, NameAt d p labels steps after →
      (∀ label ∈ labels, ∀ b ∈ label, b.toNat < 128) → wireLength labels ≤ 255 →
      steps ≤ 127 + 1 →
      dnsName d p = some (String.intercalate "." (labels.map asciiText), after)) ∧
    (∀ text stop, dnsName d p = some (text, stop) → ∃ labels steps,
      NameAt d p labels steps stop ∧ wireLength labels ≤ 255 ∧ steps ≤ 127 + 1 ∧
      text = String.intercalate "." (labels.map fromUtf8Lossy)) ∧
    (∀ labels q, Path d p labels q →
      Broken d q ∨ Loops d q ∨ 255 < wireLength labels → dnsName d p = none) ∧
    (dnsName d p = none →
      (∃ labels q, Path d p labels q ∧ (Broken d q ∨ Loops d q ∨ 255 < wireLength labels)) ∨
      ∃ labels steps after, NameAt d p labels steps after ∧ 127 + 1 < steps) := by
  refine ⟨?_, ?_, ?_, dnsName_eq_none_iff.mp⟩
  · intro labels steps after hname hascii hshort hfew
    have hread := dnsName_iff.mpr (.intro hname hfew hshort)
    have htext : labels.map fromUtf8Lossy = labels.map asciiText :=
      List.map_congr_left fun label hlabel => fromUtf8Lossy_ascii (hascii label hlabel)
    rw [hread, nameText_eq_intercalate, htext]
  · intro text stop hread
    obtain ⟨hname, hfew, hshort⟩ := dnsName_iff.mp hread
    exact ⟨_, _, hname, hshort, hfew, nameText_eq_intercalate _⟩
  · intro labels q hpath hbad
    exact dnsName_eq_none_of_unreadable ⟨labels, q, hpath, hbad⟩

end SocketTrail.Pcap
