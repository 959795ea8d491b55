/-
# Addresses as texts

The identifier of a row is made of texts, and rows of one instant are put in the order of
these. The text of an address tells its groups: the fields between its colons are the
groups, and the empty field stands for the run of zeros that is left out. So different
tuples have different identifiers, and the order of the rows leaves nothing open.
-/

import SocketTrail.Foundation.Fields
import SocketTrail.Foundation.Numerals
import SocketTrail.Net.Address
import Mathlib.Tactic.IntervalCases

namespace SocketTrail.Net

open SocketTrail.Foundation SocketTrail.Foundation.Fields

namespace IpAddr

/-! ## The run of zeros -/

/-- The groups in the range are zeros. -/
def ZeroRun (groups : List ℕ) (run : ℕ × ℕ) : Prop :=
  ∃ front back, groups = front ++ List.replicate run.2 0 ++ back ∧ front.length = run.1

/-- One group of the scan for the longest run. -/
def zeroStep (acc : ℕ × (ℕ × ℕ) × (ℕ × ℕ)) (g : ℕ) : ℕ × (ℕ × ℕ) × (ℕ × ℕ) :=
  let (i, current, longest) := acc
  if g = 0 then
    let current := if current.2 = 0 then (i, 1) else (current.1, current.2 + 1)
    (i + 1, current, if current.2 > longest.2 then current else longest)
  else (i + 1, (0, 0), longest)

theorem longestZeros_eq (groups : List ℕ) :
    longestZeros groups = (groups.foldl zeroStep (0, (0, 0), (0, 0))).2.2 := rfl

theorem ZeroRun.append {groups : List ℕ} {run : ℕ × ℕ} (h : ZeroRun groups run) (g : ℕ) :
    ZeroRun (groups ++ [g]) run := by
  obtain ⟨front, back, rfl, hlength⟩ := h
  exact ⟨front, back ++ [g], by simp only [List.append_assoc], hlength⟩

/-- What the scan holds behind some groups: how many they were, the zeros at their end, and
a run of zeros in them. -/
structure Scanned (groups : List ℕ) (acc : ℕ × (ℕ × ℕ) × (ℕ × ℕ)) : Prop where
  count : acc.1 = groups.length
  current : acc.2.1.2 ≠ 0 →
    ∃ front, groups = front ++ List.replicate acc.2.1.2 0 ∧ front.length = acc.2.1.1
  longest : ZeroRun groups acc.2.2

theorem Scanned.step {groups : List ℕ} {acc : ℕ × (ℕ × ℕ) × (ℕ × ℕ)} (h : Scanned groups acc)
    (g : ℕ) : Scanned (groups ++ [g]) (zeroStep acc g) := by
  obtain ⟨i, current, longest⟩ := acc
  obtain ⟨hcount, hcurrent, hlongest⟩ := h
  dsimp only at hcount hcurrent hlongest
  unfold zeroStep
  by_cases hzero : g = 0
  · subst hzero
    have hgrown : ∃ front, groups ++ [0] =
        front ++ List.replicate (if current.2 = 0 then (i, 1) else (current.1, current.2 + 1)).2 0 ∧
        front.length = (if current.2 = 0 then (i, 1) else (current.1, current.2 + 1)).1 := by
      split_ifs with hnone
      · exact ⟨groups, rfl, hcount.symm⟩
      · obtain ⟨front, hgroups, hlength⟩ := hcurrent hnone
        refine ⟨front, ?_, hlength⟩
        rw [List.replicate_succ', hgroups, List.append_assoc]
    simp only [if_true]
    generalize (if current.2 = 0 then (i, 1) else (current.1, current.2 + 1)) = grown at hgrown ⊢
    refine ⟨by simp [hcount], fun _ => hgrown, ?_⟩
    dsimp only
    split
    · obtain ⟨front, hgroups, hlength⟩ := hgrown
      exact ⟨front, [], by rw [List.append_nil]; exact hgroups, hlength⟩
    · exact hlongest.append 0
  · simp only [if_neg hzero]
    exact ⟨by simp [hcount], fun h => absurd rfl h, hlongest.append g⟩

theorem scanned (groups : List ℕ) :
    Scanned groups (groups.foldl zeroStep (0, (0, 0), (0, 0))) := by
  induction groups using List.reverseRecOn with
  | nil => exact ⟨rfl, fun h => absurd rfl h, [], [], rfl, rfl⟩
  | append_singleton groups g ih =>
      rw [List.foldl_concat]
      exact ih.step g

/-- What is left out of a text are zeros. -/
theorem zeroRun_longestZeros (groups : List ℕ) : ZeroRun groups (longestZeros groups) := by
  rw [longestZeros_eq]
  exact (scanned groups).longest

/-! ## Groups -/

theorem segment_injective {a b : BitVec 128} (h : ∀ i < 8, segment a i = segment b i) : a = b := by
  have h₀ := h 0 (by decide)
  have h₁ := h 1 (by decide)
  have h₂ := h 2 (by decide)
  have h₃ := h 3 (by decide)
  have h₄ := h 4 (by decide)
  have h₅ := h 5 (by decide)
  have h₆ := h 6 (by decide)
  have h₇ := h 7 (by decide)
  have ha := a.isLt
  have hb := b.isLt
  simp only [segment, Nat.reduceSub, Nat.reducePow] at h₀ h₁ h₂ h₃ h₄ h₅ h₆ h₇ ha hb
  apply BitVec.eq_of_toNat_eq
  omega

theorem octet_injective {a b : BitVec 32} (h : ∀ i < 4, octet a i = octet b i) : a = b := by
  have h₀ := h 0 (by decide)
  have h₁ := h 1 (by decide)
  have h₂ := h 2 (by decide)
  have h₃ := h 3 (by decide)
  have ha := a.isLt
  have hb := b.isLt
  simp only [octet, Nat.reduceSub, Nat.reducePow] at h₀ h₁ h₂ h₃ ha hb
  apply BitVec.eq_of_toNat_eq
  omega

/-- The digits of the octets. -/
def octetTexts (a : BitVec 32) : List (List Char) :=
  (List.range 4).map fun i => Nat.toDigits 10 (octet a i)

/-- The digits of the groups. -/
def groupTexts (a : BitVec 128) : List (List Char) :=
  (List.range 8).map fun i => Nat.toDigits 16 (segment a i)

theorem octetTexts_injective {a b : BitVec 32} (h : octetTexts a = octetTexts b) : a = b := by
  apply octet_injective
  intro i hi
  have hdigits := List.map_inj_left.mp h i (List.mem_range.mpr hi)
  exact toDigits_injective hdigits

theorem groupTexts_injective {a b : BitVec 128} (h : groupTexts a = groupTexts b) : a = b := by
  apply segment_injective
  intro i hi
  have hdigits := List.map_inj_left.mp h i (List.mem_range.mpr hi)
  exact toDigits_base_injective (by decide) (by decide) hdigits

/-- The characters of a text of digits. -/
def Digits (text : List Char) : Prop := ∀ c ∈ text, ∃ d < 16, c = Nat.digitChar d

theorem digits_toDigits {b : ℕ} (hb : 1 < b) (hsixteen : b ≤ 16) (n : ℕ) :
    Digits (Nat.toDigits b n) := by
  intro c hc
  obtain ⟨d, hd, rfl⟩ := mem_toDigits hb hc
  exact ⟨d, hd.trans_le hsixteen, rfl⟩

theorem Digits.notMem {text : List Char} (h : Digits text) {c : Char}
    (hc : c = ':' ∨ c = '.' ∨ c = '|') : c ∉ text := by
  intro hmem
  obtain ⟨d, hd, rfl⟩ := h c hmem
  have hall : ∀ d : Fin 16,
      ¬(Nat.digitChar d = ':' ∨ Nat.digitChar d = '.' ∨ Nat.digitChar d = '|') := by decide
  exact hall ⟨d, hd⟩ hc

/-! ## Texts -/

theorem toList_v4Text (a : BitVec 32) : (v4Text a).toList = ['.'].intercalate (octetTexts a) := by
  rw [v4Text, String.toList_intercalate, List.map_map]
  congr 1
  apply List.map_congr_left
  intro i _
  exact toList_toString_nat _

theorem octetTexts_digits (a : BitVec 32) : ∀ f ∈ octetTexts a, Digits f := by
  intro f hf
  obtain ⟨i, -, rfl⟩ := List.mem_map.mp hf
  exact digits_toDigits (by decide) (by decide) _

theorem v4Text_injective {a b : BitVec 32} (h : v4Text a = v4Text b) : a = b := by
  have hsplit (a : BitVec 32) : (v4Text a).toList.splitOn '.' = octetTexts a := by
    rw [toList_v4Text]
    exact List.splitOn_intercalate '.'
      (fun f hf => (octetTexts_digits a f hf).notMem (.inr (.inl rfl))) (by simp [octetTexts])
  apply octetTexts_injective
  rw [← hsplit, ← hsplit, h]

/-- The address is written with the IPv4 address in it. -/
def Mapped (a : BitVec 128) : Prop :=
  ((List.range 8).map (segment a)).take 5 = [0, 0, 0, 0, 0] ∧ segment a 5 = 65535

theorem text_of_mapped {a : BitVec 128} (h : Mapped a) :
    (v6 a).text = "::ffff:" ++ v4Text (a.setWidth 32) := if_pos h

/-- Groups with colons in between. -/
theorem toList_colons (groups : List ℕ) :
    (String.intercalate ":" (groups.map hexGroup)).toList =
      [':'].intercalate (groups.map (Nat.toDigits 16)) := by
  rw [String.toList_intercalate, List.map_map]
  congr 1
  apply List.map_congr_left
  intro g _
  exact String.toList_ofList

theorem groupDigits_ne_nil (groups : List ℕ) : ∀ f ∈ groups.map (Nat.toDigits 16), f ≠ [] := by
  intro f hf
  obtain ⟨g, -, rfl⟩ := List.mem_map.mp hf
  exact Nat.toDigits_ne_nil

theorem groupDigits_digits (groups : List ℕ) :
    ∀ f ∈ groups.map (Nat.toDigits 16), Digits f := by
  intro f hf
  obtain ⟨g, -, rfl⟩ := List.mem_map.mp hf
  exact digits_toDigits (by decide) (by decide) g

theorem digits_gapped {front back : List (List Char)} (hfront : ∀ f ∈ front, Digits f)
    (hback : ∀ f ∈ back, Digits f) : ∀ f ∈ gapped front back, Digits f := by
  intro f hf
  rcases mem_gapped hf with hleft | hright | rfl
  · exact hfront f hleft
  · exact hback f hright
  · exact fun c hc => absurd hc List.not_mem_nil

/-- The groups around a run of zeros, with an empty field for the run. -/
theorem filled_around {front back : List ℕ} {len : ℕ} (h : front.length + len + back.length = 8) :
    filled 8 ['0'] (gapped (front.map (Nat.toDigits 16)) (back.map (Nat.toDigits 16))) =
      (front ++ List.replicate len 0 ++ back).map (Nat.toDigits 16) := by
  have hzeros : (List.replicate len 0).map (Nat.toDigits 16) = List.replicate len ['0'] := by
    rw [List.map_replicate]
    rfl
  rw [filled_gapped (groupDigits_ne_nil front) (groupDigits_ne_nil back) (by simpa using h),
    List.map_append, List.map_append, hzeros]

/-- A reader of the fields between the colons finds the groups. -/
theorem text_of_not_mapped {a : BitVec 128} (h : ¬Mapped a) :
    ∃ fields, (v6 a).text.toList = [':'].intercalate fields ∧ fields ≠ [] ∧
      (∀ f ∈ fields, Digits f) ∧ filled 8 ['0'] fields = groupTexts a := by
  have htext : (v6 a).text =
      let groups := (List.range 8).map (segment a)
      let run := longestZeros groups
      let colons (gs : List ℕ) := String.intercalate ":" (gs.map hexGroup)
      if run.2 > 1 then colons (groups.take run.1) ++ "::" ++ colons (groups.drop (run.1 + run.2))
      else colons groups := if_neg h
  have hgroups : groupTexts a = ((List.range 8).map (segment a)).map (Nat.toDigits 16) := by
    rw [List.map_map]
    rfl
  have hlength : ((List.range 8).map (segment a)).length = 8 := by simp
  rw [htext, hgroups]
  generalize (List.range 8).map (segment a) = groups at hlength ⊢
  obtain ⟨front, back, hsplit, hfront⟩ := zeroRun_longestZeros groups
  dsimp only
  split
  · -- the fields around the run, with an empty one for it
    generalize longestZeros groups = run at hsplit hfront
    obtain ⟨start, len⟩ := run
    dsimp only at hsplit hfront ⊢
    have htake : groups.take start = front := by
      rw [hsplit, List.append_assoc, ← hfront, List.take_left]
    have hdrop : groups.drop (start + len) = back := by
      rw [hsplit, ← hfront]
      exact List.drop_left' (by simp)
    refine ⟨gapped (front.map (Nat.toDigits 16)) (back.map (Nat.toDigits 16)), ?_, ?_, ?_, ?_⟩
    · rw [String.toList_append, String.toList_append, toList_colons, toList_colons, htake, hdrop,
        intercalate_gapped]
      rfl
    · exact List.append_ne_nil_of_right_ne_nil _ (List.cons_ne_nil _ _)
    · exact digits_gapped (groupDigits_digits front) (groupDigits_digits back)
    · have hcount : front.length + len + back.length = 8 := by
        rw [hsplit] at hlength
        simpa [Nat.add_assoc] using hlength
      rw [filled_around hcount, hsplit]
  · refine ⟨groups.map (Nat.toDigits 16), toList_colons groups, ?_, groupDigits_digits groups,
      ?_⟩
    · rintro hnil
      rw [List.map_eq_nil_iff.mp hnil] at hlength
      exact absurd hlength (by decide)
    · exact filled_of_full (groupDigits_ne_nil groups) (by rw [List.length_map, hlength])

theorem notMem_intercalate {sep c : Char} (hsep : c ≠ sep) {fields : List (List Char)}
    (h : ∀ f ∈ fields, c ∉ f) : c ∉ [sep].intercalate fields := by
  induction fields with
  | nil => exact List.not_mem_nil
  | cons f fields ih =>
      obtain ⟨hf, hfields⟩ := List.forall_mem_cons.mp h
      cases fields with
      | nil => rwa [List.intercalate_singleton]
      | cons f' fields =>
          rw [List.intercalate_cons_of_ne_nil (List.cons_ne_nil _ _)]
          simp only [List.mem_append, List.mem_singleton, not_or]
          exact ⟨⟨hf, hsep⟩, ih hfields⟩

theorem dot_mem_v4Text (a : BitVec 32) : '.' ∈ (v4Text a).toList := by
  rw [toList_v4Text]
  change '.' ∈ Nat.toDigits 10 (octet a 0) ++ ('.' :: _)
  exact List.mem_append_right _ List.mem_cons_self

theorem notMem_v4Text (a : BitVec 32) {c : Char} (hc : c = ':' ∨ c = '|') :
    c ∉ (v4Text a).toList := by
  rw [toList_v4Text]
  refine notMem_intercalate ?_ fun f hf => (octetTexts_digits a f hf).notMem ?_
  · rcases hc with rfl | rfl <;> decide
  · exact hc.imp id .inr

theorem dot_notMem_text {a : BitVec 128} (h : ¬Mapped a) : '.' ∉ (v6 a).text.toList := by
  obtain ⟨fields, htext, -, hdigits, -⟩ := text_of_not_mapped h
  rw [htext]
  exact notMem_intercalate (by decide) fun f hf => (hdigits f hf).notMem (.inr (.inl rfl))

theorem text_injective_of_not_mapped {a b : BitVec 128} (ha : ¬Mapped a) (hb : ¬Mapped b)
    (h : (v6 a).text = (v6 b).text) : a = b := by
  obtain ⟨fields, htext, hne, hdigits, hfilled⟩ := text_of_not_mapped ha
  obtain ⟨fields', htext', hne', hdigits', hfilled'⟩ := text_of_not_mapped hb
  have hsplit {fields : List (List Char)} (hne : fields ≠ []) (hdigits : ∀ f ∈ fields, Digits f) :
      ([':'].intercalate fields).splitOn ':' = fields :=
    List.splitOn_intercalate ':' (fun f hf => (hdigits f hf).notMem (.inl rfl)) hne
  have hfields : fields = fields' := by
    rw [← hsplit hne hdigits, ← hsplit hne' hdigits', ← htext, ← htext', h]
  apply groupTexts_injective
  rw [← hfilled, ← hfilled', hfields]

/-- The groups in front of the IPv4 address. -/
theorem toNat_of_mapped {a : BitVec 128} (h : Mapped a) :
    a.toNat = 65535 * 2 ^ 32 + a.toNat % 2 ^ 32 := by
  obtain ⟨hfirst, hlast⟩ := h
  have hzeros : [segment a 0, segment a 1, segment a 2, segment a 3, segment a 4] =
      [0, 0, 0, 0, 0] := hfirst
  simp only [List.cons.injEq, and_true] at hzeros
  obtain ⟨h₀, h₁, h₂, h₃, h₄⟩ := hzeros
  have ha := a.isLt
  simp only [segment, Nat.reduceSub, Nat.reducePow] at h₀ h₁ h₂ h₃ h₄ hlast ha
  omega

theorem text_injective_of_mapped {a b : BitVec 128} (ha : Mapped a) (hb : Mapped b)
    (h : (v6 a).text = (v6 b).text) : a = b := by
  rw [text_of_mapped ha, text_of_mapped hb] at h
  have hlow : a.setWidth 32 = b.setWidth 32 := v4Text_injective ((String.append_right_inj _).mp h)
  have hmod := congrArg BitVec.toNat hlow
  rw [BitVec.toNat_setWidth, BitVec.toNat_setWidth] at hmod
  apply BitVec.eq_of_toNat_eq
  rw [toNat_of_mapped ha, toNat_of_mapped hb, hmod]

/-- An IPv4 address is written with dots and without colons. -/
theorem v4_text_ne_v6_text (a : BitVec 32) (b : BitVec 128) : (v4 a).text ≠ (v6 b).text := by
  intro h
  by_cases hmapped : Mapped b
  · apply notMem_v4Text a (.inl rfl)
    change ':' ∈ (v4 a).text.toList
    rw [h, text_of_mapped hmapped, String.toList_append]
    exact List.mem_append_left _ (by decide)
  · exact dot_notMem_text hmapped (h ▸ dot_mem_v4Text a)

theorem v6_text_injective {a b : BitVec 128} (h : (v6 a).text = (v6 b).text) : a = b := by
  have hdot {a : BitVec 128} (hmapped : Mapped a) : '.' ∈ (v6 a).text.toList := by
    rw [text_of_mapped hmapped, String.toList_append]
    exact List.mem_append_right _ (dot_mem_v4Text _)
  by_cases ha : Mapped a
  · by_cases hb : Mapped b
    · exact text_injective_of_mapped ha hb h
    · exact absurd (h ▸ hdot ha) (dot_notMem_text hb)
  · by_cases hb : Mapped b
    · exact absurd (h ▸ hdot hb) (dot_notMem_text ha)
    · exact text_injective_of_not_mapped ha hb h

/-- Different addresses have different texts. -/
theorem text_injective : Function.Injective text := by
  intro a b h
  cases a with
  | v4 a =>
      cases b with
      | v4 b => exact congrArg v4 (v4Text_injective h)
      | v6 b => exact absurd h (v4_text_ne_v6_text a b)
  | v6 a =>
      cases b with
      | v4 b => exact absurd h.symm (v4_text_ne_v6_text b a)
      | v6 b => exact congrArg v6 (v6_text_injective h)

theorem bar_notMem_text (a : IpAddr) : '|' ∉ a.text.toList := by
  cases a with
  | v4 a => exact notMem_v4Text a (.inr rfl)
  | v6 a =>
      by_cases h : Mapped a
      · rw [text_of_mapped h, String.toList_append]
        simp only [List.mem_append, not_or]
        exact ⟨by decide, notMem_v4Text _ (.inr rfl)⟩
      · obtain ⟨fields, htext, -, hdigits, -⟩ := text_of_not_mapped h
        rw [htext]
        exact notMem_intercalate (by decide) fun f hf => (hdigits f hf).notMem (.inr (.inr rfl))

end IpAddr

/-! ## Identifiers -/

/-- The texts of an identifier. -/
def keyFields (k : ConnKey) : List (List Char) :=
  [k.proto.asStr.toList, k.local.text.toList, Nat.toDigits 10 k.lport.toNat,
    k.remote.text.toList, Nat.toDigits 10 k.rport.toNat]

theorem toList_keyId (k : ConnKey) : (keyId k).toList = ['|'].intercalate (keyFields k) := by
  simp only [keyId, String.toList_intercalate, List.map_cons, List.map_nil, toList_toString_nat]
  rfl

theorem splitOn_keyId (k : ConnKey) : (keyId k).toList.splitOn '|' = keyFields k := by
  have hdigits (n : ℕ) : '|' ∉ Nat.toDigits 10 n :=
    (IpAddr.digits_toDigits (by decide) (by decide) n).notMem (.inr (.inr rfl))
  have hproto : '|' ∉ k.proto.asStr.toList := by cases k.proto <;> decide
  rw [toList_keyId]
  refine List.splitOn_intercalate '|' ?_ (List.cons_ne_nil _ _)
  simp only [keyFields, List.forall_mem_cons, List.not_mem_nil, false_imp_iff, implies_true,
    and_true]
  exact ⟨hproto, k.local.bar_notMem_text, hdigits _, k.remote.bar_notMem_text, hdigits _⟩

/-- Different tuples have different identifiers, however their addresses are written. -/
theorem keyId_injective : Function.Injective keyId := by
  intro k k' h
  have hfields : keyFields k = keyFields k' := by rw [← splitOn_keyId, ← splitOn_keyId, h]
  simp only [keyFields, List.cons.injEq, and_true, String.toList_inj] at hfields
  obtain ⟨hproto, hlocal, hlport, hremote, hrport⟩ := hfields
  have hprotos : k.proto = k'.proto := by
    cases hp : k.proto <;> cases hp' : k'.proto <;> rw [hp, hp'] at hproto <;>
      first | rfl | exact absurd hproto (by decide)
  obtain ⟨proto, localIp, lport, remote, rport⟩ := k
  obtain ⟨proto', localIp', lport', remote', rport'⟩ := k'
  obtain rfl : proto = proto' := hprotos
  obtain rfl : localIp = localIp' := IpAddr.text_injective hlocal
  obtain rfl : lport = lport' := UInt16.toNat_inj.mp (toDigits_injective hlport)
  obtain rfl : remote = remote' := IpAddr.text_injective hremote
  obtain rfl : rport = rport' := UInt16.toNat_inj.mp (toDigits_injective hrport)
  rfl

end SocketTrail.Net
