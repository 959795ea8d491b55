/-
# Link headers

The syntax of link headers with their VLAN tags. `linkTransport_encode` says that
the parser hands on what stands behind a header that it reads.
-/

import SocketTrail.Pcap.Live

namespace SocketTrail.Pcap

open SocketTrail.Foundation SocketTrail.Net

/-! ## Link headers -/

/-- A VLAN tag: which of the two kinds it is of, and its control information. -/
structure VlanTag where
  service : Bool
  control : UInt16
  deriving DecidableEq, Repr

def VlanTag.type (t : VlanTag) : ℕ := if t.service then 0x88a8 else 0x8100

/-- The two versions of IP. -/
inductive IpVersion
  | v4 | v6
  deriving DecidableEq, Repr

def IpVersion.number : IpVersion → ℕ
  | .v4 => 4
  | .v6 => 6

def IpVersion.etherType : IpVersion → ℕ
  | .v4 => 0x0800
  | .v6 => 0x86DD

/-- The type that stands in front of the tags. -/
def outerType (etherType : ℕ) : List VlanTag → ℕ
  | [] => etherType
  | t :: _ => t.type

/-- The tags, each with the type of what follows it. -/
def tagBytes (etherType : ℕ) : List VlanTag → Bytes
  | [] => []
  | t :: ts =>
      beBytes 2 t.control.toNat ++ (beBytes 2 (outerType etherType ts) ++ tagBytes etherType ts)

/-- A link header: Ethernet, LINUX_SLL, LINUX_SLL2, none at all, or one of a link
type that is not read. -/
inductive LinkHeader
  | ethernet (addresses : FixedBytes 12) (tags : List VlanTag)
  | sll (fields : FixedBytes 14) (tags : List VlanTag)
  | sll2 (fields : FixedBytes 18) (tags : List VlanTag)
  | raw (type : UInt16) (known : type = 101 ∨ type = 12 ∨ type = 14)
  | other (type : UInt16) (unknown : type ∉ [1, 113, 276, 101, 12, 14]) (header : Bytes)

namespace LinkHeader

def linktype : LinkHeader → UInt16
  | ethernet .. => 1
  | sll .. => 113
  | sll2 .. => 276
  | raw type _ => type
  | other type _ _ => type

def encode (etherType : ℕ) : LinkHeader → Bytes
  | ethernet addresses tags =>
      addresses.1 ++ (beBytes 2 (outerType etherType tags) ++ tagBytes etherType tags)
  | sll fields tags =>
      fields.1 ++ (beBytes 2 (outerType etherType tags) ++ tagBytes etherType tags)
  | sll2 fields tags =>
      beBytes 2 (outerType etherType tags) ++ (fields.1 ++ tagBytes etherType tags)
  | raw .. => []
  | other _ _ header => header

/-- The header is of a kind that is read, with at most two tags. -/
def Readable : LinkHeader → Prop
  | ethernet _ tags => tags.length ≤ 2
  | sll _ tags => tags.length ≤ 2
  | sll2 _ tags => tags.length ≤ 2
  | raw .. => True
  | other .. => False

instance (link : LinkHeader) : Decidable link.Readable := by
  cases link <;> unfold Readable <;> infer_instance

end LinkHeader

theorem VlanTag.type_lt (t : VlanTag) : t.type < 65536 := by
  unfold VlanTag.type
  split <;> decide

theorem VlanTag.is_tag (t : VlanTag) : t.type = 0x8100 ∨ t.type = 0x88a8 := by
  unfold VlanTag.type
  split
  · exact .inr rfl
  · exact .inl rfl

theorem VlanTag.not_ip (t : VlanTag) : t.type ≠ 0x0800 ∧ t.type ≠ 0x86DD := by
  unfold VlanTag.type
  split <;> decide

theorem IpVersion.etherType_lt (v : IpVersion) : v.etherType < 65536 := by
  cases v <;> decide

theorem IpVersion.not_tag (v : IpVersion) : ¬ (v.etherType = 0x8100 ∨ v.etherType = 0x88a8) := by
  cases v <;> decide

theorem outerType_lt (v : IpVersion) (tags : List VlanTag) :
    outerType v.etherType tags < 65536 := by
  cases tags with
  | nil => exact v.etherType_lt
  | cons t _ => exact t.type_lt

theorem length_tagBytes (etherType : ℕ) (tags : List VlanTag) :
    (tagBytes etherType tags).length = 4 * tags.length := by
  induction tags with
  | nil => rfl
  | cons t ts ih =>
      rw [tagBytes, List.length_append, List.length_append, length_beBytes, length_beBytes, ih,
        List.length_cons]
      omega

/-- Two tags at most are skipped; behind a third one nothing is known. -/
theorem skipVlan_encode (v : IpVersion) {d rest : Bytes} {off fuel : ℕ} {tags : List VlanTag}
    (h : Stands d off (tagBytes v.etherType tags ++ rest)) :
    (tags.length ≤ fuel →
      skipVlan d fuel (outerType v.etherType tags) off =
        some (v.etherType, off + (tagBytes v.etherType tags).length)) ∧
    (fuel < tags.length →
      ∃ t : VlanTag, ∃ stop, skipVlan d fuel (outerType v.etherType tags) off =
        some (t.type, stop)) := by
  induction tags generalizing off fuel with
  | nil =>
      refine ⟨fun _ => ?_, fun hlt => absurd hlt (Nat.not_lt_zero _)⟩
      cases fuel with
      | zero => rfl
      | succ fuel =>
          rw [skipVlan, outerType, if_neg v.not_tag]
          rfl
  | cons t ts ih =>
      rw [tagBytes, List.append_assoc, List.append_assoc] at h
      have htype := h.skip
      rw [length_beBytes] at htype
      have hrest := htype.skip
      rw [length_beBytes, Nat.add_assoc] at hrest
      cases fuel with
      | zero => exact ⟨fun hle => absurd hle (Nat.not_succ_le_zero _), fun _ => ⟨t, off, rfl⟩⟩
      | succ fuel =>
          have hstep : skipVlan d (fuel + 1) (outerType v.etherType (t :: ts)) off =
              skipVlan d fuel (outerType v.etherType ts) (off + 4) := by
            rw [skipVlan, outerType, if_pos t.is_tag, htype.be16 (outerType_lt v ts)]
            rfl
          rw [hstep, List.length_cons]
          obtain ⟨hall, hmore⟩ := @ih _ fuel hrest
          refine ⟨fun hle => ?_, fun hlt => hmore (by omega)⟩
          rw [hall (by omega), length_tagBytes, length_tagBytes, List.length_cons]
          congr 2
          omega

/-- What the parser of a version makes of a datagram. -/
def IpVersion.transport : IpVersion → Bytes → Option Transport
  | .v4 => ipv4Transport
  | .v6 => ipv6Transport

/-- The first byte of the datagram says its version. -/
def IpVersion.Heads (v : IpVersion) (d : Bytes) : Prop :=
  (d[0]?).map (fun b => b.toNat / 16) = some v.number

/-- The rest of a frame once its type is known. -/
theorem network_encode (v : IpVersion) {frame d : Bytes} {off : ℕ} {tags : List VlanTag}
    (h : Stands frame off (tagBytes v.etherType tags ++ d)) :
    ((skipVlan frame 2 (outerType v.etherType tags) off).bind fun network =>
      if network.1 = 0x0800 then (getFrom frame network.2).bind ipv4Transport
      else if network.1 = 0x86DD then (getFrom frame network.2).bind ipv6Transport
      else none) = if tags.length ≤ 2 then v.transport d else none := by
  obtain ⟨hall, hmore⟩ := @skipVlan_encode v _ _ _ 2 _ h
  by_cases hfew : tags.length ≤ 2
  · rw [hall hfew, if_pos hfew, Option.bind_some, h.skip.getFrom]
    cases v with
    | v4 => rfl
    | v6 => rfl
  · obtain ⟨t, stop, hskip⟩ := hmore (by omega)
    rw [hskip, if_neg hfew, Option.bind_some, if_neg t.not_ip.1, if_neg t.not_ip.2]

/-- A link header that is read leaves the datagram behind it, any other one leaves
nothing. -/
theorem linkTransport_encode (link : LinkHeader) (v : IpVersion) {d : Bytes} (hheads : v.Heads d) :
    linkTransport link.linktype (link.encode v.etherType ++ d) =
      if link.Readable then v.transport d else none := by
  cases link with
  | ethernet addresses tags =>
      have htype := Stands.append addresses.1
        (beBytes 2 (outerType v.etherType tags) ++ (tagBytes v.etherType tags ++ d))
      rw [addresses.2] at htype
      have htags := htype.skip
      rw [length_beBytes] at htags
      rw [LinkHeader.encode, List.append_assoc, List.append_assoc]
      rw [linkTransport, LinkHeader.linktype, if_pos rfl, htype.be16 (outerType_lt v tags)]
      exact network_encode v htags
  | sll fields tags =>
      have htype := Stands.append fields.1
        (beBytes 2 (outerType v.etherType tags) ++ (tagBytes v.etherType tags ++ d))
      rw [fields.2] at htype
      have htags := htype.skip
      rw [length_beBytes] at htags
      rw [LinkHeader.encode, List.append_assoc, List.append_assoc]
      rw [linkTransport, LinkHeader.linktype, if_neg (by decide), if_pos rfl,
        htype.be16 (outerType_lt v tags)]
      exact network_encode v htags
  | sll2 fields tags =>
      have htype := Stands.start
        (beBytes 2 (outerType v.etherType tags) ++ (fields.1 ++ (tagBytes v.etherType tags ++ d)))
      have htags := htype.skip.skip
      rw [length_beBytes, fields.2] at htags
      rw [LinkHeader.encode, List.append_assoc, List.append_assoc]
      rw [linkTransport, LinkHeader.linktype, if_neg (by decide), if_neg (by decide), if_pos rfl,
        htype.be16 (outerType_lt v tags)]
      exact network_encode v htags
  | raw type known =>
      have hothers : type ≠ 1 ∧ type ≠ 113 ∧ type ≠ 276 := by
        rcases known with rfl | rfl | rfl <;> decide
      obtain ⟨hnot1, hnot113, hnot276⟩ := hothers
      obtain ⟨first, hfirst, hnibble⟩ := Option.map_eq_some_iff.mp hheads
      have hstart : (if first.toNat / 16 = 6 then 0x86DD else 0x0800) = v.etherType := by
        rw [hnibble]
        cases v <;> rfl
      rw [LinkHeader.encode, List.nil_append]
      rw [linkTransport, LinkHeader.linktype, if_neg hnot1, if_neg hnot113, if_neg hnot276,
        if_pos known, hfirst, Option.map_some, hstart]
      exact @network_encode v _ _ _ [] (Stands.start d)
  | other type unknown header =>
      simp only [List.mem_cons, List.not_mem_nil, or_false, not_or] at unknown
      obtain ⟨h1, h113, h276, h101, h12, h14⟩ := unknown
      rw [linkTransport, LinkHeader.linktype, if_neg h1, if_neg h113, if_neg h276,
        if_neg (by simp [h101, h12, h14])]
      rfl

end SocketTrail.Pcap
