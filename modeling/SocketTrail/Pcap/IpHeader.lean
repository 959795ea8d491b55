/-
# IP headers

The syntax of IPv4 headers with their options and of IPv6 headers with their
extension headers. `IpHeader.transport_encode` says what the parsers take a
complete datagram to carry, and that further fragments carry nothing.
-/

import SocketTrail.Pcap.LinkHeader

namespace SocketTrail.Pcap

open SocketTrail.Foundation SocketTrail.Net

/-! ## IPv4 -/

/-- The options of a header that counts its length in groups of four bytes, the
first twenty bytes included. -/
abbrev HeaderOptions : Type := { b : Bytes // 4 ∣ b.length ∧ b.length ≤ 40 }

structure Ipv4Header where
  service : UInt8
  ident : UInt16
  /-- The flags and the fragment offset. -/
  fragment : UInt16
  ttl : UInt8
  checksum : UInt16
  src : BitVec 32
  dst : BitVec 32
  options : HeaderOptions

namespace Ipv4Header

def length (h : Ipv4Header) : ℕ := 20 + h.options.1.length

/-- The header of a datagram of `total` bytes that carries the protocol. -/
def encode (h : Ipv4Header) (total : ℕ) (proto : UInt8) : Bytes :=
  UInt8.ofNat (64 + h.length / 4) :: h.service :: (beBytes 2 total ++
    (beBytes 2 h.ident.toNat ++ (beBytes 2 h.fragment.toNat ++ (h.ttl :: proto ::
      (beBytes 2 h.checksum.toNat ++ (beBytes 4 h.src.toNat ++ (beBytes 4 h.dst.toNat ++
        h.options.1)))))))

/-- The first fragment of a datagram, or the only one. -/
def Whole (h : Ipv4Header) : Prop := h.fragment.toNat % 8192 = 0

instance (h : Ipv4Header) : Decidable h.Whole := inferInstanceAs (Decidable (_ = _))

theorem length_encode (h : Ipv4Header) (total : ℕ) (proto : UInt8) :
    (h.encode total proto).length = h.length := by
  simp only [encode, length, List.length_cons, List.length_append, length_beBytes]
  omega

/-- The header length in groups of four bytes. -/
theorem length_eq (h : Ipv4Header) : ∃ k, 5 ≤ k ∧ k ≤ 15 ∧ h.length = 4 * k := by
  obtain ⟨⟨k, hk⟩, hle⟩ := h.options.2
  refine ⟨5 + k, by omega, by omega, ?_⟩
  rw [length, hk]
  omega

/-- The first byte holds the version and the header length. -/
theorem first_eq (h : Ipv4Header) : (UInt8.ofNat (64 + h.length / 4)).toNat / 16 = 4 ∧
    (UInt8.ofNat (64 + h.length / 4)).toNat % 16 * 4 = h.length := by
  obtain ⟨k, hmin, hmax, hlength⟩ := h.length_eq
  rw [UInt8.toNat_ofNat', hlength]
  omega

end Ipv4Header

/-- A fragment but the first carries nothing. -/
theorem ipv4Transport_fragment {d : Bytes} {word : ℕ} (hword : be16 d 6 = some word)
    (hfragment : word % 8192 ≠ 0) : ipv4Transport d = none := by
  unfold ipv4Transport
  cases d[0]? with
  | none => rfl
  | some first =>
      rw [Option.bind_eq_bind, Option.bind_some, hword, Option.bind_eq_bind, Option.bind_some,
        if_pos (.inr hfragment)]

/-- A whole IPv4 datagram carries what stands behind its header; what stands behind
the datagram is passed over. -/
theorem ipv4Transport_encode (h : Ipv4Header) (proto : UInt8) {content : Bytes}
    (hfits : h.length + content.length < 65536) (trailing : Bytes) :
    ipv4Transport (h.encode (h.length + content.length) proto ++ (content ++ trailing)) =
      if h.Whole then
        some
          { proto := proto.toNat, src := .v4 h.src, dst := .v4 h.dst
            bytes := h.length + content.length, data := content }
      else none := by
  generalize htotal : h.length + content.length = total at hfits
  have hlength := h.length_encode total proto
  obtain ⟨k, hmin, -, hgroups⟩ := h.length_eq
  obtain ⟨hversion, hihl⟩ := h.first_eq
  have hfrag : be16 (h.encode total proto ++ (content ++ trailing)) 6 = some h.fragment.toNat := by
    have hword := two_bytes h.fragment.toNat_lt
    exact congrArg some hword
  have htotalWord : be16 (h.encode total proto ++ (content ++ trailing)) 2 = some total := by
    exact congrArg some (two_bytes hfits)
  have hcut : (h.encode total proto ++ (content ++ trailing)).take
      (min (h.encode total proto ++ (content ++ trailing)).length total) =
      h.encode total proto ++ content := by
    have hboth : (h.encode total proto ++ content).length = total := by
      rw [List.length_append, hlength, htotal]
    rw [← List.append_assoc, List.length_append, hboth, Nat.min_eq_right (Nat.le_add_right _ _),
      List.take_left' hboth]
  have hcontent : getFrom (h.encode total proto ++ content) h.length = some content := by
    have hstands := Stands.append (h.encode total proto) content
    rw [hlength] at hstands
    exact hstands.getFrom
  have hsrc : ipv4At (h.encode total proto ++ content) 12 = .v4 h.src := ofOctets_beBytes h.src
  have hdst : ipv4At (h.encode total proto ++ content) 16 = .v4 h.dst := ofOctets_beBytes h.dst
  have hproto : (h.encode total proto ++ content)[9]? = some proto := rfl
  have hlong : h.length ≤ (h.encode total proto ++ (content ++ trailing)).length := by
    rw [List.length_append, hlength]
    omega
  have hfirst : (h.encode total proto ++ (content ++ trailing))[0]? =
      some (UInt8.ofNat (64 + h.length / 4)) := rfl
  by_cases hwhole : h.Whole
  · have hoffset : h.fragment.toNat % 8192 = 0 := hwhole
    rw [if_pos hwhole, ipv4Transport, hfirst]
    simp only [Option.bind_eq_bind, Option.bind_some, hversion, hihl, hfrag, hoffset, htotalWord,
      hcut, hproto, hcontent, hsrc, hdst]
    rw [if_neg (by omega), if_neg (by omega), if_neg (by omega)]
  · rw [if_neg hwhole]
    exact ipv4Transport_fragment hfrag hwhole

/-! ## IPv6 -/

/-- The extension headers that count their length in groups of eight bytes. -/
inductive OptionsKind
  | hopByHop | routing | destination
  deriving DecidableEq, Repr

def OptionsKind.code : OptionsKind → UInt8
  | .hopByHop => 0
  | .routing => 43
  | .destination => 60

/-- An extension header, but for its first byte, which says what follows it. -/
inductive Extension
  | options (kind : OptionsKind) (len : UInt8) (body : FixedBytes ((len.toNat + 1) * 8 - 2))
  | authentication (len : UInt8) (body : FixedBytes ((len.toNat + 2) * 4 - 2))
  | fragment (reserved : UInt8) (word : UInt16) (ident : FixedBytes 4)

namespace Extension

def code : Extension → UInt8
  | options kind .. => kind.code
  | authentication .. => 51
  | fragment .. => 44

def tail : Extension → Bytes
  | options _ len body => len :: body.1
  | authentication len body => len :: body.1
  | fragment reserved word ident => reserved :: (beBytes 2 word.toNat ++ ident.1)

def size (x : Extension) : ℕ := 1 + x.tail.length

/-- Not a header of a fragment that is not the first. -/
def Whole : Extension → Prop
  | fragment _ word _ => word.toNat / 8 = 0
  | _ => True

instance (x : Extension) : Decidable x.Whole := by
  cases x <;> unfold Whole <;> infer_instance

end Extension

/-- The byte that says what begins with these headers. -/
def firstCode (proto : UInt8) : List Extension → UInt8
  | [] => proto
  | x :: _ => x.code

/-- The extension headers in front of a protocol. -/
def chainBytes (proto : UInt8) : List Extension → Bytes
  | [] => []
  | x :: xs => firstCode proto xs :: (x.tail ++ chainBytes proto xs)

/-- What the loop over the extension headers takes for the size of one. -/
def extensionSize (d : Bytes) (next off : ℕ) : Option ℕ :=
  if next = 0 ∨ next = 43 ∨ next = 60 then (d[off + 1]?).map fun n => (n.toNat + 1) * 8
  else if next = 51 then (d[off + 1]?).map fun n => (n.toNat + 2) * 4
  else if next = 44 then (be16 d (off + 2)).bind fun word => if word / 8 ≠ 0 then none else some 8
  else none

section Chain

variable {src dst : IpAddr} {total : ℕ}

/-- The loop at an extension header. -/
theorem ipv6Payload_extension {d : Bytes} {fuel next off : ℕ} (h : ¬ (next = 6 ∨ next = 17)) :
    ipv6Payload src dst total d (fuel + 1) next off =
      (extensionSize d next off).bind fun size => (d[off]?).bind fun next =>
        if off + size > d.length then none
        else ipv6Payload src dst total d fuel next.toNat (off + size) := by
  rw [ipv6Payload, if_neg h, extensionSize]
  simp only [Option.bind_eq_bind, ite_bind]

theorem Extension.code_not_transport (x : Extension) :
    ¬ (x.code.toNat = 6 ∨ x.code.toNat = 17) := by
  cases x with
  | options kind => cases kind <;> simp [Extension.code, OptionsKind.code]
  | authentication => simp [Extension.code]
  | fragment => simp [Extension.code]

/-- The size of an extension header is the one that it declares. -/
theorem extensionSize_encode {d rest : Bytes} {off : ℕ} {next : UInt8} {x : Extension}
    (h : Stands d off (next :: (x.tail ++ rest))) :
    extensionSize d x.code.toNat off = if x.Whole then some x.size else none := by
  cases x with
  | options kind len body =>
      have hkind : kind.code.toNat = 0 ∨ kind.code.toNat = 43 ∨ kind.code.toNat = 60 := by
        cases kind <;> decide
      have hlen : d[off + 1]? = some len := h.tail.getElem?
      have hwhole : (Extension.options kind len body).Whole := trivial
      rw [extensionSize, Extension.code, if_pos hkind, hlen, if_pos hwhole, Option.map_some,
        Extension.size, Extension.tail, List.length_cons, body.2]
      congr 1
      omega
  | authentication len body =>
      have hlen : d[off + 1]? = some len := h.tail.getElem?
      have hwhole : (Extension.authentication len body).Whole := trivial
      rw [extensionSize, Extension.code, if_neg (by decide), if_pos (by decide), hlen,
        if_pos hwhole, Option.map_some, Extension.size, Extension.tail, List.length_cons, body.2]
      congr 1
      omega
  | fragment reserved word ident =>
      rw [Extension.tail, List.cons_append, List.append_assoc] at h
      have hword := h.tail.tail.be16 word.toNat_lt
      have hsize : (Extension.fragment reserved word ident).size = 8 := by
        rw [Extension.size, Extension.tail, List.length_cons, List.length_append, length_beBytes,
          ident.2]
      rw [extensionSize, Extension.code, if_neg (by decide), if_neg (by decide),
        if_pos (by decide), hword, hsize]
      by_cases hwhole : (Extension.fragment reserved word ident).Whole
      · have hzero : word.toNat / 8 = 0 := hwhole
        rw [Option.bind_some, if_neg (not_not.mpr hzero), if_pos hwhole]
      · have hfurther : word.toNat / 8 ≠ 0 := hwhole
        rw [Option.bind_some, if_pos hfurther, if_neg hwhole]

/-- The loop behind an extension header that is there as a whole. -/
theorem ipv6Payload_step {d rest : Bytes} {off fuel : ℕ} {next : UInt8} {x : Extension}
    (h : Stands d off (next :: (x.tail ++ rest))) :
    ipv6Payload src dst total d (fuel + 1) x.code.toNat off =
      if x.Whole then ipv6Payload src dst total d fuel next.toNat (off + x.size) else none := by
  rw [ipv6Payload_extension x.code_not_transport, extensionSize_encode h, h.getElem?]
  by_cases hwhole : x.Whole
  · have hlength := h.length
    rw [List.length_cons, List.length_append] at hlength
    rw [if_pos hwhole, if_pos hwhole, Option.bind_some, Option.bind_some, if_neg]
    rw [Extension.size]
    omega
  · rw [if_neg hwhole, if_neg hwhole]
    rfl

/-- The loop gets through a chain of whole headers that is short enough. -/
theorem ipv6Payload_chain {proto : UInt8} (hproto : proto = 6 ∨ proto = 17)
    {d content : Bytes} {exts : List Extension} {off fuel : ℕ}
    (h : Stands d off (chainBytes proto exts ++ content)) :
    ipv6Payload src dst total d fuel (firstCode proto exts).toNat off =
      if exts.length < fuel ∧ ∀ x ∈ exts, x.Whole then
        some { proto := proto.toNat, src := src, dst := dst, bytes := total, data := content }
      else none := by
  induction exts generalizing off fuel with
  | nil =>
      cases fuel with
      | zero => rfl
      | succ fuel =>
          have hcode : proto.toNat = 6 ∨ proto.toNat = 17 := by
            rcases hproto with rfl | rfl <;> decide
          rw [ipv6Payload, firstCode, if_pos hcode, h.getFrom]
          rw [if_pos ⟨Nat.succ_pos fuel, by simp⟩]
          rfl
  | cons x xs ih =>
      cases fuel with
      | zero => rfl
      | succ fuel =>
          rw [chainBytes, List.cons_append, List.append_assoc] at h
          have hrest := h.tail.skip
          rw [Nat.add_assoc] at hrest
          rw [firstCode, ipv6Payload_step h, Extension.size, ih hrest]
          by_cases hwhole : x.Whole
          · simp [hwhole]
          · simp [hwhole]

/-- A size that is read in a part of a datagram is read in the whole as well. -/
theorem extensionSize_front {d full : Bytes} (hfront : d <+: full) (next off : ℕ) :
    extensionSize d next off = none ∨ extensionSize d next off = extensionSize full next off := by
  have hbyte (i : ℕ) : d[i]? = none ∨ d[i]? = full[i]? := by
    by_cases hi : i < d.length
    · exact .inr (getElem?_of_front hfront hi).symm
    · exact .inl (List.getElem?_eq_none (Nat.le_of_not_lt hi))
  unfold extensionSize
  split
  · rcases hbyte (off + 1) with hnone | hsame
    · exact .inl (by rw [hnone]; rfl)
    · exact .inr (by rw [hsame])
  · split
    · rcases hbyte (off + 1) with hnone | hsame
      · exact .inl (by rw [hnone]; rfl)
      · exact .inr (by rw [hsame])
    · split
      · unfold be16
        rcases hbyte (off + 2) with hnone | hsame
        · exact .inl (by rw [hnone]; rfl)
        · rcases hbyte (off + 2 + 1) with hnone' | hsame'
          · left
            rw [hnone']
            cases d[off + 2]? <;> rfl
          · exact .inr (by rw [hsame, hsame'])
      · exact .inl rfl

/-- Behind a chain with a header of a further fragment nothing is carried, however
much of the datagram is there. -/
theorem ipv6Payload_fragment {proto : UInt8} {d full rest : Bytes} (hfront : d <+: full)
    {exts : List Extension} (hfragment : ¬ ∀ x ∈ exts, x.Whole) {off fuel : ℕ}
    (h : Stands full off (chainBytes proto exts ++ rest)) :
    ipv6Payload src dst total d fuel (firstCode proto exts).toNat off = none := by
  induction exts generalizing off fuel with
  | nil => exact absurd (by simp) hfragment
  | cons x xs ih =>
      cases fuel with
      | zero => rfl
      | succ fuel =>
          rw [chainBytes, List.cons_append, List.append_assoc] at h
          have hrest := h.tail.skip
          rw [Nat.add_assoc] at hrest
          rw [firstCode, ipv6Payload_extension x.code_not_transport]
          rcases extensionSize_front hfront x.code.toNat off with hnone | hsame
          · rw [hnone]
            rfl
          · rw [hsame, extensionSize_encode h]
            by_cases hwhole : x.Whole
            · rw [if_pos hwhole, Option.bind_some]
              have hmore : ¬ ∀ x ∈ xs, x.Whole := fun hall =>
                hfragment (List.forall_mem_cons.mpr ⟨hwhole, hall⟩)
              by_cases hoff : off < d.length
              · rw [← getElem?_of_front hfront hoff, h.getElem?, Option.bind_some]
                split
                · rfl
                · exact ih hmore hrest
              · rw [List.getElem?_eq_none (Nat.le_of_not_lt hoff)]
                rfl
            · rw [if_neg hwhole]
              rfl

end Chain

structure Ipv6Header where
  /-- The upper half of the traffic class. -/
  traffic : Fin 16
  /-- The lower half of the traffic class, and the first bits of the flow label. -/
  mixed : UInt8
  label : UInt16
  hopLimit : UInt8
  src : BitVec 128
  dst : BitVec 128
  extensions : List Extension

namespace Ipv6Header

/-- The header up to the addresses, of a datagram with `declared` bytes behind them. -/
def fixed (h : Ipv6Header) (declared : ℕ) (proto : UInt8) : Bytes :=
  UInt8.ofNat (96 + h.traffic) :: h.mixed :: (beBytes 2 h.label.toNat ++ (beBytes 2 declared ++
    (firstCode proto h.extensions :: h.hopLimit :: (beBytes 16 h.src.toNat ++
      beBytes 16 h.dst.toNat))))

def encode (h : Ipv6Header) (declared : ℕ) (proto : UInt8) : Bytes :=
  h.fixed declared proto ++ chainBytes proto h.extensions

/-- No extension header is one of a further fragment. -/
def Whole (h : Ipv6Header) : Prop := ∀ x ∈ h.extensions, x.Whole

instance (h : Ipv6Header) : Decidable h.Whole := inferInstanceAs (Decidable (∀ x ∈ _, _))

theorem length_fixed (h : Ipv6Header) (declared : ℕ) (proto : UInt8) :
    (h.fixed declared proto).length = 40 := rfl

/-- The first byte holds the version. -/
theorem version_eq (h : Ipv6Header) : (UInt8.ofNat (96 + h.traffic)).toNat / 16 = 6 := by
  have htraffic := h.traffic.isLt
  rw [UInt8.toNat_ofNat']
  omega

end Ipv6Header

/-- The parser in front of the extension headers. -/
theorem ipv6Transport_fixed (h : Ipv6Header) (declared : ℕ) (proto : UInt8) (rest : Bytes) :
    ∃ n, (declared < 65536 → n = declared) ∧
      ipv6Transport (h.fixed declared proto ++ rest) =
        ipv6Payload (.v6 h.src) (.v6 h.dst) (n + 40) (h.fixed declared proto ++ rest.take n) 8
          (firstCode proto h.extensions).toNat 40 := by
  obtain ⟨n, hn⟩ : ∃ n, be16 (h.fixed declared proto ++ rest) 4 = some n := ⟨_, rfl⟩
  have hread : some ((UInt8.ofNat (declared / 256)).toNat * 256 +
      (UInt8.ofNat declared).toNat) = some n := hn
  refine ⟨n, fun hlt => (Option.some.inj hread).symm.trans (two_bytes hlt), ?_⟩
  have hnext : (h.fixed declared proto ++ rest)[6]? = some (firstCode proto h.extensions) := rfl
  have hversion : ((h.fixed declared proto ++ rest).getD 0 0).toNat / 16 = 6 := h.version_eq
  have hlong : ¬ (h.fixed declared proto ++ rest).length < 40 := by
    rw [List.length_append, h.length_fixed]
    omega
  have hcut : (h.fixed declared proto ++ rest).take
      (min (h.fixed declared proto ++ rest).length (40 + n)) =
      h.fixed declared proto ++ rest.take n := by
    rw [List.length_append, h.length_fixed, Nat.add_min_add_left]
    have htake := @List.take_length_add_append _ (h.fixed declared proto) rest
      (min rest.length n)
    rw [h.length_fixed] at htake
    rw [htake, Nat.min_comm, ← List.take_take, List.take_length]
  have hsrc : ((h.fixed declared proto ++ rest.take n).drop 8).take 16 =
      beBytes 16 h.src.toNat := rfl
  have hdst : ((h.fixed declared proto ++ rest.take n).drop 24).take 16 =
      beBytes 16 h.dst.toNat := rfl
  rw [ipv6Transport, if_neg (not_or.mpr ⟨hlong, not_not.mpr hversion⟩), hn, Option.bind_eq_bind,
    Option.bind_some, hnext, Option.bind_eq_bind, Option.bind_some]
  dsimp only
  rw [hcut, hsrc, hdst, ofBytes_beBytes, ofBytes_beBytes]

/-- An IPv6 datagram carries what stands behind its extension headers; what stands
behind the datagram is passed over. -/
theorem ipv6Transport_encode (h : Ipv6Header) {proto : UInt8} (hproto : proto = 6 ∨ proto = 17)
    {content : Bytes} (hfits : (chainBytes proto h.extensions).length + content.length < 65536)
    (trailing : Bytes) :
    ipv6Transport (h.encode ((chainBytes proto h.extensions).length + content.length) proto ++
        (content ++ trailing)) =
      if h.extensions.length ≤ 7 ∧ h.Whole then
        some
          { proto := proto.toNat, src := .v6 h.src, dst := .v6 h.dst
            bytes := (chainBytes proto h.extensions).length + content.length + 40
            data := content }
      else none := by
  obtain ⟨n, hn, htransport⟩ := ipv6Transport_fixed h
    ((chainBytes proto h.extensions).length + content.length) proto
    (chainBytes proto h.extensions ++ (content ++ trailing))
  rw [Ipv6Header.encode, List.append_assoc, htransport, hn hfits]
  have hcut : (chainBytes proto h.extensions ++ (content ++ trailing)).take
      ((chainBytes proto h.extensions).length + content.length) =
      chainBytes proto h.extensions ++ content := by
    rw [← List.append_assoc, ← List.length_append, List.take_left]
  rw [hcut]
  have hstands := Stands.append
    (h.fixed ((chainBytes proto h.extensions).length + content.length) proto)
    (chainBytes proto h.extensions ++ content)
  rw [h.length_fixed] at hstands
  rw [ipv6Payload_chain hproto hstands]
  exact if_congr (and_congr_left' Nat.lt_succ_iff) rfl rfl

/-- Behind the header of a further fragment nothing is carried, whatever length the
datagram declares. -/
theorem ipv6Transport_fragment {h : Ipv6Header} (hfragment : ¬ h.Whole) (declared : ℕ)
    (proto : UInt8) (rest : Bytes) : ipv6Transport (h.encode declared proto ++ rest) = none := by
  obtain ⟨n, -, htransport⟩ :=
    ipv6Transport_fixed h declared proto (chainBytes proto h.extensions ++ rest)
  have hstands := Stands.append (h.fixed declared proto) (chainBytes proto h.extensions ++ rest)
  rw [h.length_fixed] at hstands
  rw [Ipv6Header.encode, List.append_assoc, htransport]
  apply ipv6Payload_fragment _ hfragment hstands
  exact (List.prefix_append_right_inj _).mpr (List.take_prefix n _)

/-! ## Either version -/

inductive IpHeader
  | v4 (h : Ipv4Header)
  | v6 (h : Ipv6Header)

namespace IpHeader

def version : IpHeader → IpVersion
  | v4 _ => .v4
  | v6 _ => .v6

def src : IpHeader → IpAddr
  | v4 h => .v4 h.src
  | v6 h => .v6 h.src

def dst : IpHeader → IpAddr
  | v4 h => .v4 h.dst
  | v6 h => .v6 h.dst

def extensions : IpHeader → List Extension
  | v4 _ => []
  | v6 h => h.extensions

/-- The length that the header declares when `n` bytes of the protocol follow it. -/
def declared (n : ℕ) (proto : UInt8) : IpHeader → ℕ
  | v4 h => h.length + n
  | v6 h => (chainBytes proto h.extensions).length + n

/-- The length of the datagram, the header included. -/
def total (n : ℕ) (proto : UInt8) (h : IpHeader) : ℕ :=
  match h.version with
  | .v4 => h.declared n proto
  | .v6 => h.declared n proto + 40

def encode (n : ℕ) (proto : UInt8) : IpHeader → Bytes
  | v4 h => h.encode ((v4 h).declared n proto) proto
  | v6 h => h.encode ((v6 h).declared n proto) proto

/-- The datagram is not a further fragment. -/
def Whole : IpHeader → Prop
  | v4 h => h.Whole
  | v6 h => h.Whole

instance (h : IpHeader) : Decidable h.Whole := by
  cases h <;> unfold Whole <;> infer_instance

/-- The header says which version it is of. -/
theorem heads (h : IpHeader) (n : ℕ) (proto : UInt8) (rest : Bytes) :
    h.version.Heads (h.encode n proto ++ rest) := by
  cases h with
  | v4 h => exact congrArg some h.first_eq.1
  | v6 h => exact congrArg some h.version_eq

/-- What a complete datagram carries; what stands behind it is passed over. -/
theorem transport_encode (h : IpHeader) {proto : UInt8} (hproto : proto = 6 ∨ proto = 17)
    {content : Bytes} (hfits : h.declared content.length proto < 65536) (trailing : Bytes) :
    h.version.transport (h.encode content.length proto ++ (content ++ trailing)) =
      if h.extensions.length ≤ 7 ∧ h.Whole then
        some
          { proto := proto.toNat, src := h.src, dst := h.dst
            bytes := h.total content.length proto, data := content }
      else none := by
  cases h with
  | v4 h =>
      have hnone : h.Whole ↔ ([] : List Extension).length ≤ 7 ∧ h.Whole := by simp
      exact (ipv4Transport_encode h proto hfits trailing).trans (if_congr hnone rfl rfl)
  | v6 h => exact ipv6Transport_encode h hproto hfits trailing

end IpHeader

end SocketTrail.Pcap
