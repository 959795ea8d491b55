/-
# Sealed packets are opened

`ClientInitial.sealed` builds the Initial packet of a client: its length field, its
packet number, the associated data and tag, and the protection of the header over a
sample of the ciphertext. `sealed_packet_opened` says that `header` finds such a
packet and that `openPacket` undoes the seal.
-/

import SocketTrail.Pcap.QuicHello

namespace SocketTrail.Pcap.Quic

open SocketTrail.Foundation

/-! ## Packets -/

/-- What a client puts into an Initial packet, and in which forms it writes the
lengths. There is enough behind the packet number for the sample. -/
structure ClientInitial where
  version : Version
  known : version ∈ versions
  dcid : Bytes
  dcid_le : dcid.length ≤ 20
  scid : Bytes
  scid_le : scid.length ≤ 255
  token : Bytes
  tokenLength : Varint
  tokenLength_value : tokenLength.value = token.length
  /-- The number of bytes that the packet number takes. -/
  pnLen : ℕ
  pnLen_pos : 1 ≤ pnLen
  pnLen_le : pnLen ≤ 4
  /-- The full packet number. -/
  number : ℕ
  plain : Bytes
  enough : 4 ≤ pnLen + plain.length
  length : Varint
  length_value : length.value = pnLen + plain.length + 16

namespace ClientInitial

/-- The first byte: a long header, the packet type and the length of the packet
number. -/
def first (p : ClientInitial) : UInt8 :=
  UInt8.ofNat (0xC0 + p.version.initial * 16 + (p.pnLen - 1))

/-- The fields between the first byte and the packet number, and what follows. -/
def fields (p : ClientInitial) (rest : Bytes) : Bytes :=
  beBytes 4 p.version.id ++ (UInt8.ofNat p.dcid.length :: (p.dcid ++
    (UInt8.ofNat p.scid.length :: (p.scid ++ (p.tokenLength.encode ++ (p.token ++
      (p.length.encode ++ rest)))))))

/-- The lowest bytes of the packet number. -/
def truncated (p : ClientInitial) : Bytes := beBytes p.pnLen p.number

/-- The header without protection, which is authenticated with the plaintext. -/
def associated (p : ClientInitial) : Bytes := p.first :: p.fields p.truncated

/-- The packet: the payload is encrypted first, then the header is protected with a
mask that is made of a sample of the ciphertext. -/
def sealed (c : Ciphers) (encrypt : Bytes → Bytes → Bytes → Bytes → Bytes × Bytes) (keys : Keys)
    (p : ClientInitial) : Bytes :=
  let (text, tag) := encrypt keys.key (keys.nonce p.number) p.associated p.plain
  let sample := ((p.truncated ++ (text ++ tag)).drop 4).take 16
  let mask := c.encryptBlock keys.hp sample
  (p.first ^^^ (mask.getD 0 0 &&& 0x0f)) ::
    p.fields (xorBytes p.truncated ((mask.drop 1).take p.pnLen) ++ (text ++ tag))

/-- Where the packet number begins. -/
def pnOff (p : ClientInitial) : ℕ :=
  6 + p.dcid.length + 1 + p.scid.length + p.tokenLength.size + p.token.length + p.length.size

/-- Where the packet ends. -/
def stop (p : ClientInitial) : ℕ := p.pnOff + (p.pnLen + p.plain.length + 16)

/-- The header of the packet. -/
def header (p : ClientInitial) : Header where
  version := p.version
  initial := true
  dcid := p.dcid
  pnOff := p.pnOff
  «end» := p.stop

theorem length_fields (p : ClientInitial) (rest : Bytes) :
    (p.fields rest).length + 1 = p.pnOff + rest.length := by
  simp only [fields, List.length_append, List.length_cons, length_beBytes, Varint.length_encode,
    pnOff]
  omega

theorem fields_append (p : ClientInitial) (a b : Bytes) :
    p.fields (a ++ b) = p.fields a ++ b := by
  simp only [fields, List.append_assoc, List.cons_append]

end ClientInitial

/-- The cryptography keeps to its sizes, and decrypting undoes encrypting. -/
structure Seals (c : Ciphers) (encrypt : Bytes → Bytes → Bytes → Bytes → Bytes × Bytes) : Prop where
  block : ∀ key block, (c.encryptBlock key block).length = 16
  text : ∀ key nonce ad plain, (encrypt key nonce ad plain).1.length = plain.length
  tag : ∀ key nonce ad plain, (encrypt key nonce ad plain).2.length = 16
  decrypts : ∀ key nonce ad plain,
    c.decrypt key nonce ad (encrypt key nonce ad plain).1 (encrypt key nonce ad plain).2 =
      some plain

/-! ## Protection -/

/-- A mask that is applied twice is gone. -/
theorem xorBytes_xorBytes {a mask : Bytes} (h : a.length = mask.length) :
    xorBytes (xorBytes a mask) mask = a := by
  induction a generalizing mask with
  | nil => rfl
  | cons x a ih =>
      obtain ⟨m, mask, rfl⟩ := List.exists_cons_of_length_pos (h ▸ Nat.succ_pos _ : 0 < mask.length)
      have hrest : xorBytes (xorBytes a mask) mask = a := ih (Nat.succ.inj h)
      have hfirst : x ^^^ m ^^^ m = x := by rw [UInt8.xor_assoc, UInt8.xor_self, UInt8.xor_zero]
      change (x ^^^ m ^^^ m) :: xorBytes (xorBytes a mask) mask = x :: a
      rw [hfirst, hrest]

/-- The mask leaves the upper half of the first byte as it is. -/
theorem toNat_xor_low (b m : UInt8) : (b ^^^ (m &&& 0x0f)).toNat / 16 = b.toNat / 16 := by
  have hlow : (m.toNat &&& 15) / 2 ^ 4 = 0 := Nat.div_eq_of_lt (Nat.and_lt_two_pow _ (by decide))
  have hquot : (b.toNat ^^^ (m.toNat &&& 15)) / 2 ^ 4 = b.toNat / 2 ^ 4 := by
    rw [Nat.xor_div_two_pow, hlow, Nat.xor_zero]
  rw [UInt8.toNat_xor, UInt8.toNat_and]
  exact hquot

/-! ## Versions -/

theorem find?_version {v : Version} (h : v ∈ versions) :
    versions.find? (fun known => known.id = v.id) = some v := by
  revert v
  decide

theorem version_sizes {v : Version} (h : v ∈ versions) :
    v.id < 256 ^ 4 ∧ v.initial < 4 ∧ v.initial ≠ v.retry := by
  revert v
  decide

namespace ClientInitial

/-- The first byte, protected or not. -/
theorem toNat_first (p : ClientInitial) :
    p.first.toNat = 0xC0 + p.version.initial * 16 + (p.pnLen - 1) := by
  obtain ⟨-, htype, -⟩ := version_sizes p.known
  have hle := p.pnLen_le
  rw [first, UInt8.toNat_ofNat']
  omega

/-! ## The header -/

/-- A length of one byte. -/
theorem toNat_ofNat_of_le {n : ℕ} (h : n ≤ 255) : (UInt8.ofNat n).toNat = n := by
  rw [UInt8.toNat_ofNat']
  omega

/-- What is read behind the first byte, and where the packet number stands. -/
structure Reads (p : ClientInitial) (d rest : Bytes) : Prop where
  id : getSlice d 1 4 = some (beBytes 4 p.version.id)
  dcidLength : d[5]? = some (UInt8.ofNat p.dcid.length)
  dcid : getSlice d 6 p.dcid.length = some p.dcid
  scidLength : d[6 + p.dcid.length]? = some (UInt8.ofNat p.scid.length)
  tokenLength : varint d (6 + p.dcid.length + 1 + p.scid.length) =
    some (p.token.length, p.tokenLength.size)
  length : varint d (6 + p.dcid.length + 1 + p.scid.length + p.tokenLength.size + p.token.length) =
    some (p.pnLen + p.plain.length + 16, p.length.size)
  number : Stands d p.pnOff rest

theorem reads_fields (p : ClientInitial) {d rest : Bytes} (h : Stands d 1 (p.fields rest)) :
    p.Reads d rest := by
  have hdcidLength := h.skip
  have hdcid := hdcidLength.tail
  have hscidLength := hdcid.skip
  have htokenLength := hscidLength.tail.skip
  have hlength := (p.tokenLength.after htokenLength).skip
  have hread := p.tokenLength.read htokenLength
  have hread' := p.length.read hlength
  rw [p.tokenLength_value] at hread
  rw [p.length_value] at hread'
  exact ⟨h.getSlice, hdcidLength.getElem?, hdcid.getSlice, hscidLength.getElem?, hread, hread',
    p.length.after hlength⟩

/-- The header is found, whatever protects it and whatever follows. -/
theorem header_fields (p : ClientInitial) {b : UInt8} (hb : b.toNat / 16 = p.first.toNat / 16)
    {rest : Bytes} (hrest : p.pnLen + p.plain.length + 16 ≤ rest.length) :
    Quic.header (b :: p.fields rest) = some p.header := by
  obtain ⟨hid, htype, hretry⟩ := version_sizes p.known
  have hfirst := p.toNat_first
  have hle := p.pnLen_le
  have hdcid := p.dcid_le
  have hlong : ¬ b.toNat < 0x80 := by omega
  have hptype : b.toNat / 16 % 4 = p.version.initial := by omega
  generalize hpacket : b :: p.fields rest = d
  have hstart : Stands d 0 (b :: p.fields rest) := hpacket ▸ Stands.start d
  have hreads := p.reads_fields hstart.tail
  have hstop : p.stop ≤ d.length := by
    rw [hreads.number.length, stop]
    omega
  rw [stop, pnOff] at hstop
  rw [Quic.header, hstart.getElem?, hreads.id, hreads.dcidLength]
  simp only [Option.bind_eq_bind, Option.bind_some, if_neg hlong, beNat_beBytes_of_lt hid,
    find?_version p.known, hptype, if_neg hretry, toNat_ofNat_of_le (hdcid.trans (by decide)),
    if_neg (not_lt.mpr hdcid), hreads.dcid, hreads.scidLength, toNat_ofNat_of_le p.scid_le,
    decide_true, if_true, hreads.tokenLength, Option.map_some, hreads.length]
  rw [if_pos (by omega)]
  rfl

/-! ## The plaintext -/

theorem length_truncated (p : ClientInitial) : p.truncated.length = p.pnLen := length_beBytes _ _

theorem beNat_truncated (p : ClientInitial) : beNat p.truncated = p.number % 256 ^ p.pnLen := by
  rw [truncated, beBytes, beNat_reverse, leNat_leBytes]

/-- The first byte says how long the packet number is. -/
theorem first_mod (p : ClientInitial) : p.first.toNat % 4 + 1 = p.pnLen := by
  have hfirst := p.toNat_first
  have hpos := p.pnLen_pos
  have hle := p.pnLen_le
  omega

theorem fields_eq (p : ClientInitial) (rest : Bytes) : p.fields rest = p.fields [] ++ rest := by
  rw [← fields_append, List.nil_append]

/-- The sample is taken behind the longest packet number, so it does not depend on
the protection of the number. -/
theorem sample_eq (p : ClientInitial) {number : Bytes} (hlength : number.length = p.pnLen)
    (text : Bytes) : (p.truncated ++ text).drop 4 = (number ++ text).drop 4 := by
  have hshort : p.truncated.length ≤ 4 := p.length_truncated.trans_le p.pnLen_le
  have hshort' : number.length ≤ 4 := hlength.trans_le p.pnLen_le
  rw [List.drop_append, List.drop_append, List.drop_eq_nil_of_le hshort,
    List.drop_eq_nil_of_le hshort', p.length_truncated, hlength]

section Open

variable {c : Ciphers} {encrypt : Bytes → Bytes → Bytes → Bytes → Bytes × Bytes}

/-- A packet with its header protected by `mask` is opened, if the sample in it gives
that mask. -/
theorem open_masked (p : ClientInitial) {keys : Keys} {mask text tag : Bytes} (rest : Bytes)
    {largest : Option ℕ} (hmask : mask.length = 16) (htext : text.length = p.plain.length)
    (htag : tag.length = 16)
    (hsample : c.encryptBlock keys.hp (((p.truncated ++ (text ++ tag)).drop 4).take 16) = mask)
    (hplain : c.decrypt keys.key (keys.nonce p.number) p.associated text tag = some p.plain)
    (hnumber : decodeNumber (p.number % 256 ^ p.pnLen) (p.pnLen * 8) largest = p.number) :
    openPacket c keys (((p.first ^^^ (mask.getD 0 0 &&& 0x0f)) ::
      p.fields (xorBytes p.truncated ((mask.drop 1).take p.pnLen) ++ (text ++ tag))) ++ rest)
      p.header largest = some (p.plain, p.number) := by
  have hle := p.pnLen_le
  have henough := p.enough
  have hused : ((mask.drop 1).take p.pnLen).length = p.pnLen := by
    rw [List.length_take, List.length_drop]
    omega
  have hxor := xorBytes_xorBytes (a := p.truncated) (p.length_truncated.trans hused.symm)
  generalize hm : (mask.drop 1).take p.pnLen = used at hused hxor
  generalize hn : xorBytes p.truncated used = number at hxor
  have hlength : number.length = p.pnLen := by
    rw [← hn, xorBytes, List.length_zipWith, p.length_truncated, hused, min_self]
  generalize hb : p.first ^^^ (mask.getD 0 0 &&& 0x0f) = b
  have hfirst : b ^^^ (mask.getD 0 0 &&& 0x0f) = p.first := by
    rw [← hb, UInt8.xor_assoc, UInt8.xor_self, UInt8.xor_zero]
  generalize hk : b :: p.fields (number ++ (text ++ tag)) = packet
  have hstands : Stands packet p.pnOff (number ++ (text ++ tag)) := by
    rw [← hk]
    exact (p.reads_fields (Stands.start _).tail).number
  have hstop : packet.length = p.header.end := by
    have hlengths := hstands.length
    rw [List.length_append, List.length_append, hlength, htext, htag] at hlengths
    exact hlengths
  have hslice : getSlice packet (p.pnOff + 4) 16 =
      some (((p.truncated ++ (text ++ tag)).drop 4).take 16) := by
    have hend : packet.length = p.pnOff + (p.pnLen + p.plain.length + 16) := hstop
    rw [getSlice, if_pos (by omega), ← List.drop_drop, hstands.2, p.sample_eq hlength]
  have hopened : packet.set 0 p.first = p.first :: p.fields (number ++ (text ++ tag)) := by
    rw [← hk, List.set_cons_zero]
  have hnumberAt : ((packet.set 0 p.first).drop p.pnOff).take p.pnLen = number := by
    rw [hopened, (p.reads_fields (Stands.start _).tail).number.2, ← hlength, List.take_left]
  have hhead : packet.getD 0 0 = b := by
    rw [← hk]
    rfl
  have hfront : (p.first :: p.fields []).length = p.pnOff := p.length_fields []
  have hplainHeader : overwrite (packet.set 0 p.first) p.pnOff p.truncated =
      p.associated ++ (text ++ tag) := by
    rw [hopened, p.fields_eq, ← List.cons_append, ← hfront, overwrite_append _ _ _ _
      (p.length_truncated.trans hlength.symm), associated, p.fields_eq p.truncated]
    simp only [List.cons_append, List.append_assoc]
  rw [openPacket, List.take_left' hstop]
  have hoff : p.header.pnOff = p.pnOff := rfl
  simp only [hoff, hslice, Option.bind_eq_bind, Option.bind_some, hsample, hhead, hfirst,
    p.first_mod, hnumberAt, hm, hxor, hplainHeader, p.beNat_truncated, hnumber]
  have hassociated : p.associated.length = p.pnOff + p.pnLen := by
    rw [associated, List.length_cons, p.length_fields, p.length_truncated]
  have hend : p.header.end = p.pnOff + p.pnLen + p.plain.length + 16 := by
    change p.pnOff + (p.pnLen + p.plain.length + 16) = _
    omega
  have htext' : p.header.end - 16 - (p.pnOff + p.pnLen) = text.length := by omega
  have htagAt : p.header.end - 16 = p.associated.length + text.length := by omega
  rw [if_neg (by omega), htext', htagAt, ← hassociated, List.take_left, List.drop_left,
    List.take_left, ← List.drop_drop, List.drop_left, List.drop_left, hplain]
  rfl

/-- **Opening undoes sealing.** Whatever the client puts into an Initial packet, in
whatever forms it writes the lengths, and whatever follows in the datagram: the
header is found, and the plaintext and the full packet number come back, provided
that the number is the one that is made of its lowest bytes. -/
theorem sealed_packet_opened (h : Seals c encrypt) (keys : Keys) (p : ClientInitial) (rest : Bytes)
    {largest : Option ℕ}
    (hnumber : decodeNumber (p.number % 256 ^ p.pnLen) (p.pnLen * 8) largest = p.number) :
    Quic.header (p.sealed c encrypt keys ++ rest) = some p.header ∧
      openPacket c keys (p.sealed c encrypt keys ++ rest) p.header largest =
        some (p.plain, p.number) := by
  have hplain := h.decrypts keys.key (keys.nonce p.number) p.associated p.plain
  have htext := h.text keys.key (keys.nonce p.number) p.associated p.plain
  have htag := h.tag keys.key (keys.nonce p.number) p.associated p.plain
  have hmask := h.block keys.hp
  constructor
  · rw [sealed]
    dsimp only
    rw [List.cons_append, ← fields_append]
    apply p.header_fields (toNat_xor_low _ _)
    simp only [xorBytes, List.length_append, List.length_zipWith, List.length_take,
      List.length_drop, hmask, htext, htag, p.length_truncated]
    have hle := p.pnLen_le
    omega
  · exact p.open_masked rest (hmask _) htext htag rfl hplain hnumber

end Open

end ClientInitial

/-! ## A sample packet -/

/-- The keys of the sample connection. -/
def sampleKeys : Keys where
  key := sampleSecrets[1].2
  iv := sampleSecrets[2].2
  hp := sampleSecrets[3].2

theorem versions_ne_nil : versions ≠ [] := by decide

theorem zero_lt_sixtyFour : 0 < 64 := by decide

/-- The first packet of the sample connection. -/
def sampleInitial : ClientInitial where
  version := versions.head versions_ne_nil
  known := by decide
  dcid := sampleKey.2.2
  dcid_le := by decide
  scid := []
  scid_le := by decide
  token := []
  tokenLength := .short 0 zero_lt_sixtyFour
  tokenLength_value := rfl
  pnLen := 1
  pnLen_pos := Nat.le_refl 1
  pnLen_le := by decide
  number := 0
  plain := encodeFrames sampleTail
  enough := by decide
  length := { value := 50, form := 1, form_lt := by decide, value_lt := by decide }
  length_value := by decide

/-- The payload of the packet as it is sealed. -/
def sampleText : Bytes × Bytes := ((sampleTailPacket.drop 19).take 33, sampleTailPacket.drop 52)

/-- AES-128-GCM on the sample packet. -/
def sampleEncrypt (key nonce ad plain : Bytes) : Bytes × Bytes :=
  if key = sampleKeys.key ∧ nonce = sampleKeys.iv ∧ ad = sampleInitial.associated ∧
      plain = sampleInitial.plain then sampleText
  else (plain, List.replicate 16 0)

/-- The cryptography of the sample connection, which undoes `sampleEncrypt`. -/
def sealingCiphers : Ciphers where
  extract := sampleCiphers.extract
  expand := sampleCiphers.expand
  encryptBlock := sampleCiphers.encryptBlock
  decrypt key nonce ad text tag :=
    if key = sampleKeys.key ∧ nonce = sampleKeys.iv ∧ ad = sampleInitial.associated ∧
        (text, tag) = sampleText then some sampleInitial.plain
    else if tag = List.replicate 16 0 then some text
    else none

theorem sealingCiphers_seals : Seals sealingCiphers sampleEncrypt where
  block key block := by
    change (if _ then _ else _ : Bytes).length = 16
    split <;> rfl
  text key nonce ad plain := by
    unfold sampleEncrypt
    split
    · rename_i h
      rw [h.2.2.2]
      decide
    · rfl
  tag key nonce ad plain := by
    unfold sampleEncrypt
    split
    · decide
    · rfl
  decrypts key nonce ad plain := by
    have hdiffers : sampleText.2 ≠ List.replicate 16 0 := by decide
    unfold sampleEncrypt
    split
    · rename_i h
      exact (if_pos ⟨h.1, h.2.1, h.2.2.1, rfl⟩).trans (congrArg some h.2.2.2.symm)
    · refine (if_neg ?_).trans (if_pos rfl)
      rintro ⟨-, -, -, hsame⟩
      exact hdiffers (congrArg Prod.snd hsame).symm

/-- The first packet of the sample connection is opened in front of the second. -/
theorem sealed_packet_opened_sample :
    Keys.new sealingCiphers sampleInitial.version sampleInitial.dcid = some sampleKeys ∧
      header (sampleTailPacket ++ sampleHeadPacket) = some (sampleHeader 68) ∧
      openPacket sealingCiphers sampleKeys (sampleTailPacket ++ sampleHeadPacket) (sampleHeader 68)
        none = some (encodeFrames sampleTail, 0) := by
  have hpacket : sampleInitial.sealed sealingCiphers sampleEncrypt sampleKeys =
      sampleTailPacket := by
    decide +kernel
  have hheader : sampleInitial.header = sampleHeader 68 := by decide +kernel
  have hnumber : decodeNumber (0 % 256 ^ 1) (1 * 8) none = 0 := by decide
  have hopened := sampleInitial.sealed_packet_opened sealingCiphers_seals sampleKeys
    sampleHeadPacket hnumber
  rw [hpacket, hheader] at hopened
  exact ⟨by decide +kernel, hopened⟩

end SocketTrail.Pcap.Quic
