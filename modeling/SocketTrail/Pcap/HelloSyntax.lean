/-
# ClientHello messages and the names they announce

`ClientHello` has the messages of a client with any fields and any extensions, and
`Announces` the byte strings in which the first server_name extension of a message
has one host name. `clientHelloSni_exact` says that the parser returns the names
that are announced, and no others.
-/

import SocketTrail.Pcap.Hello

namespace SocketTrail.Pcap

open SocketTrail.Foundation

/-! ## Host names -/

/-- One to 253 letters, digits, hyphens, dots and underscores. -/
structure IsHostName (name : Bytes) : Prop where
  nonempty : 1 ≤ name.length
  short : name.length ≤ 253
  chars : name.all isNameByte = true

/-- The name as it is shown, in lower case. -/
def hostText (name : Bytes) : String :=
  toAsciiLowercase (String.ofList (name.map fun b => Char.ofNat b.toNat))

/-- A byte of a host name is shown as one ASCII character of a host name. -/
theorem isNameByte_shown {b : UInt8} (h : isNameByte b = true) :
    (Char.ofNat b.toNat).toLower.utf8Size = 1 ∧
      ((Char.ofNat b.toNat).toLower.isAlphanum = true ∨ (Char.ofNat b.toNat).toLower = '-' ∨
        (Char.ofNat b.toNat).toLower = '.' ∨ (Char.ofNat b.toNat).toLower = '_') := by
  have hall : ∀ n < 256, isNameByte (UInt8.ofNat n) = true →
      (Char.ofNat n).toLower.utf8Size = 1 ∧ ((Char.ofNat n).toLower.isAlphanum = true ∨
        (Char.ofNat n).toLower = '-' ∨ (Char.ofNat n).toLower = '.' ∨
        (Char.ofNat n).toLower = '_') := by
    decide +kernel
  exact hall b.toNat b.toNat_lt (by rwa [UInt8.ofNat_toNat])

theorem toList_hostText (name : Bytes) :
    (hostText name).toList = name.map fun b => (Char.ofNat b.toNat).toLower := by
  rw [hostText, toAsciiLowercase, String.toList_ofList, String.toList_ofList, List.map_map]
  rfl

/-- The text is as long as the name, and made of the same kind of characters. -/
theorem IsHostName.shown {name : Bytes} (h : IsHostName name) :
    (hostText name).utf8ByteSize = name.length ∧
      ∀ c ∈ (hostText name).toList, c.isAlphanum = true ∨ c = '-' ∨ c = '.' ∨ c = '_' := by
  have hchars := List.all_eq_true.mp h.chars
  have hsize {bytes : Bytes} (hbytes : ∀ b ∈ bytes, isNameByte b = true) :
      (String.ofList (bytes.map fun b => (Char.ofNat b.toNat).toLower)).utf8ByteSize =
        bytes.length := by
    induction bytes with
    | nil => rfl
    | cons b rest ih =>
        obtain ⟨hb, hrest⟩ := List.forall_mem_cons.mp hbytes
        rw [List.map_cons, String.ofList_cons, String.utf8ByteSize_append,
          String.utf8ByteSize_singleton, ih hrest, (isNameByte_shown hb).1, List.length_cons,
          Nat.add_comm]
  constructor
  · rw [← hsize hchars, ← toList_hostText, String.ofList_toList]
  · intro c hc
    rw [toList_hostText, List.mem_map] at hc
    obtain ⟨b, hb, rfl⟩ := hc
    exact (isNameByte_shown (hchars b hb)).2

/-- A list of server names with one entry, a host name. -/
def serverNameBody (name : Bytes) : Bytes :=
  beBytes 2 (name.length + 3) ++ (0 :: (beBytes 2 name.length ++ name))

theorem length_serverNameBody (name : Bytes) :
    (serverNameBody name).length = name.length + 5 := by
  rw [serverNameBody, List.length_append, List.length_cons, List.length_append, length_beBytes,
    length_beBytes]
  omega

/-- A host name in its list is read. -/
theorem serverName_body {name : Bytes} (h : IsHostName name) :
    serverName (serverNameBody name) = some (hostText name) := by
  have hshort := h.short
  have hpos := h.nonempty
  have hstart := Stands.start (serverNameBody name)
  have hlist : be16 (serverNameBody name) 0 = some (name.length + 3) := hstart.be16 (by omega)
  have hkind := hstart.skip
  rw [length_beBytes] at hkind
  have hname := hkind.tail.skip
  rw [length_beBytes] at hname
  have hlen : be16 (serverNameBody name) 3 = some name.length := hkind.tail.be16 (by omega)
  have hslice : getSlice (serverNameBody name) 5 name.length = some name :=
    @Stands.getSlice _ _ [] _ (by rw [List.append_nil]; exact hname)
  have hzero : (serverNameBody name)[2]? = some 0 := hkind.getElem?
  simp only [serverName, hlist, hzero, hlen, hslice, length_serverNameBody, Option.bind_eq_bind,
    Option.bind_some, h.chars]
  rw [if_neg (by simp), if_neg (by omega), if_pos trivial]
  rfl

/-- Only a host name in its list is read. -/
theorem serverName_sound {body : Bytes} {n : String} (h : serverName body = some n) :
    ∃ name, IsHostName name ∧ body = serverNameBody name ∧ n = hostText name := by
  unfold serverName at h
  obtain ⟨listLen, hlist, h⟩ := Option.bind_eq_some_iff.mp h
  obtain ⟨kind, hkind, h⟩ := Option.bind_eq_some_iff.mp h
  split at h
  · contradiction
  · rename_i hwhole
    rw [not_or, not_not, not_not] at hwhole
    obtain ⟨hlength, rfl⟩ := hwhole
    obtain ⟨nameLen, hlen, h⟩ := Option.bind_eq_some_iff.mp h
    split at h
    · contradiction
    · rename_i hsize
      rw [not_or, not_or, not_not, not_lt] at hsize
      obtain ⟨hpos, hshort, hentry⟩ := hsize
      obtain ⟨name, hslice, h⟩ := Option.bind_eq_some_iff.mp h
      obtain ⟨hname, hdrop⟩ := drop_of_getSlice hslice
      split at h
      · rename_i hchars
        have hend : body.drop (5 + nameLen) = [] := List.drop_eq_nil_of_le (by omega)
        refine ⟨name, ⟨by omega, by omega, hchars⟩, ?_, (Option.some.inj h).symm⟩
        calc
          body = beBytes 2 listLen ++ body.drop 2 := (drop_of_be16 hlist).2
          _ = beBytes 2 listLen ++ (0 :: (beBytes 2 nameLen ++ body.drop 5)) := by
            rw [drop_of_getElem? hkind, (drop_of_be16 hlen).2]
          _ = serverNameBody name := by
            rw [hdrop, hend, List.append_nil, serverNameBody, hname, hentry]
      · contradiction

/-! ## Extensions -/

/-- An extension of any type. -/
structure HelloExtension where
  type : UInt16
  body : Bytes
  fits : body.length < 65536

namespace HelloExtension

def encode (x : HelloExtension) : Bytes :=
  beBytes 2 x.type.toNat ++ (beBytes 2 x.body.length ++ x.body)

theorem length_encode (x : HelloExtension) : x.encode.length = 4 + x.body.length := by
  simp only [encode, List.length_append, length_beBytes]
  omega

/-- The server_name extension with one host name. -/
def named (name : Bytes) (h : IsHostName name) : HelloExtension where
  type := 0
  body := serverNameBody name
  fits := by
    have hshort := h.short
    rw [length_serverNameBody]
    omega

end HelloExtension

def extensionBytes (exts : List HelloExtension) : Bytes :=
  (exts.map HelloExtension.encode).flatten

theorem extensionBytes_cons (x : HelloExtension) (exts : List HelloExtension) :
    extensionBytes (x :: exts) = x.encode ++ extensionBytes exts := rfl

theorem extensionBytes_append (first second : List HelloExtension) :
    extensionBytes (first ++ second) = extensionBytes first ++ extensionBytes second := by
  rw [extensionBytes, List.map_append, List.flatten_append]
  rfl

theorem length_le_extensionBytes (exts : List HelloExtension) :
    4 * exts.length ≤ (extensionBytes exts).length := by
  induction exts with
  | nil => exact le_rfl
  | cons x xs ih =>
      rw [extensionBytes_cons, List.length_append, x.length_encode, List.length_cons]
      omega

section Extensions

variable {hello rest : Bytes} {stop fuel p : ℕ}

/-- The search at an extension. -/
theorem helloExtensions_step {x : HelloExtension} (h : Stands hello p (x.encode ++ rest))
    (hstop : p + x.encode.length ≤ stop) :
    helloExtensions hello stop (fuel + 1) p =
      if x.type = 0 then serverName x.body
      else helloExtensions hello stop fuel (p + x.encode.length) := by
  have htype := h
  rw [HelloExtension.encode, List.append_assoc, List.append_assoc] at htype
  have hlen := htype.skip
  rw [length_beBytes] at hlen
  have hbody := hlen.skip
  rw [length_beBytes, Nat.add_assoc] at hbody
  rw [x.length_encode, ← Nat.add_assoc] at hstop
  rw [x.length_encode, ← Nat.add_assoc, helloExtensions, if_neg (by omega)]
  simp only [htype.be16 x.type.toNat_lt, hlen.be16 x.fits, hbody.getSlice, Option.bind_eq_bind,
    Option.bind_some]
  rw [if_neg (by omega)]
  refine if_congr ?_ rfl rfl
  rw [← UInt16.toNat_inj]
  rfl

/-- The search passes over extensions of other types. -/
theorem helloExtensions_skip {before : List HelloExtension} (hother : ∀ x ∈ before, x.type ≠ 0)
    (h : Stands hello p (extensionBytes before ++ rest))
    (hstop : p + (extensionBytes before).length ≤ stop) :
    helloExtensions hello stop (fuel + before.length) p =
      helloExtensions hello stop fuel (p + (extensionBytes before).length) := by
  induction before generalizing p with
  | nil => rfl
  | cons x xs ih =>
      obtain ⟨hx, hxs⟩ := List.forall_mem_cons.mp hother
      rw [extensionBytes_cons, List.append_assoc] at h
      rw [extensionBytes_cons, List.length_append, ← Nat.add_assoc] at hstop ⊢
      rw [List.length_cons, ← Nat.add_assoc, helloExtensions_step h (by omega), if_neg hx,
        ih hxs h.skip hstop]

/-- The first server_name extension decides. -/
theorem helloExtensions_named {before : List HelloExtension} (hother : ∀ x ∈ before, x.type ≠ 0)
    {name : Bytes} (hname : IsHostName name)
    (h : Stands hello p
      (extensionBytes before ++ ((HelloExtension.named name hname).encode ++ rest)))
    (hstop : p + (extensionBytes before).length + (HelloExtension.named name hname).encode.length ≤
      stop) (hfuel : before.length < fuel) :
    helloExtensions hello stop fuel p = some (hostText name) := by
  obtain ⟨more, rfl⟩ : ∃ more, fuel = more + 1 + before.length :=
    ⟨fuel - before.length - 1, by omega⟩
  have htype : (HelloExtension.named name hname).type = 0 := rfl
  rw [helloExtensions_skip hother h (by omega), helloExtensions_step h.skip hstop, if_pos htype]
  exact serverName_body hname

/-- Without a server_name extension nothing is found. -/
theorem helloExtensions_none {exts : List HelloExtension} (hother : ∀ x ∈ exts, x.type ≠ 0)
    (h : Stands hello p (extensionBytes exts ++ rest))
    (hfuel : exts.length ≤ fuel) :
    helloExtensions hello (p + (extensionBytes exts).length) fuel p = none := by
  obtain ⟨more, rfl⟩ : ∃ more, fuel = more + exts.length := ⟨fuel - exts.length, by omega⟩
  rw [helloExtensions_skip hother h le_rfl]
  cases more with
  | zero => rfl
  | succ more => rw [helloExtensions, if_pos (by omega)]

/-- What is found stands in the first server_name extension, within the block. -/
theorem helloExtensions_sound {n : String} (h : helloExtensions hello stop fuel p = some n) :
    p ≤ stop ∧ ∃ before name, ∃ hname : IsHostName name, ∃ inside,
      (∀ x ∈ before, x.type ≠ 0) ∧ n = hostText name ∧
      hello.drop p = extensionBytes before ++
        ((HelloExtension.named name hname).encode ++ (inside ++ hello.drop stop)) := by
  induction fuel generalizing p with
  | zero => contradiction
  | succ fuel ih =>
      rw [helloExtensions] at h
      split at h
      · contradiction
      · obtain ⟨etype, htype, h⟩ := Option.bind_eq_some_iff.mp h
        obtain ⟨elen, hlen, h⟩ := Option.bind_eq_some_iff.mp h
        split at h
        · contradiction
        · rename_i hinside
          obtain ⟨ebody, hbody, h⟩ := Option.bind_eq_some_iff.mp h
          obtain ⟨htypeLt, htypeDrop⟩ := drop_of_be16 htype
          obtain ⟨hlenLt, hlenDrop⟩ := drop_of_be16 hlen
          obtain ⟨hbodyLen, hbodyDrop⟩ := drop_of_getSlice hbody
          have hdrop : hello.drop p = beBytes 2 etype ++ (beBytes 2 elen ++ (ebody ++
              hello.drop (p + 4 + elen))) := by
            rw [htypeDrop, hlenDrop, hbodyDrop]
          refine ⟨by omega, ?_⟩
          split at h
          · rename_i hzero
            obtain ⟨name, hname, rfl, rfl⟩ := serverName_sound h
            have hinsideDrop : (hello.drop (p + 4 + elen)).take (stop - (p + 4 + elen)) ++
                hello.drop stop = hello.drop (p + 4 + elen) := by
              have hsplit := take_append_drop_add hello (p + 4 + elen) (stop - (p + 4 + elen))
              rwa [Nat.add_sub_cancel' (by omega)] at hsplit
            refine ⟨[], name, hname, (hello.drop (p + 4 + elen)).take (stop - (p + 4 + elen)),
              by simp, rfl, ?_⟩
            rw [hdrop, hinsideDrop, hzero, ← hbodyLen]
            simp only [HelloExtension.encode, HelloExtension.named, extensionBytes, List.map_nil,
              List.flatten_nil, List.nil_append, List.append_assoc]
            rfl
          · rename_i hother
            obtain ⟨-, before, name, hname, inside, hbefore, htext, hmore⟩ := ih h
            have htypeEq : (UInt16.ofNat etype).toNat = etype := by
              rw [UInt16.toNat_ofNat', Nat.mod_eq_of_lt htypeLt]
            refine ⟨⟨UInt16.ofNat etype, ebody, hbodyLen ▸ hlenLt⟩ :: before, name, hname, inside,
              ?_, htext, ?_⟩
            · refine List.forall_mem_cons.mpr ⟨fun hzero => hother ?_, hbefore⟩
              exact htypeEq.symm.trans (congrArg UInt16.toNat hzero)
            · rw [hdrop, hmore, extensionBytes_cons]
              simp only [HelloExtension.encode, htypeEq, hbodyLen, List.append_assoc]

end Extensions

/-! ## Messages -/

/-- The fields of a ClientHello in front of its extensions. -/
structure HelloHead where
  version : FixedBytes 2
  random : FixedBytes 32
  session : { b : Bytes // b.length < 256 }
  suites : { b : Bytes // b.length < 65536 }
  compression : { b : Bytes // b.length < 256 }

namespace HelloHead

def encode (h : HelloHead) : Bytes :=
  h.version.1 ++ (h.random.1 ++ (UInt8.ofNat h.session.1.length :: (h.session.1 ++
    (beBytes 2 h.suites.1.length ++ (h.suites.1 ++
      (UInt8.ofNat h.compression.1.length :: h.compression.1))))))

def length (h : HelloHead) : ℕ :=
  34 + 1 + h.session.1.length + 2 + h.suites.1.length + 1 + h.compression.1.length

theorem length_encode (h : HelloHead) : h.encode.length = h.length := by
  simp only [encode, length, List.length_append, List.length_cons, length_beBytes, h.version.2,
    h.random.2]
  omega

end HelloHead

/-- A handshake message of the kind ClientHello. -/
def handshake (body : Bytes) : Bytes := 1 :: (beBytes 3 body.length ++ body)

theorem length_handshake (body : Bytes) : (handshake body).length = 4 + body.length := by
  rw [handshake, List.length_cons, List.length_append, length_beBytes]
  omega

/-- The message that begins a byte string is cut out of it. -/
theorem message_of_handshake {body : Bytes} (hfits : body.length < 2 ^ 24) (beyond : Bytes) :
    getSlice (handshake body ++ beyond) 1 3 = some (beBytes 3 body.length) ∧
      getSlice (handshake body ++ beyond) 0 (4 + beNat (beBytes 3 body.length)) =
        some (handshake body) := by
  constructor
  · have hlength := (Stands.start (handshake body ++ beyond)).tail
    rw [Nat.zero_add, List.append_eq, List.append_assoc] at hlength
    have hslice := hlength.getSlice
    rwa [length_beBytes] at hslice
  · rw [beNat_beBytes_of_lt hfits, ← length_handshake]
    exact (Stands.start (handshake body ++ beyond)).getSlice

/-- The lengths of the fields are read where they stand. -/
theorem HelloHead.read (h : HelloHead) {hello tail : Bytes}
    (hbody : Stands hello 4 (h.encode ++ tail)) :
    (hello[4 + 2 + 32]?).map UInt8.toNat = some h.session.1.length ∧
    be16 hello (4 + 2 + 32 + 1 + h.session.1.length) = some h.suites.1.length ∧
    (hello[4 + 2 + 32 + 1 + h.session.1.length + 2 + h.suites.1.length]?).map UInt8.toNat =
      some h.compression.1.length := by
  rw [HelloHead.encode] at hbody
  simp only [List.append_assoc, List.cons_append] at hbody
  have hsession := hbody.skip.skip
  rw [h.version.2, h.random.2] at hsession
  have hsuites := hsession.tail.skip
  have hcompression := hsuites.skip.skip
  rw [length_beBytes] at hcompression
  refine ⟨?_, hsuites.be16 h.suites.2, ?_⟩
  · rw [hsession.getElem?, Option.map_some, UInt8.toNat_ofNat', Nat.mod_eq_of_lt h.session.2]
  · rw [hcompression.getElem?, Option.map_some, UInt8.toNat_ofNat',
      Nat.mod_eq_of_lt h.compression.2]

/-- The parser behind the fields in front of the extensions. -/
theorem clientHelloSni_handshake (h : HelloHead) {tail : Bytes}
    (hfits : (h.encode ++ tail).length < 2 ^ 24) (beyond : Bytes) :
    Stands (handshake (h.encode ++ tail)) (4 + h.length) tail ∧
    clientHelloSni (handshake (h.encode ++ tail) ++ beyond) =
      (be16 tail 0).bind fun extTotal =>
        if tail.length < 2 + extTotal then none
        else helloExtensions (handshake (h.encode ++ tail)) (4 + h.length + 2 + extTotal)
          (handshake (h.encode ++ tail)).length (4 + h.length + 2) := by
  obtain ⟨hlen, hmessage⟩ := message_of_handshake hfits beyond
  have hkind : (handshake (h.encode ++ tail) ++ beyond)[0]? = some 1 := rfl
  have hbody : Stands (handshake (h.encode ++ tail)) 4 (h.encode ++ tail) := by
    have hskip := (Stands.start (handshake (h.encode ++ tail))).tail.skip
    rwa [length_beBytes] at hskip
  have htail := hbody.skip
  rw [h.length_encode] at htail
  refine ⟨htail, ?_⟩
  obtain ⟨hsession, hsuites, hcompression⟩ := h.read hbody
  obtain ⟨sidLen, hsidLen, hsid⟩ := Option.map_eq_some_iff.mp hsession
  obtain ⟨compLen, hcompLen, hcomp⟩ := Option.map_eq_some_iff.mp hcompression
  have hposition : 4 + 2 + 32 + 1 + h.session.1.length + 2 + h.suites.1.length + 1 +
      h.compression.1.length = 4 + h.length := by
    rw [HelloHead.length]
    omega
  simp only [clientHelloSni, hkind, hlen, hmessage, Option.bind_eq_bind, Option.bind_some, ne_eq,
    not_true_eq_false, if_false, hsidLen, hsid, hsuites, hcompLen, hcomp, hposition, htail.be16_eq]
  cases be16 tail 0 with
  | none => rfl
  | some extTotal =>
      rw [Option.bind_some, Option.bind_some]
      refine if_congr ?_ rfl rfl
      rw [htail.length]
      omega

/-- A message that is cut out of a byte string begins it. -/
theorem handshake_of_message {d three hello : Bytes} (hkind : d[0]? = some 1)
    (hthree : getSlice d 1 3 = some three) (hhello : getSlice d 0 (4 + beNat three) = some hello) :
    ∃ body beyond, body.length < 2 ^ 24 ∧ hello = handshake body ∧
      d = handshake body ++ beyond := by
  obtain ⟨hthreeLen, hthreeDrop⟩ := drop_of_getSlice hthree
  obtain ⟨hlength, hcut⟩ := drop_of_getSlice hhello
  rw [List.drop_zero, Nat.zero_add] at hcut
  have hlt : beNat three < 256 ^ 3 := hthreeLen ▸ beNat_lt three
  have hwhole : hello.length + (d.drop (4 + beNat three)).length = d.length := by
    rw [← List.length_append, ← hcut]
  have hbody : ((d.drop 4).take (beNat three)).length = beNat three := by
    rw [List.length_take, List.length_drop]
    omega
  have hthreeBytes : beBytes 3 (beNat three) = three := hthreeLen ▸ beBytes_beNat three
  have hd : d = handshake ((d.drop 4).take (beNat three)) ++ d.drop (4 + beNat three) := by
    calc
      d = 1 :: (three ++ d.drop 4) := by
        have hfirst := drop_of_getElem? hkind
        rwa [hthreeDrop, List.drop_zero] at hfirst
      _ = 1 :: (three ++ ((d.drop 4).take (beNat three) ++ d.drop (4 + beNat three))) := by
        rw [take_append_drop_add]
      _ = handshake ((d.drop 4).take (beNat three)) ++ d.drop (4 + beNat three) := by
        rw [handshake, hbody, hthreeBytes, List.cons_append, List.append_assoc]
  refine ⟨(d.drop 4).take (beNat three), d.drop (4 + beNat three), by omega, ?_, hd⟩
  apply (List.append_inj (hcut.symm.trans hd) _).1
  rw [length_handshake, hbody, hlength]

/-- A slice within a string has its full length. -/
theorem length_slice {b : Bytes} {o n : ℕ} (h : o + n ≤ b.length) :
    ((b.drop o).take n).length = n := by
  rw [List.length_take, List.length_drop]
  omega

/-- Whatever gives a name begins with a message whose fields are all there. -/
theorem clientHelloSni_head {d : Bytes} {n : String} (h : clientHelloSni d = some n) :
    ∃ (head : HelloHead) (tail beyond : Bytes), (head.encode ++ tail).length < 2 ^ 24 ∧
      d = handshake (head.encode ++ tail) ++ beyond := by
  unfold clientHelloSni at h
  obtain ⟨kind, hkind, h⟩ := Option.bind_eq_some_iff.mp h
  split at h
  · contradiction
  · rename_i hone
    obtain rfl := not_not.mp hone
    obtain ⟨three, hthree, h⟩ := Option.bind_eq_some_iff.mp h
    obtain ⟨hello, hhello, h⟩ := Option.bind_eq_some_iff.mp h
    obtain ⟨sidLen, hsid, h⟩ := Option.bind_eq_some_iff.mp h
    obtain ⟨csLen, hcs, h⟩ := Option.bind_eq_some_iff.mp h
    obtain ⟨compLen, hcomp, h⟩ := Option.bind_eq_some_iff.mp h
    obtain ⟨extTotal, hext, -⟩ := Option.bind_eq_some_iff.mp h
    have hreach := length_of_be16 hext
    have hcsDrop := drop_of_be16 hcs
    have hsidLt := sidLen.toNat_lt
    have hcompLt := compLen.toNat_lt
    have hversion : ((hello.drop 4).take 2).length = 2 := length_slice (by omega)
    have hrandom : ((hello.drop (4 + 2)).take 32).length = 32 := length_slice (by omega)
    have hsession : ((hello.drop (4 + 2 + 32 + 1)).take sidLen.toNat).length = sidLen.toNat :=
      length_slice (by omega)
    have hsuites : ((hello.drop (4 + 2 + 32 + 1 + sidLen.toNat + 2)).take csLen).length = csLen :=
      length_slice (by omega)
    have hcompression : ((hello.drop
        (4 + 2 + 32 + 1 + sidLen.toNat + 2 + csLen + 1)).take compLen.toNat).length =
        compLen.toNat := length_slice (by omega)
    have hfields : hello.drop 4 =
        HelloHead.encode
          { version := ⟨_, hversion⟩
            random := ⟨_, hrandom⟩
            session := ⟨_, hsession.trans_lt hsidLt⟩
            suites := ⟨_, hsuites.trans_lt hcsDrop.1⟩
            compression := ⟨_, hcompression.trans_lt hcompLt⟩ } ++
          hello.drop (4 + 2 + 32 + 1 + sidLen.toNat + 2 + csLen + 1 + compLen.toNat) := by
      simp only [HelloHead.encode, hsession, hsuites, hcompression, UInt8.ofNat_toNat,
        List.append_assoc, List.cons_append, take_append_drop_add, ← drop_of_getElem? hcomp,
        ← hcsDrop.2, ← drop_of_getElem? hsid]
    obtain ⟨body, beyond, hbody, hmessage, hd⟩ := handshake_of_message hkind hthree hhello
    have hfour : hello.drop 4 = body := by
      rw [hmessage]
      rfl
    have hparts := hfour.symm.trans hfields
    exact ⟨_, _, beyond, hparts ▸ hbody, hparts ▸ hd⟩

/-- An extension block: its length and its bytes. -/
def extensionBlock (block : Bytes) : Bytes := beBytes 2 block.length ++ block

/-- A ClientHello; the oldest ones have no extension block. -/
structure ClientHello where
  head : HelloHead
  extensions : Option (List HelloExtension)
  fits : (extensionBytes (extensions.getD [])).length < 65536

namespace ClientHello

def body (m : ClientHello) : Bytes :=
  m.head.encode ++ ((m.extensions.map fun exts => extensionBlock (extensionBytes exts)).getD [])

def encode (m : ClientHello) : Bytes := handshake m.body

end ClientHello

/-- The byte string begins with a ClientHello whose first server_name extension has
the one host name. It stands within the extension block and this within the message;
what stands behind it in either is not looked at. -/
inductive Announces : Bytes → Bytes → Prop
  | intro (head : HelloHead) {before : List HelloExtension} {name : Bytes}
      (hname : IsHostName name) {inside behind : Bytes} (beyond : Bytes)
      (first : ∀ x ∈ before, x.type ≠ 0)
      (block : (extensionBytes before ++
        ((HelloExtension.named name hname).encode ++ inside)).length < 65536)
      (message : (head.encode ++ (extensionBlock (extensionBytes before ++
        ((HelloExtension.named name hname).encode ++ inside)) ++ behind)).length < 2 ^ 24) :
      Announces (handshake (head.encode ++ (extensionBlock (extensionBytes before ++
        ((HelloExtension.named name hname).encode ++ inside)) ++ behind)) ++ beyond) name

/-- The parser at an extension block. -/
theorem clientHelloSni_block (h : HelloHead) {block behind : Bytes} (hblock : block.length < 65536)
    (hfits : (h.encode ++ (extensionBlock block ++ behind)).length < 2 ^ 24) (beyond : Bytes) :
    ∃ hello p, Stands hello p (block ++ behind) ∧ block.length ≤ hello.length ∧
      clientHelloSni (handshake (h.encode ++ (extensionBlock block ++ behind)) ++ beyond) =
        helloExtensions hello (p + block.length) hello.length p := by
  obtain ⟨htail, hparse⟩ := clientHelloSni_handshake h hfits beyond
  rw [extensionBlock, List.append_assoc] at htail hparse
  have hstands := htail.skip
  rw [length_beBytes] at hstands
  have hlength := hstands.length
  rw [List.length_append] at hlength
  refine ⟨_, _, hstands, by omega, ?_⟩
  rw [extensionBlock, List.append_assoc, hparse, (Stands.start _).be16 hblock, Option.bind_some,
    if_neg]
  rw [List.length_append, List.length_append, length_beBytes]
  omega

/-- A name that is announced is returned. -/
theorem Announces.parse {d name : Bytes} (h : Announces d name) :
    clientHelloSni d = some (hostText name) := by
  cases h with
  | intro head hname beyond first block message =>
      rename_i before inside behind
      obtain ⟨hello, p, hstands, hlong, hparse⟩ := clientHelloSni_block head block message beyond
      have hfew := length_le_extensionBytes before
      rw [List.append_assoc, List.append_assoc] at hstands
      rw [List.length_append, List.length_append] at hlong
      have hentry := (HelloExtension.named name hname).length_encode
      rw [hparse]
      apply helloExtensions_named first hname hstands
      · rw [List.length_append, List.length_append]
        omega
      · omega

/-- A name that is returned is announced. -/
theorem announces_of_parse {d : Bytes} {n : String} (h : clientHelloSni d = some n) :
    ∃ name, Announces d name ∧ n = hostText name := by
  obtain ⟨head, tail, beyond, hfits, rfl⟩ := clientHelloSni_head h
  obtain ⟨htail, hparse⟩ := clientHelloSni_handshake head hfits beyond
  rw [hparse] at h
  obtain ⟨extTotal, htotal, h⟩ := Option.bind_eq_some_iff.mp h
  split at h
  · contradiction
  · rename_i hwithin
    obtain ⟨htotalLt, hdrop⟩ := drop_of_be16 htotal
    rw [List.drop_zero, Nat.zero_add] at hdrop
    have hlength := htail.length
    obtain ⟨hle, before, name, hname, inside, hfirst, htext, hblock⟩ := helloExtensions_sound h
    have hbehind : ((handshake (head.encode ++ tail)).drop
        (4 + head.length + 2 + extTotal)).length = tail.length - (2 + extTotal) := by
      rw [List.length_drop]
      omega
    generalize (handshake (head.encode ++ tail)).drop (4 + head.length + 2 + extTotal) = behind
      at hblock hbehind
    rw [hdrop] at htail
    have hrest := htail.skip.2
    rw [length_beBytes, ← hdrop, hblock] at hrest
    have htotalEq : (extensionBytes before ++
        ((HelloExtension.named name hname).encode ++ inside)).length = extTotal := by
      have hall := congrArg List.length hrest
      simp only [List.length_append, List.length_drop] at hall ⊢
      omega
    have htailEq : tail = extensionBlock (extensionBytes before ++
        ((HelloExtension.named name hname).encode ++ inside)) ++ behind := by
      rw [hdrop, ← hrest, extensionBlock, htotalEq]
      simp only [List.append_assoc]
    rw [htailEq] at hfits ⊢
    exact ⟨name, .intro head hname beyond hfirst (htotalEq ▸ htotalLt) hfits, htext⟩

/-! ## The result -/

/-- The fields of a message bound its length. -/
theorem ClientHello.length_body_lt (m : ClientHello) : m.body.length < 2 ^ 24 := by
  have hsession := m.head.session.2
  have hsuites := m.head.suites.2
  have hcompression := m.head.compression.2
  have hhead := m.head.length_encode
  have hfits := m.fits
  rw [HelloHead.length] at hhead
  rw [ClientHello.body, List.length_append]
  cases hexts : m.extensions with
  | none =>
      simp only [Option.map_none, Option.getD_none, List.length_nil]
      omega
  | some exts =>
      rw [hexts] at hfits
      simp only [Option.map_some, Option.getD_some, extensionBlock, List.length_append,
        length_beBytes] at hfits ⊢
      omega

/-- What stands behind the message has no influence. -/
theorem clientHelloSni_append {d : Bytes} (h : helloTotal d ≤ d.length) (rest : Bytes) :
    clientHelloSni (d ++ rest) = clientHelloSni d := by
  have hfour : 4 ≤ d.length := (Nat.le_add_right 4 _).trans h
  have hkind : (d ++ rest)[0]? = d[0]? := List.getElem?_append_left (by omega)
  have hslice {o n : ℕ} (hle : o + n ≤ d.length) : getSlice (d ++ rest) o n = getSlice d o n := by
    rw [getSlice, getSlice, if_pos hle, if_pos (by rw [List.length_append]; omega),
      List.drop_append_of_le_length (by omega), List.take_append_of_le_length]
    rw [List.length_drop]
    omega
  have hthree : getSlice d 1 3 = some ((d.drop 1).take 3) := if_pos (by omega)
  have hmessage : getSlice (d ++ rest) 0 (4 + beNat ((d.drop 1).take 3)) =
      getSlice d 0 (4 + beNat ((d.drop 1).take 3)) := hslice (by rw [Nat.zero_add]; exact h)
  have hthree' : getSlice (d ++ rest) 1 3 = some ((d.drop 1).take 3) := by
    rw [hslice (by omega), hthree]
  simp only [clientHelloSni, hkind, hthree, hthree', hmessage, Option.bind_eq_bind,
    Option.bind_some]

/-- **The host name of a ClientHello is exactly the one it announces.** Of a message
with any fields, the name in the first server_name extension is returned in lower
case, and nothing is returned without such an extension. Bytes behind the message
have no influence. Whatever byte string gives a name announces it. -/
theorem clientHelloSni_exact :
    (∀ (m : ClientHello) (rest : Bytes),
      (∀ before name after (hname : IsHostName name),
        m.extensions = some (before ++ HelloExtension.named name hname :: after) →
        (∀ x ∈ before, x.type ≠ 0) →
        clientHelloSni (m.encode ++ rest) = some (hostText name)) ∧
      ((∀ x ∈ m.extensions.getD [], x.type ≠ 0) → clientHelloSni (m.encode ++ rest) = none)) ∧
    (∀ d rest : Bytes, helloTotal d ≤ d.length →
      clientHelloSni (d ++ rest) = clientHelloSni d) ∧
    ∀ (d : Bytes) (n : String), clientHelloSni d = some n →
      ∃ name, Announces d name ∧ n = hostText name ∧ 1 ≤ n.utf8ByteSize ∧ n.utf8ByteSize ≤ 253 ∧
        ∀ c ∈ n.toList, c.isAlphanum = true ∨ c = '-' ∨ c = '.' ∨ c = '_' := by
  refine ⟨?_, fun d rest h => clientHelloSni_append h rest, ?_⟩
  · intro m rest
    have hlength := m.length_body_lt
    constructor
    · intro before name after hname hexts hfirst
      have hfits := m.fits
      have hbody : m.body = m.head.encode ++ (extensionBlock (extensionBytes before ++
          ((HelloExtension.named name hname).encode ++ extensionBytes after)) ++ []) := by
        rw [ClientHello.body, hexts, Option.map_some, Option.getD_some, extensionBytes_append,
          extensionBytes_cons, List.append_nil]
      rw [hexts, Option.getD_some, extensionBytes_append, extensionBytes_cons] at hfits
      rw [ClientHello.encode, hbody]
      exact (Announces.intro m.head hname rest hfirst hfits (hbody ▸ hlength)).parse
    · intro hother
      rw [ClientHello.encode]
      cases hexts : m.extensions with
      | none =>
          have hbody : m.body = m.head.encode ++ [] := by
            rw [ClientHello.body, hexts]
            rfl
          rw [hbody] at hlength ⊢
          rw [(clientHelloSni_handshake m.head hlength rest).2]
          rfl
      | some exts =>
          have hfits := m.fits
          have hbody : m.body =
              m.head.encode ++ (extensionBlock (extensionBytes exts) ++ []) := by
            rw [ClientHello.body, hexts, Option.map_some, Option.getD_some, List.append_nil]
          rw [hexts, Option.getD_some] at hother hfits
          rw [hbody] at hlength ⊢
          obtain ⟨hello, p, hstands, hlong, hparse⟩ :=
            clientHelloSni_block m.head hfits hlength rest
          have hfew := length_le_extensionBytes exts
          rw [hparse]
          exact helloExtensions_none hother hstands (by omega)
  · intro d n h
    obtain ⟨name, hannounces, rfl⟩ := announces_of_parse h
    cases hannounces with
    | intro head hname beyond first block message =>
        obtain ⟨hsize, hchars⟩ := hname.shown
        refine ⟨name, .intro head hname beyond first block message, rfl, ?_, ?_, hchars⟩
        · rw [hsize]
          exact hname.nonempty
        · rw [hsize]
          exact hname.short

/-- The host name `A.b`. -/
theorem sample_isHostName : IsHostName [0x41, 0x2E, 0x62] := ⟨by decide, by decide, by decide⟩

/-- A ClientHello for `A.b` with another extension in front. -/
def sampleClientHello : ClientHello where
  head :=
    { version := ⟨[3, 3], rfl⟩, random := ⟨List.replicate 32 0, rfl⟩
      session := ⟨[], by decide⟩, suites := ⟨[0x13, 1], by decide⟩
      compression := ⟨[0], by decide⟩ }
  extensions := some [⟨16, [1, 2], by decide⟩, .named [0x41, 0x2E, 0x62] sample_isHostName]
  fits := by decide

/-- The name in the sample message, with a byte behind it. -/
theorem clientHelloSni_exact_sample :
    clientHelloSni (sampleClientHello.encode ++ [7]) = some "a.b" := by
  rw [(clientHelloSni_exact.1 sampleClientHello [7]).1 [⟨16, [1, 2], by decide⟩] _ []
    sample_isHostName rfl (by decide)]
  decide

end SocketTrail.Pcap
