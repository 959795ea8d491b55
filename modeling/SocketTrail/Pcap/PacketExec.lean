/-
# Reading a QUIC packet does not panic

The readers of `Quic` up to the frames of a packet, with every index, slice,
conversion, shift, sum and difference made visible. Whatever lengths the fields of a
datagram claim, none of them panics, and their loops end.
-/

import SocketTrail.Foundation.Exec
import SocketTrail.Pcap.QuicHello

namespace SocketTrail.Pcap.Quic

open SocketTrail.Foundation
open SocketTrail.Foundation.Exec (add add_bind bind_of early_ite_of ite_of)

/-! ## Headers -/

/-- `varint` with its shift, sums and slice checked. -/
def varintExec (d : Bytes) (p : ℕ) : Exec (ℕ × ℕ) := do
  let first := (← .of d[p]?).toNat
  let n ← Exec.shl 64 1 (first / 64)
  let start ← add 64 p 1
  let stop ← add 64 p n
  let rest ← .of (getRange d start stop)
  .value (rest.foldl (fun v b => v * 256 + b.toNat) (first % 64), n)

/-- Pass over the token of an Initial packet. -/
def tokenExec (d : Bytes) (initial : Bool) (p : ℕ) : Exec ℕ :=
  if initial then do
    let (token, n) ← varintExec d p
    let token ← .of (narrow 64 token)
    let step ← add 64 n token
    add 64 p step
  else .value p

/-- Read the length of a packet at position `p`, where its other fields end. -/
def lengthExec (d : Bytes) (version : Version) (initial : Bool) (dcid : Bytes) (p : ℕ) :
    Exec Header := do
  let (len, n) ← varintExec d p
  let p ← add 64 p n
  let len ← .of (narrow 64 len)
  let stop ← .of (checkedAdd 64 p len)
  if stop ≤ d.length then
    .value { version := version, initial := initial, dcid := dcid, pnOff := p, «end» := stop }
  else .early

/-- `header` with its indices, slices, conversions and sums checked. -/
def headerExec (d : Bytes) : Exec Header := do
  let first := (← .of d[0]?).toNat
  if first < 0x80 then .early
  else
    let bytes ← .of (getRange d 1 5)
    let bytes ← .of (toArray 4 bytes)
    let version ← .of (versions.find? fun v => v.id = beNat bytes)
    let ptype := first / 16 % 4
    if ptype = version.retry then .early
    else
      let dcidLen := (← .of d[5]?).toNat
      if 20 < dcidLen then .early
      else
        let stop ← add 64 6 dcidLen
        let dcid ← .of (getRange d 6 stop)
        let p ← add 64 6 dcidLen
        let scidLen := (← .of d[p]?).toNat
        let step ← add 64 1 scidLen
        let p ← add 64 p step
        let initial : Bool := ptype = version.initial
        let p ← tokenExec d initial p
        lengthExec d version initial dcid p

/-! ## Opening a packet -/

/-- `decodeNumber` with its shift, sums and differences checked. -/
def decodeNumberExec (truncated bits : ℕ) (largest : Option ℕ) : Exec ℕ := do
  let expected ← largest.elim (.value 0) fun n => add 64 n 1
  let window ← Exec.shl 64 1 bits
  let half := window / 2
  -- the lowest bits of the expected number are masked out
  let _ ← Exec.sub window 1
  let candidate := expected / window * window ||| truncated
  let near ← add 64 candidate half
  let limit ← Exec.sub (2 ^ 62) window
  let far ← add 64 expected half
  if near ≤ expected ∧ candidate < limit then add 64 candidate window
  else if far < candidate ∧ window ≤ candidate then Exec.sub candidate window
  else .value candidate

/-- `Keys.nonce` with its slice checked. -/
def Keys.nonceExec (k : Keys) (pn : ℕ) : Exec Bytes := do
  let tail ← Exec.slice k.iv 4 k.iv.length
  .value (k.iv.take 4 ++ xorBytes tail (beBytes 8 pn))

/-- Remove the mask from `count` bytes of the packet number, from the `i`-th on; `pn`
is the number so far. -/
def unmask (mask : Bytes) (pnOff : ℕ) : ℕ → ℕ → Bytes → ℕ → Exec (Bytes × ℕ)
  | 0, _, pkt, pn => .value (pkt, pn)
  | count + 1, i, pkt, pn => do
      let o ← add 64 pnOff i
      let b ← Exec.index pkt o
      let j ← add 64 1 i
      let m ← Exec.index mask j
      unmask mask pnOff count (i + 1) (pkt.set o (b ^^^ m)) (pn * 256 + (b ^^^ m).toNat)

/-- Decrypt a packet in its place: the header ends at `body`, the text at `tagAt`. -/
def decryptExec (c : Ciphers) (keys : Keys) (pkt : Bytes) (body tagAt pn : ℕ) :
    Exec (Bytes × ℕ) := do
  let tag ← Exec.slice pkt tagAt pkt.length
  let tag ← .of (toArray 16 tag)
  let aad ← Exec.slice pkt 0 body
  let rest ← Exec.slice pkt body pkt.length
  let width ← Exec.sub tagAt body
  let text ← Exec.slice rest 0 width
  let nonce ← keys.nonceExec pn
  let plain ← .of (c.decrypt keys.key nonce aad text tag)
  let pkt := (aad ++ (plain ++ rest.drop width)).take tagAt
  let plain ← Exec.slice pkt body pkt.length
  .value (plain, pn)

/-- `openPacket` with its indices, slices, conversions, sums and differences
checked. -/
def openPacketExec (c : Ciphers) (keys : Keys) (d : Bytes) (h : Header) (largest : Option ℕ) :
    Exec (Bytes × ℕ) := do
  let pkt ← Exec.slice d 0 h.end
  let start ← add 64 h.pnOff 4
  let stop ← add 64 h.pnOff 20
  let sample ← .of (getRange pkt start stop)
  let block ← .of (toArray 16 sample)
  let mask := c.encryptBlock keys.hp block
  let first ← Exec.index pkt 0
  let m ← Exec.index mask 0
  let first := first ^^^ (m &&& 0x0f)
  let pkt := pkt.set 0 first
  let pnLen ← add 64 (first.toNat % 4) 1
  let (pkt, pn) ← unmask mask h.pnOff pnLen 0 pkt 0
  let bits ← Exec.mul 64 pnLen 8
  let pn ← decodeNumberExec pn bits largest
  let body ← add 64 h.pnOff pnLen
  let tagAt ← .of ((checkedSub h.end 16).filter fun t => body ≤ t)
  decryptExec c keys pkt body tagAt pn

/-! ## Frames -/

/-- `skip` with its sums checked. -/
def skipExec (d : Bytes) : ℕ → ℕ → Exec ℕ
  | 0, p => .value p
  | count + 1, p => do
      let (_, n) ← varintExec d p
      let p ← add 64 p n
      skipExec d count p

/-- Pass over the counts of an ACK frame with ECN. -/
def ecnExec (d : Bytes) (t : UInt8) (p : ℕ) : Exec ℕ :=
  if t = 0x03 then skipExec d 3 p else .value p

/-- `frame` with its slices, conversions, products and sums checked. -/
def frameExec (d : Bytes) (t : UInt8) (p : ℕ) : Exec (ℕ × Option (ℕ × Bytes)) :=
  if t = 0x00 ∨ t = 0x01 then .value (p, none)
  else if t = 0x02 ∨ t = 0x03 then do
    let p ← skipExec d 2 p
    let (ranges, n) ← varintExec d p
    let p ← add 64 p n
    let ranges ← .of (narrow 64 ranges)
    let twice ← Exec.mul 64 2 ranges
    let count ← add 64 1 twice
    let p ← skipExec d count p
    let p ← ecnExec d t p
    .value (p, none)
  else if t = 0x06 then do
    let (off, n) ← varintExec d p
    let p ← add 64 p n
    let (len, n) ← varintExec d p
    let p ← add 64 p n
    let len ← .of (narrow 64 len)
    let off ← .of (narrow 64 off)
    let stop ← add 64 p len
    let data ← .of (getRange d p stop)
    .value (stop, some (off, data))
  else if t = 0x1c then do
    let p ← skipExec d 2 p
    let (len, n) ← varintExec d p
    let len ← .of (narrow 64 len)
    let step ← add 64 n len
    let p ← add 64 p step
    .value (p, none)
  else .early

/-- The loop over the frames, for `fuel` rounds at most. -/
def cryptoFramesLoop (d : Bytes) : ℕ → ℕ → List (ℕ × Bytes) → Exec (List (ℕ × Bytes))
  | 0, _, _ => .panic
  | fuel + 1, p, out =>
      match d[p]? with
      | none => .value out
      | some t => do
          let p ← add 64 p 1
          match ← (frameExec d t p).attempt with
          | none => .value out
          | some (next, found) => cryptoFramesLoop d fuel next (out ++ found.toList)

/-- `cryptoFrames` with its loop, slices, conversions and sums checked. -/
def cryptoFramesExec (d : Bytes) : Exec (List (ℕ × Bytes)) := cryptoFramesLoop d (d.length + 1) 0 []

/-! ## Numbers and headers do not panic -/

/-- A number that is read lies in the string and has 62 bits at most. -/
theorem varint_bounds {d : Bytes} {p v n : ℕ} (h : varint d p = some (v, n)) :
    v < 2 ^ 62 ∧ n ≤ 8 ∧ p + n ≤ d.length := by
  unfold varint at h
  obtain ⟨first, hfirst, h⟩ := Option.bind_eq_some_iff.mp h
  obtain ⟨rest, hrest, h⟩ := Option.bind_eq_some_iff.mp h
  have hinside := (List.getElem?_eq_some_iff.mp hfirst).1
  have hlt := first.toNat_lt
  have hlength := (drop_of_getSlice hrest).1
  obtain ⟨rfl, rfl⟩ := Prod.mk.inj (Option.some.inj h)
  have hform : first.toNat / 64 ≤ 3 := by omega
  have hsize : 2 ^ (first.toNat / 64) ≤ 2 ^ 3 := Nat.pow_le_pow_right (by decide) hform
  have hpos : 0 < 2 ^ (first.toNat / 64) := Nat.two_pow_pos _
  have hstop := le_of_getSlice hrest
  refine ⟨?_, by omega, by omega⟩
  have hrestLt := beNat_lt rest
  have hpow : 256 ^ rest.length ≤ 256 ^ 7 := Nat.pow_le_pow_right (by decide) (by omega)
  have hhigh : first.toNat % 64 * 256 ^ rest.length ≤ 63 * 256 ^ rest.length :=
    Nat.mul_le_mul_right _ (by omega)
  rw [foldl_beNat]
  omega

section Reading

variable {d : Bytes} (hd : d.length < 2 ^ 63)

include hd

theorem varintExec_eq (p : ℕ) : varintExec d p = .of (varint d p) := by
  rw [varintExec, varint]
  apply bind_of
  intro first hfirst
  have hinside := (List.getElem?_eq_some_iff.mp hfirst).1
  have hlt := first.toNat_lt
  have hsize : 2 ^ (first.toNat / 64) ≤ 2 ^ 3 := Nat.pow_le_pow_right (by decide) (by omega)
  have hpos : 0 < 2 ^ (first.toNat / 64) := Nat.two_pow_pos _
  have hstop : p + 2 ^ (first.toNat / 64) = p + 1 + (2 ^ (first.toNat / 64) - 1) := by omega
  dsimp only
  rw [Exec.one_shl (by omega), Exec.value_bind, add_bind (by omega), add_bind (by omega), hstop,
    getRange_add]
  exact bind_of fun rest _ => rfl

/-- The token is passed over. -/
theorem tokenExec_true (p : ℕ) :
    tokenExec d true p = .of ((varint d p).map fun (token, n) => p + n + token) := by
  rw [tokenExec, if_pos rfl, varintExec_eq hd, Option.map_eq_bind]
  apply bind_of
  rintro ⟨token, n⟩ hread
  obtain ⟨htoken, hsize, hinside⟩ := varint_bounds hread
  dsimp only
  rw [narrow_eq (by omega), Exec.of_some, Exec.value_bind, add_bind (by omega),
    Exec.add_eq (by omega), ← Nat.add_assoc]
  rfl

theorem lengthExec_eq (version : Version) (initial : Bool) (dcid : Bytes) (p : ℕ) :
    lengthExec d version initial dcid p =
      .of ((varint d p).bind fun (len, n) =>
        if p + n + len ≤ d.length then
          some { version := version, initial := initial, dcid := dcid, pnOff := p + n,
                 «end» := p + n + len }
        else none) := by
  rw [lengthExec, varintExec_eq hd]
  apply bind_of
  rintro ⟨len, n⟩ hread
  obtain ⟨hlen, hsize, hinside⟩ := varint_bounds hread
  dsimp only
  rw [add_bind (by omega), narrow_eq (by omega), Exec.of_some, Exec.value_bind,
    checkedAdd_eq (by omega), Exec.of_some, Exec.value_bind]
  exact ite_of (fun _ => rfl) fun _ => rfl

theorem headerExec_eq : headerExec d = .of (header d) := by
  rw [headerExec, header]
  apply bind_of
  intro first _
  apply early_ite_of
  intro _
  have hrange : getRange d 1 5 = getSlice d 1 4 := getRange_add d 1 4
  rw [hrange]
  apply bind_of
  intro bytes hbytes
  rw [toArray_eq (drop_of_getSlice hbytes).1, Exec.of_some, Exec.value_bind]
  apply bind_of
  intro version _
  apply early_ite_of
  intro _
  apply bind_of
  intro dcidLen _
  have hdcid := dcidLen.toNat_lt
  apply early_ite_of
  intro _
  rw [add_bind (by omega), getRange_add]
  apply bind_of
  intro dcid _
  rw [add_bind (by omega)]
  apply bind_of
  intro scidLen _
  have hscid := scidLen.toNat_lt
  rw [add_bind (by omega), add_bind (by omega), ← Nat.add_assoc]
  dsimp only
  -- with a token and without
  cases decide (first.toNat / 16 % 4 = version.initial) with
  | true =>
      rw [tokenExec_true hd]
      exact bind_of fun p _ => lengthExec_eq hd version true dcid p
  | false => exact lengthExec_eq hd version false dcid _

end Reading

/-! ## Opening a packet does not panic -/

/-- What the types of the cryptography say about sizes. -/
structure Ciphers.Sized (c : Ciphers) : Prop where
  expand : ∀ hk info len out, c.expand hk info len = some out → out.length = len
  block : ∀ key block, (c.encryptBlock key block).length = 16
  decrypt : ∀ key nonce ad text tag plain,
    c.decrypt key nonce ad text tag = some plain → plain.length = text.length

/-- The packet numbers for which no sum overflows. -/
def maxNumber : ℕ := 2 ^ 64 - 2 ^ 34

section Number

variable {truncated bits : ℕ} {largest : Option ℕ}

/-- The first guess is the next number expected with its lowest bits replaced. -/
theorem candidate_bounds (htruncated : truncated < 2 ^ bits) (expected : ℕ) :
    (expected / 2 ^ bits * 2 ^ bits ||| truncated) < expected + 2 ^ bits := by
  rw [Nat.mul_comm, ← Nat.two_pow_add_eq_or_of_lt htruncated]
  have hle := Nat.mul_div_le expected (2 ^ bits)
  omega

theorem decodeNumberExec_eq (hbits : bits ≤ 32) (htruncated : truncated < 2 ^ bits)
    (hlargest : ∀ n ∈ largest, n < maxNumber) :
    decodeNumberExec truncated bits largest = .value (decodeNumber truncated bits largest) := by
  have hwindow : 2 ^ bits ≤ 2 ^ 32 := Nat.pow_le_pow_right (by decide) hbits
  have hpos := Nat.two_pow_pos bits
  have hmax : maxNumber = 2 ^ 64 - 2 ^ 34 := rfl
  have hexpected : (largest.elim (.value 0) fun n => add 64 n 1) =
      Exec.value (largest.elim 0 (· + 1)) := by
    cases largest with
    | none => rfl
    | some n =>
        have hn := hlargest n rfl
        exact Exec.add_eq (by omega)
  have hfew : largest.elim 0 (· + 1) ≤ maxNumber := by
    cases largest with
    | none => exact Nat.zero_le _
    | some n => exact hlargest n rfl
  rw [decodeNumberExec, decodeNumber, hexpected, Exec.value_bind]
  generalize largest.elim 0 (· + 1) = expected at hfew
  have hcandidate := candidate_bounds htruncated expected
  rw [Exec.one_shl (by omega), Exec.value_bind, Exec.sub_eq hpos, Exec.value_bind]
  generalize (expected / 2 ^ bits * 2 ^ bits ||| truncated) = candidate at hcandidate
  generalize 2 ^ bits = window at hwindow hcandidate hpos
  rw [add_bind (by omega), Exec.sub_eq (by omega), Exec.value_bind, add_bind (by omega)]
  split
  · exact Exec.add_eq (by omega)
  · split
    · rename_i hlate
      exact Exec.sub_eq hlate.2
    · rfl

/-- A number behind the next one expected is not far behind it, or is small. -/
theorem decodeNumber_le (hbits : bits ≤ 32) (htruncated : truncated < 2 ^ bits) :
    decodeNumber truncated bits largest ≤ max (2 ^ 62) (largest.elim 0 (· + 1) + 2 ^ 31) := by
  have hwindow : 2 ^ bits ≤ 2 ^ 32 := Nat.pow_le_pow_right (by decide) hbits
  rw [decodeNumber]
  generalize largest.elim 0 (· + 1) = expected
  have hcandidate := candidate_bounds htruncated expected
  generalize (expected / 2 ^ bits * 2 ^ bits ||| truncated) = candidate at hcandidate
  generalize 2 ^ bits = window at hwindow hcandidate
  split
  · omega
  · split <;> omega

/-- Numbers no further apart than half a window lie in the same window or in
neighbouring ones. -/
theorem windows_near {expected number half : ℕ} (hhalf : 0 < half)
    (hbehind : expected < number + half) (hahead : number ≤ expected + half) :
    number / (2 * half) = expected / (2 * half) ∨
    number / (2 * half) = expected / (2 * half) + 1 ∨
    number / (2 * half) + 1 = expected / (2 * half) := by
  have hpos : 0 < 2 * half := by omega
  have hnotAhead : number / (2 * half) ≤ expected / (2 * half) + 1 := by
    rw [← Nat.add_div_right expected hpos]
    exact Nat.div_le_div_right (by omega)
  have hnotBehind : expected / (2 * half) ≤ number / (2 * half) + 1 := by
    rw [← Nat.add_div_right number hpos]
    exact Nat.div_le_div_right (by omega)
  omega

/-- A number within half a window of the next one expected is told from its lowest
bits. -/
theorem decodeNumber_near {number half : ℕ} (hwindow : 2 ^ bits = 2 * half)
    (hnumber : number < 2 ^ 62) (hbehind : largest.elim 0 (· + 1) < number + half)
    (hahead : number ≤ largest.elim 0 (· + 1) + half) :
    decodeNumber (number % 2 ^ bits) bits largest = number := by
  have hpos : 0 < half := by
    have := Nat.two_pow_pos bits
    omega
  have hlow := Nat.mod_lt number (Nat.two_pow_pos bits)
  have hnear := windows_near hpos hbehind hahead
  rw [decodeNumber]
  generalize largest.elim 0 (· + 1) = expected at hbehind hahead hnear
  have hcandidate : (expected / 2 ^ bits * 2 ^ bits ||| number % 2 ^ bits) =
      2 ^ bits * (expected / 2 ^ bits) + number % 2 ^ bits := by
    rw [Nat.mul_comm, ← Nat.two_pow_add_eq_or_of_lt hlow]
  rw [hcandidate, hwindow, Nat.mul_div_cancel_left half (by decide : 0 < 2)]
  rw [hwindow] at hlow
  have hsplit := Nat.div_add_mod number (2 * half)
  generalize number % (2 * half) = low at hsplit hlow
  generalize hcand : 2 * half * (expected / (2 * half)) + low = candidate
  rcases hnear with hsame | hnext | hlast
  · -- the first guess is the number, and neither correction applies
    have heq : candidate = number := by rw [← hcand, ← hsame, hsplit]
    rw [if_neg (by omega), if_neg (by omega), heq]
  · have heq : candidate + 2 * half = number := by
      rw [hnext, Nat.mul_succ] at hsplit
      omega
    rw [if_pos (by omega), heq]
  · have heq : candidate = number + 2 * half := by
      rw [← hlast, Nat.mul_succ] at hcand
      omega
    rw [if_neg (by omega), if_pos (by omega), heq, Nat.add_sub_cancel]

/-- A packet number is read exactly within its window: in one to four bytes it names
each number below 2^62 that is less than half a window behind the next one expected
or at most half a window ahead of it, and no sum or difference overflows. -/
theorem decodeNumber_window {n number : ℕ} (hn : 1 ≤ n ∧ n ≤ 4)
    (hlargest : ∀ l ∈ largest, l + 1 < 2 ^ 62) (hnumber : number < 2 ^ 62)
    (hbehind : largest.elim 0 (· + 1) < number + 2 ^ (8 * n - 1))
    (hahead : number ≤ largest.elim 0 (· + 1) + 2 ^ (8 * n - 1)) :
    decodeNumber (number % 2 ^ (8 * n)) (8 * n) largest = number ∧
    decodeNumberExec (number % 2 ^ (8 * n)) (8 * n) largest = .value number := by
  have hwindow : 2 ^ (8 * n) = 2 * 2 ^ (8 * n - 1) := by
    rw [← Nat.pow_succ', Nat.succ_eq_add_one, Nat.sub_add_cancel (by omega)]
  have hexact := decodeNumber_near hwindow hnumber hbehind hahead
  have hsmall : ∀ l ∈ largest, l < maxNumber := by
    intro l hl
    have hmax : maxNumber = 2 ^ 64 - 2 ^ 34 := rfl
    have := hlargest l hl
    omega
  refine ⟨hexact, ?_⟩
  rw [decodeNumberExec_eq (by omega) (Nat.mod_lt _ (Nat.two_pow_pos _)) hsmall, hexact]

/-- The number 256 in one byte, with 255 and then 257 received. -/
theorem decodeNumber_window_wraps :
    decodeNumberExec (256 % 2 ^ (8 * 1)) (8 * 1) (some 255) = .value 256 ∧
    decodeNumberExec (256 % 2 ^ (8 * 1)) (8 * 1) (some 257) = .value 256 :=
  ⟨(@decodeNumber_window (some 255) 1 256 (by decide) (by simp) (by decide) (by decide)
      (by decide)).2,
    (@decodeNumber_window (some 257) 1 256 (by decide) (by simp) (by decide) (by decide)
      (by decide)).2⟩

end Number

theorem unmask_eq {mask : Bytes} {pnOff count i pn : ℕ} {pkt : Bytes}
    (hpkt : pnOff + i + count ≤ pkt.length) (hmask : 1 + i + count ≤ mask.length)
    (hlength : pkt.length < 2 ^ 63) :
    unmask mask pnOff count i pkt pn =
      let number := xorBytes ((pkt.drop (pnOff + i)).take count) ((mask.drop (1 + i)).take count)
      .value (overwrite pkt (pnOff + i) number,
        number.foldl (fun n b => n * 256 + b.toNat) pn) := by
  induction count generalizing i pn pkt with
  | zero => rfl
  | succ count ih =>
      have hbyte : pnOff + i < pkt.length := by omega
      have hmaskByte : 1 + i < mask.length := by omega
      rw [unmask, add_bind (by omega), Exec.index_getElem hbyte, Exec.value_bind,
        add_bind (by omega), Exec.index_getElem hmaskByte, Exec.value_bind]
      rw [ih (by rw [List.length_set]; omega) (by omega) (by rw [List.length_set]; exact hlength),
        List.drop_eq_getElem_cons hbyte, List.drop_eq_getElem_cons hmaskByte, ← Nat.add_assoc,
        ← Nat.add_assoc, List.drop_set_of_lt (by omega)]
      rfl

/-- The packet number is taken from under the mask. -/
theorem unmask_zero {mask : Bytes} {pnOff count : ℕ} {pkt : Bytes}
    (hpkt : pnOff + count ≤ pkt.length) (hmask : 1 + count ≤ mask.length)
    (hlength : pkt.length < 2 ^ 63) :
    unmask mask pnOff count 0 pkt 0 =
      let number := xorBytes ((pkt.drop pnOff).take count) ((mask.drop 1).take count)
      .value (overwrite pkt pnOff number, beNat number) :=
  unmask_eq (i := 0) hpkt hmask hlength

theorem Keys.nonceExec_eq {k : Keys} (h : 4 ≤ k.iv.length) (pn : ℕ) :
    k.nonceExec pn = .value (k.nonce pn) := by
  rw [nonceExec, Exec.slice_end h]
  rfl

/-- The text is decrypted inside the packet and takes the place of the ciphertext. -/
theorem decryptExec_eq {c : Ciphers} (hc : c.Sized) {keys : Keys} (hiv : 4 ≤ keys.iv.length)
    {pkt : Bytes} {body tagAt : ℕ} (hbody : body ≤ tagAt) (htag : tagAt + 16 = pkt.length)
    (pn : ℕ) :
    decryptExec c keys pkt body tagAt pn =
      .of ((c.decrypt keys.key (keys.nonce pn) (pkt.take body)
        ((pkt.drop body).take (tagAt - body)) (pkt.drop tagAt)).bind fun plain =>
          some (plain, pn)) := by
  have htagLength : (pkt.drop tagAt).length = 16 := by
    rw [List.length_drop]
    omega
  have htextLength : ((pkt.drop body).take (tagAt - body)).length = tagAt - body := by
    rw [List.length_take, List.length_drop]
    omega
  have haadLength : (pkt.take body).length = body := List.length_take_of_le (by omega)
  rw [decryptExec, Exec.slice_end (by omega), Exec.value_bind, toArray_eq htagLength, Exec.of_some,
    Exec.value_bind, Exec.slice_zero (by omega), Exec.value_bind, Exec.slice_end (by omega),
    Exec.value_bind, Exec.sub_eq hbody, Exec.value_bind,
    Exec.slice_zero (by rw [List.length_drop]; omega), Exec.value_bind, Keys.nonceExec_eq hiv,
    Exec.value_bind]
  apply bind_of
  intro plain hplain
  have hlength := (hc.decrypt _ _ _ _ _ _ hplain).trans htextLength
  have hout : (pkt.take body ++ (plain ++ (pkt.drop body).drop (tagAt - body))).take tagAt =
      pkt.take body ++ plain := by
    rw [← List.append_assoc, List.take_left']
    rw [List.length_append]
    omega
  dsimp only
  rw [hout, Exec.slice_end (by rw [List.length_append]; omega), List.drop_left' haadLength,
    Exec.value_bind]
  rfl

/-- A packet number has as many bits as its bytes have. -/
theorem unmasked_lt (pkt mask : Bytes) (pnOff pnLen : ℕ) :
    beNat (xorBytes ((pkt.drop pnOff).take pnLen) ((mask.drop 1).take pnLen)) <
      2 ^ (pnLen * 8) := by
  have hlength : (xorBytes ((pkt.drop pnOff).take pnLen) ((mask.drop 1).take pnLen)).length ≤
      pnLen := by
    rw [xorBytes, List.length_zipWith, List.length_take, List.length_take]
    omega
  have hpow : (256 : ℕ) ^ pnLen = 2 ^ (pnLen * 8) := by
    rw [Nat.mul_comm, Nat.pow_mul]
  exact (beNat_lt _).trans_le (hpow ▸ Nat.pow_le_pow_right (by decide) hlength)

/-- The text of a packet is no longer than the datagram, and its number not far behind
the next one expected. -/
theorem openPacket_bounds {c : Ciphers} (hc : c.Sized) {keys : Keys} {d : Bytes} {h : Header}
    {largest : Option ℕ} {plain : Bytes} {pn : ℕ}
    (hopen : openPacket c keys d h largest = some (plain, pn)) :
    plain.length ≤ d.length ∧ pn ≤ max (2 ^ 62) (largest.elim 0 (· + 1) + 2 ^ 31) := by
  unfold openPacket at hopen
  obtain ⟨sample, -, hopen⟩ := Option.bind_eq_some_iff.mp hopen
  dsimp only at hopen
  split at hopen
  · contradiction
  · obtain ⟨text, htext, hopen⟩ := Option.bind_eq_some_iff.mp hopen
    obtain ⟨rfl, rfl⟩ := Prod.mk.inj (Option.some.inj hopen)
    refine ⟨?_, decodeNumber_le (by omega) (unmasked_lt _ _ _ _)⟩
    rw [hc.decrypt _ _ _ _ _ _ htext, List.length_take, List.length_drop, length_overwrite,
      List.length_set, List.length_take]
    omega

theorem openPacketExec_eq {c : Ciphers} (hc : c.Sized) {keys : Keys} (hiv : 4 ≤ keys.iv.length)
    {d : Bytes} (hd : d.length < 2 ^ 63) {h : Header} (hend : h.end ≤ d.length)
    (hoff : h.pnOff ≤ h.end) {largest : Option ℕ} (hlargest : ∀ n ∈ largest, n < maxNumber) :
    openPacketExec c keys d h largest = .of (openPacket c keys d h largest) := by
  have hwhole : (d.take h.end).length = h.end := List.length_take_of_le hend
  have hrange : getRange (d.take h.end) (h.pnOff + 4) (h.pnOff + 20) =
      getSlice (d.take h.end) (h.pnOff + 4) 16 := getRange_add _ (h.pnOff + 4) 16
  rw [openPacketExec, openPacket, Exec.slice_zero hend, Exec.value_bind, add_bind (by omega),
    add_bind (by omega), hrange]
  apply bind_of
  intro sample hsample
  have hinside := le_of_getSlice hsample
  rw [toArray_eq (drop_of_getSlice hsample).1, Exec.of_some, Exec.value_bind]
  have hmask := hc.block keys.hp sample
  generalize c.encryptBlock keys.hp sample = mask at hmask
  rw [Exec.index_eq (by omega) 0, Exec.value_bind, Exec.index_eq (by omega) 0, Exec.value_bind]
  dsimp only
  generalize (d.take h.end).getD 0 0 ^^^ (mask.getD 0 0 &&& 0x0f) = first
  have hsize : ((d.take h.end).set 0 first).length = h.end := by rw [List.length_set, hwhole]
  generalize (d.take h.end).set 0 first = pkt at hsize
  have hfew : first.toNat % 4 + 1 ≤ 4 := by omega
  rw [add_bind (by omega)]
  generalize first.toNat % 4 + 1 = pnLen at hfew
  rw [unmask_zero (by omega) (by omega) (by omega), Exec.value_bind]
  dsimp only
  have hnumber := unmasked_lt pkt mask h.pnOff pnLen
  generalize xorBytes ((pkt.drop h.pnOff).take pnLen) ((mask.drop 1).take pnLen) = number at hnumber
  rw [Exec.mul_eq (by omega), Exec.value_bind, decodeNumberExec_eq (by omega) hnumber hlargest,
    Exec.value_bind, add_bind (by omega)]
  have hplaced : (overwrite pkt h.pnOff number).length = h.end := by
    rw [length_overwrite, hsize]
  generalize overwrite pkt h.pnOff number = pkt at hplaced
  generalize decodeNumber (beNat number) (pnLen * 8) largest = pn
  by_cases hshort : h.end < 16 ∨ h.end - 16 < h.pnOff + pnLen
  · have hnone : (checkedSub h.end 16).filter (fun t => h.pnOff + pnLen ≤ t) = none := by
      rw [checkedSub]
      split
      · exact Option.filter_some_neg (by simp; omega)
      · rfl
    rw [hnone, if_pos hshort]
    rfl
  · have hsome : (checkedSub h.end 16).filter (fun t => h.pnOff + pnLen ≤ t) =
        some (h.end - 16) := by
      rw [checkedSub, if_pos (by omega)]
      exact Option.filter_some_pos (by simp; omega)
    rw [hsome, if_neg hshort, Exec.of_some, Exec.value_bind]
    exact decryptExec_eq hc hiv (by omega) (by omega) pn

/-! ## Reading frames does not panic -/

theorem skip_le {d : Bytes} {count p q : ℕ} (h : skip d count p = some q) : p ≤ q := by
  induction count generalizing p with
  | zero => exact (Option.some.inj h).le
  | succ count ih =>
      obtain ⟨⟨v, n⟩, -, hrest⟩ := Option.bind_eq_some_iff.mp h
      have hle := ih hrest
      omega

/-- A frame ends no earlier than it begins. -/
theorem frame_le {d : Bytes} {t : UInt8} {p next : ℕ} {found : Option (ℕ × Bytes)}
    (h : frame d t p = some (next, found)) : p ≤ next := by
  unfold frame at h
  split at h
  · exact (Prod.mk.inj (Option.some.inj h)).1.le
  · split at h
    · obtain ⟨p₁, hfirst, h⟩ := Option.bind_eq_some_iff.mp h
      obtain ⟨⟨ranges, n⟩, -, h⟩ := Option.bind_eq_some_iff.mp h
      obtain ⟨p₂, hsecond, h⟩ := Option.bind_eq_some_iff.mp h
      have hfirstLe := skip_le hfirst
      have hsecondLe := skip_le hsecond
      dsimp only at h
      split at h
      · obtain ⟨p₃, hthird, h⟩ := Option.bind_eq_some_iff.mp h
        have hthirdLe := skip_le hthird
        have hnext := (Prod.mk.inj (Option.some.inj h)).1
        omega
      · have hnext := (Prod.mk.inj (Option.some.inj h)).1
        omega
    · split at h
      · obtain ⟨⟨off, n⟩, -, h⟩ := Option.bind_eq_some_iff.mp h
        obtain ⟨⟨len, m⟩, -, h⟩ := Option.bind_eq_some_iff.mp h
        obtain ⟨data, -, h⟩ := Option.bind_eq_some_iff.mp h
        have hnext := (Prod.mk.inj (Option.some.inj h)).1
        omega
      · split at h
        · obtain ⟨p₁, hfirst, h⟩ := Option.bind_eq_some_iff.mp h
          obtain ⟨⟨len, n⟩, -, h⟩ := Option.bind_eq_some_iff.mp h
          have hfirstLe := skip_le hfirst
          have hnext := (Prod.mk.inj (Option.some.inj h)).1
          omega
        · contradiction

section Frames

variable {d : Bytes} (hd : d.length < 2 ^ 63)

include hd

theorem skipExec_eq (count p : ℕ) : skipExec d count p = .of (skip d count p) := by
  induction count generalizing p with
  | zero => rfl
  | succ count ih =>
      rw [skipExec, skip, varintExec_eq hd]
      apply bind_of
      rintro ⟨v, n⟩ hread
      obtain ⟨-, -, hinside⟩ := varint_bounds hread
      dsimp only
      rw [add_bind (by omega)]
      exact ih _

theorem frameExec_eq (t : UInt8) (p : ℕ) : frameExec d t p = .of (frame d t p) := by
  rw [frameExec, frame]
  apply ite_of
  · exact fun _ => rfl
  intro _
  apply ite_of
  · intro _
    rw [skipExec_eq hd]
    apply bind_of
    intro p _
    rw [varintExec_eq hd]
    apply bind_of
    rintro ⟨ranges, n⟩ hread
    obtain ⟨hranges, -, hinside⟩ := varint_bounds hread
    dsimp only
    rw [add_bind (by omega), narrow_eq (by omega), Exec.of_some, Exec.value_bind,
      Exec.mul_eq (by omega), Exec.value_bind, add_bind (by omega), skipExec_eq hd]
    apply bind_of
    intro p _
    rw [ecnExec]
    by_cases hecn : t = 0x03
    · rw [if_pos hecn, if_pos hecn, skipExec_eq hd]
      exact bind_of fun p _ => rfl
    · rw [if_neg hecn, if_neg hecn]
      rfl
  · intro _
    apply ite_of
    · intro _
      rw [varintExec_eq hd]
      apply bind_of
      rintro ⟨off, n⟩ hread
      obtain ⟨hoff, -, hinside⟩ := varint_bounds hread
      dsimp only
      rw [add_bind (by omega), varintExec_eq hd]
      apply bind_of
      rintro ⟨len, m⟩ hread'
      obtain ⟨hlen, -, hinside'⟩ := varint_bounds hread'
      dsimp only
      rw [add_bind (by omega), narrow_eq (by omega), Exec.of_some, Exec.value_bind,
        narrow_eq (by omega), Exec.of_some, Exec.value_bind, add_bind (by omega), getRange_add]
      exact bind_of fun data _ => rfl
    · intro _
      apply ite_of
      · intro _
        rw [skipExec_eq hd]
        apply bind_of
        intro p _
        rw [varintExec_eq hd]
        apply bind_of
        rintro ⟨len, n⟩ hread
        obtain ⟨hlen, hsize, hinside⟩ := varint_bounds hread
        dsimp only
        rw [narrow_eq (by omega), Exec.of_some, Exec.value_bind, add_bind (by omega),
          add_bind (by omega), ← Nat.add_assoc]
        rfl
      · exact fun _ => rfl

/-- The loop ends: a frame takes at least one byte. -/
theorem cryptoFramesLoop_eq {fuel p : ℕ} (hfuel : d.length ≤ p + fuel) (out : List (ℕ × Bytes)) :
    cryptoFramesLoop d (fuel + 1) p out = .value (out ++ cryptoFramesFrom d fuel p) := by
  induction fuel generalizing p out with
  | zero =>
      have hnone : d[p]? = none := List.getElem?_eq_none (by omega)
      rw [cryptoFramesLoop, hnone, cryptoFramesFrom, List.append_nil]
  | succ fuel ih =>
      rw [cryptoFramesLoop, cryptoFramesFrom]
      cases htype : d[p]? with
      | none => rw [List.append_nil]
      | some t =>
          have hinside := (List.getElem?_eq_some_iff.mp htype).1
          dsimp only
          rw [add_bind (by omega), frameExec_eq hd, Exec.attempt_of, Exec.value_bind]
          cases hframe : frame d t (p + 1) with
          | none => rw [List.append_nil]
          | some read =>
              have hle := frame_le hframe
              dsimp only
              rw [ih (by omega), List.append_assoc]

theorem cryptoFramesExec_eq : cryptoFramesExec d = .value (cryptoFrames d) :=
  cryptoFramesLoop_eq hd (by omega) []

end Frames

end SocketTrail.Pcap.Quic
