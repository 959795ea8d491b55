/-
# The frames of an Initial packet

`Frame` has the frames that an Initial packet may hold, with every number in any
of its four forms. What is written is read back: `cryptoFrames` returns the
CRYPTO frames among them, in order.
-/

import SocketTrail.Pcap.Quic

namespace SocketTrail.Pcap.Quic

open SocketTrail.Foundation

/-! ## Numbers of variable length -/

/-- A number as it is sent: the two bits in front say whether it takes 1, 2, 4 or
8 bytes, which may be more than it needs. -/
structure Varint where
  value : ℕ
  form : ℕ
  form_lt : form < 4
  value_lt : value < 64 * 256 ^ (2 ^ form - 1)
  deriving DecidableEq, Repr

namespace Varint

/-- The number in a single byte. -/
def short (n : ℕ) (h : n < 64 := by decide) : Varint where
  value := n
  form := 0
  form_lt := by decide
  value_lt := by simpa using h

def size (v : Varint) : ℕ := 2 ^ v.form

def encode (v : Varint) : Bytes :=
  beBytes v.size (v.form * (64 * 256 ^ (v.size - 1)) + v.value)

theorem size_pos (v : Varint) : 0 < v.size := Nat.two_pow_pos v.form

@[simp]
theorem length_encode (v : Varint) : v.encode.length = v.size := length_beBytes _ _

/-- A first digit to the base `M` that carries a form above the number. -/
theorem first_digit {form value first low M : ℕ} (hlow : low < M) (hvalue : value < 64 * M)
    (hsum : first * M + low = form * (64 * M) + value) :
    first / 64 = form ∧ first % 64 * M + low = value := by
  have hM : 0 < M := by omega
  have hquot : value / M < 64 := (Nat.div_lt_iff_lt_mul hM).mpr hvalue
  have hrest : M * (value / M) + value % M = value := Nat.div_add_mod value M
  have hfirst : first = form * 64 + value / M := by
    calc
      first = (first * M + low) / M := by
        rw [Nat.mul_comm, Nat.mul_add_div hM, Nat.div_eq_of_lt hlow, Nat.add_zero]
      _ = (M * (form * 64) + value) / M := by
        rw [hsum]
        congr 2
        ring
      _ = form * 64 + value / M := Nat.mul_add_div hM ..
  have hmod : low = value % M := by
    calc
      low = (first * M + low) % M := by
        rw [Nat.mul_comm, Nat.mul_add_mod, Nat.mod_eq_of_lt hlow]
      _ = (M * (form * 64) + value) % M := by
        rw [hsum]
        congr 2
        ring
      _ = value % M := Nat.mul_add_mod ..
  generalize value / M = quot at *
  have hdigit : first % 64 = quot := by omega
  refine ⟨by omega, ?_⟩
  rw [hdigit, hmod, Nat.mul_comm]
  exact hrest

/-- The first byte says how long the number is and begins it, the others complete
it. -/
theorem encode_eq (v : Varint) : ∃ first tail, v.encode = first :: tail ∧
    tail.length = v.size - 1 ∧ first.toNat / 64 = v.form ∧
      first.toNat % 64 * 256 ^ tail.length + beNat tail = v.value := by
  have hsize := v.size_pos
  have hlength := v.length_encode
  have hvalue : v.value < 64 * 256 ^ (v.size - 1) := v.value_lt
  have hnumber : beNat v.encode = v.form * (64 * 256 ^ (v.size - 1)) + v.value := by
    apply beNat_beBytes_of_lt
    have hform := v.form_lt
    have hle : v.form * (64 * 256 ^ (v.size - 1)) ≤ 3 * (64 * 256 ^ (v.size - 1)) :=
      Nat.mul_le_mul_right _ (by omega)
    have hpow : 256 ^ v.size = 256 ^ (v.size - 1) * 256 := by
      rw [← pow_succ, Nat.sub_add_cancel hsize]
    omega
  rcases hencode : v.encode with - | ⟨first, tail⟩
  · rw [hencode, List.length_nil] at hlength
    omega
  · have htail : tail.length = v.size - 1 := by
      rw [hencode, List.length_cons] at hlength
      omega
    rw [hencode, beNat_cons, ← htail] at hnumber
    rw [← htail] at hvalue
    exact ⟨first, tail, rfl, htail, first_digit (beNat_lt tail) hvalue hnumber⟩

/-- What was written is read back. -/
theorem read (v : Varint) {d rest : Bytes} {p : ℕ} (h : Stands d p (v.encode ++ rest)) :
    varint d p = some (v.value, v.size) := by
  obtain ⟨first, tail, hencode, htail, hform, hvalue⟩ := v.encode_eq
  rw [hencode] at h
  have hslice := h.tail.getSlice
  rw [htail] at hslice
  have hsize : 2 ^ (first.toNat / 64) = v.size := by rw [hform, size]
  simp only [varint, h.getElem?, Option.bind_eq_bind, Option.bind_some, hsize, hslice, foldl_beNat,
    hvalue]

/-- Behind a number. -/
theorem after (v : Varint) {d rest : Bytes} {p : ℕ} (h : Stands d p (v.encode ++ rest)) :
    Stands d (p + v.size) rest := by
  have hskip := h.skip
  rwa [v.length_encode] at hskip

end Varint

def encodeNumbers (numbers : List Varint) : Bytes := numbers.flatMap Varint.encode

/-- The numbers that are skipped are passed over. -/
theorem skip_read {d rest : Bytes} {p : ℕ} (numbers : List Varint)
    (h : Stands d p (encodeNumbers numbers ++ rest)) :
    skip d numbers.length p = some (p + (encodeNumbers numbers).length) := by
  induction numbers generalizing p with
  | nil => rfl
  | cons v numbers ih =>
      have hcons : encodeNumbers (v :: numbers) = v.encode ++ encodeNumbers numbers := rfl
      rw [hcons, List.append_assoc] at h
      rw [List.length_cons, skip, v.read h, hcons, List.length_append, v.length_encode,
        ← Nat.add_assoc]
      exact ih (v.after h)

/-! ## Frames -/

/-- The three counts of an ACK frame with ECN. -/
structure EcnCounts where
  ect0 : Varint
  ect1 : Varint
  ce : Varint
  deriving DecidableEq, Repr

/-- A range of an ACK frame. -/
structure AckRange where
  gap : Varint
  length : Varint
  deriving DecidableEq, Repr

inductive Frame
  | padding
  | ping
  | ack (largest delay count first : Varint) (ranges : List AckRange)
      (counts : count.value = ranges.length) (ecn : Option EcnCounts)
  | crypto (offset length : Varint) (data : Bytes) (measures : length.value = data.length)
  | close (error kind length : Varint) (reason : Bytes) (measures : length.value = reason.length)
  deriving DecidableEq, Repr

namespace Frame

/-- The type of a frame. -/
def type : Frame → UInt8
  | padding => 0x00
  | ping => 0x01
  | ack _ _ _ _ _ _ none => 0x02
  | ack _ _ _ _ _ _ (some _) => 0x03
  | crypto .. => 0x06
  | close .. => 0x1c

/-- The fields of a frame. -/
def fields : Frame → Bytes
  | padding => []
  | ping => []
  | ack largest delay count first ranges _ ecn =>
      encodeNumbers [largest, delay] ++ (count.encode ++
        (encodeNumbers (first :: ranges.flatMap fun r => [r.gap, r.length]) ++
          encodeNumbers (ecn.elim [] fun e => [e.ect0, e.ect1, e.ce])))
  | crypto offset length data _ => offset.encode ++ (length.encode ++ data)
  | close error kind length reason _ => encodeNumbers [error, kind] ++ (length.encode ++ reason)

def encode (f : Frame) : Bytes := f.type :: f.fields

/-- The offset and data of a CRYPTO frame. -/
def crypto? : Frame → Option (ℕ × Bytes)
  | crypto offset _ data _ => some (offset.value, data)
  | _ => none

end Frame

/-- The plaintext that the frames make up. -/
def encodeFrames (frames : List Frame) : Bytes := frames.flatMap Frame.encode

theorem length_ranges (ranges : List AckRange) :
    (ranges.flatMap fun r => [r.gap, r.length]).length = 2 * ranges.length := by
  induction ranges with
  | nil => rfl
  | cons r ranges ih =>
      rw [List.flatMap_cons, List.length_append, ih, List.length_cons]
      simp only [List.length_cons, List.length_nil]
      omega

/-- Every frame is read to its end. -/
theorem frame_read {d rest : Bytes} {p : ℕ} (f : Frame) (h : Stands d p (f.fields ++ rest)) :
    frame d f.type p = some (p + f.fields.length, f.crypto?) := by
  cases f with
  | padding => rfl
  | ping => rfl
  | ack largest delay count first ranges counts ecn =>
      simp only [Frame.fields, List.append_assoc] at h
      have hcount := h.skip
      have hranges := count.after hcount
      have hecn := hranges.skip
      have hfields : skip d 2 p = some (p + (encodeNumbers [largest, delay]).length) :=
        skip_read _ h
      have hpass := skip_read _ hranges
      rw [List.length_cons, length_ranges, ← counts, Nat.add_comm _ 1] at hpass
      cases ecn with
      | none =>
          rw [Frame.type, frame, if_neg (by decide), if_pos (by decide)]
          simp only [hfields, count.read hcount, hpass, Option.bind_eq_bind, Option.bind_some,
            Frame.fields, Frame.crypto?, List.length_append, Varint.length_encode]
          rw [if_neg (by decide)]
          simp only [Option.elim, encodeNumbers, List.flatMap_nil, List.length_nil, Nat.add_assoc,
            Nat.add_zero]
      | some e =>
          have hcounts : skip d 3 _ = some (_ + (encodeNumbers [e.ect0, e.ect1, e.ce]).length) :=
            skip_read _ hecn
          rw [Frame.type, frame, if_neg (by decide), if_pos (by decide)]
          simp only [hfields, count.read hcount, hpass, Option.bind_eq_bind, Option.bind_some,
            Frame.fields, Frame.crypto?, List.length_append, Varint.length_encode]
          rw [if_pos (by decide), hcounts, Option.bind_some]
          simp only [Option.elim, Nat.add_assoc]
  | crypto offset length data measures =>
      simp only [Frame.fields, List.append_assoc] at h
      have hlength := offset.after h
      have hslice := (length.after hlength).getSlice
      rw [← measures] at hslice
      rw [Frame.type, frame, if_neg (by decide), if_neg (by decide), if_pos (by decide)]
      simp only [offset.read h, length.read hlength, hslice, Option.bind_eq_bind, Option.bind_some,
        Frame.fields, Frame.crypto?, List.length_append, Varint.length_encode]
      rw [measures]
      simp only [Nat.add_assoc]
  | close error kind length reason measures =>
      simp only [Frame.fields, List.append_assoc] at h
      have hfields : skip d 2 p = some (p + (encodeNumbers [error, kind]).length) :=
        skip_read _ h
      rw [Frame.type, frame, if_neg (by decide), if_neg (by decide), if_neg (by decide),
        if_pos (by decide)]
      simp only [hfields, length.read h.skip, Option.bind_eq_bind, Option.bind_some,
        Frame.fields, Frame.crypto?, List.length_append, Varint.length_encode, measures,
        Nat.add_assoc]

theorem cryptoFramesFrom_read {d : Bytes} {p : ℕ} (frames : List Frame)
    (h : Stands d p (encodeFrames frames)) {fuel : ℕ} (hfuel : frames.length ≤ fuel) :
    cryptoFramesFrom d fuel p = frames.filterMap Frame.crypto? := by
  induction frames generalizing p fuel with
  | nil =>
      have hend : d[p]? = none := by
        have hlength := h.length
        exact List.getElem?_eq_none (by simp [encodeFrames] at hlength; omega)
      cases fuel with
      | zero => rfl
      | succ fuel =>
          rw [cryptoFramesFrom, hend]
          rfl
  | cons f frames ih =>
      cases fuel with
      | zero => simp at hfuel
      | succ fuel =>
          have hcons : encodeFrames (f :: frames) = f.type :: (f.fields ++ encodeFrames frames) :=
            rfl
          rw [hcons] at h
          rw [List.length_cons] at hfuel
          rw [cryptoFramesFrom, h.getElem?]
          simp only [frame_read f h.tail]
          rw [ih h.tail.skip (by omega), List.filterMap_cons]
          cases f.crypto? <;> rfl

theorem length_le_encodeFrames (frames : List Frame) :
    frames.length ≤ (encodeFrames frames).length := by
  induction frames with
  | nil => exact le_rfl
  | cons f frames ih =>
      have hcons : encodeFrames (f :: frames) = f.type :: (f.fields ++ encodeFrames frames) := rfl
      rw [hcons, List.length_cons, List.length_cons, List.length_append]
      omega

/-- The CRYPTO frames of a plaintext are all returned, in order. -/
theorem cryptoFrames_encode (frames : List Frame) :
    cryptoFrames (encodeFrames frames) = frames.filterMap Frame.crypto? :=
  cryptoFramesFrom_read frames (.start _) (length_le_encodeFrames frames)

end SocketTrail.Pcap.Quic
