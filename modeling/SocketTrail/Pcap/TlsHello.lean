/-
# A ClientHello is found however it is segmented

`Opening` describes a stream that begins with a ClientHello in TLS records. A
flow that was opened by its SYN stays in a `Tracked` state: it has gathered the
positions received so far and they do not reach the end of the last record yet,
or they do and the flow is done. `hello_reassembled` reads off which call returns
the name.
-/

import SocketTrail.Pcap.Tls

namespace SocketTrail.Pcap.Tls

open SocketTrail.Foundation SocketTrail.Net

/-! ## Records -/

/-- A handshake record of a TLS version with major number 3. -/
structure Record where
  minor : UInt8
  payload : Bytes
  deriving DecidableEq, Repr

def Record.header (r : Record) : Bytes :=
  [0x16, 3, r.minor, UInt8.ofNat (r.payload.length / 256), UInt8.ofNat r.payload.length]

def Record.encode (r : Record) : Bytes := r.header ++ r.payload

/-- The bytes of a sequence of records. -/
def encodeRecords (records : List Record) : Bytes := (records.map Record.encode).flatten

/-- What the records carry together. -/
def payloads (records : List Record) : Bytes := (records.map Record.payload).flatten

/-- The stream begins with records that carry the ClientHello; the last of them
completes it. -/
structure Opening (stream hello : Bytes) (records : List Record) : Prop where
  isHello : IsHello hello
  begins : encodeRecords records <+: stream
  nonempty : ∀ r ∈ records, r.payload ≠ []
  carries : hello <+: payloads records
  completes : (payloads records.dropLast).length < hello.length
  bounded : (payloads records).length ≤ maxHello
  within : (encodeRecords records).length ≤ maxStream

theorem encodeRecords_append (first second : List Record) :
    encodeRecords (first ++ second) = encodeRecords first ++ encodeRecords second := by
  simp [encodeRecords]

theorem payloads_append (first second : List Record) :
    payloads (first ++ second) = payloads first ++ payloads second := by
  simp [payloads]

theorem encodeRecords_singleton (r : Record) : encodeRecords [r] = r.encode := by
  simp [encodeRecords]

theorem payloads_singleton (r : Record) : payloads [r] = r.payload := by
  simp [payloads]

theorem Record.length_encode (r : Record) : r.encode.length = 5 + r.payload.length := by
  rw [Record.encode, List.length_append]
  rfl

/-- The header of a record says how long the record is. -/
theorem Record.size_eq {r : Record} (h : r.payload.length ≤ maxHello) :
    (UInt8.ofNat (r.payload.length / 256)).toNat * 256 +
      (UInt8.ofNat r.payload.length).toNat = r.payload.length := by
  have hlen : r.payload.length ≤ 16384 := h
  rw [UInt8.toNat_ofNat', UInt8.toNat_ofNat']
  omega

theorem length_le_encodeRecords (records : List Record) :
    records.length ≤ (encodeRecords records).length := by
  induction records with
  | nil => exact le_rfl
  | cons r rest ih =>
      have hcons : encodeRecords (r :: rest) = r.encode ++ encodeRecords rest := rfl
      rw [hcons, List.length_append, List.length_cons, r.length_encode]
      omega

namespace Opening

variable {stream hello : Bytes} {records : List Record}

theorem ne_nil (h : Opening stream hello records) : records ≠ [] := by
  rintro rfl
  have hlen : hello.length ≤ 0 := h.carries.length_le
  have hheader := h.isHello.header
  omega

/-- What the records carried so far says about the message: its kind, and its
length once four bytes are there. -/
theorem header_of_front (h : Opening stream hello records) {acc : Bytes}
    (hacc : acc <+: payloads records) (hlen : 4 ≤ acc.length) :
    acc.getD 0 0 = 1 ∧ helloTotal acc = hello.length := by
  apply h.isHello.of_agrees
  intro i hi
  rw [← getElem?_of_front hacc (by omega),
    ← getElem?_of_front h.carries (lt_of_lt_of_le hi h.isHello.header)]

end Opening

section Loop

variable {stream hello buf : Bytes} {records : List Record} {got : ℕ → Prop} {filled : List Bool}
  {ready : ℕ}

/-- What the buffer shows at the header of a record. -/
theorem header_read (hg : Gathered stream got buf filled ready) {offset : ℕ} {r : Record}
    (hrecord : r.encode <+: stream.drop offset) (hready : offset + 5 ≤ ready) (i : ℕ)
    (hi : i < 5) : buf.getD (offset + i) 0 = r.header.getD i 0 := by
  have hheader : r.header <+: stream.drop offset := (List.prefix_append _ _).trans hrecord
  have hlen : i < r.header.length := hi
  rw [List.getD_eq_getElem?_getD, hg.getElem?_eq (by omega), ← List.getElem?_drop,
    getElem?_of_front hheader hlen, ← List.getD_eq_getElem?_getD]

/-- The payload of a record that is received as a whole. -/
theorem payload_read (hg : Gathered stream got buf filled ready) {offset : ℕ} {r : Record}
    (hrecord : r.encode <+: stream.drop offset)
    (hready : offset + 5 + r.payload.length ≤ ready) :
    (buf.drop (offset + 5)).take r.payload.length = r.payload := by
  rw [hg.slice_eq hready]
  obtain ⟨rest, hrest⟩ := hrecord
  have hdrop : stream.drop (offset + 5) = r.payload ++ rest := by
    rw [← List.drop_drop, ← hrest]
    rfl
  rw [hdrop, List.take_left]

/-- Where a record stands in the stream, and what it adds to the message. -/
structure Next (stream : Bytes) (records before : List Record) (r : Record) (more : List Record) :
    Prop where
  split : before ++ r :: more = records
  encode : r.encode <+: stream.drop (encodeRecords before).length
  payload : payloads (before ++ [r]) = payloads before ++ r.payload
  carried : payloads before ++ r.payload <+: payloads records
  position : (encodeRecords (before ++ [r])).length =
    (encodeRecords before).length + 5 + r.payload.length
  stop : (encodeRecords (before ++ [r])).length + (encodeRecords more).length =
    (encodeRecords records).length

theorem Opening.next (h : Opening stream hello records) {before more : List Record} {r : Record}
    (hsplit : before ++ r :: more = records) : Next stream records before r more := by
  have hparts : before ++ [r] ++ more = records := by
    rw [← hsplit, List.append_assoc]
    rfl
  have hpayload : payloads (before ++ [r]) = payloads before ++ r.payload := by
    rw [payloads_append, payloads_singleton]
  constructor
  · exact hsplit
  · have hbegins := h.begins
    rw [← hparts, encodeRecords_append, encodeRecords_append, encodeRecords_singleton,
      List.append_assoc] at hbegins
    obtain ⟨rest, hstream⟩ := hbegins
    rw [← hstream, List.append_assoc, List.drop_left, List.append_assoc]
    exact List.prefix_append _ _
  · exact hpayload
  · rw [← hpayload, ← hparts, payloads_append (before ++ [r])]
    exact List.prefix_append _ _
  · rw [encodeRecords_append, encodeRecords_singleton, List.length_append, r.length_encode]
    omega
  · rw [← hparts, encodeRecords_append (before ++ [r]), List.length_append]

/-- A record is not empty and does not make the message too long. -/
theorem Opening.size_ok (h : Opening stream hello records) {before more : List Record}
    {r : Record} (hnext : Next stream records before r more) :
    r.payload.length ≠ 0 ∧ (payloads before).length + r.payload.length ≤ maxHello := by
  constructor
  · have hmem : r ∈ records := by
      rw [← hnext.split]
      exact List.mem_append_right _ (List.mem_cons_self ..)
    exact fun hzero => h.nonempty r hmem (List.eq_nil_of_length_eq_zero hzero)
  · rw [← List.length_append]
    exact hnext.carried.length_le.trans h.bounded

/-- The search takes the header of a record for what it is. -/
theorem header_facts (h : Opening stream hello records)
    (hg : Gathered stream got buf filled ready) {before more : List Record} {r : Record}
    (hnext : Next stream records before r more) {offset : ℕ}
    (hoffset : (encodeRecords before).length = offset) (hready : offset + 5 ≤ ready) :
    buf.getD offset 0 = 0x16 ∧ buf.getD (offset + 1) 0 = 3 ∧
      (buf.getD (offset + 3) 0).toNat * 256 + (buf.getD (offset + 4) 0).toNat =
        r.payload.length := by
  subst hoffset
  have hread := header_read hg hnext.encode hready
  have hsize := (h.size_ok hnext).2
  refine ⟨hread 0 (by omega), hread 1 (by omega), ?_⟩
  rw [hread 3 (by omega), hread 4 (by omega)]
  exact Record.size_eq (by omega)

/-- The search reads one record that is there as a whole, and looks at what the
records carried so far. -/
theorem helloRecords_step (h : Opening stream hello records)
    (hg : Gathered stream got buf filled ready) {before more : List Record} {r : Record}
    (hnext : Next stream records before r more) {fuel : ℕ}
    (hready : (encodeRecords (before ++ [r])).length ≤ ready) :
    helloRecords buf ready (fuel + 1) (encodeRecords before).length (payloads before) =
      if hello.length ≤ (payloads (before ++ [r])).length then .found (clientHelloSni hello)
      else helloRecords buf ready fuel (encodeRecords (before ++ [r])).length
        (payloads (before ++ [r])) := by
  rw [hnext.position] at hready ⊢
  obtain ⟨hkind, hmajor, hsize⟩ := header_facts h hg hnext rfl (by omega)
  have hpayload := payload_read hg hnext.encode hready
  obtain ⟨hnonempty, hbound⟩ := h.size_ok hnext
  rw [helloRecords]
  dsimp only
  rw [if_neg (by omega), if_neg (by simp only [hkind, hmajor]; simp), hsize,
    if_neg (by omega), if_neg (by omega), hpayload, ← hnext.payload]
  have hcarried : payloads (before ++ [r]) <+: payloads records := hnext.payload ▸ hnext.carried
  by_cases hheader : 4 ≤ (payloads (before ++ [r])).length
  · obtain ⟨hfirst, htotal⟩ := h.header_of_front hcarried hheader
    have hhello : hello.length ≤ maxHello := h.carries.length_le.trans h.bounded
    rw [if_pos hheader, hfirst, htotal, if_neg (by simp; omega)]
    by_cases hcomplete : hello.length ≤ (payloads (before ++ [r])).length
    · rw [if_pos hcomplete, if_pos hcomplete]
      have hfront : hello <+: payloads (before ++ [r]) :=
        List.prefix_of_prefix_length_le h.carries hcarried hcomplete
      rw [← List.prefix_iff_eq_take.mp hfront]
    · rw [if_neg hcomplete, if_neg hcomplete]
  · have hshort : ¬ hello.length ≤ (payloads (before ++ [r])).length := by
      have hlong := h.isHello.header
      omega
    rw [if_neg hheader, if_neg hshort]

/-- The search waits for a record that is not there as a whole. -/
theorem helloRecords_wait (h : Opening stream hello records)
    (hg : Gathered stream got buf filled ready) {before more : List Record} {r : Record}
    (hnext : Next stream records before r more) {fuel : ℕ}
    (hready : ready < (encodeRecords (before ++ [r])).length) :
    helloRecords buf ready (fuel + 1) (encodeRecords before).length (payloads before) =
      .waiting := by
  rw [hnext.position] at hready
  rw [helloRecords]
  dsimp only
  by_cases hheader : ready - (encodeRecords before).length < 5
  · rw [if_pos hheader]
  · obtain ⟨hkind, hmajor, hsize⟩ := header_facts h hg hnext rfl (by omega)
    obtain ⟨hnonempty, hbound⟩ := h.size_ok hnext
    rw [if_neg hheader, if_neg (by simp only [hkind, hmajor]; simp), hsize, if_neg (by omega),
      if_pos (by omega)]

/-- The search through the records, from any record on: it waits until the last
one is received, and then finds the ClientHello. -/
theorem helloRecords_eq (h : Opening stream hello records)
    (hg : Gathered stream got buf filled ready) {rest before : List Record} {fuel : ℕ}
    (hsplit : before ++ rest = records) (hrest : rest ≠ [])
    (hfuel : (encodeRecords records).length ≤ ready → rest.length ≤ fuel) :
    ((encodeRecords records).length ≤ ready →
      helloRecords buf ready fuel (encodeRecords before).length (payloads before) =
        .found (clientHelloSni hello)) ∧
    (ready < (encodeRecords records).length →
      helloRecords buf ready fuel (encodeRecords before).length (payloads before) = .waiting) := by
  induction rest generalizing before fuel with
  | nil => contradiction
  | cons r more ih =>
      have hnext := h.next hsplit
      cases fuel with
      | zero =>
          constructor
          · intro hall
            have hempty := hfuel hall
            simp at hempty
          · intro _
            rfl
      | succ fuel =>
          by_cases hrecord : ready < (encodeRecords (before ++ [r])).length
          · refine ⟨?_, fun _ => helloRecords_wait h hg hnext hrecord⟩
            intro hall
            have hstop := hnext.stop
            omega
          · rw [Nat.not_lt] at hrecord
            rw [helloRecords_step h hg hnext hrecord]
            cases more with
            | nil =>
                have hall : before ++ [r] = records := hsplit
                have hcomplete : hello.length ≤ (payloads (before ++ [r])).length := by
                  rw [hall]
                  exact h.carries.length_le
                rw [if_pos hcomplete]
                refine ⟨fun _ => rfl, fun hlt => ?_⟩
                rw [hall] at hrecord
                omega
            | cons r' more =>
                have hopen : ¬ hello.length ≤ (payloads (before ++ [r])).length := by
                  have hparts : (before ++ r :: r' :: more).dropLast =
                      before ++ [r] ++ (r' :: more).dropLast := by
                    rw [List.dropLast_append_of_ne_nil (List.cons_ne_nil _ _),
                      List.dropLast_cons_of_ne_nil (List.cons_ne_nil _ _), List.append_assoc]
                    rfl
                  have hlast := h.completes
                  rw [← hsplit, hparts, payloads_append, List.length_append] at hlast
                  omega
                rw [if_neg hopen]
                apply ih (by rw [← hsplit]; simp) (List.cons_ne_nil _ _)
                intro hall
                have hfuel' := hfuel hall
                rw [List.length_cons] at hfuel'
                omega

end Loop

/-! ## Segments of one flow -/

/-- Bytes that contradict nothing are all written. -/
theorem write_eq {buf : Bytes} {filled : List Bool} {o : ℕ} {data : Bytes}
    (hagrees : ∀ i < data.length, filled[o + i]? = some true → buf[o + i]? = data[i]?) :
    write buf filled o data =
      some (overwrite buf o data, overwrite filled o (List.replicate data.length true)) := by
  induction data generalizing buf filled o with
  | nil => rfl
  | cons b rest ih =>
      have hsame : ¬ (filled.getD o false = true ∧ buf.getD o 0 ≠ b) := by
        rintro ⟨hfilled, hother⟩
        have hflag : filled[o]? = some true := by
          rw [List.getD_eq_getElem?_getD] at hfilled
          cases hget : filled[o]? with
          | none => simp [hget] at hfilled
          | some flag => simpa [hget] using hfilled
        have hbyte : buf[o]? = some b := hagrees 0 (by simp) hflag
        simp [List.getD_eq_getElem?_getD, hbyte] at hother
      rw [write, if_neg hsame, ih]
      · rfl
      · intro i hi hflag
        have hshift : o + 1 + i = o + (i + 1) := by omega
        rw [List.getElem?_set_ne (by omega)] at hflag ⊢
        rw [hshift] at hflag ⊢
        exact hagrees (i + 1) (by simpa using hi) hflag

/-- The positions that a segment brings. -/
def Brings (offset : ℕ) (data : Bytes) (got : ℕ → Prop) (i : ℕ) : Prop :=
  got i ∨ (offset ≤ i ∧ i < offset + data.length)

/-- A slice of the stream is put into its place. -/
theorem Flow.place_gathered {stream : Bytes} {got : ℕ → Prop} {f : Flow} {base : UInt32}
    (hbase : f.base = some base) (hg : Gathered stream got f.buf f.filled f.ready)
    {sequence : UInt32} {data : Bytes} (hdata : data ≠ [])
    (hslice : data <+: stream.drop (sequence - base).toNat)
    (hwithin : (sequence - base).toNat + data.length ≤ maxStream) :
    ∃ buf filled ready,
      f.place sequence data = { f with buf := buf, filled := filled, ready := ready } ∧
        Gathered stream (Brings (sequence - base).toNat data got) buf filled ready := by
  have hlength : 0 < data.length := List.length_pos_of_ne_nil hdata
  have hagrees : ∀ i < data.length,
      (grow f.filled ((sequence - base).toNat + data.length) false)[(sequence - base).toNat + i]? =
        some true →
      (grow f.buf ((sequence - base).toNat + data.length) 0)[(sequence - base).toNat + i]? =
        data[i]? := by
    intro i hi hflag
    rw [getElem?_grow] at hflag
    split at hflag
    · rename_i hold
      rw [getElem?_grow, if_pos (hg.length ▸ hold)]
      exact hg.agrees hslice hi hflag
    · split at hflag <;> simp at hflag
  refine ⟨_, _, _, ?_, hg.insert hslice 0⟩
  rw [Flow.place, hbase]
  dsimp only
  rw [if_neg (by omega), write_eq hagrees]

/-- A flow that was opened by its SYN: it waits for the end of the last record, or
it is done because everything up to there was received. -/
inductive Tracked (stream : Bytes) (stop : ℕ) (base : UInt32) (got : ℕ → Prop) (f : Flow) : Prop
  | waiting (hbase : f.base = some base) (hdone : f.done = false)
      (hg : Gathered stream got f.buf f.filled f.ready) (hmissing : f.ready < stop)
  | complete (hdone : f.done = true) (hall : ∀ i < stop, got i)

theorem Tracked.congr {stream : Bytes} {stop : ℕ} {base : UInt32} {got got' : ℕ → Prop} {f : Flow}
    (h : Tracked stream stop base got f) (hsame : ∀ i, got' i ↔ got i) :
    Tracked stream stop base got' f := by
  cases h with
  | waiting hbase hdone hg hmissing => exact .waiting hbase hdone (hg.congr hsame) hmissing
  | complete hdone hall => exact .complete hdone fun i hi => (hsame i).mpr (hall i hi)

theorem Tracked.seen {stream : Bytes} {stop : ℕ} {base : UInt32} {got : ℕ → Prop} {f : Flow}
    (h : Tracked stream stop base got f) (t : ℕ) :
    Tracked stream stop base got { f with seen := t } := by
  cases h with
  | waiting hbase hdone hg hmissing => exact .waiting hbase hdone hg hmissing
  | complete hdone hall => exact .complete hdone hall

/-- A segment keeps a flow tracked, and returns the name of the ClientHello when
it completes the records. -/
theorem Tracked.add {stream hello : Bytes} {records : List Record}
    (h : Opening stream hello records) {base : UInt32} {got : ℕ → Prop} {f : Flow}
    (ht : Tracked stream (encodeRecords records).length base got f) {sequence : UInt32}
    {data : Bytes} (hslice : data <+: stream.drop (sequence - base).toNat)
    (hwithin : (sequence - base).toNat + data.length ≤ maxStream) {got' : ℕ → Prop}
    (hgot' : ∀ i, got' i ↔ Brings (sequence - base).toNat data got i) :
    Tracked stream (encodeRecords records).length base got' (f.add sequence data).1 ∧
      (Completes (encodeRecords records).length got got' →
        (f.add sequence data).2 = clientHelloSni hello) ∧
      (¬ Completes (encodeRecords records).length got got' → (f.add sequence data).2 = none) := by
  by_cases hdata : data = []
  · have hsame (i : ℕ) : got' i ↔ got i := by
      rw [hgot', Brings, hdata]
      simp only [List.length_nil]
      constructor
      · rintro (hi | hi)
        · exact hi
        · omega
      · exact .inl
    have hadd : f.add sequence data = (f, none) := by
      rw [Flow.add, if_pos (.inr (.inl (by simp [hdata])))]
    rw [hadd]
    refine ⟨ht.congr hsame, fun hnow => ?_, fun _ => rfl⟩
    exact absurd hnow (not_completes_of_same hsame)
  · cases ht with
    | complete hdone hall =>
        have hadd : f.add sequence data = (f, none) := by
          rw [Flow.add, if_pos (.inl hdone)]
        rw [hadd]
        refine ⟨.complete hdone fun i hi => (hgot' i).mpr (.inl (hall i hi)), fun hnow => ?_,
          fun _ => rfl⟩
        exact absurd hnow (not_completes_of_all hall)
    | waiting hbase hdone hg hmissing =>
        have hnot : ¬ ∀ i < (encodeRecords records).length, got i := by
          intro hall
          have hready := hg.le_ready_iff.mpr hall
          omega
        obtain ⟨buf, filled, ready, hplace, hg'⟩ := f.place_gathered hbase hg hdata hslice hwithin
        have hgathered := hg'.congr hgot'
        have hadd : f.add sequence data = f.search sequence data := by
          rw [Flow.add, if_neg (by simp [hdone, hdata]; omega), if_pos (by rw [hbase]; rfl)]
        have hsplit : [] ++ records = records := rfl
        have hscan := helloRecords_eq h hgathered hsplit h.ne_nil fun hall =>
          (length_le_encodeRecords records).trans hall
        have hcovered : (encodeRecords records).length ≤ ready ↔
            ∀ i < (encodeRecords records).length, got' i := hgathered.le_ready_iff
        rw [hadd, Flow.search, hplace]
        dsimp only
        rw [if_neg (by simp [hdone])]
        by_cases hall : (encodeRecords records).length ≤ ready
        · have hfound := hscan.1 hall
          simp only [encodeRecords, payloads, List.map_nil, List.flatten_nil,
            List.length_nil] at hfound
          rw [hfound]
          refine ⟨.complete rfl (hcovered.mp hall), fun _ => rfl, fun hnever => ?_⟩
          exact absurd ⟨hcovered.mp hall, hnot⟩ hnever
        · have hwaits := hscan.2 (by omega)
          simp only [encodeRecords, payloads, List.map_nil, List.flatten_nil,
            List.length_nil] at hwaits
          rw [hwaits]
          refine ⟨.waiting hbase hdone hgathered (Nat.lt_of_not_le hall), fun hnow => ?_,
            fun _ => rfl⟩
          exact absurd (hcovered.mpr hnow.1) hall

/-! ## The flow in the assembler -/

namespace Assembler

/-- A segment of a flow that is kept goes to that flow. -/
theorem feed_self {a : Assembler} {e : Feed} {f : Flow} (hflow : a.flows.lookup e.key = some f)
    (hrst : e.rst = false) (hsyn : e.syn = false) (hfin : e.fin = false)
    (halive : a.expired e = false) :
    ∃ t, (a.feed e).2 = (({ f with seen := t } : Flow).add e.sequence e.data).2 ∧
      (a.feed e).1.flows.lookup e.key =
        some (({ f with seen := t } : Flow).add e.sequence e.data).1 := by
  have hkept : a.dropOld e = a.flows := by
    rw [dropOld, if_neg (by simp [halive, hsyn])]
  by_cases hdata : e.data = []
  · have hadd : ({ f with seen := f.seen } : Flow).add e.sequence e.data = (f, none) := by
      rw [Flow.add, if_pos (.inr (.inl (by simp [hdata])))]
    refine ⟨f.seen, ?_⟩
    rw [hadd, feed, if_neg (by simp [hrst]), hkept]
    dsimp only
    rw [if_pos (by simp [hsyn, hdata])]
    exact ⟨rfl, hflow⟩
  · have hroom : makeRoom a.flows e = a.flows := by
      have hmem : e.key ∈ a.flows := KeyedMap.mem_iff_exists_lookup.mpr ⟨f, hflow⟩
      rw [makeRoom, if_neg (by simp [hmem])]
    refine ⟨e.clock.read 1, ?_⟩
    rw [feed, if_neg (by simp [hrst]), hkept]
    dsimp only
    rw [if_neg (by simp [hsyn, hdata]), hroom, hflow, hsyn, hfin]
    exact ⟨rfl, AList.lookup_insert ..⟩

/-- A SYN finds no flow of its key. -/
theorem room_of_syn {a : Assembler} {e : Feed} (hsyn : e.syn = true) :
    (makeRoom (a.dropOld e) e).lookup e.key = none := by
  have hdropped : (a.dropOld e).lookup e.key = none := by
    rw [dropOld, if_pos (by simp [hsyn])]
    exact AList.lookup_erase ..
  unfold makeRoom
  split
  · split
    · rename_i old _
      by_cases hold : e.key = old
      · rw [hold]
        exact AList.lookup_erase ..
      · rw [AList.lookup_erase_ne hold]
        exact hdropped
    · exact hdropped
  · exact hdropped

/-- A SYN opens a flow of its own. -/
theorem feed_syn {a : Assembler} {e : Feed} (hrst : e.rst = false) (hsyn : e.syn = true)
    (hfin : e.fin = false) :
    (a.feed e).2 = (e.opened.add (e.sequence + 1) e.data).2 ∧
      (a.feed e).1.flows.lookup e.key = some (e.opened.add (e.sequence + 1) e.data).1 := by
  rw [feed, if_neg (by simp [hrst])]
  dsimp only
  rw [if_neg (by simp [hsyn]), room_of_syn hsyn, hsyn, hfin]
  exact ⟨rfl, AList.lookup_insert ..⟩

/-- A segment of another flow leaves this one alone, or throws it out. -/
theorem feed_other {a : Assembler} {e : Feed} {key : Key} (hne : key ≠ e.key) :
    (a.feed e).1.flows.lookup key = a.flows.lookup key ∨
      (a.feed e).1.flows.lookup key = none := by
  have hdropped : (a.dropOld e).lookup key = a.flows.lookup key := by
    unfold dropOld
    split
    · exact AList.lookup_erase_ne hne
    · rfl
  have hroom : (makeRoom (a.dropOld e) e).lookup key = a.flows.lookup key ∨
      (makeRoom (a.dropOld e) e).lookup key = none := by
    rw [← hdropped]
    unfold makeRoom
    split
    · split
      · rename_i old _
        by_cases hold : key = old
        · subst hold
          exact .inr (AList.lookup_erase ..)
        · exact .inl (AList.lookup_erase_ne hold)
      · exact .inl rfl
    · exact .inl rfl
  unfold feed
  dsimp only
  split
  · exact .inl (AList.lookup_erase_ne hne)
  · split
    · exact .inl hdropped
    · split
      · rw [AList.lookup_erase_ne hne, AList.lookup_insert_ne hne]
        exact hroom
      · rw [AList.lookup_insert_ne hne]
        exact hroom

end Assembler

/-! ## The result -/

/-- The position in the stream at which a segment stands, its first byte being
numbered `base`. -/
def Feed.offset (e : Feed) (base : UInt32) : ℕ := (e.sequence - base).toNat

/-- A segment behind the SYN that carries a slice of the beginning of the stream,
while its flow is kept. -/
structure Segment (stream : Bytes) (base : UInt32) (a : Assembler) (e : Feed) : Prop where
  rst : e.rst = false
  syn : e.syn = false
  fin : e.fin = false
  slice : e.data <+: stream.drop (e.offset base)
  within : e.offset base + e.data.length ≤ maxStream
  alive : a.expired e = false

/-- What may happen between the segments of a flow: its own segments, and
segments of other flows that do not throw it out. -/
def Undisturbed (stream : Bytes) (syn : Feed) (a : Assembler) (e : Feed) : Prop :=
  if e.key = syn.key then Segment stream (syn.sequence + 1) a e
  else (a.feed e).1.flows.lookup syn.key ≠ none

/-- The positions received with the SYN and behind it. -/
def Received (syn : Feed) (hist : History Assembler Feed) (i : ℕ) : Prop :=
  i < syn.data.length ∨ ∃ entry ∈ hist, entry.2.key = syn.key ∧
    entry.2.offset (syn.sequence + 1) ≤ i ∧
      i < entry.2.offset (syn.sequence + 1) + entry.2.data.length

theorem received_cons (syn : Feed) (hist : History Assembler Feed) (a : Assembler) {e : Feed}
    (hkey : e.key = syn.key) (i : ℕ) :
    Received syn ((a, e) :: hist) i ↔
      Brings (e.offset (syn.sequence + 1)) e.data (Received syn hist) i := by
  simp only [Received, Brings, List.exists_mem_cons_iff, hkey, true_and]
  rw [or_assoc]
  exact or_congr_right or_comm

theorem received_cons_other (syn : Feed) (hist : History Assembler Feed) (a : Assembler) {e : Feed}
    (hkey : e.key ≠ syn.key) (i : ℕ) :
    Received syn ((a, e) :: hist) i ↔ Received syn hist i := by
  simp [Received, hkey]

section Flow

variable {stream hello : Bytes} {records : List Record} {a₀ : Assembler} {syn : Feed}

/-- The flow that a SYN opens is tracked, and the SYN itself may complete the
ClientHello. -/
theorem tracked_of_syn (h : Opening stream hello records) (hsyn : syn.syn = true)
    (hdata : syn.data <+: stream) (hwithin : syn.data.length ≤ maxStream) :
    Tracked stream (encodeRecords records).length (syn.sequence + 1) (Received syn [])
        (syn.opened.add (syn.sequence + 1) syn.data).1 ∧
      (Completes (encodeRecords records).length (fun _ => False) (Received syn []) →
        (syn.opened.add (syn.sequence + 1) syn.data).2 = clientHelloSni hello) ∧
      (¬ Completes (encodeRecords records).length (fun _ => False) (Received syn []) →
        (syn.opened.add (syn.sequence + 1) syn.data).2 = none) := by
  have hpositive : 0 < (encodeRecords records).length :=
    (List.length_pos_of_ne_nil h.ne_nil).trans_le (length_le_encodeRecords records)
  have hopened : Tracked stream (encodeRecords records).length (syn.sequence + 1)
      (fun _ => False) syn.opened := by
    apply Tracked.waiting _ rfl (Gathered.empty stream) hpositive
    rw [Feed.opened, if_pos hsyn]
  have hoffset : (syn.sequence + 1 - (syn.sequence + 1)).toNat = 0 := by
    rw [UInt32.sub_self]
    rfl
  apply hopened.add h
  · rw [hoffset]
    exact hdata
  · rw [hoffset]
    omega
  · intro i
    simp [Received, Brings]

/-- The flow that a SYN opens stays tracked, whatever arrives in between. -/
theorem tracked_of_run (h : Opening stream hello records) (hsyn : syn.syn = true)
    (hrst : syn.rst = false) (hfin : syn.fin = false) (hdata : syn.data <+: stream)
    (hwithin : syn.data.length ≤ maxStream) {hist : History Assembler Feed} {a : Assembler}
    (run : Run Assembler.system (a₀.feed syn).1 hist a)
    (hundisturbed : ∀ entry ∈ hist, Undisturbed stream syn entry.1 entry.2) :
    ∃ f, a.flows.lookup syn.key = some f ∧
      Tracked stream (encodeRecords records).length (syn.sequence + 1) (Received syn hist) f := by
  revert hundisturbed
  apply run.historyInvariant (P := fun hist a =>
    (∀ entry ∈ hist, Undisturbed stream syn entry.1 entry.2) →
      ∃ f, a.flows.lookup syn.key = some f ∧
        Tracked stream (encodeRecords records).length (syn.sequence + 1) (Received syn hist) f)
  · intro _
    exact ⟨_, (Assembler.feed_syn hrst hsyn hfin).2, (tracked_of_syn h hsyn hdata hwithin).1⟩
  · intro hist a e a' _ ih fires hundisturbed
    obtain ⟨f, hflow, htracked⟩ := ih fun entry hentry =>
      hundisturbed entry (List.mem_cons_of_mem _ hentry)
    have hnow := hundisturbed (a, e) (List.mem_cons_self ..)
    have hnext : (a.feed e).1 = a' := by simpa [Assembler.system] using fires
    rw [← hnext]
    unfold Undisturbed at hnow
    by_cases hkey : e.key = syn.key
    · rw [if_pos hkey] at hnow
      rw [← hkey] at hflow ⊢
      obtain ⟨t, -, hlookup⟩ := Assembler.feed_self hflow hnow.rst hnow.syn hnow.fin hnow.alive
      refine ⟨_, hlookup, ?_⟩
      exact ((htracked.seen t).add h hnow.slice hnow.within (received_cons syn hist a hkey)).1
    · rw [if_neg hkey] at hnow
      have hsame := (Assembler.feed_other (Ne.symm hkey)).resolve_right hnow
      exact ⟨f, hsame.trans hflow, htracked.congr (received_cons_other syn hist a hkey)⟩

/-- **The ClientHello is found independently of the segmentation.** A SYN opens a
flow; behind it come slices of the stream in any order, overlapping or repeated,
between segments of other flows. The call that completes the records returns the
name in the ClientHello, and every other call returns nothing. -/
theorem hello_reassembled (h : Opening stream hello records) (hsyn : syn.syn = true)
    (hrst : syn.rst = false) (hfin : syn.fin = false) (hdata : syn.data <+: stream)
    (hwithin : syn.data.length ≤ maxStream) :
    ((Completes (encodeRecords records).length (fun _ => False) (Received syn []) →
        (a₀.feed syn).2 = clientHelloSni hello) ∧
      (¬ Completes (encodeRecords records).length (fun _ => False) (Received syn []) →
        (a₀.feed syn).2 = none)) ∧
    ∀ hist a, Run Assembler.system (a₀.feed syn).1 hist a →
      (∀ entry ∈ hist, Undisturbed stream syn entry.1 entry.2) →
      ∀ e, e.key = syn.key → Segment stream (syn.sequence + 1) a e →
        (Completes (encodeRecords records).length (Received syn hist)
            (Received syn ((a, e) :: hist)) → (a.feed e).2 = clientHelloSni hello) ∧
        (¬ Completes (encodeRecords records).length (Received syn hist)
            (Received syn ((a, e) :: hist)) → (a.feed e).2 = none) := by
  constructor
  · rw [(Assembler.feed_syn hrst hsyn hfin).1]
    exact (tracked_of_syn h hsyn hdata hwithin).2
  · intro hist a run hundisturbed e hkey hsegment
    obtain ⟨f, hflow, htracked⟩ := tracked_of_run h hsyn hrst hfin hdata hwithin run hundisturbed
    rw [← hkey] at hflow
    obtain ⟨t, hresult, -⟩ :=
      Assembler.feed_self hflow hsegment.rst hsegment.syn hsegment.fin hsegment.alive
    rw [hresult]
    exact ((htracked.seen t).add h hsegment.slice hsegment.within
      (received_cons syn hist a hkey)).2

end Flow

/-- The sample ClientHello in two records. -/
def sampleRecords : List Record :=
  [{ minor := 1, payload := sampleHello.take 40 }, { minor := 3, payload := sampleHello.drop 40 }]

theorem sample_opening :
    Opening (encodeRecords sampleRecords) sampleHello sampleRecords where
  isHello := ⟨by decide, by decide, by decide⟩
  begins := List.prefix_refl _
  nonempty := by decide
  carries := by decide
  completes := by decide
  bounded := by decide
  within := by decide

/-- A packet of the sample stream. -/
def sampleFeed (sequence : UInt32) (flags : UInt8) (data : Bytes) : Feed where
  key := (.ofOctets 10 0 0 1, 5000, .ofOctets 1 1 1 1, 443)
  sequence := sequence
  flags := flags
  data := data
  clock := .still 0
  order := .stored

def sampleSyn : Feed := sampleFeed 0xFFFFFFF0 2 []

/-- The end of the sample stream, behind the point where the numbers wrap. -/
def sampleTail : Feed := sampleFeed 5 0x10 ((encodeRecords sampleRecords).drop 20)

/-- The beginning of the sample stream, overlapping its end. -/
def sampleHead : Feed := sampleFeed 0xFFFFFFF1 0x10 ((encodeRecords sampleRecords).take 30)

/-- A byte that contradicts the beginning of the sample stream. -/
def sampleClash : Feed := sampleFeed 0xFFFFFFF3 0x10 [0xFF]

/-- The sample name is found when the end of the stream arrives first. -/
theorem hello_reassembled_sample :
    ((Assembler.system.play [] (Assembler.feed { flows := ∅ } sampleSyn).1 [sampleTail]).2.feed
      sampleHead).2 = some "a.b" := by
  have run : Run Assembler.system (Assembler.feed { flows := ∅ } sampleSyn).1 _ _ :=
    Run.start.play [sampleTail]
  have htail : Segment (encodeRecords sampleRecords) (sampleSyn.sequence + 1)
      (Assembler.feed { flows := ∅ } sampleSyn).1 sampleTail := by
    constructor <;> decide
  have hhead : Segment (encodeRecords sampleRecords) (sampleSyn.sequence + 1)
      (Assembler.system.play [] (Assembler.feed { flows := ∅ } sampleSyn).1 [sampleTail]).2
      sampleHead := by
    constructor <;> decide
  have hundisturbed : ∀ entry ∈ (Assembler.system.play []
      (Assembler.feed { flows := ∅ } sampleSyn).1 [sampleTail]).1,
      Undisturbed (encodeRecords sampleRecords) sampleSyn entry.1 entry.2 := by
    refine List.forall_mem_cons.mpr ⟨?_, by simp⟩
    have hkey : sampleTail.key = sampleSyn.key := rfl
    rw [Undisturbed, if_pos hkey]
    exact htail
  rw [((hello_reassembled sample_opening rfl rfl rfl (by decide) (by decide)).2 _ _ run
    hundisturbed sampleHead rfl hhead).1]
  · decide
  · constructor
    · intro i hi
      right
      have hstop : i < 69 := hi
      by_cases hhead : i < 30
      · exact ⟨_, List.mem_cons_self .., rfl, Nat.zero_le i, hhead⟩
      · refine ⟨_, List.mem_cons_of_mem _ (List.mem_cons_self ..), rfl, ?_, hstop⟩
        exact (by decide : sampleTail.offset (sampleSyn.sequence + 1) ≤ 30).trans
          (Nat.le_of_not_lt hhead)
    · intro hall
      rcases hall 0 (by decide) with hsyn | ⟨entry, hentry, -, hfrom, -⟩
      · contradiction
      · obtain rfl := List.mem_singleton.mp hentry
        revert hfrom
        decide

end SocketTrail.Pcap.Tls
