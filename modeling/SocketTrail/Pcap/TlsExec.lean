/-
# Feeding a segment does not panic

The assembler of `Tls` with every index, slice, sum and difference made visible. What
the flows keep is bounded, so no segment leads to an index out of bounds, and the
loops over the received bytes and over the records end.
-/

import SocketTrail.Pcap.Bounds
import SocketTrail.Pcap.HelloExec

namespace SocketTrail.Pcap.Tls

open SocketTrail.Foundation
open SocketTrail.Foundation.Exec (add_bind)

/-! ## Records -/

/-- The record at `offset` is a handshake record. -/
def handshakeExec (buf : Bytes) (offset : ℕ) : Exec Bool := do
  let kind ← Exec.index buf offset
  if kind ≠ 0x16 then .value false
  else
    let next ← Exec.add 64 offset 1
    let version ← Exec.index buf next
    .value (version = 3)

/-- The size of the record at `offset`. -/
def recordSizeExec (buf : Bytes) (offset : ℕ) : Exec ℕ := do
  let o ← Exec.add 64 offset 3
  let high ← Exec.index buf o
  let o ← Exec.add 64 offset 4
  let low ← Exec.index buf o
  .value (high.toNat * 256 + low.toNat)

/-- What the handshake bytes collected so far say: `none` when the next record is
needed. -/
def messageExec (hello : Bytes) : Exec (Option Progress) :=
  if 4 ≤ hello.length then do
    let total ← helloTotalExec hello
    let kind ← Exec.index hello 0
    if kind ≠ 1 ∨ maxHello < total then .value (some .rejected)
    else if total ≤ hello.length then
      let message ← Exec.slice hello 0 total
      let sni ← (clientHelloSniExec message).attempt
      .value (some (.found sni))
    else .value none
  else .value none

/-- `helloRecords` with its indices, slices and sums checked, for `fuel` rounds at
most. The difference saturates. -/
def helloRecordsExec (buf : Bytes) (ready : ℕ) : ℕ → ℕ → Bytes → Exec Progress
  | 0, _, _ => .panic
  | fuel + 1, offset, hello =>
      if ready - offset < 5 then .value .waiting
      else do
        let handshake ← handshakeExec buf offset
        if !handshake then .value .rejected
        else
          let size ← recordSizeExec buf offset
          let sum ← Exec.add 64 hello.length size
          if size = 0 ∨ maxHello < size ∨ maxHello < sum then .value .rejected
          else
            let body ← Exec.add 64 offset 5
            let stop ← Exec.add 64 body size
            if ready < stop then .value .waiting
            else
              let payload ← Exec.slice buf body stop
              let hello := hello ++ payload
              let step ← Exec.add 64 5 size
              let offset ← Exec.add 64 offset step
              match ← messageExec hello with
              | some progress => .value progress
              | none => helloRecordsExec buf ready fuel offset hello

/-! ## Flows -/

/-- A byte for position `o` contradicts the one received before. -/
def conflictExec (buf : Bytes) (filled : List Bool) (o : ℕ) (b : UInt8) : Exec Bool := do
  let received ← Exec.index filled o
  if received then
    let old ← Exec.index buf o
    .value (old ≠ b)
  else .value false

/-- `write` with its indices and sums checked, for the bytes of a segment from the
`i`-th on. -/
def writeExec (offset : ℕ) : ℕ → Bytes → Bytes → List Bool → Exec (Option (Bytes × List Bool))
  | _, [], buf, filled => .value (some (buf, filled))
  | i, b :: rest, buf, filled => do
      let o ← Exec.add 64 offset i
      let conflict ← conflictExec buf filled o b
      if conflict then .value none
      else
        let buf ← Exec.put buf o b
        let filled ← Exec.put filled o true
        writeExec offset (i + 1) rest buf filled

namespace Flow

/-- `place` with its indices, sums and differences checked. -/
def placeExec (f : Flow) (sequence : UInt32) (data : Bytes) : Exec Flow :=
  match f.base with
  | none => .value f
  | some base =>
      let offset := (sequence - base).toNat
      if maxStream ≤ offset then .value f
      else do
        let room ← Exec.sub maxStream offset
        if room < data.length then .value f
        else
          let stop ← Exec.add 64 offset data.length
          match ← writeExec offset 0 data (grow f.buf stop 0) (grow f.filled stop false) with
          | none => .value f.finish
          | some (buf, filled) =>
              let ready ← Exec.advance filled (filled.length + 1) f.ready
              .value { f with buf := buf, filled := filled, ready := ready }

/-- `search` with its indices, slices, sums and differences checked. -/
def searchExec (f : Flow) (sequence : UInt32) (data : Bytes) : Exec (Flow × Option String) := do
  let f ← f.placeExec sequence data
  if f.done then .value (f, none)
  else
    match ← helloRecordsExec f.buf f.ready (f.ready + 1) 0 [] with
    | .waiting => .value (f, none)
    | .rejected => .value (f.finish, none)
    | .found sni => .value (f.finish, sni)

/-- `hold` with its sums checked. -/
def holdExec (f : Flow) (sequence : UInt32) (data : Bytes) : Exec Flow := do
  let held ← Exec.sum 64 0 (f.pending.map fun p => p.2.length)
  if f.pending.length < 16 then
    let sum ← Exec.add 64 held data.length
    if sum ≤ maxStream then .value { f with pending := f.pending ++ [(sequence, data)] }
    else .value f
  else .value f

/-- Put the segments that waited into their places. -/
def placeAllExec : Flow → List (UInt32 × Bytes) → Exec Flow
  | f, [] => .value f
  | f, (sequence, data) :: rest => do
      let f ← f.placeExec sequence data
      placeAllExec f rest

/-- `add` with its indices, slices, sums and differences checked. -/
def addExec (f : Flow) (sequence : UInt32) (data : Bytes) : Exec (Flow × Option String) :=
  if f.done ∨ data.isEmpty ∨ maxStream < data.length then .value (f, none)
  else if f.base.isSome then f.searchExec sequence data
  else if data.head? = some 0x16 then do
    let f' ← placeAllExec { f with base := some sequence, pending := [] } f.pending
    f'.searchExec sequence data
  else do
    let f ← f.holdExec sequence data
    .value (f, none)

end Flow

namespace Assembler

/-- `feed` with its indices, slices, sums and differences checked. -/
def feedExec (a : Assembler) (e : Feed) : Exec (Assembler × Option String) :=
  if e.rst then .value ({ flows := a.flows.erase e.key }, none)
  else
    let flows := a.dropOld e
    if !e.syn && e.data.isEmpty then .value ({ flows := flows }, none)
    else do
      let flows := makeRoom flows e
      let flow := { (flows.lookup e.key).getD e.opened with seen := e.clock.read 1 }
      let sequence := if e.syn then e.sequence + 1 else e.sequence
      let (flow, result) ← flow.addExec sequence e.data
      let flows := flows.insert e.key flow
      .value ({ flows := if e.fin then flows.erase e.key else flows }, result)

end Assembler

/-! ## Records are read without a panic -/

section Records

variable {buf : Bytes} {offset : ℕ}

theorem handshakeExec_eq (h : offset + 5 ≤ buf.length) (hlength : buf.length ≤ maxStream) :
    handshakeExec buf offset =
      .value (!decide (buf.getD offset 0 ≠ 0x16 ∨ buf.getD (offset + 1) 0 ≠ 3)) := by
  have hmax : maxStream = 32 * 1024 := rfl
  rw [handshakeExec, Exec.index_eq (by omega) 0, Exec.value_bind]
  generalize buf.getD offset 0 = kind
  by_cases hkind : kind ≠ 0x16
  · rw [if_pos hkind, decide_eq_true (.inl hkind)]
    rfl
  · rw [if_neg hkind, add_bind (by omega), Exec.index_eq (by omega) 0, Exec.value_bind]
    simp [hkind]

theorem recordSizeExec_eq (h : offset + 5 ≤ buf.length) (hlength : buf.length ≤ maxStream) :
    recordSizeExec buf offset =
      .value ((buf.getD (offset + 3) 0).toNat * 256 + (buf.getD (offset + 4) 0).toNat) := by
  have hmax : maxStream = 32 * 1024 := rfl
  rw [recordSizeExec, add_bind (by omega), Exec.index_eq (by omega) 0, Exec.value_bind,
    add_bind (by omega), Exec.index_eq (by omega) 0, Exec.value_bind]

theorem messageExec_eq {hello : Bytes} (h : hello.length ≤ maxHello) :
    messageExec hello =
      .value (if 4 ≤ hello.length then
        if hello.getD 0 0 ≠ 1 ∨ maxHello < helloTotal hello then some .rejected
        else if helloTotal hello ≤ hello.length then
          some (.found (clientHelloSni (hello.take (helloTotal hello))))
        else none
      else none) := by
  have hmax : maxHello = 16 * 1024 := rfl
  rw [messageExec]
  split
  · rename_i hheader
    rw [helloTotalExec_eq hheader, Exec.value_bind, Exec.index_eq (by omega) 0, Exec.value_bind]
    generalize helloTotal hello = total
    split
    · rfl
    · split
      · have hmessage : (hello.take total).length < 2 ^ 63 := by
          rw [List.length_take]
          omega
        rw [Exec.slice_zero (by omega), Exec.value_bind, clientHelloSniExec_eq,
          Exec.attempt_of]
        rfl
      · rfl
  · rfl

/-- The loop ends: every record takes at least six bytes. -/
theorem helloRecordsExec_eq {ready : ℕ} (hready : ready ≤ buf.length)
    (hlength : buf.length ≤ maxStream) {fuel : ℕ} (hfuel : ready ≤ offset + fuel) {hello : Bytes}
    (hhello : hello.length ≤ maxHello) :
    helloRecordsExec buf ready (fuel + 1) offset hello =
      .value (helloRecords buf ready fuel offset hello) := by
  have hmaxStream : maxStream = 32 * 1024 := rfl
  have hmaxHello : maxHello = 16 * 1024 := rfl
  induction fuel generalizing offset hello with
  | zero =>
      rw [helloRecordsExec, if_pos (by omega)]
      rfl
  | succ fuel ih =>
      rw [helloRecordsExec, helloRecords]
      by_cases hshort : ready - offset < 5
      · rw [if_pos hshort, if_pos hshort]
      rw [if_neg hshort, if_neg hshort, handshakeExec_eq (by omega) hlength, Exec.value_bind]
      by_cases hrecord : buf.getD offset 0 ≠ 0x16 ∨ buf.getD (offset + 1) 0 ≠ 3
      · rw [if_pos hrecord, decide_eq_true hrecord]
        rfl
      rw [if_neg hrecord, decide_eq_false hrecord, recordSizeExec_eq (by omega) hlength,
        Exec.value_bind]
      have hhigh := (buf.getD (offset + 3) 0).toNat_lt
      have hlow := (buf.getD (offset + 4) 0).toNat_lt
      have hword : (buf.getD (offset + 3) 0).toNat * 256 + (buf.getD (offset + 4) 0).toNat <
          65536 := by omega
      dsimp only
      generalize (buf.getD (offset + 3) 0).toNat * 256 + (buf.getD (offset + 4) 0).toNat = size
        at hword
      rw [if_neg (by decide), add_bind (by omega)]
      by_cases hsize : size = 0 ∨ maxHello < size ∨ maxHello < hello.length + size
      · rw [if_pos hsize, if_pos hsize]
      rw [if_neg hsize, if_neg hsize, add_bind (by omega), add_bind (by omega)]
      by_cases hwait : ready < offset + 5 + size
      · rw [if_pos hwait, if_pos hwait]
      rw [if_neg hwait, if_neg hwait, Exec.slice_eq (by omega) (by omega), Exec.value_bind,
        add_bind (by omega), add_bind (by omega), Nat.add_sub_cancel_left, ← Nat.add_assoc]
      have hgrown : (hello ++ (buf.drop (offset + 5)).take size).length ≤ maxHello := by
        rw [List.length_append, List.length_take]
        omega
      generalize hello ++ (buf.drop (offset + 5)).take size = hello at hgrown
      rw [messageExec_eq hgrown, Exec.value_bind]
      have hrest : ready ≤ offset + 5 + size + fuel := by omega
      have hnext := ih hrest hgrown
      by_cases hheader : 4 ≤ hello.length
      · rw [if_pos hheader, if_pos hheader]
        by_cases hmessage : hello.getD 0 0 ≠ 1 ∨ maxHello < helloTotal hello
        · rw [if_pos hmessage, if_pos hmessage]
        rw [if_neg hmessage, if_neg hmessage]
        by_cases hwhole : helloTotal hello ≤ hello.length
        · rw [if_pos hwhole, if_pos hwhole]
        · rw [if_neg hwhole, if_neg hwhole]
          exact hnext
      · rw [if_neg hheader, if_neg hheader]
        exact hnext

end Records

/-! ## A flow takes segments in without a panic -/

theorem conflictExec_eq {buf : Bytes} {filled : List Bool} {o : ℕ} (hbuf : o < buf.length)
    (hfilled : o < filled.length) (b : UInt8) :
    conflictExec buf filled o b =
      .value (decide (filled.getD o false ∧ buf.getD o 0 ≠ b)) := by
  rw [conflictExec, Exec.index_eq hfilled false, Exec.value_bind]
  cases filled.getD o false with
  | false => rfl
  | true =>
      rw [if_pos rfl, Exec.index_eq hbuf 0, Exec.value_bind]
      simp

/-- A segment that fits into the buffer is written without leaving it. -/
theorem writeExec_eq {offset i : ℕ} {data buf : Bytes} {filled : List Bool}
    (hbuf : offset + i + data.length ≤ buf.length)
    (hfilled : offset + i + data.length ≤ filled.length) (hlength : buf.length < 2 ^ 63) :
    writeExec offset i data buf filled = .value (write buf filled (offset + i) data) := by
  induction data generalizing i buf filled with
  | nil => rfl
  | cons b rest ih =>
      rw [List.length_cons] at hbuf hfilled
      rw [writeExec, write, add_bind (by omega), conflictExec_eq (by omega) (by omega),
        Exec.value_bind]
      by_cases hconflict : filled.getD (offset + i) false ∧ buf.getD (offset + i) 0 ≠ b
      · rw [if_pos hconflict, decide_eq_true hconflict]
        rfl
      · rw [if_neg hconflict, decide_eq_false hconflict, Exec.put_eq (by omega), Exec.value_bind,
          Exec.put_eq (by omega), Exec.value_bind]
        refine (if_neg (by decide)).trans (ih (i := i + 1) ?_ ?_ ?_)
        · rw [List.length_set]
          omega
        · rw [List.length_set]
          omega
        · rw [List.length_set]
          exact hlength

namespace Flow

variable {f : Flow}

theorem placeExec_eq (h : Bounded f) (sequence : UInt32) (data : Bytes) :
    f.placeExec sequence data = .value (f.place sequence data) := by
  have hmax : maxStream = 32 * 1024 := rfl
  have hshort := h.short
  have haligned := h.aligned
  unfold placeExec place
  cases f.base with
  | none => rfl
  | some base =>
      dsimp only
      generalize (sequence - base).toNat = offset
      by_cases hfar : maxStream ≤ offset
      · rw [if_pos hfar, if_pos (.inl hfar)]
      rw [if_neg hfar, Exec.sub_eq (by omega), Exec.value_bind]
      by_cases hlong : maxStream - offset < data.length
      · rw [if_pos hlong, if_pos (.inr hlong)]
      have hbuf := length_grow f.buf (offset + data.length) 0
      have hfilled := length_grow f.filled (offset + data.length) false
      rw [if_neg hlong, if_neg (not_or.mpr ⟨hfar, hlong⟩), add_bind (by omega),
        writeExec_eq (by omega) (by omega) (by omega), Nat.add_zero, Exec.value_bind]
      cases hwrite : write (grow f.buf (offset + data.length) 0)
          (grow f.filled (offset + data.length) false) offset data with
      | none => rfl
      | some written =>
          obtain ⟨buf, filled⟩ := written
          have hlength := (write_keeps hwrite).2.1
          dsimp only
          rw [Exec.advance_eq (by omega) (by omega)]
          rfl

theorem placeAllExec_eq (h : Bounded f) (segments : List (UInt32 × Bytes)) :
    placeAllExec f segments = .value (segments.foldl (fun f p => f.place p.1 p.2) f) := by
  induction segments generalizing f with
  | nil => rfl
  | cons p rest ih =>
      rw [placeAllExec, placeExec_eq h, Exec.value_bind, ih (h.place p.1 p.2)]
      rfl

theorem searchExec_eq (h : Bounded f) (sequence : UInt32) (data : Bytes) :
    f.searchExec sequence data = .value (f.search sequence data) := by
  have hplaced := h.place sequence data
  rw [searchExec, Flow.search, placeExec_eq h, Exec.value_bind]
  generalize f.place sequence data = f at hplaced
  cases hdone : f.done with
  | true => rfl
  | false =>
      have hready := hplaced.ready_le hdone
      rw [if_neg (by decide), if_neg (by decide),
        helloRecordsExec_eq hready hplaced.short (by omega) (Nat.zero_le _), Exec.value_bind]
      generalize helloRecords f.buf f.ready f.ready 0 [] = progress
      cases progress <;> rfl

theorem holdExec_eq (h : Bounded f) (sequence : UInt32) {data : Bytes}
    (hdata : data.length ≤ maxStream) :
    f.holdExec sequence data = .value (f.hold sequence data) := by
  have hmax : maxStream = 32 * 1024 := rfl
  have hheld := h.held
  rw [holdExec, hold, Exec.sum_eq (by omega), Exec.value_bind, Nat.zero_add]
  generalize (f.pending.map fun p => p.2.length).sum = held at hheld
  by_cases hfew : f.pending.length < 16
  · rw [if_pos hfew, add_bind (by omega)]
    by_cases hroom : held + data.length ≤ maxStream
    · rw [if_pos hroom, if_pos ⟨hfew, hroom⟩]
    · rw [if_neg hroom, if_neg fun hboth => hroom hboth.2]
  · rw [if_neg hfew, if_neg fun hboth => hfew hboth.1]

theorem addExec_eq (h : Bounded f) (sequence : UInt32) (data : Bytes) :
    f.addExec sequence data = .value (f.add sequence data) := by
  unfold addExec Flow.add
  split
  · rfl
  · rename_i hsome
    split
    · exact searchExec_eq h sequence data
    · split
      · have hbounded := (placeAll_bounded (h.based sequence) f.pending).1
        rw [placeAllExec_eq (h.based sequence), Exec.value_bind]
        exact searchExec_eq hbounded sequence data
      · have hdata : data.length ≤ maxStream := by
          by_contra hlong
          exact hsome (.inr (.inr (not_le.mp hlong)))
        rw [holdExec_eq h sequence hdata]
        rfl

end Flow

namespace Assembler

/-- Whatever segment comes, a bounded assembler takes it in without a panic. -/
theorem feedExec_eq {a : Assembler} (h : Bounded a) (e : Feed) :
    a.feedExec e = .value (a.feed e) := by
  have hadd := Flow.addExec_eq (h.target e) (if e.syn then e.sequence + 1 else e.sequence) e.data
  unfold target at hadd
  unfold feedExec feed
  split
  · rfl
  · dsimp only
    split
    · rfl
    · rw [hadd]
      rfl

end Assembler

end SocketTrail.Pcap.Tls
