/-
# What the assemblers keep and index

Whoever sends packets decides what the assemblers are fed, so what they keep has
to stay small whatever comes, and every index has to lie in its buffer. The
checked functions are the ones of the models with the indices made visible:
`none` stands for the panic of an index that is out of bounds.
-/

import SocketTrail.Pcap.QuicHello
import SocketTrail.Pcap.TlsHello

namespace SocketTrail.Pcap

open SocketTrail.Foundation

/-! ## The beginning of a TCP stream -/

namespace Tls

/-- `write` with its indices checked. -/
def writeChecked : Bytes → List Bool → ℕ → Bytes → Option (Option (Bytes × List Bool))
  | buf, filled, _, [] => some (some (buf, filled))
  | buf, filled, o, b :: rest => do
      let received ← filled[o]?
      let old ← buf[o]?
      if received ∧ old ≠ b then some none
      else writeChecked (buf.set o b) (filled.set o true) (o + 1) rest

/-- `helloRecords` with its indices checked. -/
def helloRecordsChecked (buf : Bytes) (ready : ℕ) : ℕ → ℕ → Bytes → Option Progress
  | 0, _, _ => some .waiting
  | fuel + 1, offset, hello =>
      if ready - offset < 5 then some .waiting
      else do
        let kind ← buf[offset]?
        let version ← buf[offset + 1]?
        if kind ≠ 0x16 ∨ version ≠ 3 then some .rejected
        else
          let high ← buf[offset + 3]?
          let low ← buf[offset + 4]?
          let size := high.toNat * 256 + low.toNat
          if size = 0 ∨ maxHello < size ∨ maxHello < hello.length + size then some .rejected
          else if ready < offset + 5 + size then some .waiting
          else
            let payload ← getSlice buf (offset + 5) size
            let hello := hello ++ payload
            let offset := offset + 5 + size
            if 4 ≤ hello.length then
              let total := 4 + beNat (← getSlice hello 1 3)
              if (← hello[0]?) ≠ 1 ∨ maxHello < total then some .rejected
              else if total ≤ hello.length then
                let message ← getSlice hello 0 total
                some (.found (clientHelloSni message))
              else helloRecordsChecked buf ready fuel offset hello
            else helloRecordsChecked buf ready fuel offset hello

namespace Flow

/-- `place` with its indices checked. -/
def placeChecked (f : Flow) (sequence : UInt32) (data : Bytes) : Option Flow :=
  match f.base with
  | none => some f
  | some base =>
      let offset := (sequence - base).toNat
      if maxStream ≤ offset ∨ maxStream - offset < data.length then some f
      else do
        let stop := offset + data.length
        match ← writeChecked (grow f.buf stop 0) (grow f.filled stop false) offset data with
        | none => some f.finish
        | some (buf, filled) =>
            some { f with buf := buf, filled := filled, ready := advance filled f.ready }

/-- `search` with its indices checked. -/
def searchChecked (f : Flow) (sequence : UInt32) (data : Bytes) :
    Option (Flow × Option String) := do
  let f ← f.placeChecked sequence data
  if f.done then some (f, none)
  else
    match ← helloRecordsChecked f.buf f.ready f.ready 0 [] with
    | .waiting => some (f, none)
    | .rejected => some (f.finish, none)
    | .found sni => some (f.finish, sni)

/-- `add` with its indices checked. -/
def addChecked (f : Flow) (sequence : UInt32) (data : Bytes) : Option (Flow × Option String) :=
  if f.done ∨ data.isEmpty ∨ maxStream < data.length then some (f, none)
  else if f.base.isSome then f.searchChecked sequence data
  else if data.head? = some 0x16 then do
    let f' := { f with base := some sequence, pending := [] }
    let f' ← f.pending.foldlM (fun f p => f.placeChecked p.1 p.2) f'
    f'.searchChecked sequence data
  else some (f.hold sequence data, none)

/-- What a flow keeps: a buffer of the size of a stream, with one flag for every
byte, and few segments that wait. An unfinished flow is received without a gap up
to `ready`. -/
structure Bounded (f : Flow) : Prop where
  aligned : f.buf.length = f.filled.length
  short : f.buf.length ≤ maxStream
  waiting : f.pending.length ≤ 16
  held : (f.pending.map fun p => p.2.length).sum ≤ maxStream
  solid : f.done = false → Solid f.filled f.ready

end Flow

/-- Writing changes no length and takes no flag away. -/
theorem write_keeps {buf buf' : Bytes} {filled filled' : List Bool} {o : ℕ} {data : Bytes}
    (h : write buf filled o data = some (buf', filled')) :
    buf'.length = buf.length ∧ filled'.length = filled.length ∧
      ∀ i : ℕ, filled[i]? = some true → filled'[i]? = some true := by
  induction data generalizing buf filled o with
  | nil =>
      obtain ⟨rfl, rfl⟩ := Prod.mk.inj (Option.some.inj h)
      exact ⟨rfl, rfl, fun i hi => hi⟩
  | cons b rest ih =>
      rw [write] at h
      split at h
      · contradiction
      · obtain ⟨hbuf, hfilled, hkeep⟩ := ih h
        rw [List.length_set] at hbuf hfilled
        refine ⟨hbuf, hfilled, fun i hi => hkeep i ?_⟩
        have hlt : i < filled.length := (List.getElem?_eq_some_iff.mp hi).1
        by_cases hself : o = i
        · subst hself
          exact List.getElem?_set_self hlt
        · rw [List.getElem?_set_ne hself, hi]

/-- A segment that fits into the buffer is written without leaving it. -/
theorem writeChecked_eq {buf : Bytes} {filled : List Bool} {o : ℕ} {data : Bytes}
    (hbuf : o + data.length ≤ buf.length) (hfilled : o + data.length ≤ filled.length) :
    writeChecked buf filled o data = some (write buf filled o data) := by
  induction data generalizing buf filled o with
  | nil => rfl
  | cons b rest ih =>
      rw [List.length_cons] at hbuf hfilled
      have hflag : filled[o]? = some (filled.getD o false) := by
        rw [List.getD_eq_getElem?_getD, List.getElem?_eq_getElem (by omega)]
        rfl
      have hbyte : buf[o]? = some (buf.getD o 0) := by
        rw [List.getD_eq_getElem?_getD, List.getElem?_eq_getElem (by omega)]
        rfl
      have hrest : writeChecked (buf.set o b) (filled.set o true) (o + 1) rest =
          some (write (buf.set o b) (filled.set o true) (o + 1) rest) := by
        apply ih
        · rw [List.length_set]
          omega
        · rw [List.length_set]
          omega
      rw [writeChecked, write, hflag, hbyte, Option.bind_eq_bind, Option.bind_some,
        Option.bind_eq_bind, Option.bind_some, hrest]
      exact (apply_ite some _ _ _).symm

/-- The records are read inside the buffer. -/
theorem helloRecordsChecked_eq {buf : Bytes} {ready : ℕ} (hready : ready ≤ buf.length)
    (fuel offset : ℕ) (hello : Bytes) :
    helloRecordsChecked buf ready fuel offset hello =
      some (helloRecords buf ready fuel offset hello) := by
  induction fuel generalizing offset hello with
  | zero => rfl
  | succ fuel ih =>
      rw [helloRecordsChecked, helloRecords]
      by_cases hshort : ready - offset < 5
      · rw [if_pos hshort, if_pos hshort]
      · have hbyte (i : ℕ) (hi : offset + i < buf.length) :
            buf[offset + i]? = some (buf.getD (offset + i) 0) := by
          rw [List.getD_eq_getElem?_getD, List.getElem?_eq_getElem hi]
          rfl
        have hkind := hbyte 0 (by omega)
        rw [Nat.add_zero] at hkind
        simp only [if_neg hshort, hkind, hbyte 1 (by omega), hbyte 3 (by omega),
          hbyte 4 (by omega), Option.bind_eq_bind, Option.bind_some]
        generalize (buf.getD (offset + 3) 0).toNat * 256 + (buf.getD (offset + 4) 0).toNat = size
        by_cases hrecord : buf.getD offset 0 ≠ 0x16 ∨ buf.getD (offset + 1) 0 ≠ 3
        · rw [if_pos hrecord, if_pos hrecord]
        rw [if_neg hrecord, if_neg hrecord]
        by_cases hsize : size = 0 ∨ maxHello < size ∨ maxHello < hello.length + size
        · rw [if_pos hsize, if_pos hsize]
        rw [if_neg hsize, if_neg hsize]
        by_cases hwait : ready < offset + 5 + size
        · rw [if_pos hwait, if_pos hwait]
        rw [if_neg hwait, if_neg hwait, getSlice, if_pos (by omega), Option.bind_some]
        generalize hello ++ (buf.drop (offset + 5)).take size = hello
        by_cases hheader : 4 ≤ hello.length
        · have hfirst : hello[0]? = some (hello.getD 0 0) := by
            rw [List.getD_eq_getElem?_getD, List.getElem?_eq_getElem (by omega)]
            rfl
          rw [if_pos hheader, if_pos hheader, getSlice, if_pos (by omega), Option.bind_some, hfirst,
            Option.bind_some, ← helloTotal]
          by_cases hmessage : hello.getD 0 0 ≠ 1 ∨ maxHello < helloTotal hello
          · rw [if_pos hmessage, if_pos hmessage]
          rw [if_neg hmessage, if_neg hmessage]
          by_cases hwhole : helloTotal hello ≤ hello.length
          · rw [if_pos hwhole, if_pos hwhole, getSlice, if_pos (by omega), Option.bind_some,
              List.drop_zero]
          · rw [if_neg hwhole, if_neg hwhole, ih]
        · rw [if_neg hheader, if_neg hheader, ih]

namespace Flow

variable {f : Flow}

theorem finish_bounded (f : Flow) : Bounded f.finish where
  aligned := rfl
  short := Nat.zero_le _
  waiting := Nat.zero_le _
  held := Nat.zero_le _
  solid hdone := by contradiction

/-- What is received without a gap lies in the buffer. -/
theorem Bounded.ready_le (h : Bounded f) (hdone : f.done = false) : f.ready ≤ f.buf.length := by
  rw [h.aligned]
  exact (h.solid hdone).le_length

theorem Bounded.place (h : Bounded f) (sequence : UInt32) (data : Bytes) :
    Bounded (f.place sequence data) := by
  unfold Flow.place
  split
  · exact h
  · rename_i base _
    dsimp only
    split
    · exact h
    · rename_i hroom
      split
      · exact f.finish_bounded
      · rename_i buf filled hwrite
        obtain ⟨hbuf, hfilled, hkeep⟩ := write_keeps hwrite
        rw [length_grow] at hbuf hfilled
        constructor
        · rw [hbuf, hfilled, h.aligned]
        · have hshort := h.short
          rw [hbuf]
          omega
        · exact h.waiting
        · exact h.held
        · intro hdone
          have hgrown : Solid filled f.ready := (h.solid hdone).mono fun i hi =>
            hkeep i (getElem?_grow_of_true hi _)
          exact hgrown.advance

/-- No segment is written outside the buffer, whatever the flow holds. -/
theorem placeChecked_eq (f : Flow) (sequence : UInt32) (data : Bytes) :
    f.placeChecked sequence data = some (f.place sequence data) := by
  unfold placeChecked Flow.place
  cases f.base with
  | none => rfl
  | some base =>
      dsimp only
      split
      · rfl
      · rw [writeChecked_eq (by rw [length_grow]; exact le_max_right ..)
          (by rw [length_grow]; exact le_max_right ..), Option.bind_eq_bind, Option.bind_some]
        generalize write _ _ _ data = written
        cases written <;> rfl

/-- What was waiting is put into its place without leaving the buffer. -/
theorem placeAll_bounded (h : Bounded f) (segments : List (UInt32 × Bytes)) :
    Bounded (segments.foldl (fun f p => f.place p.1 p.2) f) ∧
      segments.foldlM (fun f p => f.placeChecked p.1 p.2) f =
        some (segments.foldl (fun f p => f.place p.1 p.2) f) := by
  induction segments generalizing f with
  | nil => exact ⟨h, rfl⟩
  | cons p rest ih =>
      obtain ⟨hbounded, hchecked⟩ := ih (h.place p.1 p.2)
      refine ⟨hbounded, ?_⟩
      rw [List.foldlM_cons, placeChecked_eq, Option.bind_eq_bind, Option.bind_some, hchecked]
      rfl

theorem Bounded.search (h : Bounded f) (sequence : UInt32) (data : Bytes) :
    Bounded (f.search sequence data).1 := by
  have hplaced := h.place sequence data
  unfold Flow.search
  dsimp only
  split
  · exact hplaced
  · split
    · exact hplaced
    · exact finish_bounded _
    · exact finish_bounded _

theorem searchChecked_eq (h : Bounded f) (sequence : UInt32) (data : Bytes) :
    f.searchChecked sequence data = some (f.search sequence data) := by
  have hplaced := h.place sequence data
  rw [searchChecked, Flow.search, placeChecked_eq, Option.bind_eq_bind, Option.bind_some]
  generalize f.place sequence data = f at hplaced
  cases hdone : f.done with
  | true => rfl
  | false =>
      have hready := hplaced.ready_le hdone
      rw [if_neg (by decide), if_neg (by decide), helloRecordsChecked_eq hready,
        Option.bind_eq_bind, Option.bind_some]
      generalize helloRecords f.buf f.ready f.ready 0 [] = progress
      cases progress <;> rfl

theorem Bounded.hold (h : Bounded f) (sequence : UInt32) (data : Bytes) :
    Bounded (f.hold sequence data) := by
  unfold Flow.hold
  dsimp only
  split
  · rename_i hroom
    constructor
    · exact h.aligned
    · exact h.short
    · rw [List.length_append]
      exact hroom.1
    · rw [List.map_append, List.sum_append, List.map_singleton, List.sum_singleton]
      exact hroom.2
    · exact h.solid
  · exact h

/-- A flow that gets its base is as bounded as it was. -/
theorem Bounded.based (h : Bounded f) (sequence : UInt32) :
    Bounded { f with base := some sequence, pending := [] } where
  aligned := h.aligned
  short := h.short
  waiting := Nat.zero_le _
  held := Nat.zero_le _
  solid := h.solid

theorem Bounded.add (h : Bounded f) (sequence : UInt32) (data : Bytes) :
    Bounded (f.add sequence data).1 := by
  unfold Flow.add
  split
  · exact h
  · split
    · exact h.search sequence data
    · split
      · exact (placeAll_bounded (h.based sequence) f.pending).1.search sequence data
      · exact h.hold sequence data

theorem addChecked_eq (h : Bounded f) (sequence : UInt32) (data : Bytes) :
    f.addChecked sequence data = some (f.add sequence data) := by
  unfold addChecked Flow.add
  split
  · rfl
  · split
    · exact searchChecked_eq h sequence data
    · split
      · obtain ⟨hbounded, hchecked⟩ := placeAll_bounded (h.based sequence) f.pending
        dsimp only
        rw [hchecked, Option.bind_eq_bind, Option.bind_some]
        exact searchChecked_eq hbounded sequence data
      · rfl

end Flow

namespace Assembler

/-- `feed` with its indices checked. -/
def feedChecked (a : Assembler) (e : Feed) : Option (Assembler × Option String) :=
  if e.rst then some ({ flows := a.flows.erase e.key }, none)
  else
    let flows := a.dropOld e
    if !e.syn && e.data.isEmpty then some ({ flows := flows }, none)
    else do
      let flows := makeRoom flows e
      let flow := { (flows.lookup e.key).getD e.opened with seen := e.clock.read 1 }
      let sequence := if e.syn then e.sequence + 1 else e.sequence
      let (flow, result) ← flow.addChecked sequence e.data
      let flows := flows.insert e.key flow
      some ({ flows := if e.fin then flows.erase e.key else flows }, result)

/-- The segment is given to a flow: it resets none, and has a SYN or data. -/
def Given (e : Feed) : Prop := e.rst = false ∧ (e.syn = true ∨ e.data ≠ [])

/-- The flow that a segment is given to: the one of its key, or a new one. -/
def target (a : Assembler) (e : Feed) : Flow :=
  { ((makeRoom (a.dropOld e) e).lookup e.key).getD e.opened with seen := e.clock.read 1 }

/-- The flow of a segment, once the segment is taken in. -/
def taken (a : Assembler) (e : Feed) : Flow × Option String :=
  (a.target e).add (if e.syn then e.sequence + 1 else e.sequence) e.data

/-- A segment that is given to a flow takes its flow along, unless it has a FIN. -/
theorem feed_given {a : Assembler} {e : Feed} (h : Given e) :
    (a.feed e).1.flows =
      if e.fin then ((makeRoom (a.dropOld e) e).insert e.key (a.taken e).1).erase e.key
      else (makeRoom (a.dropOld e) e).insert e.key (a.taken e).1 := by
  have hdata : ¬ ((!e.syn && e.data.isEmpty) = true) := by
    rcases h.2 with hsyn | hdata
    · simp [hsyn]
    · simp [hdata]
  rw [feed, if_neg (by simp [h.1])]
  dsimp only
  rw [if_neg hdata]
  rfl

/-- Any other segment only takes flows away. -/
theorem feed_notGiven {a : Assembler} {e : Feed} (h : ¬ Given e) :
    (a.feed e).1.flows = a.flows.erase e.key ∨ (a.feed e).1.flows = a.dropOld e := by
  unfold feed
  split
  · exact .inl rfl
  · rename_i hrst
    dsimp only
    split
    · exact .inr rfl
    · rename_i hdata
      exfalso
      apply h
      refine ⟨by simpa using hrst, ?_⟩
      simp only [Bool.and_eq_true, Bool.not_eq_true', List.isEmpty_iff, not_and] at hdata
      by_cases hsyn : e.syn = true
      · exact .inl hsyn
      · exact .inr (hdata (by simpa using hsyn))

section Every

variable {P : Flow → Prop} {a : Assembler} {e : Feed}

theorem dropOld_every (h : KeyedMap.Every P a.flows) : KeyedMap.Every P (a.dropOld e) := by
  unfold dropOld
  split
  · exact h.erase e.key
  · exact h

theorem makeRoom_every {flows : KeyedMap Key Flow} (h : KeyedMap.Every P flows) :
    KeyedMap.Every P (makeRoom flows e) := by
  unfold makeRoom
  split
  · split
    · exact h.erase _
    · exact h
  · exact h

/-- The flow that takes a segment in is one that was kept or a new one. -/
theorem target_holds (h : KeyedMap.Every P a.flows) (hopened : P e.opened)
    (hseen : ∀ (f : Flow) t, P f → P { f with seen := t }) : P (a.target e) :=
  hseen _ _ ((makeRoom_every (dropOld_every h)).getD hopened e.key)

/-- Flows that all have a property, have it after the segment as well exactly when
the flow that takes the segment in has it, if that is kept. -/
theorem feed_every_iff (h : KeyedMap.Every P a.flows) :
    KeyedMap.Every P (a.feed e).1.flows ↔ (Given e → e.fin = false → P (a.taken e).1) := by
  by_cases hgiven : Given e
  · have hroom := makeRoom_every (e := e) (dropOld_every (e := e) h)
    rw [feed_given hgiven]
    cases hfin : e.fin with
    | true =>
        rw [if_pos rfl, KeyedMap.erase_insert_self]
        exact iff_of_true (hroom.erase e.key) fun _ hkept => by contradiction
    | false =>
        rw [if_neg (by decide)]
        constructor
        · intro hevery _ _
          exact hevery e.key _ (AList.lookup_insert ..)
        · intro htaken
          exact hroom.insert (htaken hgiven rfl)
  · refine iff_of_true ?_ fun hsome => absurd hsome hgiven
    rcases feed_notGiven hgiven with hflows | hflows
    · rw [hflows]
      exact h.erase e.key
    · rw [hflows]
      exact dropOld_every h

end Every

/-- The number of flows and what each of them keeps. -/
structure Bounded (a : Assembler) : Prop where
  few : a.flows.size ≤ maxFlows
  flows : KeyedMap.Every Flow.Bounded a.flows

theorem opened_bounded (e : Feed) : Flow.Bounded e.opened where
  aligned := rfl
  short := Nat.zero_le _
  waiting := Nat.zero_le _
  held := Nat.zero_le _
  solid _ := solid_zero _

theorem Bounded.target {a : Assembler} (h : Bounded a) (e : Feed) : Flow.Bounded (a.target e) :=
  target_holds h.flows (opened_bounded e) fun _ _ hf =>
    ⟨hf.aligned, hf.short, hf.waiting, hf.held, hf.solid⟩

theorem size_dropOld_le (a : Assembler) (e : Feed) :
    KeyedMap.size (a.dropOld e) ≤ a.flows.size := by
  unfold dropOld
  split
  · exact KeyedMap.size_erase_le _ _
  · exact le_rfl

/-- There is room for one more flow. -/
theorem size_makeRoom {flows : KeyedMap Key Flow} (h : flows.size ≤ maxFlows) (e : Feed) :
    KeyedMap.size (makeRoom flows e) ≤ maxFlows ∧
      (e.key ∉ makeRoom flows e → KeyedMap.size (makeRoom flows e) < maxFlows) := by
  unfold makeRoom
  split
  · rename_i hfull
    have hpos : 0 < flows.size := lt_of_lt_of_le (by decide) hfull.2
    split
    · rename_i old hold
      have hsize := KeyedMap.size_erase_of_mem (KeyedMap.mem_of_oldest hold)
      exact ⟨by omega, fun _ => by omega⟩
    · rename_i hnone
      exact absurd hnone (KeyedMap.oldest_ne_none _ _ hpos)
  · rename_i hnotFull
    refine ⟨h, fun hkey => ?_⟩
    by_contra hlt
    exact hnotFull ⟨hkey, by omega⟩

theorem Bounded.feed {a : Assembler} (h : Bounded a) (e : Feed) : Bounded (a.feed e).1 where
  few := by
    by_cases hgiven : Given e
    · obtain ⟨hsize, hroom⟩ := size_makeRoom ((size_dropOld_le a e).trans h.few) e
      rw [feed_given hgiven]
      split
      · rw [KeyedMap.erase_insert_self]
        exact (KeyedMap.size_erase_le _ _).trans hsize
      · exact KeyedMap.size_insert_le_of_room _ hsize hroom
    · rcases feed_notGiven hgiven with hflows | hflows
      · rw [hflows]
        exact (KeyedMap.size_erase_le _ _).trans h.few
      · rw [hflows]
        exact (size_dropOld_le a e).trans h.few
  flows := (feed_every_iff h.flows).mpr fun _ _ => (h.target e).add _ _

theorem feedChecked_eq {a : Assembler} (h : Bounded a) (e : Feed) :
    a.feedChecked e = some (a.feed e) := by
  have hadd := Flow.addChecked_eq (h.target e) (if e.syn then e.sequence + 1 else e.sequence) e.data
  unfold target at hadd
  unfold feedChecked feed
  split
  · rfl
  · dsimp only
    split
    · rfl
    · rw [hadd]
      rfl

theorem bounded_of_run {hist : History Assembler Feed} {a : Assembler}
    (run : Run system { flows := ∅ } hist a) : Bounded a := by
  apply run.invariant
  · exact ⟨Nat.zero_le _, KeyedMap.every_empty⟩
  · intro a e a' h fires
    obtain rfl : (a.feed e).1 = a' := Option.some.inj fires
    exact h.feed e

end Assembler

end Tls

/-! ## The CRYPTO stream of a QUIC connection -/

namespace Quic

namespace Flow

/-- `place` with its indices checked: the slices of the buffer and of its flags end
at `stop`, the one of the data begins with it. -/
def placeChecked (f : Flow) (off : ℕ) (data : Bytes) : Option Flow :=
  let stop := min (off + data.length) maxHello
  if off < stop then
    let (buf, filled) :=
      if f.buf.length < stop then (grow f.buf stop 0, grow f.filled stop false)
      else (f.buf, f.filled)
    if buf.length < stop ∨ filled.length < stop ∨ data.length < stop - off then none
    else
      let filled := overwrite filled off (List.replicate (stop - off) true)
      some
        { f with
          buf := overwrite buf off (data.take (stop - off))
          filled := filled
          ready := advance filled f.ready }
  else some { f with ready := advance f.filled f.ready }

/-- `add` with its indices checked. -/
def addChecked (f : Flow) (off : ℕ) (data : Bytes) : Option (Flow × Option String) := do
  let f ← f.placeChecked off data
  if f.buf.length < 4 ∨ f.ready < 4 then some (f, none)
  else
    let total := helloTotal f.buf
    if f.buf.getD 0 0 ≠ 1 ∨ maxHello < total then some (f.finish, none)
    else if f.ready < total then some (f, none)
    else
      let message ← getSlice f.buf 0 total
      some (f.finish, clientHelloSni message)

/-- `addFrames` with its indices checked. -/
def addFramesChecked : Flow → Option String → List (ℕ × Bytes) → Option (Flow × Option String)
  | f, sni, [] => some (f, sni)
  | f, sni, (off, data) :: rest =>
      if f.done then some (f, sni)
      else do
        let (f, found) ← f.addChecked off data
        addFramesChecked f (found.or sni) rest

/-- `receive` with its indices checked. -/
def receiveChecked (f : Flow) (sni : Option String) (plain : Bytes) (pn : ℕ) :
    Option (Flow × Option String) :=
  { f with largest := some (f.largest.elim pn (max pn)) }.addFramesChecked sni (cryptoFrames plain)

/-- What a flow keeps: a buffer of the size of a ClientHello, with one flag for
every byte. An unfinished flow is received without a gap up to `ready`. -/
structure Bounded (f : Flow) : Prop where
  aligned : f.buf.length = f.filled.length
  short : f.buf.length ≤ maxHello
  solid : f.done = false → Solid f.filled f.ready

theorem finish_bounded (f : Flow) : Bounded f.finish where
  aligned := rfl
  short := Nat.zero_le _
  solid hdone := by contradiction

theorem fresh_bounded (now : ℕ) : Bounded (.fresh now) where
  aligned := rfl
  short := Nat.zero_le _
  solid _ := solid_zero _

variable {f : Flow}

/-- What is received without a gap lies in the buffer. -/
theorem Bounded.ready_le (h : Bounded f) (hdone : f.done = false) : f.ready ≤ f.buf.length := by
  rw [h.aligned]
  exact (h.solid hdone).le_length

theorem Bounded.place (h : Bounded f) (off : ℕ) (data : Bytes) : Bounded (f.place off data) := by
  unfold Flow.place
  dsimp only
  split
  · constructor
    · rw [length_overwrite, length_overwrite, length_grow, length_grow, h.aligned]
    · have hshort := h.short
      rw [length_overwrite, length_grow]
      omega
    · intro hdone
      apply Solid.advance
      apply (h.solid hdone).mono
      intro i hi
      rw [getElem?_overwrite, List.getElem?_replicate]
      split
      · rw [if_pos (by rw [List.length_replicate] at *; omega)]
      · exact getElem?_grow_of_true hi _
  · exact ⟨h.aligned, h.short, fun hdone => (h.solid hdone).advance⟩

/-- The buffer and its flags grow together. -/
theorem Bounded.resize (h : Bounded f) (stop : ℕ) :
    (if f.buf.length < stop then (grow f.buf stop 0, grow f.filled stop false)
      else (f.buf, f.filled)) = (grow f.buf stop 0, grow f.filled stop false) := by
  split
  · rfl
  · rename_i hlong
    rw [grow_of_le (by omega), grow_of_le (by rw [← h.aligned]; omega)]

theorem placeChecked_eq (h : Bounded f) (off : ℕ) (data : Bytes) :
    f.placeChecked off data = some (f.place off data) := by
  unfold placeChecked Flow.place
  dsimp only
  rw [h.resize]
  split
  · have hlength := length_grow f.buf (min (off + data.length) maxHello) 0
    have hflags := length_grow f.filled (min (off + data.length) maxHello) false
    dsimp only
    rw [if_neg (by omega)]
  · rfl

theorem Bounded.add (h : Bounded f) (off : ℕ) (data : Bytes) : Bounded (f.add off data).1 := by
  have hplaced := h.place off data
  unfold Flow.add
  dsimp only
  split
  · exact hplaced
  · split
    · exact finish_bounded _
    · split
      · exact hplaced
      · exact finish_bounded _

/-- Placing data does not finish the stream. -/
theorem place_done (f : Flow) (off : ℕ) (data : Bytes) : (f.place off data).done = f.done := by
  unfold Flow.place
  dsimp only
  split <;> rfl

theorem addChecked_eq (h : Bounded f) (hopen : f.done = false) (off : ℕ) (data : Bytes) :
    f.addChecked off data = some (f.add off data) := by
  have hplaced := h.place off data
  have hdone : (f.place off data).done = false := (place_done f off data).trans hopen
  rw [addChecked, Flow.add, placeChecked_eq h, Option.bind_eq_bind, Option.bind_some]
  generalize f.place off data = f at hplaced hdone
  have hready := hplaced.ready_le hdone
  dsimp only
  split
  · rfl
  · split
    · rfl
    · split
      · rfl
      · rw [getSlice, if_pos (by omega), Option.bind_eq_bind, Option.bind_some, List.drop_zero]

theorem Bounded.addFrames (h : Bounded f) (sni : Option String) (frames : List (ℕ × Bytes)) :
    Bounded (f.addFrames sni frames).1 := by
  induction frames generalizing f sni with
  | nil => exact h
  | cons frame rest ih =>
      rw [Flow.addFrames]
      split
      · exact h
      · exact ih (h.add frame.1 frame.2) _

theorem addFramesChecked_eq (h : Bounded f) (sni : Option String) (frames : List (ℕ × Bytes)) :
    f.addFramesChecked sni frames = some (f.addFrames sni frames) := by
  induction frames generalizing f sni with
  | nil => rfl
  | cons frame rest ih =>
      rw [addFramesChecked, Flow.addFrames]
      split
      · rfl
      · rename_i hopen
        rw [addChecked_eq h (by simpa using hopen), Option.bind_eq_bind, Option.bind_some]
        exact ih (h.add frame.1 frame.2) _

/-- What a flow keeps does not depend on its stamps. -/
theorem Bounded.relabel (h : Bounded f) (seen : ℕ) (largest : Option ℕ) :
    Bounded { f with seen := seen, largest := largest } := ⟨h.aligned, h.short, h.solid⟩

theorem Bounded.receive (h : Bounded f) (sni : Option String) (plain : Bytes) (pn : ℕ) :
    Bounded (f.receive sni plain pn).1 :=
  (h.relabel f.seen _).addFrames sni _

theorem receiveChecked_eq (h : Bounded f) (sni : Option String) (plain : Bytes) (pn : ℕ) :
    f.receiveChecked sni plain pn = some (f.receive sni plain pn) :=
  addFramesChecked_eq (h.relabel f.seen _) sni _

end Flow

namespace Assembler

/-- `deliver` with its indices checked. -/
def deliverChecked (a : Assembler) (key : Key) (now : ℕ) (order : HashOrder Key)
    (sni : Option String) (plain : Bytes) (pn : ℕ) : Option (Assembler × Option String) :=
  let flows := a.makeRoom key now order
  let flow := { (flows.lookup key).getD (.fresh now) with seen := now }
  if flow.done then some ({ flows := flows.insert key flow }, sni)
  else do
    let (flow, sni) ← flow.receiveChecked sni plain pn
    some ({ flows := flows.insert key flow }, sni)

/-- `packet` with the indices of its flow checked. -/
def packetChecked (c : Ciphers) (e : Datagram) (i : ℕ) (a : Assembler) (d : Bytes) (h : Header)
    (sni : Option String) : Option (Assembler × Option String) :=
  let key : Key := (e.src, e.sport, h.dcid)
  let a := a.dropExpired key (e.clock.read (2 * i))
  let largest := (a.flows.lookup key).bind Flow.largest
  let opened :=
    if h.initial then
      (Keys.new c h.version h.dcid).bind fun keys => openPacket c keys d h largest
    else none
  match opened with
  | none => some (a, sni)
  | some (plain, pn) => a.deliverChecked key (e.clock.read (2 * i + 1)) e.order sni plain pn

/-- `feedFrom` with the indices of its flows checked. -/
def feedFromChecked (c : Ciphers) (e : Datagram) :
    ℕ → ℕ → Assembler → Bytes → Option String → Option (Assembler × Option String)
  | 0, _, a, _, sni => some (a, sni)
  | fuel + 1, i, a, d, sni =>
      match header d with
      | none => some (a, sni)
      | some h => do
          let (a, sni) ← a.packetChecked c e i d h sni
          feedFromChecked c e fuel (i + 1) a (d.drop h.end) sni

/-- `feed` with the indices of its flows checked. -/
def feedChecked (c : Ciphers) (a : Assembler) (e : Datagram) :
    Option (Assembler × Option String) :=
  a.feedFromChecked c e e.payload.length 0 e.payload none

/-- The assembler fed with any datagrams. -/
def system (c : Ciphers) : System Assembler Datagram := .ofFun fun a e => (a.feed c e).1

/-- The number of flows and what each of them keeps. -/
structure Bounded (a : Assembler) : Prop where
  few : a.flows.size ≤ maxFlows
  flows : KeyedMap.Every Flow.Bounded a.flows

section Every

variable {P : Flow → Prop} {a : Assembler}

theorem dropExpired_every (h : KeyedMap.Every P a.flows) (key : Key) (now : ℕ) :
    KeyedMap.Every P (a.dropExpired key now).flows := by
  unfold dropExpired
  split
  · exact h.erase key
  · exact h

theorem makeRoom_every (h : KeyedMap.Every P a.flows) (key : Key) (now : ℕ)
    (order : HashOrder Key) : KeyedMap.Every P (a.makeRoom key now order) := by
  have hfresh : KeyedMap.Every P (KeyedMap.filterMap
      (fun _ f => if now - f.seen < ttl then some f else none) a.flows) := by
    apply h.filterMap
    intro _ f kept hkept
    rw [Option.ite_none_right_eq_some] at hkept
    exact (Option.some.inj hkept.2).symm
  unfold makeRoom
  dsimp only
  split
  · split
    · split
      · exact hfresh.erase _
      · exact hfresh
    · exact hfresh
  · exact h

/-- What holds of a new flow and stays true of a flow that is seen again and of an
unfinished one that receives a packet, stays true of all flows. -/
theorem deliver_every (h : KeyedMap.Every P a.flows) (hfresh : ∀ now, P (.fresh now))
    (hseen : ∀ (f : Flow) t, P f → P { f with seen := t })
    (hreceive : ∀ (f : Flow) sni plain pn, P f → f.done = false → P (f.receive sni plain pn).1)
    (key : Key) (now : ℕ) (order : HashOrder Key) (sni : Option String) (plain : Bytes) (pn : ℕ) :
    KeyedMap.Every P (a.deliver key now order sni plain pn).1.flows := by
  have hroom := makeRoom_every h key now order
  have hflow := hseen _ now (hroom.getD (hfresh now) key)
  unfold deliver
  dsimp only
  split
  · exact hroom.insert hflow
  · rename_i hopen
    exact hroom.insert (hreceive _ sni plain pn hflow (by simpa using hopen))

end Every

section Invariant

variable {Q : Assembler → Prop} (hdrop : ∀ a key now, Q a → Q (a.dropExpired key now))
  (hdeliver : ∀ (a : Assembler) key now order sni plain pn,
    Q a → Q (a.deliver key now order sni plain pn).1)

include hdrop hdeliver

/-- What dropping an expired flow and delivering a packet preserve, a packet
preserves. -/
theorem packet_invariant (c : Ciphers) (e : Datagram) (i : ℕ) {a : Assembler} (h : Q a)
    (d : Bytes) (header : Header) (sni : Option String) :
    Q (a.packet c e i d header sni).1 := by
  have hdropped := hdrop a (e.src, e.sport, header.dcid) (e.clock.read (2 * i)) h
  unfold packet
  dsimp only
  split
  · exact hdropped
  · exact hdeliver _ _ _ _ _ _ _ hdropped

/-- What dropping an expired flow and delivering a packet preserve, a datagram
preserves. -/
theorem feed_invariant (c : Ciphers) {a : Assembler} (h : Q a) (e : Datagram) :
    Q (a.feed c e).1 := by
  have hloop (fuel i : ℕ) (a : Assembler) (d : Bytes) (sni : Option String) (ha : Q a) :
      Q (a.feedFrom c e fuel i d sni).1 := by
    induction fuel generalizing i a d sni with
    | zero => exact ha
    | succ fuel ih =>
        rw [feedFrom]
        split
        · exact ha
        · rename_i header _
          exact ih _ _ _ _ (packet_invariant hdrop hdeliver c e i ha d header sni)
  exact hloop _ _ _ _ _ h

end Invariant

theorem size_dropExpired_le (a : Assembler) (key : Key) (now : ℕ) :
    (a.dropExpired key now).flows.size ≤ a.flows.size := by
  unfold dropExpired
  split
  · exact KeyedMap.size_erase_le _ _
  · exact le_rfl

/-- There is room for one more flow. -/
theorem size_makeRoom {a : Assembler} (h : a.flows.size ≤ maxFlows) (key : Key) (now : ℕ)
    (order : HashOrder Key) :
    KeyedMap.size (a.makeRoom key now order) ≤ maxFlows ∧
      (key ∉ a.makeRoom key now order →
        KeyedMap.size (a.makeRoom key now order) < maxFlows) := by
  unfold makeRoom
  dsimp only
  split
  · have hkept := KeyedMap.size_filterMap_le
      (fun _ f => if now - f.seen < ttl then some f else none) a.flows
    split
    · rename_i hfull
      have hpos := lt_of_lt_of_le (by decide : 0 < maxFlows) hfull
      split
      · rename_i old hold
        have hsize := KeyedMap.size_erase_of_mem (KeyedMap.mem_of_oldest hold)
        exact ⟨by omega, fun _ => by omega⟩
      · rename_i hnone
        exact absurd hnone (KeyedMap.oldest_ne_none _ _ hpos)
    · exact ⟨by omega, fun _ => by omega⟩
  · rename_i hnotFull
    refine ⟨h, fun hkey => ?_⟩
    by_contra hlt
    exact hnotFull ⟨hkey, by omega⟩

theorem Bounded.dropExpired {a : Assembler} (h : Bounded a) (key : Key) (now : ℕ) :
    Bounded (a.dropExpired key now) :=
  ⟨(size_dropExpired_le a key now).trans h.few, dropExpired_every h.flows key now⟩

theorem Bounded.deliver {a : Assembler} (h : Bounded a) (key : Key) (now : ℕ)
    (order : HashOrder Key) (sni : Option String) (plain : Bytes) (pn : ℕ) :
    Bounded (a.deliver key now order sni plain pn).1 where
  few := by
    obtain ⟨hsize, hroom⟩ := size_makeRoom h.few key now order
    unfold Assembler.deliver
    dsimp only
    split <;> exact KeyedMap.size_insert_le_of_room _ hsize hroom
  flows :=
    deliver_every h.flows Flow.fresh_bounded (fun f t hf => hf.relabel t f.largest)
      (fun _ sni plain pn hf _ => hf.receive sni plain pn) key now order sni plain pn

theorem deliverChecked_eq {a : Assembler} (h : Bounded a) (key : Key) (now : ℕ)
    (order : HashOrder Key) (sni : Option String) (plain : Bytes) (pn : ℕ) :
    a.deliverChecked key now order sni plain pn = some (a.deliver key now order sni plain pn) := by
  have hflow := (makeRoom_every h.flows key now order).getD (Flow.fresh_bounded now) key
  unfold deliverChecked Assembler.deliver
  dsimp only
  split
  · rfl
  · rw [Flow.receiveChecked_eq (hflow.relabel now _)]
    rfl

theorem packetChecked_eq (c : Ciphers) (e : Datagram) (i : ℕ) {a : Assembler} (h : Bounded a)
    (d : Bytes) (header : Header) (sni : Option String) :
    a.packetChecked c e i d header sni = some (a.packet c e i d header sni) := by
  have hdropped := h.dropExpired (e.src, e.sport, header.dcid) (e.clock.read (2 * i))
  unfold packetChecked packet
  dsimp only
  generalize (if header.initial = true then _ else none) = opened
  cases opened with
  | none => rfl
  | some found => exact deliverChecked_eq hdropped _ _ _ _ _ _

theorem Bounded.packet (c : Ciphers) (e : Datagram) (i : ℕ) {a : Assembler} (h : Bounded a)
    (d : Bytes) (header : Header) (sni : Option String) :
    Bounded (a.packet c e i d header sni).1 :=
  packet_invariant (fun _ key now ha => ha.dropExpired key now)
    (fun _ key now order sni plain pn ha => ha.deliver key now order sni plain pn) c e i h d header
    sni

theorem Bounded.feed (c : Ciphers) {a : Assembler} (h : Bounded a) (e : Datagram) :
    Bounded (a.feed c e).1 :=
  feed_invariant (fun _ key now ha => ha.dropExpired key now)
    (fun _ key now order sni plain pn ha => ha.deliver key now order sni plain pn) c h e

theorem feedFromChecked_eq (c : Ciphers) (e : Datagram) (fuel i : ℕ) {a : Assembler}
    (h : Bounded a) (d : Bytes) (sni : Option String) :
    a.feedFromChecked c e fuel i d sni = some (a.feedFrom c e fuel i d sni) := by
  induction fuel generalizing i a d sni with
  | zero => rfl
  | succ fuel ih =>
      rw [feedFromChecked, feedFrom]
      cases Quic.header d with
      | none => rfl
      | some header =>
          dsimp only
          rw [packetChecked_eq c e i h, Option.bind_eq_bind, Option.bind_some]
          exact ih _ (h.packet c e i d header sni) _ _

theorem feedChecked_eq (c : Ciphers) {a : Assembler} (h : Bounded a) (e : Datagram) :
    a.feedChecked c e = some (a.feed c e) :=
  feedFromChecked_eq c e _ _ h _ _

theorem bounded_of_run {c : Ciphers} {hist : History Assembler Datagram} {a : Assembler}
    (run : Run (system c) { flows := ∅ } hist a) : Bounded a := by
  apply run.invariant
  · exact ⟨Nat.zero_le _, KeyedMap.every_empty⟩
  · intro a e a' h fires
    obtain rfl : (a.feed c e).1 = a' := Option.some.inj fires
    exact h.feed c e

end Assembler

end Quic

/-! ## Any packets -/

/-- Whatever segments and datagrams come, in any order, the assemblers keep few
flows and little of each, and the next segment or datagram is processed without an
index out of bounds. -/
theorem assemblers_bounded (c : Quic.Ciphers) :
    (∀ hist a, Run Tls.Assembler.system { flows := ∅ } hist a →
      Tls.Assembler.Bounded a ∧ ∀ e, a.feedChecked e = some (a.feed e)) ∧
    (∀ hist a, Run (Quic.Assembler.system c) { flows := ∅ } hist a →
      Quic.Assembler.Bounded a ∧ ∀ e, a.feedChecked c e = some (a.feed c e)) := by
  constructor
  · intro hist a run
    have hbounded := Tls.Assembler.bounded_of_run run
    exact ⟨hbounded, Tls.Assembler.feedChecked_eq hbounded⟩
  · intro hist a run
    have hbounded := Quic.Assembler.bounded_of_run run
    exact ⟨hbounded, Quic.Assembler.feedChecked_eq c hbounded⟩

/-- Two segments wait for the beginning of their stream, and the end of a ClientHello in
QUIC for its beginning. What comes next is taken without a panic. -/
theorem assemblers_bounded_sample :
    let waiting := (Tls.Assembler.system.play [] { flows := ∅ }
      [Tls.sampleTail, Tls.sampleFeed 400 0x10 [1, 2, 3]]).2
    let head := (Quic.sampleSent Quic.sampleHeadPacket Quic.sampleHead).datagram
    waiting.flows.entries.map (fun flow => flow.2.pending.length) = [2] ∧ waiting.Bounded ∧
      waiting.feedChecked Tls.sampleHead = some (waiting.feed Tls.sampleHead) ∧
      (waiting.feed Tls.sampleHead).2 = some "a.b" ∧ Quic.sampleMiddle.Bounded ∧
      Quic.sampleMiddle.feedChecked Quic.sampleCiphers head =
        some (Quic.sampleMiddle.feed Quic.sampleCiphers head) := by
  intro waiting head
  obtain ⟨htls, hquic⟩ := assemblers_bounded Quic.sampleCiphers
  obtain ⟨hbounded, hchecked⟩ := htls _ waiting (Run.start.play _)
  obtain ⟨hbounded', hchecked'⟩ := hquic _ Quic.sampleMiddle (.next .start rfl)
  exact ⟨by decide +kernel, hbounded, hchecked _, by decide +kernel, hbounded', hchecked' _⟩

end SocketTrail.Pcap
