/-
# What a finished stream leaves behind

`finish` forgets the stream of a flow, and a QUIC flow is not touched again. The
TLS assembler goes on after it when it replays segments that waited for the first
record: two of them that contradict each other finish the flow, and what follows
is put into the finished flow. `finished_forgotten_iff` says for which segments
this happens.
-/

import SocketTrail.Pcap.Bounds

namespace SocketTrail.Pcap

open SocketTrail.Foundation

namespace Tls

/-! ## Pieces that contradict each other -/

/-- A segment at its position in the stream. -/
abbrev Piece : Type := ℕ × Bytes

/-- The byte that a piece has for a position. -/
def Piece.byte (p : Piece) (i : ℕ) : Option UInt8 := if p.1 ≤ i then p.2[i - p.1]? else none

/-- Two pieces have different bytes for one position. -/
def Contradicts (p q : Piece) : Prop :=
  ∃ i < p.1 + p.2.length, p.byte i ≠ none ∧ q.byte i ≠ none ∧ p.byte i ≠ q.byte i

instance (p q : Piece) : Decidable (Contradicts p q) :=
  inferInstanceAs (Decidable (∃ i < p.1 + p.2.length,
    p.byte i ≠ none ∧ q.byte i ≠ none ∧ p.byte i ≠ q.byte i))

/-- No two of the pieces contradict each other. -/
def Consistent (ps : List Piece) : Prop := ps.Pairwise fun p q => ¬ Contradicts p q

/-- Put a piece to the ones that are there; a contradiction leaves none. -/
def restart (kept : List Piece) (p : Piece) : List Piece :=
  if ∃ q ∈ kept, Contradicts q p then [] else kept ++ [p]

/-- The pieces that came after the last contradiction. -/
def kept (ps : List Piece) : List Piece := ps.foldl restart []

theorem kept_snoc (ps : List Piece) (p : Piece) : kept (ps ++ [p]) = restart (kept ps) p := by
  rw [kept, List.foldl_append]
  rfl

theorem consistent_snoc {ps : List Piece} {p : Piece} :
    Consistent (ps ++ [p]) ↔ Consistent ps ∧ ∀ q ∈ ps, ¬ Contradicts q p := by
  simp [Consistent, List.pairwise_append]

/-- Pieces without a contradiction are all there. -/
theorem kept_of_consistent {ps : List Piece} (h : Consistent ps) : kept ps = ps := by
  induction ps using List.reverseRecOn with
  | nil => rfl
  | append_singleton ps p ih =>
      obtain ⟨hps, hp⟩ := consistent_snoc.mp h
      rw [kept_snoc, ih hps, restart, if_neg]
      rintro ⟨q, hq, hcontra⟩
      exact hp q hq hcontra

/-- A further piece keeps the pieces consistent if they were and it contradicts
none of those that are there. -/
theorem consistent_snoc_iff {ps : List Piece} {p : Piece} :
    Consistent (ps ++ [p]) ↔ Consistent ps ∧ ¬ ∃ q ∈ kept ps, Contradicts q p := by
  rw [consistent_snoc]
  refine and_congr_right fun hps => ?_
  rw [kept_of_consistent hps]
  simp

theorem Piece.byte_eq_some {p : Piece} {i : ℕ} {b : UInt8} (h : p.byte i = some b) :
    p.1 ≤ i ∧ i < p.1 + p.2.length ∧ p.2[i - p.1]? = some b := by
  unfold Piece.byte at h
  split at h
  · rename_i hle
    have hlt := (List.getElem?_eq_some_iff.mp h).1
    exact ⟨hle, by omega, h⟩
  · contradiction

theorem Piece.byte_ne_none {p : Piece} {i : ℕ} :
    p.byte i ≠ none ↔ p.1 ≤ i ∧ i < p.1 + p.2.length := by
  unfold Piece.byte
  split
  · rw [Ne, List.getElem?_eq_none_iff]
    omega
  · simp
    omega

theorem contradicts_of_bytes {p q : Piece} {i : ℕ} {b b' : UInt8} (hp : p.byte i = some b)
    (hq : q.byte i = some b') (hne : b ≠ b') : Contradicts p q := by
  refine ⟨i, (Piece.byte_eq_some hp).2.1, ?_, ?_, ?_⟩
  · rw [hp]
    simp
  · rw [hq]
    simp
  · rw [hp, hq]
    simpa using hne

/-! ## Writing a contradiction -/

/-- A byte that contradicts one received before stops the segment. -/
theorem write_eq_none {buf : Bytes} {filled : List Bool} {o : ℕ} {data : Bytes} {i : ℕ}
    {old new : UInt8} (hnew : data[i]? = some new) (hflag : filled[o + i]? = some true)
    (hold : buf[o + i]? = some old) (hne : old ≠ new) : write buf filled o data = none := by
  induction data generalizing buf filled o i with
  | nil => simp at hnew
  | cons b rest ih =>
      rw [write]
      split
      · rfl
      · rename_i hsame
        cases i with
        | zero =>
            exfalso
            apply hsame
            rw [List.getElem?_cons_zero, Option.some.injEq] at hnew
            rw [Nat.add_zero] at hflag hold
            rw [List.getD_eq_getElem?_getD, List.getD_eq_getElem?_getD, hflag, hold, hnew]
            exact ⟨rfl, hne⟩
        | succ i =>
            have hshift : o + (i + 1) = o + 1 + i := by omega
            rw [hshift] at hflag hold
            apply ih (by simpa using hnew)
            · rw [List.getElem?_set_ne (by omega)]
              exact hflag
            · rw [List.getElem?_set_ne (by omega)]
              exact hold

/-! ## Flows that are given pieces -/

namespace Flow

/-- A flow that was empty and was given the pieces: it holds those behind the last
contradiction, and is finished if there was one. -/
structure Holds (ps : List Piece) (f : Flow) : Prop where
  aligned : f.buf.length = f.filled.length
  flags : ∀ i : ℕ, f.filled[i]? = some true ↔ ∃ p ∈ kept ps, p.byte i ≠ none
  value : ∀ p ∈ kept ps, ∀ i b, p.byte i = some b → f.buf[i]? = some b
  empty : f.buf = [] ↔ kept ps = []
  finished : f.done = true ↔ ¬ Consistent ps
  pending : f.pending = []

/-- The segment lies within the part of the stream that is looked at. -/
def Within (p : Piece) : Prop := ¬ (maxStream ≤ p.1 ∨ maxStream - p.1 < p.2.length)

instance (p : Piece) : Decidable (Within p) := inferInstanceAs (Decidable (¬ _))

section Place

variable {f : Flow} {base sequence : UInt32} {ps : List Piece} {o : ℕ} {data : Bytes}

/-- A segment outside the part that is looked at is passed over. -/
theorem place_outside (hbase : f.base = some base) (ho : (sequence - base).toNat = o)
    (houtside : ¬ Within (o, data)) : f.place sequence data = f := by
  unfold Flow.place
  rw [hbase]
  dsimp only
  rw [ho, if_pos (not_not.mp houtside)]

/-- A segment that contradicts a piece that is there finishes the flow. -/
theorem Holds.place_contradiction (h : Holds ps f) (hbase : f.base = some base)
    (ho : (sequence - base).toNat = o) (hwithin : Within (o, data))
    (hcontra : ∃ q ∈ kept ps, Contradicts q (o, data)) : f.place sequence data = f.finish := by
  obtain ⟨q, hq, i, -, hold, hnew, hne⟩ := hcontra
  obtain ⟨old, hold⟩ := Option.ne_none_iff_exists'.mp hold
  obtain ⟨new, hnew⟩ := Option.ne_none_iff_exists'.mp hnew
  obtain ⟨hle, hlt, hbyte⟩ := Piece.byte_eq_some hnew
  have hflag := (h.flags i).mpr ⟨q, hq, by rw [hold]; simp⟩
  have hvalue := h.value q hq i old hold
  have hinside : i < f.filled.length := (List.getElem?_eq_some_iff.mp hflag).1
  dsimp only at hle hlt hbyte
  unfold Flow.place
  rw [hbase]
  dsimp only
  rw [ho, if_neg hwithin, write_eq_none hbyte (o := o) (i := i - o)]
  · rw [Nat.add_sub_cancel' hle]
    exact getElem?_grow_of_true hflag _
  · rw [Nat.add_sub_cancel' hle, getElem?_grow, if_pos (by rw [h.aligned]; exact hinside), hvalue]
  · rintro rfl
    exact hne (hold.trans hnew.symm)

/-- A segment that contradicts none is written. -/
theorem Holds.place_written (h : Holds ps f) (hbase : f.base = some base)
    (ho : (sequence - base).toNat = o) (hwithin : Within (o, data))
    (hagrees : ¬ ∃ q ∈ kept ps, Contradicts q (o, data)) :
    f.place sequence data =
      { f with
        buf := overwrite (grow f.buf (o + data.length) 0) o data
        filled := overwrite (grow f.filled (o + data.length) false) o
          (List.replicate data.length true)
        ready := advance (overwrite (grow f.filled (o + data.length) false) o
          (List.replicate data.length true)) f.ready } := by
  unfold Flow.place
  rw [hbase]
  dsimp only
  rw [ho, if_neg hwithin, write_eq]
  intro i hi hflag
  rw [getElem?_grow] at hflag
  split at hflag
  · rename_i hinside
    obtain ⟨q, hq, hbyte⟩ := (h.flags _).mp hflag
    obtain ⟨old, hold⟩ := Option.ne_none_iff_exists'.mp hbyte
    have hnew : Piece.byte (o, data) (o + i) = some data[i] := by
      rw [Piece.byte, if_pos (Nat.le_add_right o i), Nat.add_sub_cancel_left]
      exact List.getElem?_eq_getElem hi
    rw [getElem?_grow, if_pos (by rw [h.aligned]; exact hinside), h.value q hq _ old hold,
      List.getElem?_eq_getElem hi]
    by_contra hne
    exact hagrees ⟨q, hq, contradicts_of_bytes hold hnew fun heq => hne (by rw [heq])⟩
  · split at hflag <;> simp at hflag

/-- The flow once a piece is put in. -/
theorem Holds.place (h : Holds ps f) (hbase : f.base = some base)
    (ho : (sequence - base).toNat = o) (hwithin : Within (o, data)) (hdata : data ≠ []) :
    Holds (ps ++ [(o, data)]) (f.place sequence data) := by
  by_cases hcontra : ∃ q ∈ kept ps, Contradicts q (o, data)
  · have hkept : kept (ps ++ [(o, data)]) = [] := by
      rw [kept_snoc, restart, if_pos hcontra]
    rw [h.place_contradiction hbase ho hwithin hcontra]
    constructor
    · rfl
    · intro i
      rw [hkept]
      simp [Flow.finish]
    · intro p hp
      rw [hkept] at hp
      contradiction
    · exact iff_of_true rfl hkept
    · refine iff_of_true rfl fun hconsistent => ?_
      exact (consistent_snoc_iff.mp hconsistent).2 hcontra
    · rfl
  · have hkept : kept (ps ++ [(o, data)]) = kept ps ++ [(o, data)] := by
      rw [kept_snoc, restart, if_neg hcontra]
    rw [h.place_written hbase ho hwithin hcontra]
    constructor
    · dsimp only
      rw [length_overwrite, length_overwrite, length_grow, length_grow, h.aligned]
    · intro i
      rw [flag_overwrite_iff, h.flags i, hkept]
      simp only [List.mem_append, List.mem_singleton, or_and_right, exists_or, exists_eq_left]
      exact or_congr_right (Piece.byte_ne_none (p := (o, data))).symm
    · intro p hp i b hbyte
      rw [getElem?_received]
      rw [hkept, List.mem_append, List.mem_singleton] at hp
      split
      · rename_i hin
        rcases hp with hold | rfl
        · have hsome := (Piece.byte_ne_none (p := (o, data))).mpr hin
          obtain ⟨new, hnew⟩ := Option.ne_none_iff_exists'.mp hsome
          rw [(Piece.byte_eq_some hnew).2.2]
          by_contra hne
          exact hcontra ⟨p, hold, contradicts_of_bytes hbyte hnew fun heq => hne (by rw [heq])⟩
        · exact (Piece.byte_eq_some hbyte).2.2
      · rename_i hout
        rcases hp with hold | rfl
        · have hvalue := h.value p hold i b hbyte
          rw [getElem?_grow, if_pos (List.getElem?_eq_some_iff.mp hvalue).1, hvalue]
        · have hin := Piece.byte_eq_some hbyte
          exact absurd ⟨hin.1, hin.2.1⟩ hout
    · have hlength := List.length_pos_of_ne_nil hdata
      have hbuf := length_grow f.buf (o + data.length) 0
      rw [hkept, ← List.length_eq_zero_iff, length_overwrite]
      simp only [List.append_eq_nil_iff, List.cons_ne_nil, and_false, iff_false]
      omega
    · dsimp only
      rw [h.finished, consistent_snoc_iff, and_iff_left hcontra]
    · exact h.pending

end Place

/-- The base stays, and nothing new waits. -/
structure Settles (f f' : Flow) : Prop where
  base : f'.base = f.base
  pending : f'.pending ⊆ f.pending

theorem Settles.trans {f f' f'' : Flow} (first : Settles f f') (second : Settles f' f'') :
    Settles f f'' :=
  ⟨second.base.trans first.base, List.Subset.trans second.pending first.pending⟩

theorem settles_finish (f : Flow) : Settles f f.finish := ⟨rfl, List.nil_subset _⟩

theorem settles_place (f : Flow) (sequence : UInt32) (data : Bytes) :
    Settles f (f.place sequence data) := by
  unfold Flow.place
  split
  · exact ⟨rfl, List.Subset.refl _⟩
  · dsimp only
    split
    · exact ⟨rfl, List.Subset.refl _⟩
    · split
      · exact settles_finish f
      · exact ⟨rfl, List.Subset.refl _⟩

theorem settles_placeAll (f : Flow) (segments : List (UInt32 × Bytes)) :
    Settles f (segments.foldl (fun f p => f.place p.1 p.2) f) := by
  induction segments generalizing f with
  | nil => exact ⟨rfl, List.Subset.refl _⟩
  | cons p rest ih => exact (settles_place f p.1 p.2).trans (ih _)

theorem settles_search (f : Flow) (sequence : UInt32) (data : Bytes) :
    Settles f (f.search sequence data).1 := by
  apply (settles_place f sequence data).trans
  unfold Flow.search
  dsimp only
  split
  · exact ⟨rfl, List.Subset.refl _⟩
  · split
    · exact ⟨rfl, List.Subset.refl _⟩
    · exact settles_finish _
    · exact settles_finish _

/-- The pieces of a list of segments that are put into their places. -/
def placed (base : UInt32) (segments : List (UInt32 × Bytes)) : List Piece :=
  (segments.map fun p => ((p.1 - base).toNat, p.2)).filter fun p => Within p

/-- The flow once the segments that waited are put into their places. -/
theorem Holds.placeAll {f : Flow} {base : UInt32} {ps : List Piece} (h : Holds ps f)
    (hbase : f.base = some base) {segments : List (UInt32 × Bytes)}
    (hdata : ∀ p ∈ segments, p.2 ≠ []) :
    Holds (ps ++ placed base segments) (segments.foldl (fun f p => f.place p.1 p.2) f) ∧
      (segments.foldl (fun f p => f.place p.1 p.2) f).base = some base := by
  induction segments generalizing f ps with
  | nil =>
      refine ⟨?_, hbase⟩
      rw [placed, List.map_nil, List.filter_nil, List.append_nil]
      exact h
  | cons p rest ih =>
      rw [List.forall_mem_cons] at hdata
      rw [List.foldl_cons, placed, List.map_cons, List.filter_cons]
      by_cases hwithin : Within ((p.1 - base).toNat, p.2)
      · rw [if_pos (decide_eq_true hwithin), List.append_cons]
        exact ih (h.place hbase rfl hwithin hdata.1) ((settles_place ..).base.trans hbase) hdata.2
      · rw [if_neg (by simpa using hwithin), place_outside hbase rfl hwithin]
        exact ih h hbase hdata.2

/-! ## What a segment does to a flow -/

/-- A finished flow has forgotten its stream. -/
def Forgotten (f : Flow) : Prop := f.done = true → f.buf = [] ∧ f.filled = [] ∧ f.pending = []

/-- A flow without a base has nothing in its buffer yet. -/
structure Waits (f : Flow) : Prop where
  unfinished : f.base = none → f.done = false
  buf : f.base = none → f.buf = []
  filled : f.base = none → f.filled = []
  data : ∀ p ∈ f.pending, p.2 ≠ []

/-- The segment is the first record of a flow that waits for it. Two of the
segments that wait contradict each other, and the new one contradicts none of
those that are left. -/
structure Refills (f : Flow) (sequence : UInt32) (data : Bytes) : Prop where
  waits : f.done = false ∧ f.base = none
  record : data.head? = some 0x16 ∧ data.length ≤ maxStream
  contradiction : ¬ Consistent (placed sequence f.pending)
  agrees : ¬ ∃ q ∈ kept (placed sequence f.pending), Contradicts q (0, data)

theorem forgotten_of_open {f : Flow} (h : f.done = false) : Forgotten f := by
  intro hdone
  rw [h] at hdone
  contradiction

theorem finish_forgotten (f : Flow) : Forgotten f.finish := fun _ => ⟨rfl, rfl, rfl⟩

/-- Looking for the ClientHello forgets the stream or leaves the flow as it is. -/
theorem search_forgotten_iff (f : Flow) (sequence : UInt32) (data : Bytes) :
    Forgotten (f.search sequence data).1 ↔ Forgotten (f.place sequence data) := by
  unfold Flow.search
  generalize f.place sequence data = f
  dsimp only
  split
  · rfl
  · rename_i hopen
    have hopen : f.done = false := by simpa using hopen
    apply iff_of_true _ (forgotten_of_open hopen)
    split
    · exact forgotten_of_open hopen
    · exact finish_forgotten f
    · exact finish_forgotten f

/-- A flow that is not finished forgets its stream when it is. -/
theorem place_forgotten {f : Flow} (h : f.done = false) (sequence : UInt32) (data : Bytes) :
    Forgotten (f.place sequence data) := by
  unfold Flow.place
  split
  · exact forgotten_of_open h
  · dsimp only
    split
    · exact forgotten_of_open h
    · split
      · exact finish_forgotten f
      · exact forgotten_of_open h

/-- A flow whose start is fixed holds nothing yet. -/
theorem Waits.started {f : Flow} (h : Waits f) (hbase : f.base = none) (sequence : UInt32) :
    Holds [] { f with base := some sequence, pending := [] } := by
  have hbuf := h.buf hbase
  have hfilled := h.filled hbase
  have hopen := h.unfinished hbase
  constructor
  · dsimp only
    rw [hbuf, hfilled]
    rfl
  · intro i
    dsimp only
    rw [hfilled]
    simp [kept]
  · intro p hp
    contradiction
  · exact iff_of_true hbuf rfl
  · exact iff_of_false (by simp [hopen]) (not_not.mpr List.Pairwise.nil)
  · rfl

/-- The first record of a flow leaves a finished flow with a stream exactly when it
refills it. -/
theorem first_forgotten_iff {f : Flow} (hw : Waits f) (hopen : f.done = false)
    (hbase : f.base = none) {sequence : UInt32} {data : Bytes}
    (hrecord : data.head? = some 0x16) (hshort : data.length ≤ maxStream) :
    Forgotten ((f.pending.foldl (fun (f : Flow) p => f.place p.1 p.2)
      { f with base := some sequence, pending := [] }).place sequence data) ↔
    ¬ f.Refills sequence data := by
  obtain ⟨hplaced, hbased⟩ := (hw.started hbase sequence).placeAll rfl hw.data
  rw [List.nil_append] at hplaced
  generalize f.pending.foldl (fun (f : Flow) p => f.place p.1 p.2) _ = g at hplaced hbased
  have hdata : data ≠ [] := by
    rintro rfl
    contradiction
  have hzero : (sequence - sequence).toNat = 0 := by
    rw [UInt32.sub_self]
    rfl
  have hwithin : Within (0, data) := by
    have hpos : 0 < maxStream := by decide
    unfold Within
    dsimp only
    omega
  have hlast := hplaced.place hbased hzero hwithin hdata
  by_cases hcontra : ∃ q ∈ kept (placed sequence f.pending), Contradicts q (0, data)
  · refine iff_of_true (fun _ => ?_) fun hrefills => hrefills.agrees hcontra
    have hbuf := hlast.empty.mpr (by rw [kept_snoc, restart, if_pos hcontra])
    have hfilled := hlast.aligned
    rw [hbuf] at hfilled
    exact ⟨hbuf, List.length_eq_zero_iff.mp hfilled.symm, hlast.pending⟩
  · constructor
    · intro hforgotten hrefills
      have hdone := hlast.finished.mpr fun hall =>
        hrefills.contradiction (consistent_snoc_iff.mp hall).1
      have hkept := hlast.empty.mp (hforgotten hdone).1
      rw [kept_snoc, restart, if_neg hcontra] at hkept
      simp at hkept
    · intro hnot hdone
      exfalso
      apply hnot
      refine ⟨⟨hopen, hbase⟩, ⟨hrecord, hshort⟩, fun hall => ?_, hcontra⟩
      exact hlast.finished.mp hdone (consistent_snoc_iff.mpr ⟨hall, hcontra⟩)

theorem add_forgotten_iff {f : Flow} (hw : Waits f) (hf : Forgotten f) (sequence : UInt32)
    (data : Bytes) : Forgotten (f.add sequence data).1 ↔ ¬ f.Refills sequence data := by
  unfold Flow.add
  split
  · rename_i hpassed
    refine iff_of_true hf fun hrefills => ?_
    rcases hpassed with hdone | hempty | hlong
    · rw [hrefills.waits.1] at hdone
      contradiction
    · have hrecord := hrefills.record.1
      rw [List.isEmpty_iff.mp hempty] at hrecord
      contradiction
    · have hshort := hrefills.record.2
      omega
  · rename_i hnew
    rw [not_or, not_or, not_lt, Bool.not_eq_true] at hnew
    obtain ⟨hopen, -, hshort⟩ := hnew
    split
    · rename_i hbase
      refine iff_of_true ?_ fun hrefills => ?_
      · rw [search_forgotten_iff]
        exact place_forgotten hopen sequence data
      · rw [hrefills.waits.2] at hbase
        contradiction
    · rename_i hbase
      have hbase : f.base = none := by simpa using hbase
      split
      · rename_i hrecord
        dsimp only
        rw [search_forgotten_iff]
        exact first_forgotten_iff hw hopen hbase hrecord hshort
      · rename_i hother
        refine iff_of_true ?_ fun hrefills => hother hrefills.record.1
        apply forgotten_of_open
        unfold hold
        dsimp only
        split <;> exact hopen

/-- A flow without a base keeps waiting, and one with a base has nothing to wait
for. -/
theorem Waits.add {f : Flow} (h : Waits f) (sequence : UInt32) (data : Bytes) :
    Waits (f.add sequence data).1 := by
  have based {f' g : Flow} (hsettles : Settles f' g) (hbase : f'.base ≠ none)
      (hdata : ∀ p ∈ f'.pending, p.2 ≠ []) : Waits g := by
    have hsome : g.base ≠ none := by
      rw [hsettles.base]
      exact hbase
    exact ⟨fun hnone => absurd hnone hsome, fun hnone => absurd hnone hsome,
      fun hnone => absurd hnone hsome, fun p hp => hdata p (hsettles.pending hp)⟩
  unfold Flow.add
  split
  · exact h
  · rename_i hnew
    split
    · rename_i hbase
      exact based (settles_search f sequence data)
        (by simpa [Option.isSome_iff_ne_none] using hbase) h.data
    · split
      · exact based ((settles_placeAll _ _).trans (settles_search _ _ _)) (Option.some_ne_none _)
          fun p hp => by contradiction
      · unfold hold
        dsimp only
        split
        · refine ⟨h.unfinished, h.buf, h.filled, fun p hp => ?_⟩
          rcases List.mem_append.mp hp with hold | hlast
          · exact h.data p hold
          · rw [List.mem_singleton] at hlast
            subst hlast
            simp only [not_or, List.isEmpty_iff] at hnew
            exact hnew.2.1
        · exact h

end Flow

namespace Assembler

/-- The segment leaves the stream behind in a flow that is finished and kept. -/
def Refills (a : Assembler) (e : Feed) : Prop :=
  (Given e ∧ e.fin = false) ∧
    (a.target e).Refills (if e.syn then e.sequence + 1 else e.sequence) e.data

theorem opened_waits (e : Feed) : Flow.Waits e.opened where
  unfinished _ := rfl
  buf _ := rfl
  filled _ := rfl
  data p hp := by contradiction

theorem target_waits {a : Assembler} (h : KeyedMap.Every Flow.Waits a.flows) (e : Feed) :
    Flow.Waits (a.target e) :=
  target_holds h (opened_waits e) fun _ _ hf => ⟨hf.unfinished, hf.buf, hf.filled, hf.data⟩

theorem waits_of_run {hist : History Assembler Feed} {a : Assembler}
    (run : Run system { flows := ∅ } hist a) : KeyedMap.Every Flow.Waits a.flows := by
  apply run.invariant (P := fun a => KeyedMap.Every Flow.Waits a.flows)
  · exact KeyedMap.every_empty
  · intro a e a' h fires
    obtain rfl : (a.feed e).1 = a' := Option.some.inj fires
    exact (feed_every_iff h).mpr fun _ _ => (target_waits h e).add _ _

/-- No finished flow of the assembler holds stream data. -/
def Forgotten (a : Assembler) : Prop := KeyedMap.Every Flow.Forgotten a.flows

theorem feed_forgotten_iff {a : Assembler} (hwaits : KeyedMap.Every Flow.Waits a.flows)
    (h : a.Forgotten) (e : Feed) : (a.feed e).1.Forgotten ↔ ¬ a.Refills e := by
  have htarget : Flow.Forgotten (a.target e) :=
    target_holds h (Flow.forgotten_of_open rfl) fun _ _ hf => hf
  have hadd := Flow.add_forgotten_iff (target_waits hwaits e) htarget
    (if e.syn then e.sequence + 1 else e.sequence) e.data
  rw [Forgotten, feed_every_iff h]
  constructor
  · rintro htaken ⟨⟨hgiven, hfin⟩, hrefills⟩
    exact hadd.mp (htaken hgiven hfin) hrefills
  · intro hnot hgiven hfin
    exact hadd.mpr fun hrefills => hnot ⟨⟨hgiven, hfin⟩, hrefills⟩

end Assembler

end Tls

namespace Quic

/-- A finished flow has forgotten its stream. -/
def Flow.Forgotten (f : Flow) : Prop := f.done = true → f.buf = [] ∧ f.filled = []

theorem Flow.addFrames_forgotten {f : Flow} (h : f.Forgotten) (sni : Option String)
    (frames : List (ℕ × Bytes)) : Forgotten (f.addFrames sni frames).1 := by
  induction frames generalizing f sni with
  | nil => exact h
  | cons frame rest ih =>
      rw [addFrames]
      split
      · exact h
      · rename_i hopen
        apply ih
        have hopen : (f.place frame.1 frame.2).done = false := by
          rw [place_done]
          simpa using hopen
        unfold Flow.add
        dsimp only
        split
        · exact fun hdone => by rw [hopen] at hdone; contradiction
        · split
          · exact fun _ => ⟨rfl, rfl⟩
          · split
            · exact fun hdone => by rw [hopen] at hdone; contradiction
            · exact fun _ => ⟨rfl, rfl⟩

/-- No finished flow of the assembler holds stream data. -/
def Assembler.Forgotten (a : Assembler) : Prop := KeyedMap.Every Flow.Forgotten a.flows

theorem Assembler.feed_forgotten (c : Ciphers) {a : Assembler} (h : a.Forgotten) (e : Datagram) :
    (a.feed c e).1.Forgotten := by
  apply feed_invariant (Q := Assembler.Forgotten) _ _ c h e
  · intro a key now ha
    exact dropExpired_every ha key now
  · intro a key now order sni plain pn ha
    refine deliver_every ha ?_ (fun _ _ hf => hf) ?_ key now order sni plain pn
    · intro now hdone
      contradiction
    · intro f sni plain pn hf _
      have hstamped : Flow.Forgotten { f with largest := some (f.largest.elim pn (max pn)) } := hf
      exact Flow.addFrames_forgotten hstamped sni _

theorem Assembler.forgotten_of_run {c : Ciphers} {hist : History Assembler Datagram}
    {a : Assembler} (run : Run (Assembler.system c) { flows := ∅ } hist a) : a.Forgotten := by
  apply run.invariant
  · exact KeyedMap.every_empty
  · intro a e a' h fires
    obtain rfl : (a.feed c e).1 = a' := Option.some.inj fires
    exact Assembler.feed_forgotten c h e

end Quic

/-! ## Any packets -/

/-- In every state of a run of the TLS assembler the finished flows are empty, if
and only if no segment of the run refills one. Those of the QUIC assembler are
always empty. -/
theorem finished_forgotten_iff (c : Quic.Ciphers) :
    (∀ hist a, Run Tls.Assembler.system { flows := ∅ } hist a →
      (Throughout Tls.Assembler.Forgotten hist a ↔
        ∀ entry ∈ hist, ¬ entry.1.Refills entry.2)) ∧
    (∀ hist a, Run (Quic.Assembler.system c) { flows := ∅ } hist a → a.Forgotten) := by
  constructor
  · intro hist a run
    apply Run.throughout_iff (P := Tls.Assembler.Forgotten) (G := fun a e => ¬ a.Refills e) _ _ run
    · exact KeyedMap.every_empty
    · intro hist a e a' prior h fires
      obtain rfl : (a.feed e).1 = a' := Option.some.inj fires
      exact Tls.Assembler.feed_forgotten_iff (Tls.Assembler.waits_of_run prior) h e
  · intro hist a run
    exact Quic.Assembler.forgotten_of_run run

/-- A stream whose ClientHello is complete and another one that contradicts itself;
each goes on with a segment more. -/
def finishingFeeds : List Tls.Feed :=
  [Tls.sampleSyn, Tls.sampleTail, Tls.sampleHead, Tls.sampleTail] ++
    [Tls.sampleSyn, Tls.sampleHead, Tls.sampleClash, Tls.sampleTail].map
      fun e => { e with key := (.ofOctets 10 0 0 1, 5001, .ofOctets 1 1 1 1, 443) }

/-- The two flows are finished, and no state of the run has stream data in them. -/
theorem finished_forgotten_iff_sample :
    let played := Tls.Assembler.system.play [] { flows := ∅ } finishingFeeds
    played.2.flows.entries.map (fun flow => flow.2.done) = [true, true] ∧
      Throughout Tls.Assembler.Forgotten played.1 played.2 := by
  refine ⟨by decide +kernel, ?_⟩
  apply ((finished_forgotten_iff Quic.sampleCiphers).1 _ _ (Run.start.play finishingFeeds)).mpr
  have hwaits : ∀ entry ∈ (Tls.Assembler.system.play [] { flows := ∅ } finishingFeeds).1,
      ¬ ((entry.1.target entry.2).done = false ∧ (entry.1.target entry.2).base = none) := by
    decide +kernel
  rintro entry hentry ⟨-, hrefills⟩
  exact hwaits entry hentry hrefills.waits

/-- Two segments with different bytes for position 5, and the first record. -/
def contradictingFeeds : List Tls.Feed :=
  [Tls.sampleFeed 5 0x10 [1], Tls.sampleFeed 5 0x10 [2], Tls.sampleFeed 0 0x10 [0x16]]

/-- The flow they leave is finished and holds the byte of the record. -/
theorem stream_in_finished_flow :
    ¬ ∀ hist a, Run Tls.Assembler.system { flows := ∅ } hist a → a.Forgotten := by
  intro hclaim
  have hforgotten := hclaim _ _ (Run.start.play contradictingFeeds)
  have hflow : (Tls.Assembler.system.play [] { flows := ∅ } contradictingFeeds).2.flows.lookup
      (.ofOctets 10 0 0 1, 5000, .ofOctets 1 1 1 1, 443) =
      some
        { base := some 0
          pending := []
          buf := [0x16]
          filled := [true]
          ready := 1
          seen := 0
          done := true } := by
    decide
  have hempty := (hforgotten _ _ hflow rfl).1
  contradiction

end SocketTrail.Pcap
