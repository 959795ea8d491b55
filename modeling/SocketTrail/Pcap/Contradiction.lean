/-
# Segments that contradict each other give no name

Once the start of a stream is known, its flow holds the pieces it was given or is
finished, and it is finished as soon as two of them have different bytes for one
position. `contradiction_gives_no_name` follows a flow from the call that fixes
the start, a SYN or the first record, through every later call that keeps it.
-/

import SocketTrail.Pcap.Finished

namespace SocketTrail.Pcap.Tls

open SocketTrail.Foundation

/-! ## Pieces -/

/-- Pieces that contradict each other both have bytes. -/
theorem Contradicts.ne_nil {p q : Piece} (h : Contradicts p q) : p.2 ≠ [] ∧ q.2 ≠ [] := by
  obtain ⟨i, -, hp, hq, -⟩ := h
  have hfirst := Piece.byte_ne_none.mp hp
  have hsecond := Piece.byte_ne_none.mp hq
  constructor
  · apply List.ne_nil_of_length_pos
    omega
  · apply List.ne_nil_of_length_pos
    omega

/-- The pieces that have bytes. -/
def substantial (ps : List Piece) : List Piece := ps.filter fun p => p.2 ≠ []

theorem substantial_append (ps qs : List Piece) :
    substantial (ps ++ qs) = substantial ps ++ substantial qs :=
  List.filter_append ps qs

/-- Empty pieces contradict nothing. -/
theorem consistent_substantial (ps : List Piece) : Consistent (substantial ps) ↔ Consistent ps := by
  unfold Consistent substantial
  rw [List.pairwise_filter]
  refine List.Pairwise.iff fun p q => ?_
  constructor
  · intro h hcontra
    exact h (by simpa using hcontra.ne_nil.1) (by simpa using hcontra.ne_nil.2) hcontra
  · intro h _ _
    exact h

theorem Flow.placed_append (base : UInt32) (first second : List (UInt32 × Bytes)) :
    Flow.placed base (first ++ second) = Flow.placed base first ++ Flow.placed base second := by
  rw [Flow.placed, List.map_append, List.filter_append]
  rfl

/-- The piece of one segment, if it lies within the part that is looked at. -/
theorem Flow.placed_singleton (base sequence : UInt32) (data : Bytes) :
    Flow.placed base [(sequence, data)] =
      if Flow.Within ((sequence - base).toNat, data) then [((sequence - base).toNat, data)]
      else [] := by
  rw [Flow.placed, List.map_singleton, List.filter_cons, List.filter_nil]
  simp only [decide_eq_true_eq]

/-! ## Flows whose start is known -/

namespace Flow

/-- The flow is finished, or it holds the pieces that it was given. -/
def Follows (base : UInt32) (ps : List Piece) (f : Flow) : Prop :=
  f.done = true ∨ (f.base = some base ∧ Holds (substantial ps) f)

section Follows

variable {f : Flow} {base sequence : UInt32} {ps : List Piece} {data : Bytes}

theorem Follows.seen (h : Follows base ps f) (t : ℕ) : Follows base ps { f with seen := t } := by
  rcases h with hdone | ⟨hbase, hholds⟩
  · exact .inl hdone
  · exact .inr ⟨hbase, hholds.aligned, hholds.flags, hholds.value, hholds.empty, hholds.finished,
      hholds.pending⟩

/-- A finished flow takes nothing in. -/
theorem add_of_done (h : f.done = true) (sequence : UInt32) (data : Bytes) :
    f.add sequence data = (f, none) := by
  rw [Flow.add, if_pos (.inl h)]

/-- Looking for the ClientHello finishes the flow or leaves it as it is, and finds
no name in pieces that contradict each other. -/
theorem search_follows (hbase : (f.place sequence data).base = some base)
    (hholds : Holds (substantial ps) (f.place sequence data)) :
    Follows base ps (f.search sequence data).1 ∧
      (¬ Consistent ps → (f.search sequence data).2 = none) := by
  unfold Flow.search
  generalize f.place sequence data = g at hbase hholds
  dsimp only
  split
  · exact ⟨.inr ⟨hbase, hholds⟩, fun _ => rfl⟩
  · rename_i hopen
    have hconsistent : Consistent ps := by
      by_contra hcontra
      exact hopen (hholds.finished.mpr fun hall => hcontra ((consistent_substantial ps).mp hall))
    refine ⟨?_, fun hcontra => absurd hconsistent hcontra⟩
    split
    · exact .inr ⟨hbase, hholds⟩
    · exact .inl rfl
    · exact .inl rfl

/-- What a segment adds to the pieces of a flow. -/
theorem Holds.place_substantial (h : Holds (substantial ps) f) (hbase : f.base = some base)
    (hdata : data ≠ []) :
    Holds (substantial (ps ++ placed base [(sequence, data)])) (f.place sequence data) := by
  rw [substantial_append, placed_singleton]
  by_cases hwithin : Within ((sequence - base).toNat, data)
  · rw [if_pos hwithin]
    have hsome : substantial [((sequence - base).toNat, data)] =
        [((sequence - base).toNat, data)] := by
      simp [substantial, hdata]
    rw [hsome]
    exact h.place hbase rfl hwithin hdata
  · rw [if_neg hwithin, place_outside hbase rfl hwithin]
    simpa [substantial] using h

/-- A flow that follows its pieces follows them with a further segment, and gives
no name once two of them contradict each other. -/
theorem Follows.add (h : Follows base ps f) (sequence : UInt32) (data : Bytes) :
    Follows base (ps ++ placed base [(sequence, data)]) (f.add sequence data).1 ∧
      (¬ Consistent (ps ++ placed base [(sequence, data)]) →
        (f.add sequence data).2 = none) := by
  rcases h with hdone | ⟨hbase, hholds⟩
  · rw [add_of_done hdone]
    exact ⟨.inl hdone, fun _ => rfl⟩
  · unfold Flow.add
    split
    · rename_i hpassed
      refine ⟨?_, fun _ => rfl⟩
      rcases hpassed with hdone | hempty | hlong
      · exact .inl hdone
      · have hnothing : substantial (placed base [(sequence, data)]) = [] := by
          rw [List.isEmpty_iff] at hempty
          subst hempty
          rw [placed_singleton]
          split <;> simp [substantial]
        refine .inr ⟨hbase, ?_⟩
        rw [substantial_append, hnothing, List.append_nil]
        exact hholds
      · have hnothing : placed base [(sequence, data)] = [] := by
          have houtside : ¬ Within ((sequence - base).toNat, data) := by
            rw [Within, not_not]
            dsimp only
            omega
          rw [placed_singleton, if_neg houtside]
        rw [hnothing, List.append_nil]
        exact .inr ⟨hbase, hholds⟩
    · rename_i hnew
      simp only [not_or, List.isEmpty_iff] at hnew
      rw [if_pos (by rw [hbase]; rfl)]
      exact search_follows ((settles_place f sequence data).base.trans hbase)
        (hholds.place_substantial hbase hnew.2.1)

/-- The first record of a flow puts what waits for it into its place. -/
theorem Waits.follows (h : Waits f) (hbase : f.base = none) (hrecord : data.head? = some 0x16)
    (hshort : data.length ≤ maxStream) :
    Follows sequence (placed sequence (f.pending ++ [(sequence, data)])) (f.add sequence data).1 ∧
      (¬ Consistent (placed sequence (f.pending ++ [(sequence, data)])) →
        (f.add sequence data).2 = none) := by
  have hdata : data ≠ [] := by
    rintro rfl
    contradiction
  have hopen : f.done = false := h.unfinished hbase
  obtain ⟨hplaced, hbased⟩ := (h.started hbase sequence).placeAll rfl h.data
  rw [List.nil_append] at hplaced
  have hsubstantial : substantial (placed sequence f.pending) = placed sequence f.pending := by
    rw [substantial, List.filter_eq_self]
    intro p hp
    rw [placed, List.mem_filter, List.mem_map] at hp
    obtain ⟨⟨segment, hsegment, rfl⟩, -⟩ := hp
    exact decide_eq_true (h.data segment hsegment)
  rw [← hsubstantial] at hplaced
  have hadd : f.add sequence data = (f.pending.foldl (fun (f : Flow) p => f.place p.1 p.2)
      { f with base := some sequence, pending := [] }).search sequence data := by
    rw [Flow.add, if_neg (by simp [hopen, hdata]; omega), if_neg (by simp [hbase]), if_pos hrecord]
  rw [hadd, placed_append]
  exact search_follows ((settles_place _ sequence data).base.trans hbased)
    (hplaced.place_substantial hbased hdata)

end Follows

end Flow

/-! ## Calls that keep a flow -/

/-- The segment as its flow is given it. -/
def Feed.segment (e : Feed) : UInt32 × Bytes :=
  (if e.syn then e.sequence + 1 else e.sequence, e.data)

theorem Feed.segment_of_data {e : Feed} (hsyn : e.syn = false) :
    e.segment = (e.sequence, e.data) := by
  rw [Feed.segment, if_neg (by simp [hsyn])]

/-- The call keeps the flow: a segment of the flow neither ends it nor begins a new
one and does not find it expired, and one of another flow does not throw it out. -/
def Keeps (key : Key) (a : Assembler) (e : Feed) : Prop :=
  if e.key = key then (e.rst = false ∧ e.syn = false ∧ e.fin = false) ∧ a.expired e = false
  else (a.feed e).1.flows.lookup key ≠ none

/-- The segments that a history brought for a flow, oldest first. -/
def brought (key : Key) : History Assembler Feed → List (UInt32 × Bytes)
  | [] => []
  | (_, e) :: hist => if e.key = key then brought key hist ++ [e.segment] else brought key hist

/-- The call fixes the start of its stream at `base`; `waiting` are the segments
that were kept for it. A SYN gives the start, and so does the first record that a
flow without a start is given. -/
inductive Fixes (a : Assembler) (e : Feed) : UInt32 → List (UInt32 × Bytes) → Prop
  | syn (hsyn : e.syn = true) : Fixes a e (e.sequence + 1) []
  | record (hsyn : e.syn = false) (hbase : (a.target e).base = none)
      (hrecord : e.data.head? = some 0x16) (hshort : e.data.length ≤ maxStream) :
      Fixes a e e.sequence (a.target e).pending

namespace Assembler

/-- A flow that is kept is the one that its next segment is given to. -/
theorem target_of_kept {a : Assembler} {e : Feed} {f : Flow}
    (hflow : a.flows.lookup e.key = some f) (hsyn : e.syn = false) (halive : a.expired e = false) :
    a.target e = { f with seen := e.clock.read 1 } := by
  have hkept : a.dropOld e = a.flows := by
    rw [dropOld, if_neg (by simp [halive, hsyn])]
  have hroom : makeRoom a.flows e = a.flows := by
    have hmem : e.key ∈ a.flows := KeyedMap.mem_iff_exists_lookup.mpr ⟨f, hflow⟩
    rw [makeRoom, if_neg (by simp [hmem])]
  rw [target, hkept, hroom, hflow]
  rfl

/-- A SYN is given to a flow of its own. -/
theorem target_of_syn {a : Assembler} {e : Feed} (hsyn : e.syn = true) : a.target e = e.opened := by
  rw [target, room_of_syn hsyn]
  rfl

/-- The result of a call is the one of its flow, if it reaches a flow at all. -/
theorem feed_result {a : Assembler} {e : Feed} :
    (a.feed e).2 = (a.taken e).2 ∨ (a.feed e).2 = none := by
  unfold feed
  split
  · exact .inr rfl
  · dsimp only
    split
    · exact .inr rfl
    · exact .inl rfl

/-- A call that ends no flow leaves the flow of its segment behind. -/
theorem lookup_feed {a : Assembler} {e : Feed} (h : Given e) (hfin : e.fin = false) :
    (a.feed e).1.flows.lookup e.key = some (a.taken e).1 := by
  rw [feed_given h, hfin]
  exact AList.lookup_insert ..

/-- The call that fixes the start leaves a flow that follows the pieces it was
given. -/
theorem taken_follows {a : Assembler} (h : KeyedMap.Every Flow.Waits a.flows) {first : Feed}
    {base : UInt32} {waiting : List (UInt32 × Bytes)} (hfixes : Fixes a first base waiting) :
    Flow.Follows base (Flow.placed base (waiting ++ [first.segment])) (a.taken first).1 ∧
      (¬ Consistent (Flow.placed base (waiting ++ [first.segment])) →
        (a.taken first).2 = none) := by
  unfold taken
  cases hfixes with
  | syn hsyn =>
      have hstart : Flow.Follows (first.sequence + 1) [] first.opened := by
        refine .inr ⟨by rw [Feed.opened, if_pos hsyn], rfl, ?_, ?_, ?_, ?_, rfl⟩
        · intro i
          simp [Feed.opened, kept, substantial]
        · intro p hp
          contradiction
        · exact iff_of_true rfl rfl
        · exact iff_of_false (by simp [Feed.opened]) (not_not.mpr List.Pairwise.nil)
      rw [target_of_syn hsyn, if_pos hsyn]
      have hadd := hstart.add (first.sequence + 1) first.data
      rw [List.nil_append] at hadd
      rw [List.nil_append, Feed.segment, if_pos hsyn]
      exact hadd
  | record hsyn hbase hrecord hshort =>
      rw [Feed.segment_of_data hsyn, if_neg (by simp [hsyn])]
      exact (target_waits h first).follows hbase hrecord hshort

/-- A flow that is kept follows the pieces it was given since its start is known. -/
theorem follows_of_run {a₀ a : Assembler} {first : Feed} {base : UInt32}
    {segments : List (UInt32 × Bytes)} {f₀ : Flow} {hist : History Assembler Feed}
    (hflow₀ : a₀.flows.lookup first.key = some f₀)
    (hfollows₀ : f₀.Follows base (Flow.placed base segments))
    (run : Run system a₀ hist a) (hkeeps : ∀ entry ∈ hist, Keeps first.key entry.1 entry.2) :
    ∃ f, a.flows.lookup first.key = some f ∧
      f.Follows base (Flow.placed base (segments ++ brought first.key hist)) := by
  revert hkeeps
  apply run.historyInvariant (P := fun hist a =>
    (∀ entry ∈ hist, Keeps first.key entry.1 entry.2) →
      ∃ f, a.flows.lookup first.key = some f ∧
        f.Follows base (Flow.placed base (segments ++ brought first.key hist)))
  · intro _
    rw [brought, List.append_nil]
    exact ⟨f₀, hflow₀, hfollows₀⟩
  · intro hist a e a' _ ih fires hkeeps
    obtain rfl : (a.feed e).1 = a' := Option.some.inj fires
    obtain ⟨hnow, hpast⟩ := List.forall_mem_cons.mp hkeeps
    obtain ⟨f, hflow, hfollows⟩ := ih hpast
    unfold Keeps at hnow
    by_cases hkey : e.key = first.key
    · rw [if_pos hkey] at hnow
      obtain ⟨⟨hrst, hsyn, hfin⟩, halive⟩ := hnow
      rw [← hkey] at hflow ⊢
      obtain ⟨t, -, hlookup⟩ := feed_self hflow hrst hsyn hfin halive
      refine ⟨_, hlookup, ?_⟩
      rw [brought, if_pos rfl, ← List.append_assoc, Flow.placed_append,
        Feed.segment_of_data hsyn, hkey]
      exact ((hfollows.seen t).add e.sequence e.data).1
    · rw [if_neg hkey] at hnow
      have hsame := (feed_other (Ne.symm hkey)).resolve_right hnow
      rw [brought, if_neg hkey]
      exact ⟨f, hsame.trans hflow, hfollows⟩

end Assembler

/-! ## The result -/

/-- **Segments that contradict each other give no name.** A call fixes the start of
a stream; the segments that waited for it and those that come behind it, in any
order and between segments of other flows, each have a position. Once two of them
that lie within the part of the stream that is looked at have different bytes for
one position, no call returns a name as long as the flow is kept: neither the one
that brings the second of them nor any later one, be it the FIN. -/
theorem contradiction_gives_no_name {hist₀ : History Assembler Feed} {a₀ : Assembler}
    (reached : Run Assembler.system { flows := ∅ } hist₀ a₀) {first : Feed} {base : UInt32}
    {waiting : List (UInt32 × Bytes)} (hfixes : Fixes a₀ first base waiting) :
    (¬ Consistent (Flow.placed base (waiting ++ [first.segment])) →
      (a₀.feed first).2 = none) ∧
    (first.rst = false → first.fin = false →
      ∀ hist a, Run Assembler.system (a₀.feed first).1 hist a →
        (∀ entry ∈ hist, Keeps first.key entry.1 entry.2) →
        ∀ e, e.key = first.key → e.syn = false → a.expired e = false →
          ¬ Consistent (Flow.placed base
            (waiting ++ [first.segment] ++ brought first.key ((a, e) :: hist))) →
          (a.feed e).2 = none) := by
  obtain ⟨hfollows, hsilent⟩ :=
    Assembler.taken_follows (Assembler.waits_of_run reached) hfixes
  constructor
  · intro hcontra
    rcases Assembler.feed_result (a := a₀) (e := first) with hresult | hresult
    · rw [hresult, hsilent hcontra]
    · exact hresult
  · intro hrst hfin hist a run hkeeps e hkey hsyn halive hcontra
    have hgiven : Assembler.Given first := by
      refine ⟨hrst, ?_⟩
      cases hfixes with
      | syn hfirst => exact .inl hfirst
      | record _ _ hrecord _ =>
          right
          intro hempty
          rw [hempty] at hrecord
          contradiction
    obtain ⟨f, hflow, hf⟩ :=
      Assembler.follows_of_run (Assembler.lookup_feed hgiven hfin) hfollows run hkeeps
    rw [← hkey] at hflow
    rcases Assembler.feed_result (a := a) (e := e) with hresult | hresult
    · rw [brought, if_pos hkey, ← List.append_assoc, Flow.placed_append,
        Feed.segment_of_data hsyn] at hcontra
      rw [hresult, Assembler.taken, Assembler.target_of_kept hflow hsyn halive,
        if_neg (by simp [hsyn])]
      exact ((hf.seen _).add e.sequence e.data).2 hcontra
    · exact hresult

/-- The end of the sample stream is of no use behind a contradiction. -/
theorem contradiction_gives_no_name_sample :
    ((Assembler.system.play [] (Assembler.feed { flows := ∅ } sampleSyn).1
      [sampleHead, sampleClash]).2.feed sampleTail).2 = none := by
  have run : Run Assembler.system (Assembler.feed { flows := ∅ } sampleSyn).1 _ _ :=
    Run.start.play [sampleHead, sampleClash]
  have hfixes : Fixes { flows := ∅ } sampleSyn (sampleSyn.sequence + 1) [] := .syn rfl
  apply (contradiction_gives_no_name .start hfixes).2 rfl rfl _ _ run
  · refine List.forall_mem_cons.mpr ⟨?_, List.forall_mem_cons.mpr ⟨?_, by simp⟩⟩
    · have hkey : sampleClash.key = sampleSyn.key := rfl
      rw [Keeps, if_pos hkey]
      decide
    · have hkey : sampleHead.key = sampleSyn.key := rfl
      rw [Keeps, if_pos hkey]
      decide
  · rfl
  · rfl
  · decide
  · unfold Consistent
    decide

end SocketTrail.Pcap.Tls
