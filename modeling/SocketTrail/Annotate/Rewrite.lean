/-
# Rewriting a capture in place

The capture is rewritten into a new file next to it, which then takes its place.
Whatever fails on the way, the capture is as it was, and a file that another
program has put in the place of the new one is not touched.
-/

import SocketTrail.Annotate.Filter

namespace SocketTrail.Annotate

open SocketTrail.Foundation SocketTrail.Net SocketTrail.Pcap

/-- The contents of the files by path. -/
abbrev Fs : Type := String → Option Bytes

/-- The operations that fail while a capture is rewritten. -/
structure Io extends Faults where
  openFile : Bool := false
  createFile : Bool := false
  permissions : Bool := false
  rename : Bool := false
  /-- What a rewriting that fails has left in the new file. -/
  torn : Bytes := []

/-- The file that takes the place of the capture. -/
def partPath (path : String) : String := path ++ ".part"

/-- Fill the new file and let it take the place of the capture. -/
def Plan.fill (plan : Plan) (io : Io) (fs : Fs) (path : String) (src : Bytes) :
    Fs × Except Failure Stats :=
  let tmp := partPath path
  if io.permissions then (fs, .error .system)
  else
    match plan.apply io.toFaults src with
    | .error e => (Function.update fs tmp (some io.torn), .error e)
    | .ok (out, stats) =>
        if io.rename then (Function.update fs tmp (some out), .error .system)
        else (Function.update (Function.update fs path (some out)) tmp none, .ok stats)

/-- Rewrite the capture in place. The new file must not exist yet, and it is
removed again on a failure. -/
def Plan.rewrite (plan : Plan) (io : Io) (fs : Fs) (path : String) :
    Fs × Except Failure Stats :=
  let tmp := partPath path
  match fs path with
  | none => (fs, .error .system)
  | some src =>
      if io.openFile then (fs, .error .system)
      else if (fs tmp).isSome || io.createFile then (fs, .error .system)
      else
        match plan.fill io (Function.update fs tmp (some [])) path src with
        | (fs, .ok stats) => (fs, .ok stats)
        | (fs, .error e) => (Function.update fs tmp none, .error e)

/-! ## What rewriting leaves behind -/

theorem partPath_ne (path : String) : partPath path ≠ path := by
  intro h
  have hlength := congrArg String.length h
  rw [partPath, String.length_append] at hlength
  have hpart : ".part".length = 5 := rfl
  omega

/-- Filling the new file changes no other file, or puts the rewritten capture in
place. -/
theorem fill_cases (plan : Plan) (io : Io) (fs : Fs) (path : String) (src : Bytes) :
    (∃ content e, plan.fill io (Function.update fs (partPath path) (some [])) path src =
      (Function.update fs (partPath path) (some content), .error e)) ∨
    ∃ out stats, plan.apply io.toFaults src = .ok (out, stats) ∧
      io.permissions = false ∧ io.rename = false ∧
      plan.fill io (Function.update fs (partPath path) (some [])) path src =
        (Function.update (Function.update fs path (some out)) (partPath path) none, .ok stats) := by
  unfold Plan.fill
  dsimp only
  cases hpermissions : io.permissions with
  | true => exact .inl ⟨[], .system, rfl⟩
  | false =>
      rw [if_neg Bool.false_ne_true]
      cases happly : plan.apply io.toFaults src with
      | error e => exact .inl ⟨io.torn, e, by simp⟩
      | ok result =>
          obtain ⟨out, stats⟩ := result
          cases hrename : io.rename with
          | true => exact .inl ⟨out, .system, by simp⟩
          | false =>
              refine .inr ⟨out, stats, rfl, rfl, rfl, ?_⟩
              have hcomm : Function.update (Function.update fs (partPath path) (some [])) path
                  (some out) =
                  Function.update (Function.update fs path (some out)) (partPath path)
                    (some []) := Function.update_comm (partPath_ne path) _ _ fs
              simp [hcomm]

/-- Rewriting fails and changes nothing, or puts the rewritten capture in place
of the capture. -/
theorem rewrite_cases (plan : Plan) (io : Io) (fs : Fs) (path : String) :
    (∃ e, plan.rewrite io fs path = (fs, .error e)) ∨
    ∃ src out stats, fs path = some src ∧ fs (partPath path) = none ∧
      plan.apply io.toFaults src = .ok (out, stats) ∧
      plan.rewrite io fs path =
        (Function.update (Function.update fs path (some out)) (partPath path) none, .ok stats) := by
  unfold Plan.rewrite
  cases hsrc : fs path with
  | none => exact .inl ⟨.system, rfl⟩
  | some src =>
      dsimp only
      cases hopen : io.openFile with
      | true => exact .inl ⟨.system, rfl⟩
      | false =>
          rw [if_neg Bool.false_ne_true]
          by_cases hcreate : (fs (partPath path)).isSome || io.createFile
          · rw [if_pos hcreate]
            exact .inl ⟨.system, rfl⟩
          · rw [if_neg hcreate]
            have hnone : fs (partPath path) = none := by
              simp only [Bool.or_eq_true, not_or] at hcreate
              exact Option.not_isSome_iff_eq_none.mp hcreate.1
            obtain ⟨content, e, heq⟩ | ⟨out, stats, happly, -, -, heq⟩ :=
              fill_cases plan io fs path src
            · left
              refine ⟨e, ?_⟩
              rw [heq]
              dsimp only
              rw [Function.update_idem, ← hnone, Function.update_eq_self]
            · right
              refine ⟨src, out, stats, rfl, hnone, happly, ?_⟩
              rw [heq]

/-- Without faults a complete capture is rewritten, unless the new file exists. -/
theorem rewrite_of_capture (plan : Plan) {fs : Fs} {path : String} {blocks : List Block}
    (hsrc : fs path = some (encodeAll blocks)) (hnone : fs (partPath path) = none)
    (hcapture : Capture blocks) : ∃ stats, (plan.rewrite {} fs path).2 = .ok stats := by
  obtain ⟨stats, happly⟩ := apply_of_capture plan hcapture
  refine ⟨stats, ?_⟩
  unfold Plan.rewrite Plan.fill
  simp [hsrc, hnone, happly]

/-- A file that begins with blocks and goes on with what is not read as a block
is not rewritten. -/
theorem rewrite_error_of_unread (plan : Plan) (io : Io) {fs : Fs} {path : String}
    {before : List Block} {tail : Bytes} {e : Failure}
    (hsrc : fs path = some (encodeAll before ++ tail)) (hbefore : ∀ b ∈ before, b.WellFormed)
    (htail : tail ≠ []) (herror : readBlock tail = .error e) :
    ∃ e, plan.rewrite io fs path = (fs, .error e) := by
  obtain hfailed | ⟨src, out, stats, hsrc', -, happly, -⟩ := rewrite_cases plan io fs path
  · exact hfailed
  · obtain ⟨blocks, hblocks, hcapture, -⟩ := capture_of_apply happly
    rw [hsrc, Option.some.injEq] at hsrc'
    exact absurd (hsrc'.trans hblocks)
      (encodeAll_ne_of_error hbefore hcapture.wellFormed htail herror)

/-- **Rewriting in place is atomic and accepts exactly the complete captures.**
Whatever operation fails:

* a success puts exactly the output of `apply` in the place of the capture, and
  leaves no new file;
* a failure changes no file at all;
* without a fault the rewriting succeeds if and only if the new file did not
  exist and the capture is complete;
* a capture that is cut inside a block, or whose block has two different
  lengths, is not rewritten. -/
theorem rewrite_atomic (plan : Plan) (fs : Fs) (path : String) :
    (∀ io stats fs', plan.rewrite io fs path = (fs', .ok stats) →
      ∃ src out, fs path = some src ∧ plan.apply {} src = .ok (out, stats) ∧
        fs' path = some out ∧ fs' (partPath path) = none ∧
        ∀ other, other ≠ path → other ≠ partPath path → fs' other = fs other) ∧
    (∀ io e fs', plan.rewrite io fs path = (fs', .error e) → fs' = fs) ∧
    (∀ src, fs path = some src →
      ((∃ stats, (plan.rewrite {} fs path).2 = .ok stats) ↔
        fs (partPath path) = none ∧ ∃ blocks, src = encodeAll blocks ∧ Capture blocks)) ∧
    (∀ io before (b : Block) cut, fs path = some (encodeAll before ++ cut) →
      (∀ b ∈ before, b.WellFormed) → b.WellFormed → cut <+: b.encode → cut ≠ [] →
      cut ≠ b.encode → ∃ e, plan.rewrite io fs path = (fs, .error e)) ∧
    ∀ io before tail, fs path = some (encodeAll before ++ tail) →
      (∀ b ∈ before, b.WellFormed) → tail ≠ [] →
      le32 tail (le32 tail 4 - 4) ≠ le32 tail 4 → ∃ e, plan.rewrite io fs path = (fs, .error e) := by
  refine ⟨?_, ?_, ?_, ?_, ?_⟩
  · intro io stats fs' h
    obtain ⟨e, heq⟩ | ⟨src, out, stats', hsrc, -, happly, heq⟩ := rewrite_cases plan io fs path
    · rw [heq] at h
      cases h
    · rw [heq] at h
      obtain ⟨rfl, hstats⟩ := Prod.mk.inj h
      obtain rfl := Except.ok.inj hstats
      refine ⟨src, out, hsrc, apply_without_faults happly, ?_, Function.update_self .., ?_⟩
      · rw [Function.update_of_ne (partPath_ne path).symm, Function.update_self]
      · intro other hpath hpart
        rw [Function.update_of_ne hpart, Function.update_of_ne hpath]
  · intro io e fs' h
    obtain ⟨e', heq⟩ | ⟨src, out, stats, -, -, -, heq⟩ := rewrite_cases plan io fs path
    · rw [heq] at h
      exact (Prod.mk.inj h).1.symm
    · rw [heq] at h
      cases h
  · intro src hsrc
    constructor
    · rintro ⟨stats, hok⟩
      obtain ⟨e, heq⟩ | ⟨src', out, stats', hsrc', hnone, happly, -⟩ :=
        rewrite_cases plan {} fs path
      · rw [heq] at hok
        cases hok
      · rw [hsrc, Option.some.injEq] at hsrc'
        subst hsrc'
        obtain ⟨blocks, hblocks, hcapture, -⟩ := capture_of_apply happly
        exact ⟨hnone, blocks, hblocks, hcapture⟩
    · rintro ⟨hnone, blocks, rfl, hcapture⟩
      exact rewrite_of_capture plan hsrc hnone hcapture
  · intro io before b cut hsrc hbefore hwf hfront hcut hne
    obtain ⟨e, herror⟩ := readBlock_cut hwf hfront hne
    exact rewrite_error_of_unread plan io hsrc hbefore hcut herror
  · intro io before tail hsrc hbefore htail hmismatch
    obtain ⟨e, herror⟩ := readBlock_mismatch hmismatch
    exact rewrite_error_of_unread plan io hsrc hbefore htail herror

/-- The sample capture as the only file. -/
def sampleFs : Fs := fun path =>
  if path = "dump.pcapng" then some (encodeAll sampleCapture) else none

/-- The sample capture is rewritten in place by a plan with an owner, a label and a
comment: the file then holds what the plan writes. -/
theorem rewrite_atomic_sample :
    ∃ files out stats, labellingPlan.rewrite {} sampleFs "dump.pcapng" = (files, .ok stats) ∧
      labellingPlan.apply {} (encodeAll sampleCapture) = .ok (out, stats) ∧
        files "dump.pcapng" = some out := by
  obtain ⟨hwrites, -, haccepts, -⟩ := rewrite_atomic labellingPlan sampleFs "dump.pcapng"
  have hnone : sampleFs (partPath "dump.pcapng") = none := if_neg (partPath_ne "dump.pcapng")
  have hsome : sampleFs "dump.pcapng" = some (encodeAll sampleCapture) := if_pos rfl
  obtain ⟨stats, hstats⟩ :=
    (haccepts _ hsome).mpr ⟨hnone, sampleCapture, rfl, sampleCapture_capture⟩
  cases hresult : labellingPlan.rewrite {} sampleFs "dump.pcapng" with
  | mk files ended =>
      rw [hresult] at hstats
      obtain rfl : ended = .ok stats := hstats
      obtain ⟨src, out, hsrc, happly, hfile, -⟩ := hwrites {} stats files hresult
      rw [hsome, Option.some.injEq] at hsrc
      subst hsrc
      exact ⟨files, out, stats, rfl, happly, hfile⟩

end SocketTrail.Annotate
