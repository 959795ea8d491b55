/-
# The DNS parser does not panic

The readers of `Dns` with every index, slice, conversion and sum made visible. The
decoder of names counts its rounds, so it ends even when pointers form a loop.
-/

import SocketTrail.Pcap.DnsName
import SocketTrail.Pcap.HelloExec

namespace SocketTrail.Pcap

open SocketTrail.Foundation SocketTrail.Net
open SocketTrail.Foundation.Exec (add add_bind bind_of early_ite_of ite_of)

/-! ## The parser -/

/-- The position behind a name whose next label or pointer takes `n` bytes at
position `p`, unless the decoder has `jumped` before. -/
def nameEnd (jumped : Bool) (after p n : ℕ) : Exec ℕ :=
  if jumped then .value after else add 64 p n

/-- The loop of the decoder, for `fuel` rounds at most: `guard` counts them, `after`
is the position behind the first pointer once the decoder has `jumped`. -/
def dnsNameLoop (d : Bytes) : ℕ → ℕ → ℕ → String → ℕ → Bool → ℕ → Exec (String × ℕ)
  | 0, _, _, _, _, _, _ => .panic
  | fuel + 1, guard, p, out, wire, jumped, after => do
      let guard ← add 31 guard 1
      if 128 < guard then .early
      else
        let len := (← .of d[p]?).toNat
        if len = 0 then
          let after ← nameEnd jumped after p 1
          .value (out, after)
        else if 63 < len then
          if len / 64 ≠ 3 then .early
          else
            let o ← add 64 p 1
            let low ← .of d[o]?
            let after ← nameEnd jumped after p 2
            dnsNameLoop d fuel guard (len % 64 * 256 + low.toNat) out wire true after
        else
          let start ← add 64 p 1
          let stop ← add 64 start len
          let label ← .of (getRange d start stop)
          let step ← add 64 1 len
          let wire ← add 64 wire step
          if maxDnsName < wire then .early
          else
            let out := if out.isEmpty then out else out ++ "."
            let p ← add 64 p step
            dnsNameLoop d fuel guard p (out ++ fromUtf8Lossy label) wire jumped after

/-- `dnsName` with its indices and sums checked. -/
def dnsNameExec (d : Bytes) (p : ℕ) : Exec (String × ℕ) := dnsNameLoop d 129 0 p "" 1 false p

/-- `skipQuestions` with its sums checked. -/
def skipQuestionsExec (d : Bytes) : ℕ → ℕ → Option String → Exec (ℕ × Option String)
  | 0, p, qname => .value (p, qname)
  | qd + 1, p, qname => do
      let (n, np) ← dnsNameExec d p
      let p ← add 64 np 4
      skipQuestionsExec d qd p (qname.or (some n))

/-- The lifetime of a record, which stands from position `start` up to `stop`. -/
def lifetimeExec (d : Bytes) (start stop : ℕ) : Exec ℕ :=
  match getRange d start stop with
  | some v => do
      let v ← Exec.unwrap (toArray 4 v)
      .value (beNat v)
  | none => .value 0

/-- `Answers.record` with its indices, conversions and sums checked. -/
def Answers.recordExec (a : Answers) (d : Bytes) (qname : Option String) (p : ℕ) :
    Exec (ℕ × Answers) := do
  let (name, p) ← dnsNameExec d p
  let rtype ← be16Exec d p
  let start ← add 64 p 4
  let stop ← add 64 p 8
  let ttl ← lifetimeExec d start stop
  let chained := a.chain.any fun c => eqIgnoreAsciiCase c name
  let ttl := if chained then min ttl a.chainTtl else ttl
  let o ← add 64 p 2
  let rclass ← (be16Exec d o).attempt
  if rclass ≠ some 1 then .early
  else
    let o ← add 64 p 8
    let rdlen ← be16Exec d o
    let start ← add 64 p 10
    let stop ← add 64 start rdlen
    let rdata ← .of (getRange d start stop)
    let shown := if chained then qname.getD name else name
    let step ← add 64 10 rdlen
    let next ← add 64 p step
    if rtype = 1 ∧ rdlen = 4 then
      let b0 ← Exec.index rdata 0
      let b1 ← Exec.index rdata 1
      let b2 ← Exec.index rdata 2
      let b3 ← Exec.index rdata 3
      .value (next, { a with addrs := a.addrs ++ [(shown, .ofOctets b0 b1 b2 b3, ttl)] })
    else if rtype = 28 ∧ rdlen = 16 then
      let b ← Exec.unwrap (toArray 16 rdata)
      .value (next, { a with addrs := a.addrs ++ [(shown, .ofBytes b, ttl)] })
    else if rtype = 5 ∧ a.chain.length < 16 ∧ chained then
      let o ← add 64 p 10
      match ← (dnsNameExec d o).attempt with
      | some (target, _) =>
          .value (next, { a with chain := a.chain ++ [target], chainTtl := min a.chainTtl ttl })
      | none => .value (next, a)
    else .value (next, a)

/-- `Answers.records` without a panic of a record being lost. -/
def Answers.recordsExec (d : Bytes) (qname : Option String) : ℕ → ℕ → Answers → Exec Answers
  | 0, _, a => .value a
  | an + 1, p, a =>
      if maxDnsAddrs ≤ a.addrs.length then .value a
      else do
        match ← (a.recordExec d qname p).attempt with
        | none => .value a
        | some (next, a) => Answers.recordsExec d qname an next a

/-- `parseDns` with its indices, conversions and sums checked. -/
def parseDnsExec (d : Bytes) : Exec (List (String × IpAddr × ℕ)) :=
  if d.length < 12 then .value []
  else do
    let flags := (← (be16Exec d 2).attempt).getD 0
    if flags &&& 0x8000 = 0 ∨ flags &&& 0x020f ≠ 0 then .value []
    else
      let qd := (← (be16Exec d 4).attempt).getD 0
      let an := (← (be16Exec d 6).attempt).getD 0
      match ← (skipQuestionsExec d qd 12 none).attempt with
      | none => .value []
      | some (p, qname) =>
          let a : Answers := { addrs := [], chain := qname.toList, chainTtl := 2 ^ 32 - 1 }
          let a ← Answers.recordsExec d qname an p a
          .value a.addrs

/-! ## It does not panic -/

section Decoder

variable {d : Bytes} (hd : d.length < 2 ^ 63)

include hd

omit hd in
theorem nameEnd_eq {n : ℕ} (jumped : Bool) (after : ℕ) {p : ℕ} (hp : p + n < 2 ^ 64) :
    nameEnd jumped after p n =
      .value ((if jumped then some after else none).getD (p + n)) := by
  cases jumped with
  | true => rfl
  | false => exact Exec.add_eq hp

/-- The decoder ends after 129 rounds. -/
theorem dnsNameLoop_eq {fuel guard p wire after : ℕ} {out : String} {jumped : Bool}
    (hguard : guard + fuel = 128) (hwire : wire ≤ maxDnsName) :
    dnsNameLoop d (fuel + 1) guard p out wire jumped after =
      .of (dnsNameFrom d fuel p out wire (if jumped then some after else none)) := by
  have hmax : maxDnsName = 255 := rfl
  induction fuel generalizing guard p out wire jumped after with
  | zero =>
      rw [dnsNameLoop, add_bind (by omega), if_pos (by omega)]
      rfl
  | succ fuel ih =>
      rw [dnsNameLoop, add_bind (by omega), if_neg (by omega), dnsNameFrom]
      apply bind_of
      intro first hfirst
      have hinside := (List.getElem?_eq_some_iff.mp hfirst).1
      have hlen := first.toNat_lt
      apply ite_of
      · intro _
        rw [nameEnd_eq jumped after (by omega)]
        rfl
      · intro _
        apply ite_of
        · intro _
          apply early_ite_of
          intro _
          rw [add_bind (by omega)]
          apply bind_of
          intro low _
          rw [nameEnd_eq jumped after (by omega)]
          exact ih (by omega) hwire
        · intro _
          rw [add_bind (by omega), add_bind (by omega), getRange_add]
          apply bind_of
          intro label _
          rw [add_bind (by omega), add_bind (by omega), ← Nat.add_assoc]
          apply early_ite_of
          intro hshort
          rw [add_bind (by omega), ← Nat.add_assoc]
          exact ih (by omega) (by omega)

theorem dnsNameExec_eq (p : ℕ) : dnsNameExec d p = .of (dnsName d p) :=
  dnsNameLoop_eq hd rfl (by decide)

omit hd in
/-- A name that is read ends inside the message. -/
theorem dnsName_after_le {p after : ℕ} {text : String} (h : dnsName d p = some (text, after)) :
    after ≤ d.length := by
  obtain ⟨hname, -, -⟩ := dnsName_iff.mp h
  exact hname.after_le

theorem skipQuestionsExec_eq (qd p : ℕ) (qname : Option String) :
    skipQuestionsExec d qd p qname = .of (skipQuestions d qd p qname) := by
  induction qd generalizing p qname with
  | zero => rfl
  | succ qd ih =>
      rw [skipQuestionsExec, skipQuestions, dnsNameExec_eq hd]
      apply bind_of
      rintro ⟨n, np⟩ hname
      have hafter := dnsName_after_le hname
      dsimp only
      rw [add_bind (by omega)]
      exact ih (np + 4) _

omit hd in
/-- Four bytes that are there make up the lifetime. -/
theorem lifetimeExec_eq (start : ℕ) :
    lifetimeExec d start (start + 4) =
      .value (((getSlice d start 4).map beNat).getD 0) := by
  rw [lifetimeExec, getRange_add]
  cases hread : getSlice d start 4 with
  | none => rfl
  | some v =>
      dsimp only
      rw [toArray_eq (drop_of_getSlice hread).1]
      rfl

theorem recordExec_eq (a : Answers) (qname : Option String) (p : ℕ) :
    a.recordExec d qname p = .of (a.record d qname p) := by
  rw [Answers.recordExec, Answers.record, dnsNameExec_eq hd]
  apply bind_of
  rintro ⟨name, p⟩ hname
  have hafter := dnsName_after_le hname
  dsimp only
  rw [be16Exec_eq hd]
  apply bind_of
  intro rtype _
  have hend : p + 8 = p + 4 + 4 := rfl
  rw [add_bind (by omega), add_bind (by omega), hend, lifetimeExec_eq, Exec.value_bind,
    add_bind (by omega), be16Exec_eq hd, Exec.attempt_of, Exec.value_bind]
  apply early_ite_of
  intro _
  rw [add_bind (by omega), be16Exec_eq hd]
  apply bind_of
  intro rdlen hrdlen
  have hlength := be16_lt hrdlen
  rw [add_bind (by omega), add_bind (by omega), getRange_add]
  apply bind_of
  intro rdata hrdata
  have hsize := (drop_of_getSlice hrdata).1
  rw [add_bind (by omega), add_bind (by omega), ← Nat.add_assoc]
  apply ite_of
  · rintro ⟨-, rfl⟩
    rw [Exec.index_eq (by omega) 0, Exec.index_eq (by omega) 0, Exec.index_eq (by omega) 0,
      Exec.index_eq (by omega) 0]
    rfl
  · intro _
    apply ite_of
    · rintro ⟨-, rfl⟩
      rw [toArray_eq hsize]
      rfl
    · intro _
      apply ite_of
      · intro _
        rw [add_bind (by omega), dnsNameExec_eq hd, Exec.attempt_of, Exec.value_bind]
        cases dnsName d (p + 10) <;> rfl
      · exact fun _ => rfl

theorem recordsExec_eq (qname : Option String) (an p : ℕ) (a : Answers) :
    Answers.recordsExec d qname an p a = .value (Answers.records d qname an p a) := by
  induction an generalizing p a with
  | zero => rfl
  | succ an ih =>
      rw [Answers.recordsExec, Answers.records, recordExec_eq hd, Exec.attempt_of, Exec.value_bind]
      split
      · rfl
      · cases a.record d qname p with
        | none => rfl
        | some found => exact ih found.1 found.2

theorem parseDnsExec_eq : parseDnsExec d = .value (parseDns d) := by
  rw [parseDnsExec, parseDns]
  simp only [be16Exec_eq hd, skipQuestionsExec_eq hd, Exec.attempt_of, Exec.value_bind]
  split
  · rfl
  · split
    · rfl
    · cases skipQuestions d ((be16 d 4).getD 0) 12 none with
      | none => rfl
      | some found =>
          dsimp only
          rw [recordsExec_eq hd, Exec.value_bind]

end Decoder

end SocketTrail.Pcap
