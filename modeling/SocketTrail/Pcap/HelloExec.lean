/-
# The ClientHello parser does not panic

The readers of `Hello` with every index, slice and sum made visible. On a slice of a
size that memory can hold none of them panics, and the loop over the extensions ends:
they run like the functions that they are modelled by.
-/

import SocketTrail.Foundation.Exec
import SocketTrail.Pcap.Hello

namespace SocketTrail.Pcap

open SocketTrail.Foundation
open SocketTrail.Foundation.Exec (add add_bind bind_of early_ite_of ite_of)

/-! ## The parser -/

/-- `be16` with its sum checked. -/
def be16Exec (b : Bytes) (o : ℕ) : Exec ℕ := do
  let high ← .of b[o]?
  let next ← add 64 o 1
  let low ← .of b[next]?
  .value (high.toNat * 256 + low.toNat)

/-- The one host name of a server_name extension. -/
def serverNameExec (ebody : Bytes) : Exec String := do
  let listLen ← be16Exec ebody 0
  let whole ← add 64 listLen 2
  let kind ← .of ebody[2]?
  if whole ≠ ebody.length ∨ kind ≠ 0 then .early
  else
    let nameLen ← be16Exec ebody 3
    let entry ← add 64 nameLen 3
    if nameLen = 0 ∨ 253 < nameLen ∨ entry ≠ listLen then .early
    else
      let stop ← add 64 5 nameLen
      let name ← .of (getRange ebody 5 stop)
      if name.all isNameByte then
        .value (toAsciiLowercase (String.ofList (name.map fun b => Char.ofNat b.toNat)))
      else .early

/-- The loop over the extensions, for `fuel` rounds at most. -/
def helloExtensionsExec (hello : Bytes) (stop : ℕ) : ℕ → ℕ → Exec String
  | 0, _ => .panic
  | fuel + 1, p => do
      let body ← add 64 p 4
      if stop < body then .early
      else
        let etype ← be16Exec hello p
        let o ← add 64 p 2
        let elen ← be16Exec hello o
        let next ← add 64 body elen
        if stop < next then .early
        else
          let ebody ← .of (getRange hello body next)
          if etype = 0 then serverNameExec ebody
          else
            let step ← add 64 4 elen
            let p ← add 64 p step
            helloExtensionsExec hello stop fuel p

/-- `clientHelloSni` with its sums and slices checked. -/
def clientHelloSniExec (bytes : Bytes) : Exec String := do
  let kind ← .of bytes[0]?
  if kind ≠ 1 then .early
  else
    let high ← .of bytes[1]?
    let mid ← .of bytes[2]?
    let low ← .of bytes[3]?
    let length := beNat [high, mid, low]
    let total ← add 64 4 length
    let hello ← .of (getRange bytes 0 total)
    let p := 4 + 2 + 32
    let sidLen ← .of hello[p]?
    let step ← add 64 1 sidLen.toNat
    let p ← add 64 p step
    let csLen ← be16Exec hello p
    let step ← add 64 2 csLen
    let p ← add 64 p step
    let compLen ← .of hello[p]?
    let step ← add 64 1 compLen.toNat
    let p ← add 64 p step
    let extTotal ← be16Exec hello p
    let p ← add 64 p 2
    let stop ← .of (checkedAdd 64 p extTotal)
    if hello.length < stop then .early
    else helloExtensionsExec hello stop (hello.length + 1) p

/-- `parseSni` with its sum and slice checked. -/
def parseSniExec (d : Bytes) : Exec String := do
  let kind ← .of d[0]?
  let version ← .of d[1]?
  if kind ≠ 0x16 ∨ version ≠ 3 then .early
  else
    let size ← be16Exec d 3
    let stop ← add 64 5 size
    let bytes ← .of (getRange d 5 stop)
    clientHelloSniExec bytes

/-- `helloTotal` with its indices and its sum checked. -/
def helloTotalExec (head : Bytes) : Exec ℕ := do
  let high ← Exec.index head 1
  let mid ← Exec.index head 2
  let low ← Exec.index head 3
  add 64 4 (beNat [0, high, mid, low])

/-! ## It does not panic -/

theorem be16_lt {b : Bytes} {o n : ℕ} (h : be16 b o = some n) : n < 65536 := (drop_of_be16 h).1

theorem be16_eq_bind (b : Bytes) (o : ℕ) :
    be16 b o = b[o]?.bind fun high => b[o + 1]?.bind fun low =>
      some (high.toNat * 256 + low.toNat) := by
  unfold be16
  cases b[o]? <;> cases b[o + 1]? <;> rfl

/-- Four bytes say how long a message is. -/
theorem helloTotalExec_eq {head : Bytes} (h : 4 ≤ head.length) :
    helloTotalExec head = .value (helloTotal head) := by
  match head, h with
  | kind :: high :: mid :: low :: rest, _ =>
      have hlt : beNat [0, high, mid, low] < 256 ^ 4 := beNat_lt _
      have htotal : helloTotal (kind :: high :: mid :: low :: rest) =
          4 + beNat [0, high, mid, low] := by
        simp [helloTotal, beNat]
      rw [htotal, ← Exec.add_eq (w := 64) (by omega)]
      rfl

theorem be16Exec_eq {b : Bytes} (hb : b.length < 2 ^ 63) (o : ℕ) :
    be16Exec b o = .of (be16 b o) := by
  rw [be16Exec, be16_eq_bind]
  apply bind_of
  intro high hhigh
  have hinside := (List.getElem?_eq_some_iff.mp hhigh).1
  rw [add_bind (by omega)]
  exact bind_of fun low _ => rfl

theorem serverNameExec_eq {ebody : Bytes} (h : ebody.length < 2 ^ 63) :
    serverNameExec ebody = .of (serverName ebody) := by
  rw [serverNameExec, serverName, be16Exec_eq h]
  apply bind_of
  intro listLen hlist
  have hlistLt := be16_lt hlist
  rw [add_bind (by omega)]
  apply bind_of
  intro kind _
  apply early_ite_of
  intro _
  rw [be16Exec_eq h]
  apply bind_of
  intro nameLen hname
  have hnameLt := be16_lt hname
  rw [add_bind (by omega)]
  apply early_ite_of
  intro _
  rw [add_bind (by omega), getRange_add]
  apply bind_of
  intro name _
  exact ite_of (fun _ => rfl) fun _ => rfl

/-- The loop ends: an extension takes at least four bytes. -/
theorem helloExtensionsExec_eq {hello : Bytes} (h : hello.length < 2 ^ 63) {stop : ℕ}
    (hstop : stop ≤ hello.length) {fuel p : ℕ} (hfuel : stop < p + 4 * (fuel + 1))
    (hp : p < 2 ^ 63) :
    helloExtensionsExec hello stop (fuel + 1) p = .of (helloExtensions hello stop fuel p) := by
  induction fuel generalizing p with
  | zero =>
      rw [helloExtensionsExec, add_bind (by omega), if_pos (by omega)]
      rfl
  | succ fuel ih =>
      rw [helloExtensionsExec, helloExtensions, add_bind (by omega)]
      apply early_ite_of
      intro _
      rw [be16Exec_eq h]
      apply bind_of
      intro etype _
      rw [add_bind (by omega), be16Exec_eq h]
      apply bind_of
      intro elen helen
      have helenLt := be16_lt helen
      rw [add_bind (by omega)]
      apply early_ite_of
      intro hinside
      rw [getRange_add]
      apply bind_of
      intro ebody hebody
      have hlength := (drop_of_getSlice hebody).1
      apply ite_of
      · exact fun _ => serverNameExec_eq (by omega)
      · intro _
        rw [add_bind (by omega), add_bind (by omega), ← Nat.add_assoc]
        exact ih (by omega) (by omega)

theorem getSlice_three (b : Bytes) (o : ℕ) :
    getSlice b o 3 = b[o]?.bind fun x => b[o + 1]?.bind fun y => b[o + 2]?.bind fun z =>
      some [x, y, z] := by
  by_cases hinside : o + 3 ≤ b.length
  · rw [getSlice, if_pos hinside, List.getElem?_eq_getElem (by omega),
      List.getElem?_eq_getElem (by omega), List.getElem?_eq_getElem (by omega)]
    rw [List.drop_eq_getElem_cons (by omega), List.drop_eq_getElem_cons (by omega),
      List.drop_eq_getElem_cons (by omega)]
    rfl
  · have hlast : b[o + 2]? = none := List.getElem?_eq_none (by omega)
    rw [getSlice, if_neg hinside, hlast]
    cases b[o]? <;> cases b[o + 1]? <;> rfl

theorem clientHelloSniExec_eq (bytes : Bytes) :
    clientHelloSniExec bytes = .of (clientHelloSni bytes) := by
  rw [clientHelloSniExec, clientHelloSni, getSlice_three]
  simp only [Option.bind_eq_bind, Option.bind_assoc, Option.bind_some]
  apply bind_of
  intro kind _
  apply early_ite_of
  intro _
  apply bind_of
  intro high _
  apply bind_of
  intro mid _
  apply bind_of
  intro low _
  have hlength := beNat_lt [high, mid, low]
  rw [List.length_cons, List.length_cons, List.length_singleton] at hlength
  rw [add_bind (by omega), getRange_zero]
  apply bind_of
  intro hello hhello
  have hsize := (drop_of_getSlice hhello).1
  have hhello : hello.length < 2 ^ 63 := by omega
  apply bind_of
  intro sidLen _
  have hsid := sidLen.toNat_lt
  rw [add_bind (by omega), add_bind (by omega), be16Exec_eq hhello, ← Nat.add_assoc]
  apply bind_of
  intro csLen hcs
  have hcsLt := be16_lt hcs
  rw [add_bind (by omega), add_bind (by omega), ← Nat.add_assoc]
  apply bind_of
  intro compLen _
  have hcomp := compLen.toNat_lt
  rw [add_bind (by omega), add_bind (by omega), be16Exec_eq hhello, ← Nat.add_assoc]
  apply bind_of
  intro extTotal hext
  have hextLt := be16_lt hext
  rw [add_bind (by omega), checkedAdd_eq (by omega), Exec.of_some, Exec.value_bind]
  apply early_ite_of
  intro hstop
  exact helloExtensionsExec_eq hhello (by omega) (by omega) (by omega)

theorem parseSniExec_eq {d : Bytes} (h : d.length < 2 ^ 63) :
    parseSniExec d = .of (parseSni d) := by
  rw [parseSniExec, parseSni]
  apply bind_of
  intro kind _
  apply bind_of
  intro version _
  apply early_ite_of
  intro _
  rw [be16Exec_eq h]
  apply bind_of
  intro size hsize
  have hsizeLt := be16_lt hsize
  rw [add_bind (by omega), getRange_add]
  apply bind_of
  intro bytes hbytes
  have hlength := (drop_of_getSlice hbytes).1
  exact clientHelloSniExec_eq _

end SocketTrail.Pcap
