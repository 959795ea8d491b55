/-
# The host name of a ClientHello

`clientHelloSni` reads the handshake message of a TLS client up to its
server_name extension; TLS carries the message in records and QUIC in CRYPTO
frames. `parseSni` looks into a single segment whose record is complete.
-/

import SocketTrail.Foundation.Text

namespace SocketTrail.Pcap

open SocketTrail.Foundation

/-- A byte of a host name. -/
def isNameByte (b : UInt8) : Bool :=
  let c := Char.ofNat b.toNat
  c.isAlphanum || c = '-' || c = '.' || c = '_'

/-- The one host name of a server_name extension. -/
def serverName (ebody : Bytes) : Option String := do
  let listLen ← be16 ebody 0
  if listLen + 2 ≠ ebody.length ∨ (← ebody[2]?) ≠ 0 then none
  else
    let nameLen ← be16 ebody 3
    if nameLen = 0 ∨ 253 < nameLen ∨ nameLen + 3 ≠ listLen then none
    else
      let name ← getSlice ebody 5 nameLen
      if name.all isNameByte then
        some (toAsciiLowercase (String.ofList (name.map fun b => Char.ofNat b.toNat)))
      else none

/-- Look for the server_name among the extensions from position `p` to `stop`. An
extension takes at least four bytes, so the length of the message bounds their
number. -/
def helloExtensions (hello : Bytes) (stop : ℕ) : ℕ → ℕ → Option String
  | 0, _ => none
  | fuel + 1, p => do
      if stop < p + 4 then none
      else
        let etype ← be16 hello p
        let elen ← be16 hello (p + 2)
        if stop < p + 4 + elen then none
        else
          let ebody ← getSlice hello (p + 4) elen
          if etype = 0 then serverName ebody
          else helloExtensions hello stop fuel (p + 4 + elen)

/-- The length that the header of a handshake message declares, header included. -/
def helloTotal (hello : Bytes) : ℕ := 4 + beNat ((hello.drop 1).take 3)

/-- The host name of a ClientHello; bytes behind the message are ignored. -/
def clientHelloSni (bytes : Bytes) : Option String := do
  if (← bytes[0]?) ≠ 1 then none
  else
    let length := beNat (← getSlice bytes 1 3)
    let hello ← getSlice bytes 0 (4 + length)
    -- behind the handshake header, the version and the random
    let p := 4 + 2 + 32
    let sidLen := (← hello[p]?).toNat
    let p := p + 1 + sidLen
    let csLen ← be16 hello p
    let p := p + 2 + csLen
    let compLen := (← hello[p]?).toNat
    let p := p + 1 + compLen
    let extTotal ← be16 hello p
    let p := p + 2
    let stop := p + extTotal
    if hello.length < stop then none else helloExtensions hello stop hello.length p

/-- The host name of a segment that begins with a complete TLS record. -/
def parseSni (d : Bytes) : Option String := do
  if (← d[0]?) ≠ 0x16 ∨ (← d[1]?) ≠ 3 then none
  else clientHelloSni (← getSlice d 5 (← be16 d 3))

/-- A ClientHello message of exactly the length that it declares. -/
structure IsHello (hello : Bytes) : Prop where
  header : 4 ≤ hello.length
  kind : hello.getD 0 0 = 1
  total : helloTotal hello = hello.length

/-- The first four bytes say what the message is and how long. -/
theorem IsHello.of_agrees {hello : Bytes} (h : IsHello hello) {bytes : Bytes}
    (hsame : ∀ i < 4, bytes[i]? = hello[i]?) :
    bytes.getD 0 0 = 1 ∧ helloTotal bytes = hello.length := by
  constructor
  · rw [List.getD_eq_getElem?_getD, hsame 0 (by omega), ← List.getD_eq_getElem?_getD]
    exact h.kind
  · rw [← h.total]
    unfold helloTotal
    have hslice : (bytes.drop 1).take 3 = (hello.drop 1).take 3 := by
      apply List.ext_getElem?
      intro i
      rw [List.getElem?_take, List.getElem?_take, List.getElem?_drop, List.getElem?_drop]
      by_cases hi : i < 3
      · rw [if_pos hi, if_pos hi, hsame _ (by omega)]
      · rw [if_neg hi, if_neg hi]
    rw [hslice]

/-- A ClientHello for `A.b`. -/
def sampleHello : Bytes :=
  [1, 0, 0, 55, 3, 3] ++ List.replicate 32 0 ++
    [0, 0, 2, 0x13, 1, 1, 0, 0, 12, 0, 0, 0, 8, 0, 6, 0, 0, 3, 0x41, 0x2E, 0x62]

example : clientHelloSni sampleHello = some "a.b" := by decide

end SocketTrail.Pcap
