/-
# The beginning of a TCP stream

The assembler puts the first bytes of every TCP stream together until they hold a
ClientHello, and then forgets them. Bytes whose position is unknown, since the
capture missed the SYN, wait until a segment looks like the first record.

Instants are clock readings in nanoseconds.
-/

import SocketTrail.Foundation.Execution
import SocketTrail.Foundation.KeyedMap
import SocketTrail.Foundation.Reassembly
import SocketTrail.Net.Address
import SocketTrail.Pcap.Hello

namespace SocketTrail.Pcap.Tls

open SocketTrail.Foundation SocketTrail.Net

/-- The part of a stream that is looked at. -/
def maxStream : ℕ := 32 * 1024

/-- The longest ClientHello, and the longest record. -/
def maxHello : ℕ := 16 * 1024

def maxFlows : ℕ := 256

/-- How long a flow is kept without a packet. -/
def ttl : ℕ := 10000000000

/-- A stream: the endpoint that sends it and the one that receives it. -/
abbrev Key : Type := IpAddr × UInt16 × IpAddr × UInt16

/-- The beginning of one stream. -/
structure Flow where
  /-- The sequence number of the first byte. -/
  base : Option UInt32
  /-- The segments that wait for `base`. -/
  pending : List (UInt32 × Bytes)
  buf : Bytes
  /-- Which bytes of `buf` have been received. -/
  filled : List Bool
  /-- How far `buf` is received without a gap. -/
  ready : ℕ
  seen : ℕ
  done : Bool
  deriving DecidableEq, Repr

/-- How far the records of a stream bring a ClientHello. -/
inductive Progress
  | waiting
  | rejected
  | found (sni : Option String)
  deriving DecidableEq, Repr

/-- Read the records from position `offset` on; `hello` is what they carried so
far. A record takes at least six bytes, so `ready` bounds their number. -/
def helloRecords (buf : Bytes) (ready : ℕ) : ℕ → ℕ → Bytes → Progress
  | 0, _, _ => .waiting
  | fuel + 1, offset, hello =>
      if ready - offset < 5 then .waiting
      else if buf.getD offset 0 ≠ 0x16 ∨ buf.getD (offset + 1) 0 ≠ 3 then .rejected
      else
        let size := (buf.getD (offset + 3) 0).toNat * 256 + (buf.getD (offset + 4) 0).toNat
        if size = 0 ∨ maxHello < size ∨ maxHello < hello.length + size then .rejected
        else if ready < offset + 5 + size then .waiting
        else
          let hello := hello ++ (buf.drop (offset + 5)).take size
          let offset := offset + 5 + size
          if 4 ≤ hello.length then
            let total := helloTotal hello
            if hello.getD 0 0 ≠ 1 ∨ maxHello < total then .rejected
            else if total ≤ hello.length then .found (clientHelloSni (hello.take total))
            else helloRecords buf ready fuel offset hello
          else helloRecords buf ready fuel offset hello

/-- Write the bytes of a segment from position `o` on; `none` when one of them
contradicts a byte received before. -/
def write : Bytes → List Bool → ℕ → Bytes → Option (Bytes × List Bool)
  | buf, filled, _, [] => some (buf, filled)
  | buf, filled, o, b :: rest =>
      if filled.getD o false ∧ buf.getD o 0 ≠ b then none
      else write (buf.set o b) (filled.set o true) (o + 1) rest

namespace Flow

/-- Forget the stream. -/
def finish (f : Flow) : Flow := { f with done := true, pending := [], buf := [], filled := [] }

/-- Put a segment into its place. -/
def place (f : Flow) (sequence : UInt32) (data : Bytes) : Flow :=
  match f.base with
  | none => f
  | some base =>
      let offset := (sequence - base).toNat
      if maxStream ≤ offset ∨ maxStream - offset < data.length then f
      else
        let stop := offset + data.length
        match write (grow f.buf stop 0) (grow f.filled stop false) offset data with
        | none => f.finish
        | some (buf, filled) =>
            { f with buf := buf, filled := filled, ready := advance filled f.ready }

/-- Put a segment into its place and look for the ClientHello. -/
def search (f : Flow) (sequence : UInt32) (data : Bytes) : Flow × Option String :=
  let f := f.place sequence data
  if f.done then (f, none)
  else
    match helloRecords f.buf f.ready f.ready 0 [] with
    | .waiting => (f, none)
    | .rejected => (f.finish, none)
    | .found sni => (f.finish, sni)

/-- Keep a segment whose place is unknown. -/
def hold (f : Flow) (sequence : UInt32) (data : Bytes) : Flow :=
  let held := (f.pending.map fun p => p.2.length).sum
  if f.pending.length < 16 ∧ held + data.length ≤ maxStream then
    { f with pending := f.pending ++ [(sequence, data)] }
  else f

/-- Take a segment in. -/
def add (f : Flow) (sequence : UInt32) (data : Bytes) : Flow × Option String :=
  if f.done ∨ data.isEmpty ∨ maxStream < data.length then (f, none)
  else if f.base.isSome then f.search sequence data
  else if data.head? = some 0x16 then
    let f' := { f with base := some sequence, pending := [] }
    (f.pending.foldl (fun f p => f.place p.1 p.2) f').search sequence data
  else (f.hold sequence data, none)

end Flow

/-- The assembler: the streams that packets were seen of. -/
structure Assembler where
  flows : KeyedMap Key Flow

/-- One segment, with the clock readings and the iteration order it meets. -/
structure Feed where
  key : Key
  sequence : UInt32
  flags : UInt8
  data : Bytes
  clock : Clock
  order : HashOrder Key

namespace Feed

def fin (e : Feed) : Bool := e.flags &&& 1 ≠ 0

def syn (e : Feed) : Bool := e.flags &&& 2 ≠ 0

def rst (e : Feed) : Bool := e.flags &&& 4 ≠ 0

/-- The flow that a segment opens. -/
def opened (e : Feed) : Flow where
  base := if e.syn then some (e.sequence + 1) else none
  pending := []
  buf := []
  filled := []
  ready := 0
  seen := e.clock.read 1
  done := false

end Feed

namespace Assembler

/-- The flow was not seen for too long. -/
def expired (a : Assembler) (e : Feed) : Bool :=
  (a.flows.lookup e.key).any fun f => ttl ≤ e.clock.read 0 - f.seen

/-- The flows once the old flow of a segment is dropped, because it expired or
because the segment begins a new one. -/
def dropOld (a : Assembler) (e : Feed) : KeyedMap Key Flow :=
  if a.expired e || e.syn then a.flows.erase e.key else a.flows

/-- The flows with room for a new one: the one that was not seen for longest
goes. -/
def makeRoom (flows : KeyedMap Key Flow) (e : Feed) : KeyedMap Key Flow :=
  if e.key ∉ flows ∧ maxFlows ≤ flows.size then
    match KeyedMap.oldest e.order Flow.seen flows with
    | some old => flows.erase old
    | none => flows
  else flows

def feed (a : Assembler) (e : Feed) : Assembler × Option String :=
  if e.rst then ({ flows := a.flows.erase e.key }, none)
  else
    let flows := a.dropOld e
    if !e.syn && e.data.isEmpty then ({ flows := flows }, none)
    else
      let flows := makeRoom flows e
      let flow := { (flows.lookup e.key).getD e.opened with seen := e.clock.read 1 }
      let sequence := if e.syn then e.sequence + 1 else e.sequence
      let (flow, result) := flow.add sequence e.data
      let flows := flows.insert e.key flow
      ({ flows := if e.fin then flows.erase e.key else flows }, result)

/-- The assembler as a transition system. -/
def system : System Assembler Feed := .ofFun fun a e => (a.feed e).1

end Assembler

end SocketTrail.Pcap.Tls
