/-
# DNS responses

`dnsName` decodes a name with its compression pointers, `parseDns` collects the
addresses of a response. An address is listed under the name that was asked for,
as long as the aliases in front of it lead there.
-/

import SocketTrail.Foundation.Text
import SocketTrail.Net.Address

namespace SocketTrail.Pcap

open SocketTrail.Foundation SocketTrail.Net

/-- The longest name, counted in bytes of the message. -/
def maxDnsName : ℕ := 255

/-- The most addresses taken from one response. -/
def maxDnsAddrs : ℕ := 64

/-- Decode a name from position `p` on, following at most `guard` labels and
pointers: `out` is the text so far, `wire` its length in the message, `after` the
position behind the first pointer. -/
def dnsNameFrom (d : Bytes) : ℕ → ℕ → String → ℕ → Option ℕ → Option (String × ℕ)
  | 0, _, _, _, _ => none
  | guard + 1, p, out, wire, after => do
      let len := (← d[p]?).toNat
      if len = 0 then some (out, after.getD (p + 1))
      else if 63 < len then
        -- the two highest bits mark a pointer
        if len / 64 ≠ 3 then none
        else
          let ptr := len % 64 * 256 + (← d[p + 1]?).toNat
          dnsNameFrom d guard ptr out wire (some (after.getD (p + 2)))
      else
        let label ← getSlice d (p + 1) len
        let wire := wire + 1 + len
        if maxDnsName < wire then none
        else
          let out := if out.isEmpty then out else out ++ "."
          dnsNameFrom d guard (p + 1 + len) (out ++ fromUtf8Lossy label) wire after

/-- The name at position `p`, and the position behind it. -/
def dnsName (d : Bytes) (p : ℕ) : Option (String × ℕ) := dnsNameFrom d 128 p "" 1 none

/-- Pass over `qd` questions from position `p` on; the result is the position
behind them and the first name. -/
def skipQuestions (d : Bytes) : ℕ → ℕ → Option String → Option (ℕ × Option String)
  | 0, p, qname => some (p, qname)
  | qd + 1, p, qname => do
      let (n, np) ← dnsName d p
      skipQuestions d qd (np + 4) (qname.or (some n))

/-- What the answers gave so far: the addresses, the names that the aliases lead
through, and the shortest lifetime among those aliases. -/
structure Answers where
  addrs : List (String × IpAddr × ℕ)
  chain : List String
  chainTtl : ℕ

/-- Take the record at position `p` in; the result is the position behind it. -/
def Answers.record (a : Answers) (d : Bytes) (qname : Option String) (p : ℕ) :
    Option (ℕ × Answers) := do
  let (name, p) ← dnsName d p
  let rtype ← be16 d p
  let ttl := ((getSlice d (p + 4) 4).map beNat).getD 0
  let chained := a.chain.any fun c => eqIgnoreAsciiCase c name
  let ttl := if chained then min ttl a.chainTtl else ttl
  if be16 d (p + 2) ≠ some 1 then none
  else
    let rdlen ← be16 d (p + 8)
    let rdata ← getSlice d (p + 10) rdlen
    let next := p + 10 + rdlen
    let shown := if chained then qname.getD name else name
    if rtype = 1 ∧ rdlen = 4 then
      let ip := IpAddr.ofOctets (rdata.getD 0 0) (rdata.getD 1 0) (rdata.getD 2 0) (rdata.getD 3 0)
      some (next, { a with addrs := a.addrs ++ [(shown, ip, ttl)] })
    else if rtype = 28 ∧ rdlen = 16 then
      some (next, { a with addrs := a.addrs ++ [(shown, .ofBytes rdata, ttl)] })
    else if rtype = 5 ∧ a.chain.length < 16 ∧ chained then
      match dnsName d (p + 10) with
      | some (target, _) =>
          some (next, { a with chain := a.chain ++ [target], chainTtl := min a.chainTtl ttl })
      | none => some (next, a)
    else some (next, a)

/-- Take `an` records in, up to the first that cannot be read. -/
def Answers.records (d : Bytes) (qname : Option String) : ℕ → ℕ → Answers → Answers
  | 0, _, a => a
  | an + 1, p, a =>
      if maxDnsAddrs ≤ a.addrs.length then a
      else
        match a.record d qname p with
        | none => a
        | some (next, a) => Answers.records d qname an next a

/-- The addresses of a DNS response: name, address and lifetime. -/
def parseDns (d : Bytes) : List (String × IpAddr × ℕ) :=
  if d.length < 12 then []
  else
    let flags := (be16 d 2).getD 0
    -- a query, a truncated response or an error
    if flags &&& 0x8000 = 0 ∨ flags &&& 0x020f ≠ 0 then []
    else
      let qd := (be16 d 4).getD 0
      let an := (be16 d 6).getD 0
      match skipQuestions d qd 12 none with
      | none => []
      | some (p, qname) =>
          let a : Answers := { addrs := [], chain := qname.toList, chainTtl := 2 ^ 32 - 1 }
          (Answers.records d qname an p a).addrs

end SocketTrail.Pcap
