/-
# The name cache on disk

When the program ends, the names of all addresses go into a file under the text of
their address, and the next start puts them back one by one. The printing and the
parsing of the file and the parsing of an address are parameters; the file has
lookups of its own in it, which are not modelled.
-/

import SocketTrail.State.Store

namespace SocketTrail.State

open SocketTrail.Foundation SocketTrail.Net

/-- The highest number of addresses in the file. -/
def maxEntries : ℕ := 20000

/-- The content of the cache file. -/
structure Disk where
  dnsNames : KeyedMap String DnsEntry := ∅

/-- The part of an entry that is put back: the names that have not expired and have
the length of a name, eight of them at most, and the deadline of those that are cut
off. -/
def restoredEntry (now : ℕ) (names : DnsEntry) : DnsEntry :=
  let kept := names.names.filter fun n =>
    n.expires > now ∧ n.name.isEmpty = false ∧ n.name.utf8ByteSize ≤ 253
  if 8 < kept.length then
    { names := kept.take 8
      overflowUntil :=
        max names.overflowUntil (((kept.drop 8).map DnsName.expires).foldr max 0) }
  else { names with names := kept }

/-- Put the names of one address back, unless nothing of them is left or the map is
full. -/
def restoreDns (now : ℕ) (dns : KeyedMap IpAddr DnsEntry) (ip : IpAddr) (names : DnsEntry) :
    Bool × KeyedMap IpAddr DnsEntry :=
  let names := restoredEntry now names
  if (names.names.isEmpty ∧ names.overflowUntil ≤ now) ∨ maxNames ≤ dns.size then (false, dns)
  else (true, dns.insert ip names)

/-- The content of the file for a name map. -/
def cacheSnapshot (order : HashOrder IpAddr) (dns : KeyedMap IpAddr DnsEntry) : Disk where
  dnsNames := (order.arrange dns.keys).foldl
    (fun disk ip =>
      match dns.lookup ip with
      | some names => disk.insert ip.text names
      | none => disk) ∅

/-- The entries that are written: the first `maxEntries` of the iteration. -/
def Disk.slim (order : HashOrder String) (d : Disk) : Disk where
  dnsNames :=
    let taken := (order.arrange d.dnsNames.keys).take maxEntries
    KeyedMap.filterMap (fun key names => if key ∈ taken then some names else none) d.dnsNames

/-- The text of a cache file. -/
structure JsonText where
  print : Disk → Option String
  parse : String → Option Disk

/-- The file that is written; none when the content has no text. -/
def saveTo (json : JsonText) (order : HashOrder String) (d : Disk) : Option String :=
  json.print (d.slim order)

/-- The content of a file; one that cannot be read counts as empty. -/
def loadFrom (json : JsonText) (file : Option String) : Disk := (file.bind json.parse).getD {}

/-- Put the entries under the listed keys back, the `i`-th reading of the clock
first. A key that is no address is passed over. -/
def restoreFrom (parse : String → Option IpAddr) (clock : Clock) (d : Disk) :
    ℕ → List String → KeyedMap IpAddr DnsEntry → KeyedMap IpAddr DnsEntry
  | _, [], dns => dns
  | i, key :: rest, dns =>
      match parse key, d.dnsNames.lookup key with
      | some ip, some names =>
          restoreFrom parse clock d (i + 1) rest (restoreDns (clock.read i) dns ip names).2
      | _, _ => restoreFrom parse clock d i rest dns

/-- One end of the program and its next start. -/
structure Restart where
  json : JsonText
  /-- The parsing of the text of an address. -/
  parse : String → Option IpAddr
  /-- The instants at which the next start puts the entries back. -/
  clock : Clock
  snapshotOrder : HashOrder IpAddr
  saveOrder : HashOrder String
  loadOrder : HashOrder String

namespace Restart

/-- The content that is written. -/
def saved (r : Restart) (dns : KeyedMap IpAddr DnsEntry) : Disk :=
  (cacheSnapshot r.snapshotOrder dns).slim r.saveOrder

/-- The content that is read again. -/
def loaded (r : Restart) (dns : KeyedMap IpAddr DnsEntry) : Disk :=
  loadFrom r.json (saveTo r.json r.saveOrder (cacheSnapshot r.snapshotOrder dns))

/-- The name map of the next start. -/
def restored (r : Restart) (dns : KeyedMap IpAddr DnsEntry) : KeyedMap IpAddr DnsEntry :=
  let disk := r.loaded dns
  restoreFrom r.parse r.clock disk 0 (r.loadOrder.arrange disk.dnsNames.keys) ∅

/-- The text of every address of the map is parsed back to the address, and the file
is parsed back to what was written. -/
structure RoundTrips (r : Restart) (dns : KeyedMap IpAddr DnsEntry) : Prop where
  address : ∀ ip ∈ dns, r.parse ip.text = some ip
  file : ∃ text disk, r.json.print (r.saved dns) = some text ∧ r.json.parse text = some disk ∧
    ∀ key, disk.dnsNames.lookup key = (r.saved dns).dnsNames.lookup key

end Restart

end SocketTrail.State
