/-
# A restart keeps the names

The cache file is capped, and putting an entry back drops expired names, cuts a long
list and may refuse the entry. None of this can be seen in a query afterwards: the
map never grows beyond what the file holds, its entries never hold more names than
are put back, and a name that has expired at the restart has expired at every later
query.
-/

import SocketTrail.Foundation.Text
import SocketTrail.History.DnsNames
import SocketTrail.State.Cache

namespace SocketTrail.History

open SocketTrail.Foundation SocketTrail.Net SocketTrail.State

/-! ## The name map with its restores -/

/-- One call that changes the name map. -/
inductive NameCall
  | remember (a : Announcement)
  | restore (now : ℕ) (ip : IpAddr) (names : DnsEntry)

/-- The name map after the call. -/
def NameCall.apply (dns : KeyedMap IpAddr DnsEntry) : NameCall → KeyedMap IpAddr DnsEntry
  | .remember a => announce dns a
  | .restore now ip names => (restoreDns now dns ip names).2

/-- The name map as a transition system of both calls. -/
def nameCalls : System (KeyedMap IpAddr DnsEntry) NameCall := .ofFun NameCall.apply

/-- An entry has as many names as an entry can keep, each of the length of a name. -/
structure Sound (entry : DnsEntry) : Prop where
  few : entry.names.length ≤ 8
  sized : ∀ n ∈ entry.names, WellSized n.name

theorem sound_empty : Sound {} where
  few := Nat.zero_le _
  sized n hn := by contradiction

/-- A name has the same length in lower case. -/
theorem WellSized.toLower {name : String} (h : WellSized name) : WellSized name.toLower := by
  have hempty (s : String) : s.isEmpty = (s.utf8ByteSize == 0) := rfl
  unfold WellSized at *
  rw [hempty] at *
  rw [utf8ByteSize_toLower]
  exact h

theorem Sound.keptNames {entry : DnsEntry} (h : Sound entry) (now : ℕ) (name : String) :
    (keptNames entry now name).length ≤ 8 ∧ ∀ n ∈ keptNames entry now name, WellSized n.name :=
  ⟨(List.length_filter_le _ _).trans h.few, fun n hn => h.sized n (List.mem_of_mem_filter hn)⟩

theorem Sound.announced {entry : DnsEntry} (h : Sound entry) {a : Announcement}
    (hname : WellSized a.name) : Sound (announced entry a) := by
  obtain ⟨hfew, hsized⟩ := h.keptNames a.now a.name.toLower
  unfold History.announced
  dsimp only
  split
  · exact ⟨hfew, hsized⟩
  · split
    · rename_i hroom
      constructor
      · rw [List.length_append]
        exact hroom
      · intro n hn
        rcases List.mem_append.mp hn with hold | hnew
        · exact hsized n hold
        · rw [List.mem_singleton] at hnew
          subst hnew
          exact hname.toLower
    · exact ⟨hfew, hsized⟩

theorem sound_restoredEntry (now : ℕ) (names : DnsEntry) : Sound (restoredEntry now names) := by
  have hsized : ∀ n ∈ names.names.filter fun n =>
      n.expires > now ∧ n.name.isEmpty = false ∧ n.name.utf8ByteSize ≤ 253, WellSized n.name := by
    intro n hn
    obtain ⟨-, hfacts⟩ := List.mem_filter.mp hn
    simp only [decide_eq_true_eq] at hfacts
    unfold WellSized
    rw [hfacts.2.1, Bool.false_or, decide_eq_false_iff_not]
    omega
  unfold restoredEntry
  dsimp only
  split
  · constructor
    · exact (List.length_take_le _ _)
    · intro n hn
      exact hsized n (List.mem_of_mem_take hn)
  · rename_i hshort
    exact ⟨Nat.le_of_not_lt hshort, hsized⟩

/-! ## Entries that are put back -/

/-- Of a sound entry only expired names are dropped. -/
theorem Sound.restoredEntry_eq {entry : DnsEntry} (h : Sound entry) (now : ℕ) :
    restoredEntry now entry = { entry with names := validNames entry now } := by
  have hkept : (entry.names.filter fun n =>
      n.expires > now ∧ n.name.isEmpty = false ∧ n.name.utf8ByteSize ≤ 253) =
      validNames entry now := by
    apply List.filter_congr
    intro n hn
    have hsized := h.sized n hn
    unfold WellSized at hsized
    rw [Bool.or_eq_false_iff, decide_eq_false_iff_not] at hsized
    have hshort : n.name.utf8ByteSize ≤ 253 := by omega
    simp [hsized.1, hshort]
  have hfew : ¬ 8 < (validNames entry now).length := by
    have hle := List.length_filter_le (fun n : DnsName => n.expires > now) entry.names
    have hall := h.few
    unfold validNames
    omega
  unfold restoredEntry
  dsimp only
  rw [hkept, if_neg hfew]

/-- What is put back answers every later query as the entry did. -/
theorem Sound.unique_restoredEntry {entry : DnsEntry} (h : Sound entry) {now t : ℕ}
    (hlater : now ≤ t) : (restoredEntry now entry).unique t = entry.unique t := by
  have hvalid : (validNames entry now).filter (fun n => n.expires > t) =
      entry.names.filter fun n => n.expires > t := by
    unfold validNames
    rw [List.filter_filter]
    apply List.filter_congr
    intro n _
    by_cases hn : n.expires > t
    · simp [hn, lt_of_le_of_lt hlater hn]
    · simp [hn]
  rw [h.restoredEntry_eq]
  unfold DnsEntry.unique
  dsimp only
  rw [hvalid]

/-- An entry of which nothing is left has no answer any more. -/
theorem unique_of_refused {entry : DnsEntry} {now t : ℕ} (hlater : now ≤ t)
    (hnames : entry.names.isEmpty = true) (hended : entry.overflowUntil ≤ now) :
    entry.unique t = none := by
  unfold DnsEntry.unique
  rw [if_neg (by omega), List.isEmpty_iff.mp hnames]
  rfl

/-- An entry that is put back into a map with room leaves the address with the
answers it had. -/
theorem nameOf_restoreDns {dns : KeyedMap IpAddr DnsEntry} {ip : IpAddr} {entry : DnsEntry}
    (h : Sound entry) (hnew : dns.lookup ip = none) (hroom : dns.size < maxNames) {now t : ℕ}
    (hlater : now ≤ t) : nameOf (restoreDns now dns ip entry).2 ip t = entry.unique t := by
  rw [← h.unique_restoredEntry hlater]
  unfold restoreDns nameOf
  dsimp only
  split
  · rename_i hrefused
    obtain ⟨hnames, hended⟩ := hrefused.resolve_right (by omega)
    rw [hnew, unique_of_refused hlater hnames hended]
    rfl
  · rw [AList.lookup_insert]
    rfl

/-! ## Reachable name maps -/

theorem size_trimIpMap_le {V : Type*} (order : HashOrder IpAddr) (map : KeyedMap IpAddr V)
    (used : List IpAddr) (limit : ℕ) : (trimIpMap order map used limit).size ≤ map.size := by
  unfold trimIpMap
  dsimp only
  split
  · exact le_rfl
  · exact KeyedMap.size_eraseAll_le _ _

/-- The map is within its ceiling, and every entry is sound. -/
structure SoundMap (dns : KeyedMap IpAddr DnsEntry) : Prop where
  size : dns.size ≤ maxNames
  entries : KeyedMap.Every Sound dns

/-- Room is made by dropping entries, until a new one fits or the call is turned
away. -/
theorem SoundMap.roomFor {dns : KeyedMap IpAddr DnsEntry} (h : SoundMap dns) (a : Announcement) :
    SoundMap (roomFor dns a) where
  size := by
    unfold History.roomFor
    split
    · exact (size_trimIpMap_le ..).trans h.size
    · exact h.size
  entries key value hlookup := h.entries key value (lookup_of_lookup_roomFor hlookup)

theorem size_roomFor_lt {dns : KeyedMap IpAddr DnsEntry} {a : Announcement}
    (hroom : ¬ TurnedAway dns a) (hnew : a.ip ∉ roomFor dns a) :
    (roomFor dns a).size < maxNames := by
  have habsent : a.ip ∉ dns := by
    rw [← AList.lookup_eq_none] at hnew ⊢
    rw [← roomFor_lookup_self dns a]
    exact hnew
  by_contra hfull
  unfold roomFor at hfull
  split at hfull
  · rename_i hsize
    exact hroom ⟨hsize.1, habsent, Nat.le_of_not_lt hfull⟩
  · rename_i hsize
    exact hsize ⟨Nat.le_of_not_lt hfull, habsent⟩

theorem SoundMap.announce {dns : KeyedMap IpAddr DnsEntry} (h : SoundMap dns)
    (a : Announcement) : SoundMap (announce dns a) := by
  by_cases hname : WellSized a.name
  · obtain ⟨-, heq⟩ | ⟨-, heq⟩ | ⟨hroom, heq⟩ := announce_cases dns a
    · rw [heq]
      exact h
    · rw [heq]
      exact h.roomFor a
    · have hentry := (h.roomFor a).entries.getD sound_empty a.ip
      rw [heq]
      exact ⟨KeyedMap.size_insert_le_of_room _ (h.roomFor a).size (size_roomFor_lt hroom),
        (h.roomFor a).entries.insert (hentry.announced hname)⟩
  · have hpassed : History.announce dns a = dns := by
      unfold WellSized at hname
      rw [Bool.not_eq_false] at hname
      unfold History.announce rememberNameFor
      rw [hname]
      rfl
    rw [hpassed]
    exact h

theorem SoundMap.restore {dns : KeyedMap IpAddr DnsEntry} (h : SoundMap dns) (now : ℕ)
    (ip : IpAddr) (names : DnsEntry) : SoundMap (restoreDns now dns ip names).2 := by
  unfold restoreDns
  dsimp only
  split
  · exact h
  · rename_i htaken
    rw [not_or, not_le] at htaken
    exact ⟨KeyedMap.size_insert_le_of_room _ h.size fun _ => htaken.2,
      h.entries.insert (sound_restoredEntry now names)⟩

theorem soundMap_of_run {hist : History (KeyedMap IpAddr DnsEntry) NameCall}
    {dns : KeyedMap IpAddr DnsEntry} (run : Run nameCalls ∅ hist dns) : SoundMap dns := by
  apply run.invariant
  · exact ⟨Nat.zero_le _, KeyedMap.every_empty⟩
  · intro dns call dns' h fires
    obtain rfl : call.apply dns = dns' := Option.some.inj fires
    cases call with
    | remember a => exact h.announce a
    | restore now ip names => exact h.restore now ip names

/-! ## The file -/

/-- The text of an address tells it from every other of the map. -/
def TextApart (dns : KeyedMap IpAddr DnsEntry) : Prop :=
  ∀ ip ∈ dns, ∀ other ∈ dns, ip.text = other.text → ip = other

/-- The step of the snapshot. -/
def snapshotStep (dns : KeyedMap IpAddr DnsEntry) (disk : KeyedMap String DnsEntry)
    (ip : IpAddr) : KeyedMap String DnsEntry :=
  match dns.lookup ip with
  | some names => disk.insert ip.text names
  | none => disk

/-- After some addresses, the entry of each of them stands under its text, and the
rest is as it was. -/
theorem lookup_snapshot {dns : KeyedMap IpAddr DnsEntry} (hapart : TextApart dns)
    {ips : List IpAddr} (hips : ∀ ip ∈ ips, ip ∈ dns) (disk : KeyedMap String DnsEntry) :
    (∀ ip ∈ ips, (ips.foldl (snapshotStep dns) disk).lookup ip.text = dns.lookup ip) ∧
      ∀ key, (∀ ip ∈ ips, ip.text ≠ key) →
        (ips.foldl (snapshotStep dns) disk).lookup key = disk.lookup key := by
  induction ips generalizing disk with
  | nil => exact ⟨fun ip hip => by contradiction, fun key _ => rfl⟩
  | cons ip rest ih =>
      rw [List.forall_mem_cons] at hips
      obtain ⟨names, hnames⟩ := KeyedMap.mem_iff_exists_lookup.mp hips.1
      have hstep : snapshotStep dns disk ip = disk.insert ip.text names := by
        unfold snapshotStep
        rw [hnames]
      obtain ⟨hlisted, hothers⟩ := ih hips.2 (disk.insert ip.text names)
      rw [List.foldl_cons, hstep]
      refine ⟨List.forall_mem_cons.mpr ⟨?_, hlisted⟩, ?_⟩
      · by_cases hagain : ip ∈ rest
        · exact hlisted ip hagain
        · rw [hothers, AList.lookup_insert, hnames]
          intro other hother htext
          rw [hapart other (hips.2 other hother) ip hips.1 htext] at hother
          exact hagain hother
      · intro key hkey
        rw [List.forall_mem_cons] at hkey
        rw [hothers key hkey.2, AList.lookup_insert_ne hkey.1.symm]

/-- The file has the entry of every address under its text, and nothing else. -/
structure Written (dns : KeyedMap IpAddr DnsEntry) (d : Disk) : Prop where
  entry : ∀ ip ∈ dns, d.dnsNames.lookup ip.text = dns.lookup ip
  only : ∀ key ∈ d.dnsNames, ∃ ip ∈ dns, ip.text = key

/-- The file has no more entries than the map. -/
theorem Written.size_le {dns : KeyedMap IpAddr DnsEntry} {d : Disk} (h : Written dns d) :
    d.dnsNames.size ≤ dns.size := by
  have hsubset : d.dnsNames.keys ⊆ dns.keys.map IpAddr.text := by
    intro key hkey
    obtain ⟨ip, hip, rfl⟩ := h.only key (AList.mem_keys.mpr hkey)
    exact List.mem_map_of_mem (AList.mem_keys.mp hip)
  have hlength := (d.dnsNames.keys_nodup.subperm hsubset).length_le
  rw [List.length_map, ← KeyedMap.size_eq_length_keys, ← KeyedMap.size_eq_length_keys] at hlength
  exact hlength

/-- A file with the same entries is as good. -/
theorem Written.congr {dns : KeyedMap IpAddr DnsEntry} {d d' : Disk} (h : Written dns d)
    (hsame : ∀ key, d'.dnsNames.lookup key = d.dnsNames.lookup key) : Written dns d' where
  entry ip hip := (hsame _).trans (h.entry ip hip)
  only key hkey := by
    apply h.only key
    rw [KeyedMap.mem_iff_exists_lookup] at hkey ⊢
    rw [← hsame]
    exact hkey

theorem written_cacheSnapshot {dns : KeyedMap IpAddr DnsEntry} (hapart : TextApart dns)
    (order : HashOrder IpAddr) : Written dns (cacheSnapshot order dns) := by
  have hkeys (ip : IpAddr) : ip ∈ order.arrange dns.keys ↔ ip ∈ dns := by
    rw [HashOrder.mem_arrange, AList.mem_keys]
  obtain ⟨hlisted, hothers⟩ :=
    lookup_snapshot hapart (fun ip hip => (hkeys ip).mp hip) (∅ : KeyedMap String DnsEntry)
  constructor
  · intro ip hip
    exact hlisted ip ((hkeys ip).mpr hip)
  · intro key hkey
    by_contra hnone
    obtain ⟨names, hnames⟩ := KeyedMap.mem_iff_exists_lookup.mp hkey
    have habsent := hothers key fun ip hip htext => hnone ⟨ip, (hkeys ip).mp hip, htext⟩
    rw [AList.lookup_empty] at habsent
    have hcontra : (cacheSnapshot order dns).dnsNames.lookup key = none := habsent
    rw [hcontra] at hnames
    contradiction

/-- Nothing of a map within its ceiling is left out of the file. -/
theorem lookup_slim {d : Disk} (h : d.dnsNames.size ≤ maxEntries) (order : HashOrder String)
    (key : String) : (d.slim order).dnsNames.lookup key = d.dnsNames.lookup key := by
  unfold Disk.slim
  dsimp only
  rw [KeyedMap.lookup_filterMap, List.take_of_length_le]
  · cases hlookup : d.dnsNames.lookup key with
    | none => rfl
    | some names =>
        have hmem : key ∈ order.arrange d.dnsNames.keys := by
          rw [HashOrder.mem_arrange]
          exact AList.mem_keys.mp (KeyedMap.mem_iff_exists_lookup.mpr ⟨names, hlookup⟩)
        exact if_pos hmem
  · rw [HashOrder.length_arrange, ← KeyedMap.size_eq_length_keys]
    exact h

/-! ## Putting the entries back -/

section Load

variable {parse : String → Option IpAddr} {clock : Clock} {d : Disk} {keys : List String}

/-- Keys that stand for other addresses leave an address alone. -/
theorem lookup_restoreFrom {ip : IpAddr} (hothers : ∀ key ∈ keys, parse key ≠ some ip) (i : ℕ)
    (dns : KeyedMap IpAddr DnsEntry) :
    (restoreFrom parse clock d i keys dns).lookup ip = dns.lookup ip := by
  induction keys generalizing i dns with
  | nil => rfl
  | cons key rest ih =>
      rw [List.forall_mem_cons] at hothers
      rw [restoreFrom]
      split
      · rename_i other names hparse _
        rw [ih hothers.2]
        have hne : ip ≠ other := by
          rintro rfl
          exact hothers.1 hparse
        unfold restoreDns
        dsimp only
        split
        · rfl
        · exact AList.lookup_insert_ne hne
      · exact ih hothers.2 i dns

theorem size_restoreDns_le (now : ℕ) (dns : KeyedMap IpAddr DnsEntry) (ip : IpAddr)
    (names : DnsEntry) : (restoreDns now dns ip names).2.size ≤ dns.size + 1 := by
  unfold restoreDns
  dsimp only
  split
  · exact Nat.le_succ _
  · exact KeyedMap.size_insert_le _ _ _

/-- An address whose key is listed has its answers again. -/
theorem nameOf_restoreFrom {saved : KeyedMap IpAddr DnsEntry} (hsound : KeyedMap.Every Sound saved)
    (hparse : ∀ ip ∈ saved, parse ip.text = some ip) (hwritten : Written saved d)
    (hkeys : ∀ key ∈ keys, key ∈ d.dnsNames) (hnodup : keys.Nodup) {ip : IpAddr} (hip : ip ∈ saved)
    (hlisted : ip.text ∈ keys) {t : ℕ} (hlater : clock.finish ≤ t) (i : ℕ)
    {dns : KeyedMap IpAddr DnsEntry} (hnew : dns.lookup ip = none)
    (hroom : dns.size + keys.length ≤ maxNames) :
    nameOf (restoreFrom parse clock d i keys dns) ip t = nameOf saved ip t := by
  induction keys generalizing i dns with
  | nil => contradiction
  | cons key rest ih =>
      rw [List.forall_mem_cons] at hkeys
      rw [List.nodup_cons] at hnodup
      rw [List.length_cons] at hroom
      obtain ⟨other, hother, rfl⟩ := hwritten.only key hkeys.1
      obtain ⟨names, hnames⟩ := KeyedMap.mem_iff_exists_lookup.mp hother
      have hentry : d.dnsNames.lookup other.text = some names :=
        (hwritten.entry other hother).trans hnames
      rw [restoreFrom, hparse other hother, hentry]
      dsimp only
      by_cases hsame : other = ip
      · subst hsame
        have hothers : ∀ key ∈ rest, parse key ≠ some other := by
          intro key hkey hback
          obtain ⟨third, hthird, rfl⟩ := hwritten.only key (hkeys.2 key hkey)
          rw [hparse third hthird, Option.some.injEq] at hback
          subst hback
          exact hnodup.1 hkey
        have hanswer := nameOf_restoreDns (hsound other names hnames) hnew (by omega)
          ((clock.read_le_finish i).trans hlater)
        unfold nameOf at hanswer ⊢
        rw [lookup_restoreFrom hothers, hanswer, hnames]
        rfl
      · have hrest : ip.text ∈ rest := by
          refine (List.mem_cons.mp hlisted).resolve_left fun htext => hsame ?_
          have hback := hparse other hother
          rw [← htext, hparse ip hip] at hback
          exact (Option.some.inj hback).symm
        apply ih hkeys.2 hnodup.2 hrest
        · unfold restoreDns
          dsimp only
          split
          · exact hnew
          · rw [AList.lookup_insert_ne (Ne.symm hsame)]
            exact hnew
        · have hsize := size_restoreDns_le (clock.read i) dns other names
          omega

end Load

/-! ## The restart -/

/-- For every name map that the two calls reach and every restart whose texts are
parsed back, the restored map answers every query behind the restart as the map
before would. -/
theorem restart_keeps_names {hist : History (KeyedMap IpAddr DnsEntry) NameCall}
    {dns : KeyedMap IpAddr DnsEntry} (run : Run nameCalls ∅ hist dns) {r : Restart}
    (hback : r.RoundTrips dns) (ip : IpAddr) {t : ℕ} (hlater : r.clock.finish ≤ t) :
    nameOf (r.restored dns) ip t = nameOf dns ip t := by
  have hsound := soundMap_of_run run
  have hapart : TextApart dns := by
    intro first hfirst second hsecond htext
    have hparse := hback.address first hfirst
    rw [htext, hback.address second hsecond] at hparse
    exact (Option.some.inj hparse).symm
  have hsnapshot := written_cacheSnapshot hapart r.snapshotOrder
  have hsaved : Written dns (r.saved dns) :=
    hsnapshot.congr (lookup_slim (hsnapshot.size_le.trans hsound.size) r.saveOrder)
  obtain ⟨text, disk, hprint, hparse, hsame⟩ := hback.file
  have hloaded : r.loaded dns = disk := by
    have hfile : saveTo r.json r.saveOrder (cacheSnapshot r.snapshotOrder dns) = some text := hprint
    unfold Restart.loaded loadFrom
    rw [hfile, Option.bind_some, hparse, Option.getD_some]
  have hdisk := hsaved.congr hsame
  have hkeys (key : String) : key ∈ r.loadOrder.arrange disk.dnsNames.keys ↔ key ∈ disk.dnsNames :=
    (r.loadOrder.mem_arrange).trans AList.mem_keys.symm
  unfold Restart.restored
  rw [hloaded]
  dsimp only
  by_cases hip : ip ∈ dns
  · apply nameOf_restoreFrom hsound.entries hback.address hdisk (fun key => (hkeys key).mp)
      (r.loadOrder.nodup_arrange.mpr disk.dnsNames.keys_nodup) hip _ hlater 0
      (AList.lookup_empty ip)
    · rw [HashOrder.length_arrange, ← KeyedMap.size_eq_length_keys]
      have hsize := hdisk.size_le.trans hsound.size
      exact (Nat.zero_add _).trans_le hsize
    · obtain ⟨names, hnames⟩ := KeyedMap.mem_iff_exists_lookup.mp hip
      rw [hkeys, KeyedMap.mem_iff_exists_lookup]
      exact ⟨names, (hdisk.entry ip hip).trans hnames⟩
  · have hothers : ∀ key ∈ r.loadOrder.arrange disk.dnsNames.keys, r.parse key ≠ some ip := by
      intro key hkey hother
      obtain ⟨other, hmem, rfl⟩ := hdisk.only key ((hkeys key).mp hkey)
      rw [hback.address other hmem, Option.some.injEq] at hother
      exact hip (hother ▸ hmem)
    unfold nameOf
    rw [lookup_restoreFrom hothers, AList.lookup_empty, AList.lookup_eq_none.mpr hip]

/-- A name that is restored once and saved again. -/
def cachedEntry : DnsEntry where
  names := [{ name := "a.example.com", expires := 60000 }]

def cachedCall : NameCall := .restore 0 sampleAddress cachedEntry

/-- The file with this name. -/
def cachedText : String :=
  "\x7b\"dns\":\x7b\x7d,\"dns_names\":\x7b\"" ++ sampleAddress.text ++
    "\":\x7b\"names\":[\x7b\"name\":\"a.example.com\",\"expires\":60000\x7d]," ++
    "\"overflow_until\":0\x7d\x7d,\"whois\":\x7b\x7d\x7d"

def cachedDisk : Disk where
  dnsNames := AList.insert sampleAddress.text cachedEntry ∅

/-- A restart at the instant 30000. -/
def sampleRestart : Restart where
  json :=
    { print := fun _ => some cachedText
      parse := fun text => if text = cachedText then some cachedDisk else none }
  parse text := if text = sampleAddress.text then some sampleAddress else none
  clock := .still 30000
  snapshotOrder := .stored
  saveOrder := .stored
  loadOrder := .stored

/-- The name is known until it expires, before the restart and behind it. -/
theorem restart_keeps_names_sample :
    nameOf (sampleRestart.restored (cachedCall.apply ∅)) sampleAddress 50000 =
        some "a.example.com" ∧
      nameOf (sampleRestart.restored (cachedCall.apply ∅)) sampleAddress 60000 = none := by
  have run : Run nameCalls ∅ [(∅, cachedCall)] (cachedCall.apply ∅) := .next .start rfl
  have hback : sampleRestart.RoundTrips (cachedCall.apply ∅) := by
    constructor
    · intro ip hip
      have hentries : (cachedCall.apply ∅).keys = [sampleAddress] := by decide +kernel
      rw [AList.mem_keys, hentries, List.mem_singleton] at hip
      subst hip
      simp [sampleRestart]
    · refine ⟨cachedText, cachedDisk, rfl, by simp [sampleRestart], fun key => ?_⟩
      have hentries : cachedDisk.dnsNames.entries =
          (sampleRestart.saved (cachedCall.apply ∅)).dnsNames.entries := by
        decide +kernel
      rw [AList.ext hentries]
  rw [restart_keeps_names run hback sampleAddress (t := 50000) (by decide),
    restart_keeps_names run hback sampleAddress (t := 60000) (by decide)]
  decide +kernel

end SocketTrail.History
