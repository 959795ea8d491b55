/-
# One name for one address

The name map keeps at most eight names for an address, drops expired ones only
when the next one is announced, and remembers in a deadline that it had to
discard some. `Mirrors` says what this store still knows of the unbounded
history of announcements: every stored name is the latest announcement of its
name, and every announcement that is still valid is stored or covered by the
deadline. That is enough to answer whether an address has one valid name.
-/

import SocketTrail.State.Rows

namespace SocketTrail.History

open SocketTrail.Foundation SocketTrail.Net SocketTrail.State

/-! ## The history of announcements -/

/-- One call that announces a name: the instant it happens at, the addresses in
use and the iteration order it meets. -/
structure Announcement where
  ip : IpAddr
  name : String
  ttl : ℕ
  now : ℕ
  used : List IpAddr := []
  order : HashOrder IpAddr := .stored

/-- The name map after the call. -/
def announce (dns : KeyedMap IpAddr DnsEntry) (a : Announcement) : KeyedMap IpAddr DnsEntry :=
  rememberNameFor a.order a.now a.used dns a.ip a.name a.ttl

/-- The name map as a transition system. -/
def namesSystem : System (KeyedMap IpAddr DnsEntry) Announcement := .ofFun announce

/-- The instant at which an announcement ends. -/
def Announcement.ends (a : Announcement) : ℕ :=
  a.now + min a.ttl 86400 * 1000

/-- The announcements of a history for one address, newest first. -/
def callsFor (ip : IpAddr) (hist : History (KeyedMap IpAddr DnsEntry) Announcement) :
    List Announcement :=
  (hist.map Prod.snd).filter fun a => a.ip = ip

/-- The latest announcement of a name. -/
def latest (calls : List Announcement) (x : String) : Option Announcement :=
  calls.find? fun a => a.name.toLower = x

/-- The latest announcement of the name has not ended. -/
def ValidAt (calls : List Announcement) (t : ℕ) (x : String) : Prop :=
  ∃ a, latest calls x = some a ∧ a.ttl ≠ 0 ∧ t < a.ends

instance (calls : List Announcement) (t : ℕ) (x : String) : Decidable (ValidAt calls t x) :=
  decidable_of_iff ((latest calls x).any fun a => a.ttl ≠ 0 ∧ t < a.ends) (by
    unfold ValidAt
    cases latest calls x <;> simp)

/-- The name is valid and no other is. -/
def OnlyValid (calls : List Announcement) (t : ℕ) (x : String) : Prop :=
  ValidAt calls t x ∧ ∀ y, ValidAt calls t y → y = x

theorem latest_cons (a : Announcement) (calls : List Announcement) (x : String) :
    latest (a :: calls) x = if a.name.toLower = x then some a else latest calls x := by
  unfold latest
  rw [List.find?_cons]
  by_cases h : a.name.toLower = x <;> simp [h]

/-! ## One call for the address -/

/-- The stored names that a call leaves in place. -/
def keptNames (entry : DnsEntry) (now : ℕ) (name : String) : List DnsName :=
  entry.names.filter fun n => n.expires > now ∧ n.name ≠ name

/-- The entry after a call for its address. -/
def announced (entry : DnsEntry) (a : Announcement) : DnsEntry :=
  let name := a.name.toLower
  let kept := keptNames entry a.now name
  let expires := min a.ends u64Max
  if a.ttl = 0 then { entry with names := kept }
  else if kept.length < 8 then { entry with names := kept ++ [{ name, expires }] }
  else { names := kept, overflowUntil := max entry.overflowUntil expires }

/-- The entry of the address, empty where there is none. -/
def entryOf (dns : KeyedMap IpAddr DnsEntry) (ip : IpAddr) : DnsEntry :=
  (dns.lookup ip).getD {}

/-- The call is refused: the map is full of addresses in use. -/
def TurnedAway (dns : KeyedMap IpAddr DnsEntry) (a : Announcement) : Prop :=
  maxNames ≤ dns.size ∧ a.ip ∉ dns ∧ maxNames ≤ (trimIpMap a.order dns a.used maxNames).size

/-- The name has a length that a DNS name can have. -/
def WellSized (name : String) : Prop :=
  (name.isEmpty || 253 < name.utf8ByteSize) = false

/-- The call discards its name, since eight others are stored. -/
def Discards (dns : KeyedMap IpAddr DnsEntry) (a : Announcement) : Prop :=
  a.ttl ≠ 0 ∧ 8 ≤ (keptNames (entryOf dns a.ip) a.now a.name.toLower).length

instance (dns : KeyedMap IpAddr DnsEntry) (a : Announcement) : Decidable (TurnedAway dns a) := by
  unfold TurnedAway
  infer_instance

instance (name : String) : Decidable (WellSized name) := by
  unfold WellSized
  infer_instance

instance (dns : KeyedMap IpAddr DnsEntry) (a : Announcement) : Decidable (Discards dns a) := by
  unfold Discards
  infer_instance

theorem lookup_of_lookup_trimIpMap {V : Type*} {order : HashOrder IpAddr} {map : KeyedMap IpAddr V}
    {used : List IpAddr} {limit : ℕ} {ip : IpAddr} {value : V}
    (h : (trimIpMap order map used limit).lookup ip = some value) : map.lookup ip = some value := by
  unfold trimIpMap at h
  dsimp only at h
  split at h
  · exact h
  · exact KeyedMap.lookup_of_lookup_eraseAll h

/-- The map in which a call looks its address up, room made if need be. -/
def roomFor (dns : KeyedMap IpAddr DnsEntry) (a : Announcement) : KeyedMap IpAddr DnsEntry :=
  if dns.size ≥ maxNames ∧ a.ip ∉ dns then trimIpMap a.order dns a.used maxNames else dns

/-- A call is passed over, refused, or rewrites the entry of its address. -/
theorem announce_cases (dns : KeyedMap IpAddr DnsEntry) (a : Announcement) :
    (¬ WellSized a.name ∧ announce dns a = dns) ∨
    (TurnedAway dns a ∧ announce dns a = roomFor dns a) ∨
    (¬ TurnedAway dns a ∧ announce dns a =
      (roomFor dns a).insert a.ip (announced (((roomFor dns a).lookup a.ip).getD {}) a)) := by
  unfold announce rememberNameFor
  by_cases hname : WellSized a.name
  · right
    unfold WellSized at hname
    rw [hname]
    by_cases hfull : dns.size ≥ maxNames ∧ a.ip ∉ dns
    · simp only [Bool.false_eq_true, if_false, roomFor, if_pos hfull]
      by_cases haway : (trimIpMap a.order dns a.used maxNames).size ≥ maxNames
      · left
        rw [if_pos ⟨hfull, haway⟩]
        exact ⟨⟨hfull.1, hfull.2, haway⟩, rfl⟩
      · right
        rw [if_neg fun h => haway h.2]
        refine ⟨fun h => haway h.2.2, ?_⟩
        unfold announced keptNames Announcement.ends
        dsimp only
        split
        · rfl
        · split <;> rfl
    · right
      simp only [Bool.false_eq_true, if_false, roomFor, if_neg hfull]
      rw [if_neg fun h => hfull h.1]
      refine ⟨fun h => hfull ⟨h.1, h.2.1⟩, ?_⟩
      unfold announced keptNames Announcement.ends
      dsimp only
      split
      · rfl
      · split <;> rfl
  · left
    refine ⟨hname, ?_⟩
    unfold WellSized at hname
    rw [Bool.not_eq_false] at hname
    rw [hname]
    rfl

theorem lookup_of_lookup_roomFor {dns : KeyedMap IpAddr DnsEntry} {a : Announcement} {ip : IpAddr}
    {entry : DnsEntry} (h : (roomFor dns a).lookup ip = some entry) :
    dns.lookup ip = some entry := by
  unfold roomFor at h
  split at h
  · exact lookup_of_lookup_trimIpMap h
  · exact h

/-- Making room for an address leaves its own entry as it is. -/
theorem roomFor_lookup_self (dns : KeyedMap IpAddr DnsEntry) (a : Announcement) :
    (roomFor dns a).lookup a.ip = dns.lookup a.ip := by
  cases h : (roomFor dns a).lookup a.ip with
  | some entry => exact (lookup_of_lookup_roomFor h).symm
  | none =>
      unfold roomFor at h
      split at h
      · rename_i hfull
        exact (AList.lookup_eq_none.mpr hfull.2).symm
      · exact h.symm

/-- A call that is not refused rewrites the entry of its address. -/
theorem announce_lookup_self {dns : KeyedMap IpAddr DnsEntry} {a : Announcement}
    (hname : WellSized a.name) (hroom : ¬ TurnedAway dns a) :
    (announce dns a).lookup a.ip = some (announced ((dns.lookup a.ip).getD {}) a) := by
  obtain ⟨hill, -⟩ | ⟨haway, -⟩ | ⟨-, heq⟩ := announce_cases dns a
  · exact absurd hname hill
  · exact absurd haway hroom
  · rw [heq, AList.lookup_insert, roomFor_lookup_self]

/-- A call invents no entry for another address and changes none. -/
theorem lookup_of_lookup_announce {dns : KeyedMap IpAddr DnsEntry} {a : Announcement} {ip : IpAddr}
    {entry : DnsEntry} (hne : ip ≠ a.ip) (h : (announce dns a).lookup ip = some entry) :
    dns.lookup ip = some entry := by
  obtain ⟨-, heq⟩ | ⟨-, heq⟩ | ⟨-, heq⟩ := announce_cases dns a
  · rwa [heq] at h
  · rw [heq] at h
    exact lookup_of_lookup_roomFor h
  · rw [heq, AList.lookup_insert_ne hne] at h
    exact lookup_of_lookup_roomFor h

/-! ## What the entry knows of the history -/

/-- The entry mirrors the announcements for its address: the names are distinct,
each is the latest announcement of its name, and each announcement that is not
stored any more is covered by the deadline or had ended at some call. -/
structure Mirrors (calls : List Announcement) (entry : DnsEntry) : Prop where
  distinct : entry.names.Pairwise fun n m => n.name ≠ m.name
  stored : ∀ n ∈ entry.names, ∃ a, latest calls n.name = some a ∧ a.ttl ≠ 0 ∧
    n.expires = min a.ends u64Max
  known : ∀ x a, latest calls x = some a → a.ttl ≠ 0 →
    (∃ n ∈ entry.names, n.name = x) ∨ min a.ends u64Max ≤ entry.overflowUntil ∨
      ∃ b ∈ calls, min a.ends u64Max ≤ b.now

theorem mirrors_nil : Mirrors [] {} where
  distinct := List.Pairwise.nil
  stored n hn := absurd hn List.not_mem_nil
  known x a h := by simp [latest] at h

section Step

variable {calls : List Announcement} {entry : DnsEntry} {a : Announcement}

theorem mem_keptNames {n : DnsName} {now : ℕ} {name : String} :
    n ∈ keptNames entry now name ↔ n ∈ entry.names ∧ now < n.expires ∧ n.name ≠ name := by
  unfold keptNames
  rw [List.mem_filter, decide_eq_true_eq]

/-- What a call leaves in place is still the latest of its name. -/
theorem Mirrors.kept_stored (h : Mirrors calls entry) :
    ∀ n ∈ keptNames entry a.now a.name.toLower, ∃ b, latest (a :: calls) n.name = some b ∧
      b.ttl ≠ 0 ∧ n.expires = min b.ends u64Max := by
  intro n hn
  obtain ⟨hmem, -, hne⟩ := mem_keptNames.mp hn
  obtain ⟨b, hlatest, hrest⟩ := h.stored n hmem
  refine ⟨b, ?_, hrest⟩
  rw [latest_cons, if_neg fun heq => hne heq.symm]
  exact hlatest

/-- A name other than the announced one is left in place, covered, or ended. -/
theorem Mirrors.kept_known (h : Mirrors calls entry) {x : String} {b : Announcement}
    (hne : a.name.toLower ≠ x) (hlatest : latest calls x = some b) (hlive : b.ttl ≠ 0) :
    (∃ n ∈ keptNames entry a.now a.name.toLower, n.name = x) ∨
      min b.ends u64Max ≤ entry.overflowUntil ∨ ∃ c ∈ a :: calls, min b.ends u64Max ≤ c.now := by
  rcases h.known x b hlatest hlive with ⟨n, hmem, rfl⟩ | hcovered | ⟨c, hc, hended⟩
  · obtain ⟨b', hlatest', -, hexpires⟩ := h.stored n hmem
    rw [hlatest, Option.some.injEq] at hlatest'
    subst hlatest'
    by_cases hfresh : a.now < n.expires
    · exact .inl ⟨n, mem_keptNames.mpr ⟨hmem, hfresh, fun heq => hne heq.symm⟩, rfl⟩
    · exact .inr (.inr ⟨a, List.mem_cons_self .., by omega⟩)
  · exact .inr (.inl hcovered)
  · exact .inr (.inr ⟨c, List.mem_cons_of_mem a hc, hended⟩)

/-- A call for the address keeps the mirror. -/
theorem Mirrors.announced (h : Mirrors calls entry) (a : Announcement) :
    Mirrors (a :: calls) (announced entry a) := by
  have hdistinct : (keptNames entry a.now a.name.toLower).Pairwise fun n m => n.name ≠ m.name :=
    h.distinct.sublist List.filter_sublist
  unfold History.announced
  dsimp only
  split
  · rename_i hzero
    refine ⟨hdistinct, h.kept_stored, fun x b hlatest hlive => ?_⟩
    rw [latest_cons] at hlatest
    split at hlatest
    · obtain rfl := Option.some.inj hlatest
      exact absurd hzero hlive
    · rename_i hne
      exact h.kept_known hne hlatest hlive
  · rename_i hlive
    split
    · constructor
      · rw [List.pairwise_append]
        refine ⟨hdistinct, List.pairwise_singleton .., fun n hn m hm => ?_⟩
        rw [List.mem_singleton.mp hm]
        exact (mem_keptNames.mp hn).2.2
      · intro n hn
        rcases List.mem_append.mp hn with hkept | hnew
        · exact h.kept_stored n hkept
        · rw [List.mem_singleton.mp hnew]
          exact ⟨a, by rw [latest_cons, if_pos rfl], hlive, rfl⟩
      · intro x b hlatest hb
        rw [latest_cons] at hlatest
        split at hlatest
        · rename_i heq
          exact .inl ⟨_, List.mem_append_right _ (List.mem_singleton_self _), heq⟩
        · rename_i hne
          refine (h.kept_known hne hlatest hb).imp ?_ id
          rintro ⟨n, hn, hname⟩
          exact ⟨n, List.mem_append_left _ hn, hname⟩
    · refine ⟨hdistinct, h.kept_stored, fun x b hlatest hb => ?_⟩
      rw [latest_cons] at hlatest
      split at hlatest
      · obtain rfl := Option.some.inj hlatest
        exact .inr (.inl (le_max_right _ _))
      · rename_i hne
        refine (h.kept_known hne hlatest hb).imp id (Or.imp ?_ id)
        intro hcovered
        exact hcovered.trans (le_max_left _ _)

/-- A call that discards nothing leaves the deadline alone. -/
theorem announced_overflowUntil
    (h : a.ttl ≠ 0 → (keptNames entry a.now a.name.toLower).length < 8) :
    (History.announced entry a).overflowUntil = entry.overflowUntil := by
  unfold History.announced
  dsimp only
  split
  · rfl
  · rename_i hlive
    rw [if_pos (h hlive)]

/-- A call that discards its name puts the deadline off to its end. -/
theorem announced_overflowUntil_of_full (hlive : a.ttl ≠ 0)
    (hfull : 8 ≤ (keptNames entry a.now a.name.toLower).length) :
    (History.announced entry a).overflowUntil = max entry.overflowUntil (min a.ends u64Max) := by
  unfold History.announced
  dsimp only
  rw [if_neg hlive, if_neg (Nat.not_lt.mpr hfull)]

/-- The deadline is only ever put off. -/
theorem overflowUntil_le_announced :
    entry.overflowUntil ≤ (History.announced entry a).overflowUntil := by
  unfold History.announced
  dsimp only
  split
  · exact le_rfl
  · split
    · exact le_rfl
    · exact le_max_left _ _

end Step

/-! ## Answering from the entry -/

section Answer

variable {calls : List Announcement} {entry : DnsEntry} {t : ℕ}

/-- The stored names that have not expired. -/
def validNames (entry : DnsEntry) (t : ℕ) : List DnsName :=
  entry.names.filter fun n => n.expires > t

theorem unique_of_overflow (h : t < entry.overflowUntil) : entry.unique t = none := by
  unfold DnsEntry.unique
  rw [if_pos h]

theorem unique_of_empty (t : ℕ) : ({} : DnsEntry).unique t = none := by
  unfold DnsEntry.unique
  rw [if_neg (Nat.not_lt_zero t)]
  rfl

theorem unique_eq_some_iff (h : entry.overflowUntil ≤ t) {x : String} :
    entry.unique t = some x ↔ ∃ n, validNames entry t = [n] ∧ n.name = x := by
  have hvalid : (entry.names.filter fun n => n.expires > t) = validNames entry t := rfl
  unfold DnsEntry.unique
  rw [if_neg (by omega), hvalid]
  cases validNames entry t with
  | nil => simp
  | cons n rest => cases rest <;> simp

/-- After the last call, and while nothing discarded is still valid, the valid
names are those stored that have not expired. -/
theorem Mirrors.validAt_iff (h : Mirrors calls entry) (hlast : ∀ a ∈ calls, a.now ≤ t)
    (htop : t < u64Max) (hcovered : entry.overflowUntil ≤ t) {x : String} :
    ValidAt calls t x ↔ ∃ n ∈ validNames entry t, n.name = x := by
  have hcap : ∀ a : Announcement, t < min a.ends u64Max ↔ t < a.ends := by
    intro a
    rw [lt_min_iff]
    exact ⟨And.left, fun hends => ⟨hends, htop⟩⟩
  constructor
  · rintro ⟨a, hlatest, hlive, hends⟩
    rcases h.known x a hlatest hlive with ⟨n, hmem, rfl⟩ | hdeadline | ⟨b, hb, hended⟩
    · obtain ⟨a', hlatest', -, hexpires⟩ := h.stored n hmem
      rw [hlatest, Option.some.injEq] at hlatest'
      subst hlatest'
      refine ⟨n, ?_, rfl⟩
      unfold validNames
      rw [List.mem_filter, decide_eq_true_eq, hexpires]
      exact ⟨hmem, (hcap a).mpr hends⟩
    · have hlater := (hcap a).mpr hends
      omega
    · have hlater := (hcap a).mpr hends
      have hbefore := hlast b hb
      omega
  · rintro ⟨n, hn, rfl⟩
    unfold validNames at hn
    rw [List.mem_filter, decide_eq_true_eq] at hn
    obtain ⟨a, hlatest, hlive, hexpires⟩ := h.stored n hn.1
    refine ⟨a, hlatest, hlive, (hcap a).mp ?_⟩
    rw [← hexpires]
    exact hn.2

/-- And then the entry names the address exactly when one name is valid. -/
theorem Mirrors.unique_iff (h : Mirrors calls entry) (hlast : ∀ a ∈ calls, a.now ≤ t)
    (htop : t < u64Max) (hcovered : entry.overflowUntil ≤ t) {x : String} :
    entry.unique t = some x ↔ OnlyValid calls t x := by
  have hvalid : ∀ {y}, ValidAt calls t y ↔ ∃ n ∈ validNames entry t, n.name = y :=
    h.validAt_iff hlast htop hcovered
  have hdistinct : (validNames entry t).Pairwise fun n m => n.name ≠ m.name :=
    h.distinct.sublist List.filter_sublist
  rw [unique_eq_some_iff hcovered]
  unfold OnlyValid
  constructor
  · rintro ⟨n, hsingle, rfl⟩
    constructor
    · exact hvalid.mpr ⟨n, by rw [hsingle]; exact List.mem_singleton_self n, rfl⟩
    · intro y hy
      obtain ⟨m, hm, rfl⟩ := hvalid.mp hy
      rw [hsingle, List.mem_singleton] at hm
      rw [hm]
  · rintro ⟨hx, honly⟩
    obtain ⟨n, hn, rfl⟩ := hvalid.mp hx
    refine ⟨n, ?_, rfl⟩
    have hall : ∀ m ∈ validNames entry t, m.name = n.name :=
      fun m hm => honly m.name (hvalid.mpr ⟨m, hm, rfl⟩)
    cases hnames : validNames entry t with
    | nil =>
        rw [hnames] at hn
        contradiction
    | cons first rest =>
        rw [hnames] at hn hdistinct hall
        have hfirst := hall first (List.mem_cons_self ..)
        cases rest with
        | nil => rw [List.mem_singleton.mp hn]
        | cons second rest =>
            -- a second valid name would be another one
            have hsecond := hall second (List.mem_cons_of_mem _ (List.mem_cons_self ..))
            have hne := (List.pairwise_cons.mp hdistinct).1 second (List.mem_cons_self ..)
            exact absurd (hfirst.trans hsecond.symm) hne

end Answer

/-! ## Runs -/

/-- The calls for the address are carried out, and its entry stays in the map:
its names have the length of DNS names, no call for it is refused, and no call
for another address throws it out. -/
structure CarriedOut (ip : IpAddr) (dns : KeyedMap IpAddr DnsEntry) (a : Announcement) : Prop where
  wellSized : a.ip = ip → WellSized a.name
  notRefused : a.ip = ip → ¬ TurnedAway dns a
  notTrimmed : ip ∈ dns → ip ∈ announce dns a

theorem callsFor_cons (ip : IpAddr) (dns : KeyedMap IpAddr DnsEntry) (a : Announcement)
    (hist : History (KeyedMap IpAddr DnsEntry) Announcement) :
    callsFor ip ((dns, a) :: hist) =
      if a.ip = ip then a :: callsFor ip hist else callsFor ip hist := by
  unfold callsFor
  rw [List.map_cons, List.filter_cons]
  by_cases h : a.ip = ip <;> simp [h]

/-- A call for another address leaves the entry alone. -/
theorem entryOf_announce_of_ne {dns : KeyedMap IpAddr DnsEntry} {a : Announcement} {ip : IpAddr}
    (hne : a.ip ≠ ip) (h : CarriedOut ip dns a) : entryOf (announce dns a) ip = entryOf dns ip := by
  unfold entryOf
  cases hafter : (announce dns a).lookup ip with
  | some entry => rw [lookup_of_lookup_announce (Ne.symm hne) hafter]
  | none =>
      have habsent : ip ∉ dns := by
        intro hmem
        exact AList.lookup_eq_none.mp hafter (h.notTrimmed hmem)
      rw [AList.lookup_eq_none.mpr habsent]

theorem entryOf_announce_self {dns : KeyedMap IpAddr DnsEntry} {a : Announcement}
    (h : CarriedOut a.ip dns a) :
    entryOf (announce dns a) a.ip = announced (entryOf dns a.ip) a := by
  unfold entryOf
  rw [announce_lookup_self (h.wellSized rfl) (h.notRefused rfl)]
  rfl

section Run

variable {dns₀ dns : KeyedMap IpAddr DnsEntry} {ip : IpAddr}
  {hist : History (KeyedMap IpAddr DnsEntry) Announcement}

/-- The entry of an address mirrors its announcements after every run of calls
that starts without an entry for it. -/
theorem mirrors_of_run (hnew : ip ∉ dns₀) (run : Run namesSystem dns₀ hist dns)
    (hcarried : ∀ entry ∈ hist, CarriedOut ip entry.1 entry.2) :
    Mirrors (callsFor ip hist) (entryOf dns ip) := by
  induction run with
  | start =>
      unfold entryOf
      rw [AList.lookup_eq_none.mpr hnew]
      exact mirrors_nil
  | @next earlier s s' a prior fires ih =>
      have hbefore := ih fun entry hentry => hcarried entry (List.mem_cons_of_mem _ hentry)
      have hnow := hcarried (s, a) (List.mem_cons_self ..)
      have hnext : announce s a = s' := by simpa [namesSystem] using fires
      rw [← hnext, callsFor_cons]
      by_cases hip : a.ip = ip
      · subst hip
        rw [if_pos rfl, entryOf_announce_self hnow]
        exact hbefore.announced a
      · rw [if_neg hip, entryOf_announce_of_ne hip hnow]
        exact hbefore

/-- A run that discards nothing for the address sets no deadline for it. -/
theorem overflowUntil_of_run (hnew : ip ∉ dns₀) (run : Run namesSystem dns₀ hist dns)
    (hcarried : ∀ entry ∈ hist, CarriedOut ip entry.1 entry.2)
    (hnone : ∀ entry ∈ hist, entry.2.ip = ip → ¬ Discards entry.1 entry.2) :
    (entryOf dns ip).overflowUntil = 0 := by
  induction run with
  | start =>
      unfold entryOf
      rw [AList.lookup_eq_none.mpr hnew]
      rfl
  | @next earlier s s' a prior fires ih =>
      have hbefore := ih (fun entry hentry => hcarried entry (List.mem_cons_of_mem _ hentry))
        (fun entry hentry => hnone entry (List.mem_cons_of_mem _ hentry))
      have hnow := hcarried (s, a) (List.mem_cons_self ..)
      have hnext : announce s a = s' := by simpa [namesSystem] using fires
      rw [← hnext]
      by_cases hip : a.ip = ip
      · subst hip
        have hkeeps := hnone (s, a) (List.mem_cons_self ..) rfl
        rw [entryOf_announce_self hnow, announced_overflowUntil]
        · exact hbefore
        · intro hlive
          by_contra hfull
          exact hkeeps ⟨hlive, Nat.le_of_not_lt hfull⟩
      · rw [entryOf_announce_of_ne hip hnow]
        exact hbefore

/-- A discarded announcement puts the deadline off to its end. -/
theorem le_overflowUntil_of_discards (hnew : ip ∉ dns₀) (run : Run namesSystem dns₀ hist dns)
    (hcarried : ∀ entry ∈ hist, CarriedOut ip entry.1 entry.2)
    {entry : KeyedMap IpAddr DnsEntry × Announcement} (hentry : entry ∈ hist)
    (hip : entry.2.ip = ip) (hdiscards : Discards entry.1 entry.2) :
    min entry.2.ends u64Max ≤ (entryOf dns ip).overflowUntil := by
  induction run with
  | start => exact absurd hentry List.not_mem_nil
  | @next earlier s s' a prior fires ih =>
      have hnow := hcarried (s, a) (List.mem_cons_self ..)
      have hnext : announce s a = s' := by simpa [namesSystem] using fires
      rw [← hnext]
      rcases List.mem_cons.mp hentry with rfl | hpast
      · subst hip
        rw [entryOf_announce_self hnow,
          announced_overflowUntil_of_full hdiscards.1 hdiscards.2]
        exact le_max_right _ _
      · have hbefore :=
          ih (fun entry hentry => hcarried entry (List.mem_cons_of_mem _ hentry)) hpast
        by_cases ha : a.ip = ip
        · subst ha
          rw [entryOf_announce_self hnow]
          exact hbefore.trans overflowUntil_le_announced
        · rw [entryOf_announce_of_ne ha hnow]
          exact hbefore

end Run

/-! ## The calls of the store -/

/-- The announcements of a DNS response, one clock reading a name. -/
def learnCalls (order : HashOrder IpAddr) (clock : ℕ → ℕ) (used : List IpAddr) :
    ℕ → List (String × IpAddr × ℕ) → List Announcement
  | _, [] => []
  | i, (name, ip, ttl) :: rest =>
      { ip, name, ttl, now := clock i, used, order } :: learnCalls order clock used (i + 1) rest

theorem learnNames_eq (order : HashOrder IpAddr) (clock : ℕ → ℕ) (used : List IpAddr) (i : ℕ)
    (names : List (String × IpAddr × ℕ)) (dns : KeyedMap IpAddr DnsEntry) :
    Store.learnNames order clock used i names dns =
      (learnCalls order clock used i names).foldl announce dns := by
  induction names generalizing i dns with
  | nil => rfl
  | cons first rest ih => exact ih (i + 1) _

/-- The calls that one operation of the store makes. -/
def callsOf (st : Store) (e : Event) : List Announcement :=
  match e.op with
  | .packet p => learnCalls e.ipOrder e.clock.read (st.conns.keys.map ConnKey.remote) 0 p.dnsAddrs
  | .learn ip name ttl =>
      [{ ip, name, ttl, now := e.clock.read 0, used := st.conns.keys.map ConnKey.remote
         order := e.ipOrder }]
  | _ => []

/-- An operation changes the name map by its calls and in no other way. -/
theorem step_dns (st : Store) (e : Event) :
    (st.step e).dns = (callsOf st e).foldl announce st.dns := by
  unfold Store.step callsOf
  cases e.op with
  | packet p =>
      obtain ⟨rows, heq⟩ := Store.applyPacket_frame e.connOrder e.ipOrder e.clock st p
      dsimp only
      rw [heq]
      exact learnNames_eq ..
  | poll ips socks procs =>
      have hips : (st.setLocalIps ips).dns = st.dns := by cases ips <;> rfl
      exact (Store.applySockets_dns ..).trans hips
  | clear => rfl
  | learn ip name ttl => rfl
  | enrich lang => rfl
  | whois known => rfl
  | resolved ip w => rfl

/-- Calls made one after another continue a run. -/
theorem names_run_foldl {dns₀ dns : KeyedMap IpAddr DnsEntry}
    {hist : History (KeyedMap IpAddr DnsEntry) Announcement} (run : Run namesSystem dns₀ hist dns)
    (calls : List Announcement) :
    ∃ later, Run namesSystem dns₀ (later ++ hist) (calls.foldl announce dns) ∧
      later.map Prod.snd = calls.reverse := by
  induction calls generalizing dns hist with
  | nil => exact ⟨[], run, rfl⟩
  | cons a rest ih =>
      obtain ⟨later, hrun, hcalls⟩ := ih (run.next (e := a) rfl)
      refine ⟨later ++ [(dns, a)], ?_, ?_⟩
      · rw [List.append_assoc]
        exact hrun
      · rw [List.map_append, hcalls, List.reverse_cons]
        rfl

/-- The name map of every reachable store is the outcome of a run of calls: those
of its operations, in their order. -/
theorem names_run_of_run {now : ℕ} {hist : History Store Event} {st : Store}
    (run : Run Store.system (Store.empty now) hist st) :
    ∃ calls, Run namesSystem ∅ calls st.dns ∧
      calls.map Prod.snd = hist.flatMap fun entry => (callsOf entry.1 entry.2).reverse := by
  induction run with
  | start => exact ⟨[], .start, rfl⟩
  | @next earlier s s' e prior fires ih =>
      obtain ⟨calls, hrun, hcalls⟩ := ih
      obtain ⟨later, hrun', hlater⟩ := names_run_foldl hrun (callsOf s e)
      have hnext : s.step e = s' := by simpa [Store.system] using fires
      refine ⟨later ++ calls, ?_, ?_⟩
      · rw [← hnext, step_dns]
        exact hrun'
      · rw [List.map_append, hlater, hcalls, List.flatMap_cons]

/-! ## The result -/

/-- The name that the map has for an address. -/
def nameOf (dns : KeyedMap IpAddr DnsEntry) (ip : IpAddr) (t : ℕ) : Option String :=
  (dns.lookup ip).bind (·.unique t)

theorem nameOf_eq (dns : KeyedMap IpAddr DnsEntry) (ip : IpAddr) (t : ℕ) :
    nameOf dns ip t = (entryOf dns ip).unique t := by
  unfold nameOf entryOf
  cases dns.lookup ip with
  | some entry => rfl
  | none => exact (unique_of_empty t).symm

/-- The map names an address only when exactly one announced name is valid, and
always then unless a name was discarded; two valid names, or a discarded one
that has not ended, always leave the address without a name. The map of every
reachable store is the outcome of such a run, of the calls of its operations. -/
theorem nameOf_onlyValid {dns₀ dns : KeyedMap IpAddr DnsEntry} {ip : IpAddr}
    {hist : History (KeyedMap IpAddr DnsEntry) Announcement} {t : ℕ} (hnew : ip ∉ dns₀)
    (run : Run namesSystem dns₀ hist dns)
    (hcarried : ∀ entry ∈ hist, CarriedOut ip entry.1 entry.2)
    (hlast : ∀ a ∈ callsFor ip hist, a.now ≤ t) (htop : t < u64Max) :
    (∀ n, nameOf dns ip t = some n → OnlyValid (callsFor ip hist) t n) ∧
    ((∀ entry ∈ hist, entry.2.ip = ip → ¬ Discards entry.1 entry.2) →
      ∀ n, OnlyValid (callsFor ip hist) t n → nameOf dns ip t = some n) ∧
    (∀ n m, n ≠ m → ValidAt (callsFor ip hist) t n → ValidAt (callsFor ip hist) t m →
      nameOf dns ip t = none) ∧
    (∀ entry ∈ hist, entry.2.ip = ip → Discards entry.1 entry.2 → t < entry.2.ends →
      nameOf dns ip t = none) ∧
    ∀ now (events : History Store Event) st, Run Store.system (Store.empty now) events st →
      ∃ calls, Run namesSystem ∅ calls st.dns ∧
        calls.map Prod.snd = events.flatMap fun entry => (callsOf entry.1 entry.2).reverse := by
  have hmirrors := mirrors_of_run hnew run hcarried
  have honly : ∀ n, nameOf dns ip t = some n → OnlyValid (callsFor ip hist) t n := by
    intro n hn
    rw [nameOf_eq] at hn
    have hcovered : (entryOf dns ip).overflowUntil ≤ t := by
      by_contra hlate
      rw [unique_of_overflow (Nat.lt_of_not_le hlate)] at hn
      contradiction
    exact (hmirrors.unique_iff hlast htop hcovered).mp hn
  refine ⟨honly, ?_, ?_, ?_, fun _ _ _ => names_run_of_run⟩
  · intro hnone n hn
    have hzero := overflowUntil_of_run hnew run hcarried hnone
    rw [nameOf_eq]
    exact (hmirrors.unique_iff hlast htop (by omega)).mpr hn
  · intro n m hne hn hm
    cases hname : nameOf dns ip t with
    | none => rfl
    | some x =>
        obtain ⟨-, hall⟩ := honly x hname
        exact absurd ((hall n hn).trans (hall m hm).symm) hne
  · intro entry hentry hip hdiscards hends
    have hdeadline := le_overflowUntil_of_discards hnew run hcarried hentry hip hdiscards
    have hcap : t < min entry.2.ends u64Max := lt_min hends htop
    rw [nameOf_eq]
    exact unique_of_overflow (hcap.trans_le hdeadline)

/-- The sample address. -/
def sampleAddress : IpAddr := .ofOctets 1 1 1 1

/-- An announcement for the sample address. -/
def announceAt (now : ℕ) (name : String) (ttl : ℕ) : Announcement where
  ip := sampleAddress
  name := name
  ttl := ttl
  now := now

/-- Two names that overlap for half a minute. -/
def overlap : History (KeyedMap IpAddr DnsEntry) Announcement × KeyedMap IpAddr DnsEntry :=
  namesSystem.play [] ∅ [announceAt 0 "A.example.com" 60, announceAt 30000 "b.example.com" 60]

/-- While both are valid the address has no name, and then it has the second. -/
theorem nameOf_onlyValid_sample :
    nameOf overlap.2 sampleAddress 40000 = none ∧
      nameOf overlap.2 sampleAddress 70000 = some "b.example.com" := by
  have run : Run namesSystem ∅ overlap.1 overlap.2 := Run.start.play _
  have hcarried : ∀ entry ∈ overlap.1, CarriedOut sampleAddress entry.1 entry.2 := by
    intro entry hentry
    refine ⟨fun _ => ?_, fun _ => ?_, ?_⟩ <;> revert entry <;> decide +kernel
  have hlast : ∀ t, 30000 ≤ t → ∀ a ∈ callsFor sampleAddress overlap.1, a.now ≤ t := by
    intro t ht a ha
    have hnow : a.now ≤ 30000 := by
      revert a
      decide
    exact hnow.trans ht
  constructor
  · apply (nameOf_onlyValid (AList.notMem_empty _) run hcarried (hlast 40000 (by decide))
      (by decide)).2.2.1 "a.example.com" "b.example.com" (by decide)
    · decide +kernel
    · decide +kernel
  · apply (nameOf_onlyValid (AList.notMem_empty _) run hcarried (hlast 70000 (by decide))
      (by decide)).2.1
    · decide +kernel
    · refine ⟨by decide +kernel, ?_⟩
      rintro y ⟨a, hlatest, -, hends⟩
      have hmem : a ∈ [announceAt 30000 "b.example.com" 60, announceAt 0 "A.example.com" 60] :=
        List.mem_of_find?_eq_some hlatest
      have hname : a.name.toLower = y := by simpa using List.find?_some hlatest
      simp only [List.mem_cons, List.not_mem_nil, or_false] at hmem
      rcases hmem with rfl | rfl
      · rw [← hname]
        decide +kernel
      · exact absurd hends (by decide)

/-! ## The full map -/

/-- An address of another host. -/
def crowdAddress (i : ℕ) : IpAddr := .v6 (BitVec.ofNat 128 i)

theorem crowdAddress_ne {i j : ℕ} (hi : i < 2 ^ 128) (hj : j < 2 ^ 128) (hne : i ≠ j) :
    crowdAddress i ≠ crowdAddress j := by
  intro heq
  have hvalue : BitVec.ofNat 128 i = BitVec.ofNat 128 j := by
    injection heq
  have htoNat := congrArg BitVec.toNat hvalue
  rw [BitVec.toNat_ofNat, BitVec.toNat_ofNat, Nat.mod_eq_of_lt hi, Nat.mod_eq_of_lt hj] at htoNat
  exact hne htoNat

/-- A run that fills the map with names of other hosts. -/
theorem crowd_run (m : ℕ) (hm : m ≤ maxNames) :
    ∃ hist dns, Run namesSystem ∅ hist dns ∧ dns.size = m ∧
      (∀ ip ∈ dns, ∃ i < m, ip = crowdAddress i) ∧
      (∀ entry ∈ hist, entry.2.now = 0 ∧ entry.2.ip ≠ sampleAddress ∧ sampleAddress ∉ entry.1) := by
  induction m with
  | zero => exact ⟨[], ∅, .start, rfl, by simp, by simp⟩
  | succ m ih =>
      obtain ⟨hist, dns, run, hsize, hkeys, hhist⟩ := ih (Nat.le_of_succ_le hm)
      let a : Announcement := { ip := crowdAddress m, name := "x.example.com", ttl := 60, now := 0 }
      have hbound : maxNames < 2 ^ 128 := by decide
      have habsent : crowdAddress m ∉ dns := by
        intro hmem
        obtain ⟨i, hi, heq⟩ := hkeys _ hmem
        exact crowdAddress_ne (by omega) (by omega) (by omega) heq
      have hroom : roomFor dns a = dns := by
        unfold roomFor
        rw [if_neg fun h => by omega]
      have hstep : announce dns a = dns.insert (crowdAddress m)
          (announced ((dns.lookup (crowdAddress m)).getD {}) a) := by
        obtain ⟨hill, -⟩ | ⟨haway, -⟩ | ⟨-, heq⟩ := announce_cases dns a
        · exact absurd (by decide : WellSized "x.example.com") hill
        · exact absurd haway.1 (by omega)
        · rw [heq, hroom]
      refine ⟨(dns, a) :: hist, announce dns a, run.next rfl, ?_, ?_, ?_⟩
      · have hnew : crowdAddress m ∉ dns.entries.keys := habsent
        rw [hstep, KeyedMap.size, AList.entries_insert, List.kerase_of_notMem_keys hnew,
          List.length_cons]
        exact congrArg (· + 1) hsize
      · intro ip hip
        rw [hstep, AList.mem_insert] at hip
        rcases hip with rfl | hold
        · exact ⟨m, Nat.lt_succ_self m, rfl⟩
        · obtain ⟨i, hi, heq⟩ := hkeys ip hold
          exact ⟨i, Nat.lt_succ_of_lt hi, heq⟩
      · intro entry hentry
        rcases List.mem_cons.mp hentry with rfl | hpast
        · refine ⟨rfl, by simp [a, crowdAddress, sampleAddress, IpAddr.ofOctets], ?_⟩
          intro hmem
          obtain ⟨i, -, heq⟩ := hkeys _ hmem
          simp [crowdAddress, sampleAddress, IpAddr.ofOctets] at heq
        · exact hhist entry hpast

/-- The only announcement of a history is the only valid name until it ends. -/
theorem onlyValid_singleton {a : Announcement} {t : ℕ} (hlive : a.ttl ≠ 0) (hends : t < a.ends) :
    OnlyValid [a] t a.name.toLower := by
  have hlatest : latest [a] a.name.toLower = some a := by
    rw [latest_cons, if_pos rfl]
  refine ⟨⟨a, hlatest, hlive, hends⟩, ?_⟩
  rintro y ⟨b, hb, -, -⟩
  rw [latest_cons] at hb
  split at hb
  · rename_i heq
    exact heq.symm
  · simp [latest] at hb

/-- No call steps back in time. -/
def InOrder (hist : History (KeyedMap IpAddr DnsEntry) Announcement) : Prop :=
  hist.Pairwise fun later earlier => earlier.2.now ≤ later.2.now

/-- What a history without a name for its only valid announcement looks like:
nothing for the address is thrown out or discarded, and yet it has no name. -/
def Nameless (ip : IpAddr) (hist : History (KeyedMap IpAddr DnsEntry) Announcement)
    (dns : KeyedMap IpAddr DnsEntry) (t : ℕ) (n : String) : Prop :=
  Run namesSystem ∅ hist dns ∧ InOrder hist ∧
    (∀ entry ∈ hist, entry.2.ip = ip → WellSized entry.2.name) ∧
    (∀ entry ∈ hist, ip ∈ entry.1 → ip ∈ announce entry.1 entry.2) ∧
    (∀ entry ∈ hist, entry.2.ip = ip → ¬ Discards entry.1 entry.2) ∧
    (∀ a ∈ callsFor ip hist, a.now ≤ t) ∧ OnlyValid (callsFor ip hist) t n ∧
    nameOf dns ip t = none

/-- A map full of addresses in use refuses a new address. -/
theorem fullMap_nameless :
    ∃ hist dns, Nameless sampleAddress hist dns 20 "A.example.com".toLower := by
  obtain ⟨hist, dns, run, hsize, hkeys, hhist⟩ := crowd_run maxNames le_rfl
  let a : Announcement := { announceAt 10 "A.example.com" 60 with used := dns.keys }
  have hip : a.ip = sampleAddress := rfl
  have hlive : a.ttl ≠ 0 := Nat.succ_ne_zero 59
  have hends : 20 < a.ends := (by decide : 20 < 10 + min 60 86400 * 1000)
  have habsent : sampleAddress ∉ dns := by
    intro hmem
    obtain ⟨i, -, heq⟩ := hkeys _ hmem
    simp [crowdAddress, sampleAddress, IpAddr.ofOctets] at heq
  have htrim : trimIpMap a.order dns a.used maxNames = dns := by
    have hfilter : (a.order.arrange dns.keys).filter (fun ip => ip ∉ dns.keys) = [] := by
      rw [List.filter_eq_nil_iff]
      intro ip hip
      simpa using hip
    unfold trimIpMap
    dsimp only
    rw [hfilter]
    split
    · rfl
    · simp [KeyedMap.eraseAll]
  have haway : TurnedAway dns a := ⟨hsize.ge, habsent, by rw [htrim]; exact hsize.ge⟩
  have hstep : announce dns a = dns := by
    obtain ⟨-, heq⟩ | ⟨-, heq⟩ | ⟨hroom, -⟩ := announce_cases dns a
    · exact heq
    · rw [heq, roomFor, htrim, ite_self]
    · exact absurd haway hroom
  have hcalls : callsFor sampleAddress ((dns, a) :: hist) = [a] := by
    have hnone : callsFor sampleAddress hist = [] := by
      unfold callsFor
      rw [List.filter_eq_nil_iff]
      intro b hb
      obtain ⟨entry, hentry, rfl⟩ := List.mem_map.mp hb
      simpa using (hhist entry hentry).2.1
    rw [callsFor_cons, if_pos hip, hnone]
  have hlookup : dns.lookup sampleAddress = none := AList.lookup_eq_none.mpr habsent
  have hdiscards : ¬ Discards dns a := by
    rintro ⟨-, hmany⟩
    rw [entryOf, hip, hlookup] at hmany
    exact absurd hmany (by simp [keptNames])
  refine ⟨(dns, a) :: hist, dns, run.next (congrArg some hstep), ?_, ?_, ?_, ?_, ?_, ?_, ?_⟩
  · refine List.pairwise_cons.mpr ⟨fun entry hentry => ?_, ?_⟩
    · rw [(hhist entry hentry).1]
      exact Nat.zero_le _
    · apply List.pairwise_of_forall_mem_list
      intro later hlater earlier hearlier
      rw [(hhist later hlater).1, (hhist earlier hearlier).1]
  · intro entry hentry hip
    rcases List.mem_cons.mp hentry with rfl | hpast
    · exact (by decide : WellSized "A.example.com")
    · exact absurd hip (hhist entry hpast).2.1
  · intro entry hentry hmem
    rcases List.mem_cons.mp hentry with rfl | hpast
    · exact absurd hmem habsent
    · exact absurd hmem (hhist entry hpast).2.2
  · intro entry hentry hip
    rcases List.mem_cons.mp hentry with rfl | hpast
    · exact hdiscards
    · exact absurd hip (hhist entry hpast).2.1
  · intro b hb
    rw [hcalls, List.mem_singleton] at hb
    rw [hb]
    exact (by decide : 10 ≤ 20)
  · rw [hcalls]
    exact onlyValid_singleton hlive hends
  · rw [nameOf, hlookup]
    rfl

/-- The last instant of the clock comes after every expiry. -/
theorem lastInstant_nameless :
    ∃ hist dns, Nameless sampleAddress hist dns u64Max "A.example.com".toLower := by
  let a := announceAt (u64Max - 1000) "A.example.com" 60
  refine ⟨[(∅, a)], announce ∅ a, Run.start.next rfl, List.pairwise_singleton .., ?_, ?_, ?_, ?_,
    ?_, by decide +kernel⟩
  · decide +kernel
  · decide +kernel
  · decide +kernel
  · decide +kernel
  · exact onlyValid_singleton (a := a) (by decide) (by decide)

/-- An announcement that a full map refuses, or that outlives the clock, is the
only valid one and names nothing. -/
theorem onlyValid_nameless :
    (∃ hist dns, Nameless sampleAddress hist dns 20 "A.example.com".toLower) ∧
      ∃ hist dns, Nameless sampleAddress hist dns u64Max "A.example.com".toLower :=
  ⟨fullMap_nameless, lastInstant_nameless⟩

end SocketTrail.History
