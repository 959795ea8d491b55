/-
# The ceiling of the name map

The name map has a ceiling of addresses and of names for an address, and three
ways in: a call that announces a name, the answers of a packet, and the entries
put back at a start. Room is made at the expense of addresses outside the
connection history only, so when most addresses are in use it may be impossible to
make any, and the new address is turned away.
-/

import SocketTrail.History.Restart

namespace SocketTrail.History

open SocketTrail.Foundation SocketTrail.Net SocketTrail.State

/-! ## Trimming -/

section Trim

variable {V : Type*} (order : HashOrder IpAddr) (map : KeyedMap IpAddr V) (used : List IpAddr)
  (limit : ℕ)

/-- The addresses that trimming drops. -/
def trimmedKeys : List IpAddr :=
  ((order.arrange map.keys).filter fun ip => ip ∉ used).take (map.size - limit * 9 / 10)

theorem trimIpMap_eq :
    trimIpMap order map used limit = KeyedMap.eraseAll (trimmedKeys order map used limit) map := by
  unfold trimIpMap trimmedKeys
  dsimp only
  split
  · rename_i hsmall
    rw [hsmall, List.take_zero]
    rfl
  · rfl

theorem mem_trimmedKeys {ip : IpAddr} (h : ip ∈ trimmedKeys order map used limit) :
    ip ∈ map ∧ ip ∉ used := by
  obtain ⟨hkey, hunused⟩ := List.mem_filter.mp (List.mem_of_mem_take h)
  exact ⟨AList.mem_keys.mp (order.mem_arrange.mp hkey), of_decide_eq_true hunused⟩

theorem mem_trimIpMap {ip : IpAddr} :
    ip ∈ trimIpMap order map used limit ↔ ip ∈ map ∧ ip ∉ trimmedKeys order map used limit := by
  rw [trimIpMap_eq, ← not_iff_not, ← AList.lookup_eq_none, KeyedMap.lookup_eraseAll]
  by_cases hgone : ip ∈ trimmedKeys order map used limit
  · simp [hgone]
  · simp [hgone, AList.lookup_eq_none]

/-- An address in use keeps its entry. -/
theorem mem_trimIpMap_of_used {ip : IpAddr} (hmem : ip ∈ map) (hused : ip ∈ used) :
    ip ∈ trimIpMap order map used limit :=
  (mem_trimIpMap order map used limit).mpr
    ⟨hmem, fun hgone => (mem_trimmedKeys order map used limit hgone).2 hused⟩

theorem size_trimIpMap :
    (trimIpMap order map used limit).size + (trimmedKeys order map used limit).length =
      map.size := by
  rw [trimIpMap_eq]
  refine KeyedMap.size_eraseAll_of_nodup ?_ fun ip hip => (mem_trimmedKeys _ _ _ _ hip).1
  have hkeys := (order.nodup_arrange.mpr map.keys_nodup).filter fun ip => decide (ip ∉ used)
  exact hkeys.sublist (List.take_sublist _ _)

/-- Trimming cuts a map to nine tenths of the limit exactly, unless it was that
small or no address outside of use is left. -/
theorem size_trimIpMap_cases :
    (trimIpMap order map used limit).size = limit * 9 / 10 ∨ map.size ≤ limit * 9 / 10 ∨
      ∀ ip ∈ trimIpMap order map used limit, ip ∈ used := by
  have hsize := size_trimIpMap order map used limit
  have hlength : (trimmedKeys order map used limit).length =
      min (map.size - limit * 9 / 10)
        ((order.arrange map.keys).filter fun ip => decide (ip ∉ used)).length :=
    List.length_take
  by_cases hfew : ((order.arrange map.keys).filter fun ip => decide (ip ∉ used)).length ≤
      map.size - limit * 9 / 10
  · refine .inr (.inr fun ip hip => ?_)
    obtain ⟨hmem, hkept⟩ := (mem_trimIpMap order map used limit).mp hip
    by_contra hunused
    rw [trimmedKeys, List.take_of_length_le hfew, List.mem_filter, order.mem_arrange] at hkept
    exact hkept ⟨AList.mem_keys.mpr hmem, decide_eq_true hunused⟩
  · omega

end Trim

/-! ## Calls -/

/-- No call drops the entry of an address in use. -/
theorem mem_announce_of_used {dns : KeyedMap IpAddr DnsEntry} {a : Announcement} {ip : IpAddr}
    (hmem : ip ∈ dns) (hused : ip ∈ a.used) : ip ∈ announce dns a := by
  have hroom : ip ∈ roomFor dns a := by
    unfold roomFor
    split
    · exact mem_trimIpMap_of_used _ _ _ _ hmem hused
    · exact hmem
  obtain ⟨-, heq⟩ | ⟨-, heq⟩ | ⟨-, heq⟩ := announce_cases dns a
  · rw [heq]
    exact hmem
  · rw [heq]
    exact hroom
  · rw [heq]
    exact (AList.mem_insert _).mpr (.inr hroom)

theorem mem_restoreDns {dns : KeyedMap IpAddr DnsEntry} {ip : IpAddr} (hmem : ip ∈ dns) (now : ℕ)
    (restored : IpAddr) (names : DnsEntry) : ip ∈ (restoreDns now dns restored names).2 := by
  unfold restoreDns
  dsimp only
  split
  · exact hmem
  · exact (AList.mem_insert _).mpr (.inr hmem)

/-- A property of the name map that a call keeps holds after several. -/
theorem foldl_announce_induction {P : KeyedMap IpAddr DnsEntry → Prop} {calls : List Announcement}
    (hcall : ∀ a ∈ calls, ∀ dns, P dns → P (announce dns a)) {dns : KeyedMap IpAddr DnsEntry}
    (h : P dns) : P (calls.foldl announce dns) := by
  induction calls generalizing dns with
  | nil => exact h
  | cons a rest ih =>
      obtain ⟨hfirst, hrest⟩ := List.forall_mem_cons.mp hcall
      exact ih hrest (hfirst dns h)

/-- Every call of an operation finds the remotes of all rows in use. -/
theorem used_of_mem_callsOf {st : Store} {e : Event} {a : Announcement} (h : a ∈ callsOf st e) :
    a.used = st.conns.keys.map ConnKey.remote := by
  have hlearn : ∀ (i : ℕ) (names : List (String × IpAddr × ℕ)),
      ∀ a ∈ learnCalls e.ipOrder e.clock.read (st.conns.keys.map ConnKey.remote) i names,
        a.used = st.conns.keys.map ConnKey.remote := by
    intro i names
    induction names generalizing i with
    | nil => simp [learnCalls]
    | cons first rest ih => exact List.forall_mem_cons.mpr ⟨rfl, ih (i + 1)⟩
  unfold callsOf at h
  split at h
  · exact hlearn 0 _ a h
  · rw [List.mem_singleton.mp h]
  · contradiction

/-! ## Runs -/

/-- An operation of the store, or an entry of the cache that is put back. -/
inductive NamesAct
  | op (e : Event)
  | restore (now : ℕ) (ip : IpAddr) (names : DnsEntry)

/-- The store after the act. -/
def NamesAct.apply (st : Store) : NamesAct → Store
  | .op e => st.step e
  | .restore now ip names => { st with dns := (restoreDns now st.dns ip names).2 }

/-- The store as a transition system of its operations and of restores. -/
def namesActs : System Store NamesAct := .ofFun NamesAct.apply

theorem SoundMap.apply {st : Store} (h : SoundMap st.dns) (act : NamesAct) :
    SoundMap (act.apply st).dns := by
  cases act with
  | op e =>
      change SoundMap (st.step e).dns
      rw [step_dns]
      exact foldl_announce_induction (fun a _ dns h => h.announce a) h
  | restore now ip names => exact h.restore now ip names

/-- The entry of an address that is the remote of a row stays. -/
theorem mem_apply_of_remote {st : Store} {k : ConnKey} (hrow : k ∈ st.conns)
    (hmem : k.remote ∈ st.dns) (act : NamesAct) : k.remote ∈ (act.apply st).dns := by
  cases act with
  | op e =>
      change k.remote ∈ (st.step e).dns
      rw [step_dns]
      refine foldl_announce_induction (P := fun dns => k.remote ∈ dns)
        (fun a ha dns h => mem_announce_of_used h ?_) hmem
      rw [used_of_mem_callsOf ha]
      exact List.mem_map_of_mem (AList.mem_keys.mp hrow)
  | restore now ip names => exact mem_restoreDns hmem now ip names

/-- The name map stays within its ceilings and drops no address that is in use. In
every run of announcements, restores, packets and polls, and of the other
operations, it holds `maxNames` addresses at most with eight names each at most,
and no step removes the entry of an address that is the remote of a row. Trimming
a map, for any history and limit, removes only addresses that are no row's remote,
changes no value, and ends with nine tenths of the limit exactly unless the map was
that small or only addresses in use are left. -/
theorem names_bounded :
    (∀ {now : ℕ} {hist : History Store NamesAct} {st : Store},
      Run namesActs (Store.empty now) hist st →
        st.dns.size ≤ maxNames ∧
        (∀ ip entry, st.dns.lookup ip = some entry → entry.names.length ≤ 8) ∧
        ∀ past ∈ hist, ∀ k ∈ past.1.conns, k.remote ∈ past.1.dns →
          k.remote ∈ (past.2.apply past.1).dns) ∧
    ∀ {V : Type*} (order : HashOrder IpAddr) (map : KeyedMap IpAddr V)
      (conns : KeyedMap ConnKey Conn) (limit : ℕ),
      let trimmed := trimIpMap order map (conns.keys.map ConnKey.remote) limit
      (∀ ip ∈ map, ip ∉ trimmed → ∀ k ∈ conns, k.remote ≠ ip) ∧
      (∀ ip value, trimmed.lookup ip = some value → map.lookup ip = some value) ∧
      (trimmed.size = limit * 9 / 10 ∨ map.size ≤ limit * 9 / 10 ∨
        ∀ ip ∈ trimmed, ∃ k ∈ conns, k.remote = ip) := by
  constructor
  · intro now hist st run
    have hsound : SoundMap st.dns := by
      refine run.invariant (P := fun st => SoundMap st.dns) ?_ ?_
      · exact ⟨Nat.zero_le _, KeyedMap.every_empty⟩
      · intro s act s' h fires
        obtain rfl := Option.some.inj fires
        exact h.apply act
    exact ⟨hsound.size, fun ip entry h => (hsound.entries ip entry h).few,
      fun past _ k hrow hmem => mem_apply_of_remote hrow hmem past.2⟩
  · intro V order map conns limit
    refine ⟨fun ip hmem hgone k hrow heq => ?_, fun ip value h => lookup_of_lookup_trimIpMap h, ?_⟩
    · subst heq
      exact hgone (mem_trimIpMap_of_used order map _ limit hmem
        (List.mem_map_of_mem (AList.mem_keys.mp hrow)))
    · refine (size_trimIpMap_cases order map _ limit).imp_right (Or.imp_right fun h ip hip => ?_)
      obtain ⟨k, hrow, heq⟩ := List.mem_map.mp (h ip hip)
      exact ⟨k, AList.mem_keys.mpr hrow, heq⟩

end SocketTrail.History
