/-
# The order of the summary by address

The lines of the summary come from a hash map and are sorted by their traffic and by
their latest sight. Two targets with the same traffic and the same latest sight are
`Tied`, and the hash map decides which of them comes first. `aggregate_stable_iff`
says when the summary, or its first lines, are the same on every run, in terms of the rows.
-/

import Mathlib.Data.Finset.Card
import Mathlib.Data.List.MinMax
import Mathlib.Order.Nat
import SocketTrail.Foundation.Ranking
import SocketTrail.Program.Summary
import SocketTrail.State.Store

namespace SocketTrail.Program

open SocketTrail.Foundation SocketTrail.Net SocketTrail.State

/-! ## What the rows say -/

/-- The bytes of the rows of a target. -/
def traffic (rows : List Row) (key : TargetKey) : ℕ :=
  ((groupOf targetKey rows key).map fun row => row.2.txBytes + row.2.rxBytes).sum

/-- The latest sight of the rows of a target. -/
def latestSight (rows : List Row) (key : TargetKey) : ℕ :=
  ((groupOf targetKey rows key).map fun row => row.2.lastSeen).foldr max 0

/-- Neither the traffic nor the latest sight tells one target from another. -/
def Tied (rows : List Row) (a b : TargetKey) : Prop :=
  traffic rows a = traffic rows b ∧ latestSight rows a = latestSight rows b

/-- One target has more traffic than another, or as much and a later sight. -/
def InFront (rows : List Row) (a b : TargetKey) : Prop :=
  traffic rows b < traffic rows a ∨
    traffic rows b = traffic rows a ∧ latestSight rows b < latestSight rows a

instance (rows : List Row) (a b : TargetKey) : Decidable (InFront rows a b) :=
  inferInstanceAs (Decidable (_ ∨ _))

/-- The targets of the rows. -/
def targetKeys (rows : List Row) : Finset TargetKey := (rows.map targetKey).toFinset

/-- The number of targets in front of one. -/
def placeOf (rows : List Row) (key : TargetKey) : ℕ :=
  ((targetKeys rows).filter fun other => InFront rows other key).card

/-! ## The lines -/

section Lines

variable {order order' : HashOrder TargetKey} {rows : List Row}

/-- The lines before they are sorted. -/
def lines (order : HashOrder TargetKey) (rows : List Row) : List Target :=
  (order.arrange (targets rows).keys).filterMap fun key => (targets rows).lookup key

theorem lines_perm : (lines order rows).Perm (lines order' rows) :=
  ((order.perm _).trans (order'.perm _).symm).filterMap _

theorem lines_nodup : (lines order rows).Nodup := by
  apply List.Nodup.of_map Target.key
  rw [lines, map_key_lookups, order.nodup_arrange]
  exact (targets rows).keys_nodup

theorem mem_lines {t : Target} :
    t ∈ lines order rows ↔ (targets rows).lookup t.key = some t := by
  have hsorted : t ∈ aggregate order rows ↔ t ∈ lines order rows := List.mem_mergeSort
  rw [← hsorted]
  exact mem_aggregate order rows

/-- A line has the traffic of its rows. -/
theorem total_eq {t : Target} (h : t ∈ lines order rows) : t.total = traffic rows t.key := by
  have hsums := sums_of_lookup (mem_lines.mp h)
  rw [Target.total, hsums.txBytes, hsums.rxBytes, traffic, List.sum_map_add]

/-- A line has the latest sight of its rows. -/
theorem lastSeen_eq {t : Target} (h : t ∈ lines order rows) :
    t.lastSeen = latestSight rows t.key := by
  obtain ⟨hbound, row, hrow, heq⟩ := (sums_of_lookup (mem_lines.mp h)).lastSeen
  have hmem := List.mem_map_of_mem (f := fun row : Row => row.2.lastSeen) hrow
  rw [latestSight]
  apply le_antisymm
  · exact List.le_max_of_le' 0 hmem heq.ge
  · have hle := List.max_le_of_forall_le
      ((groupOf targetKey rows t.key).map fun row => row.2.lastSeen) t.lastSeen fun n hn => by
        obtain ⟨row, hrow, rfl⟩ := List.mem_map.mp hn
        exact hbound row hrow
    exact hle

theorem ties_iff {s t : Target} (hs : s ∈ lines order rows) (ht : t ∈ lines order rows) :
    Ties Target.le s t ↔ Tied rows s.key t.key := by
  simp only [Ties, Tied, Target.le, decide_eq_true_eq, total_eq hs, total_eq ht, lastSeen_eq hs,
    lastSeen_eq ht]
  omega

theorem ahead_iff {s t : Target} (hs : s ∈ lines order rows) (ht : t ∈ lines order rows) :
    ahead Target.le s t = true ↔ InFront rows s.key t.key := by
  simp only [ahead, InFront, Target.le, Bool.and_eq_true, Bool.not_eq_true', decide_eq_true_eq,
    decide_eq_false_iff_not, total_eq hs, total_eq ht, lastSeen_eq hs, lastSeen_eq ht]
  omega

theorem mem_targetKeys {key : TargetKey} : key ∈ targetKeys rows ↔ key ∈ (targets rows).keys := by
  rw [mem_keys_targets, targetKeys, List.mem_toFinset, List.mem_map]

theorem key_mem_targetKeys {t : Target} (h : t ∈ lines order rows) : t.key ∈ targetKeys rows :=
  mem_targetKeys.mpr (AList.mem_keys.mp
    (KeyedMap.mem_iff_exists_lookup.mpr ⟨t, mem_lines.mp h⟩))

/-- The rank of a line is the place of its target. -/
theorem rank_lines {t : Target} (h : t ∈ lines order rows) :
    rank Target.le (lines order rows) t = placeOf rows t.key := by
  have hkeys : (targetKeys rows).filter (fun other => InFront rows other t.key) =
      ((targets rows).keys.filter fun other => InFront rows other t.key).toFinset := by
    ext key
    simp [mem_targetKeys]
  have hcount : rank Target.le (lines order rows) t =
      ((lines order rows).map Target.key).countP fun other => InFront rows other t.key := by
    rw [rank, List.countP_map]
    exact List.countP_congr fun s hs => by
      rw [ahead_iff hs h, Function.comp_apply, decide_eq_true_eq]
  rw [hcount, lines, map_key_lookups, (order.perm _).countP_eq, List.countP_eq_length_filter,
    placeOf, hkeys, List.toFinset_card_of_nodup ((targets rows).keys_nodup.filter _)]

theorem exists_line (order : HashOrder TargetKey) {key : TargetKey} (h : key ∈ targetKeys rows) :
    ∃ t ∈ lines order rows, t.key = key := by
  obtain ⟨t, ht⟩ := KeyedMap.mem_iff_exists_lookup.mp (AList.mem_keys.mpr (mem_targetKeys.mp h))
  obtain rfl := (sums_of_lookup ht).key
  exact ⟨t, mem_lines.mpr ht, rfl⟩

/-- If the map enumerates a target first, it stands at its place. -/
theorem getElem?_aggregate_leading {t : Target} (h : t ∈ lines order rows) :
    (aggregate (.leading t.key) rows)[placeOf rows t.key]? = some t := by
  have hmem : t ∈ lines (.leading t.key) rows := lines_perm.mem_iff.mp h
  have hlines : lines (.leading t.key) rows =
      t :: ((targets rows).keys.erase t.key).filterMap fun key => (targets rows).lookup key := by
    have hfirst : (HashOrder.leading t.key).arrange (targets rows).keys =
        t.key :: (targets rows).keys.erase t.key :=
      if_pos (mem_targetKeys.mp (key_mem_targetKeys h))
    rw [lines, hfirst]
    exact List.filterMap_cons_some (mem_lines.mp h)
  rw [← rank_lines hmem]
  change ((lines _ rows).mergeSort Target.le)[_]? = _
  rw [hlines]
  exact getElem?_mergeSort_cons Target.le_trans Target.le_total _ _

/-- Of two tied targets, the one that the map enumerates first stands in front, and the
beginning of the summary shows the difference when it reaches that far. -/
theorem take_aggregate_ne {a b : TargetKey} (ha : a ∈ targetKeys rows) (hb : b ∈ targetKeys rows)
    (hne : a ≠ b) (htied : Tied rows a b) {limit : ℕ} (hreaches : placeOf rows b < limit) :
    (aggregate (.leading a) rows).take limit ≠ (aggregate (.leading b) rows).take limit := by
  intro hsame
  obtain ⟨s, hs, rfl⟩ := exists_line .stored ha
  obtain ⟨t, ht, rfl⟩ := exists_line .stored hb
  have hplace : placeOf rows s.key = placeOf rows t.key := by
    rw [← rank_lines hs, ← rank_lines ht]
    exact rank_eq_of_ties Target.le_trans ((ties_iff hs ht).mpr htied)
  have hfirst := getElem?_aggregate_leading hs
  have hsecond := getElem?_aggregate_leading ht
  have hboth := congrArg (·[placeOf rows t.key]?) hsame
  simp only [List.getElem?_take, if_pos hreaches] at hboth
  rw [hplace] at hfirst
  rw [hfirst, hsecond] at hboth
  exact hne (congrArg Target.key (Option.some.inj hboth))

/-- The first lines are the same in every order just if no tie reaches into them. -/
theorem take_aggregate_iff {limit : ℕ} :
    (∀ order order', (aggregate order rows).take limit = (aggregate order' rows).take limit) ↔
      ∀ a ∈ targetKeys rows, ∀ b ∈ targetKeys rows, a ≠ b → Tied rows a b →
        limit ≤ placeOf rows b := by
  constructor
  · intro hsame a ha b hb hne htied
    by_contra hreaches
    exact take_aggregate_ne ha hb hne htied (Nat.lt_of_not_le hreaches) (hsame _ _)
  · intro hties order order'
    refine take_eq_of_ties ?_ ?_ (List.pairwise_mergeSort Target.le_trans Target.le_total _)
      (List.pairwise_mergeSort Target.le_trans Target.le_total _) ?_
    · exact ((List.mergeSort_perm _ _).trans lines_perm).trans (List.mergeSort_perm _ _).symm
    · exact (List.mergeSort_perm _ _).nodup_iff.mpr lines_nodup
    · intro s hs t ht hne hst
      have hs' : s ∈ lines order rows := List.mem_mergeSort.mp hs
      have ht' : t ∈ lines order rows := List.mem_mergeSort.mp ht
      have hkeys : s.key ≠ t.key := by
        intro heq
        have hlookup := mem_lines.mp hs'
        rw [heq, mem_lines.mp ht'] at hlookup
        exact hne (Option.some.inj hlookup).symm
      have hplace : rank Target.le (aggregate order rows) t = placeOf rows t.key :=
        (rank_perm (List.mergeSort_perm _ _) t).trans (rank_lines ht')
      rw [hplace]
      exact hties s.key (key_mem_targetKeys hs') t.key (key_mem_targetKeys ht') hkeys
        ((ties_iff hs' ht').mp hst)

end Lines

/-- The summary of some rows is the same in whatever order the hash map enumerates the
targets just if no two targets have the same traffic and the same latest sight. Its
first `limit` lines are the same just if of any two such targets neither has fewer than
`limit` others in front of it. -/
theorem aggregate_stable_iff (rows : List Row) :
    ((∀ order order', aggregate order rows = aggregate order' rows) ↔
      ∀ a ∈ targetKeys rows, ∀ b ∈ targetKeys rows, a ≠ b → ¬ Tied rows a b) ∧
    ∀ limit,
      (∀ order order', (aggregate order rows).take limit = (aggregate order' rows).take limit) ↔
        ∀ a ∈ targetKeys rows, ∀ b ∈ targetKeys rows, a ≠ b → Tied rows a b →
          limit ≤ placeOf rows b := by
  refine ⟨⟨?_, ?_⟩, fun _ => take_aggregate_iff⟩
  · intro hsame a ha b hb hne htied
    exact take_aggregate_ne ha hb hne htied (Nat.lt_succ_self _)
      (congrArg (List.take _) (hsame _ _))
  · intro hties order order'
    have hlength : (aggregate order rows).length = (aggregate order' rows).length :=
      (((List.mergeSort_perm _ _).trans lines_perm).trans (List.mergeSort_perm _ _).symm).length_eq
    have hall := (@take_aggregate_iff rows (aggregate order rows).length).mpr
      fun a ha b hb hne htied => absurd htied (hties a ha b hb hne)
    have htake := hall order order'
    rwa [List.take_length, hlength, List.take_length] at htake

/-- A live connection to a remote host, of which no packet was counted. -/
def idleRow (host : UInt8) : Row :=
  let key : ConnKey :=
    { proto := .tcp
      «local» := .ofOctets 192 168 0 2
      lport := 50000
      remote := .ofOctets 198 51 100 host
      rport := 443 }
  (key, Store.freshConn key false 1000)

/-- Two connections that the same poll of the socket table found. -/
def idleRows : List Row := [idleRow 1, idleRow 2]

/-- Two live targets without capture: the hash map decides which of them comes first, and
which is sent if only one is. -/
theorem aggregate_unstable :
    (aggregate (.leading (targetKey (idleRow 1))) idleRows ≠
      aggregate (.leading (targetKey (idleRow 2))) idleRows) ∧
    (aggregate (.leading (targetKey (idleRow 1))) idleRows).take 1 ≠
      (aggregate (.leading (targetKey (idleRow 2))) idleRows).take 1 := by
  have hne := @take_aggregate_ne idleRows (targetKey (idleRow 1)) (targetKey (idleRow 2))
    (by decide) (by decide) (by decide) ⟨by decide, by decide⟩ 1 (by decide)
  exact ⟨fun hsame => hne (congrArg (List.take 1) hsame), hne⟩

end SocketTrail.Program
