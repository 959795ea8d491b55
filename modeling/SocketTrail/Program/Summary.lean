/-
# The summary by address

The table by address has one line for every remote address and port. The rows are
gathered in a hash map, and its values are sorted by their traffic. `Sums` says
what a line is of its rows, whatever other rows stand between them: the counts,
the sums and the bounds, and a name that an SNI row decides if there is one.
-/

import SocketTrail.Foundation.Grouping
import SocketTrail.State.Conn

namespace SocketTrail.Program

open SocketTrail.Foundation SocketTrail.Net SocketTrail.State

/-- A row with its tuple, as the views of the program pass it on. -/
abbrev Row : Type := ConnKey × Conn

/-- The protocol, the text of the remote address and the remote port. -/
structure TargetKey where
  proto : Proto
  remote : String
  rport : UInt16
  deriving DecidableEq, Repr

def targetKey (row : Row) : TargetKey where
  proto := row.1.proto
  remote := row.1.remote.text
  rport := row.1.rport

/-- One line of the summary. -/
structure Target where
  id : String
  proto : Proto
  remote : String
  rport : UInt16
  domain : Option String
  sni : Bool
  asn : Option String
  owner : Option String
  scope : Scope
  sessions : ℕ
  live : ℕ
  txBytes : ℕ
  rxBytes : ℕ
  firstSeen : ℕ
  lastSeen : ℕ
  pname : Option String
  deriving DecidableEq, Repr

namespace Target

def key (t : Target) : TargetKey where
  proto := t.proto
  remote := t.remote
  rport := t.rport

/-- The line that the first row of a target opens. -/
def fresh (row : Row) : Target where
  id := String.intercalate "|" [row.1.proto.asStr, row.1.remote.text, toString row.1.rport.toNat]
  proto := row.1.proto
  remote := row.1.remote.text
  rport := row.1.rport
  domain := none
  sni := false
  asn := row.2.asn
  owner := row.2.owner
  scope := row.2.scope
  sessions := 0
  live := 0
  txBytes := 0
  rxBytes := 0
  firstSeen := row.2.firstSeen
  lastSeen := row.2.lastSeen
  pname := none

/-- Add one row to a line. -/
def add (t : Target) (row : Row) : Target :=
  let c := row.2
  { t with
    sessions := t.sessions + 1
    live := if c.closed then t.live else t.live + 1
    txBytes := t.txBytes + c.txBytes
    rxBytes := t.rxBytes + c.rxBytes
    firstSeen := min t.firstSeen c.firstSeen
    lastSeen := max t.lastSeen c.lastSeen
    sni := t.sni || c.sni.isSome
    domain := if c.sni.isSome then c.sni else if t.domain.isNone then c.domain else t.domain
    pname := if t.pname.isNone then c.pname else t.pname
    asn := if t.asn.isNone then c.asn else t.asn
    owner := if t.asn.isNone then c.owner else t.owner }

def total (t : Target) : ℕ := t.txBytes + t.rxBytes

/-- The order of the summary: more traffic first, of equal traffic the later
sight. -/
def le (a b : Target) : Bool :=
  b.total < a.total ∨ (b.total = a.total ∧ b.lastSeen ≤ a.lastSeen)

theorem le_trans (a b c : Target) (hab : le a b = true) (hbc : le b c = true) :
    le a c = true := by
  simp only [le, decide_eq_true_eq] at *
  omega

theorem le_total (a b : Target) : (le a b || le b a) = true := by
  simp only [le, Bool.or_eq_true, decide_eq_true_eq]
  omega

end Target

/-- The lines of the rows, gathered by target. -/
def targets (rows : List Row) : KeyedMap TargetKey Target :=
  gather targetKey (fun t row => (t.getD (.fresh row)).add row) rows ∅

/-- The summary of a list of rows. `order` is the order in which the hash map
enumerates its values. -/
def aggregate (order : HashOrder TargetKey) (rows : List Row) : List Target :=
  ((order.arrange (targets rows).keys).filterMap fun key => (targets rows).lookup key).mergeSort
    Target.le

/-! ## One line -/

/-- The line is the summary of its rows. -/
structure Sums (key : TargetKey) (group : List Row) (t : Target) : Prop where
  key : t.key = key
  sessions : t.sessions = group.length
  live : t.live = group.countP fun row => !row.2.closed
  txBytes : t.txBytes = (group.map fun row => row.2.txBytes).sum
  rxBytes : t.rxBytes = (group.map fun row => row.2.rxBytes).sum
  firstSeen : (∀ row ∈ group, t.firstSeen ≤ row.2.firstSeen) ∧
    ∃ row ∈ group, row.2.firstSeen = t.firstSeen
  lastSeen : (∀ row ∈ group, row.2.lastSeen ≤ t.lastSeen) ∧
    ∃ row ∈ group, row.2.lastSeen = t.lastSeen
  sni : t.sni = true ↔ ∃ row ∈ group, row.2.sni.isSome = true
  bySni : t.sni = true → ∃ row ∈ group, row.2.sni.isSome = true ∧ t.domain = row.2.sni
  byName : t.sni = false → (t.domain.isSome = true ↔ ∃ row ∈ group, row.2.domain.isSome = true)

theorem sums_first {key : TargetKey} {row : Row} (hkey : targetKey row = key) :
    Sums key [row] ((Target.fresh row).add row) where
  key := hkey
  sessions := rfl
  live := by cases hclosed : row.2.closed <;> simp [Target.add, Target.fresh, hclosed]
  txBytes := by simp [Target.add, Target.fresh]
  rxBytes := by simp [Target.add, Target.fresh]
  firstSeen := by simp [Target.add, Target.fresh]
  lastSeen := by simp [Target.add, Target.fresh]
  sni := by simp [Target.add, Target.fresh]
  bySni := by
    cases hsni : row.2.sni <;> simp [Target.add, Target.fresh, hsni]
  byName := by
    cases hsni : row.2.sni <;> simp [Target.add, Target.fresh, hsni]

theorem Sums.add {key : TargetKey} {group : List Row} {t : Target} (h : Sums key group t)
    (row : Row) : Sums key (group ++ [row]) (t.add row) where
  key := h.key
  sessions := by simp [Target.add, h.sessions]
  live := by
    cases hclosed : row.2.closed <;> simp [Target.add, h.live, hclosed]
  txBytes := by simp [Target.add, h.txBytes]
  rxBytes := by simp [Target.add, h.rxBytes]
  firstSeen := by
    obtain ⟨hbound, first, hfirst, heq⟩ := h.firstSeen
    constructor
    · rw [List.forall_mem_append, List.forall_mem_singleton]
      exact ⟨fun r hr => (min_le_left ..).trans (hbound r hr), min_le_right ..⟩
    · rcases le_total t.firstSeen row.2.firstSeen with hle | hle
      · exact ⟨first, List.mem_append_left _ hfirst, heq.trans (min_eq_left hle).symm⟩
      · exact ⟨row, by simp, (min_eq_right hle).symm⟩
  lastSeen := by
    obtain ⟨hbound, last, hlast, heq⟩ := h.lastSeen
    constructor
    · rw [List.forall_mem_append, List.forall_mem_singleton]
      exact ⟨fun r hr => (hbound r hr).trans (le_max_left ..), le_max_right ..⟩
    · rcases le_total t.lastSeen row.2.lastSeen with hle | hle
      · exact ⟨row, by simp, (max_eq_right hle).symm⟩
      · exact ⟨last, List.mem_append_left _ hlast, heq.trans (max_eq_left hle).symm⟩
  sni := by
    simp only [Target.add, Bool.or_eq_true, h.sni, List.mem_append, List.mem_singleton]
    constructor
    · rintro (⟨r, hr, hsni⟩ | hsni)
      · exact ⟨r, .inl hr, hsni⟩
      · exact ⟨row, .inr rfl, hsni⟩
    · rintro ⟨r, hr | rfl, hsni⟩
      · exact .inl ⟨r, hr, hsni⟩
      · exact .inr hsni
  bySni := by
    intro hadded
    by_cases hsni : row.2.sni.isSome = true
    · exact ⟨row, by simp, hsni, if_pos hsni⟩
    · have hbefore : t.sni = true := by simpa [Target.add, hsni] using hadded
      obtain ⟨r, hr, hrsni, hdomain⟩ := h.bySni hbefore
      -- the line has the name of an SNI row, so a row without SNI does not name it again
      have hnamed : t.domain.isNone = false := by
        rw [hdomain]
        simpa using hrsni
      refine ⟨r, List.mem_append_left _ hr, hrsni, ?_⟩
      simpa [Target.add, hsni, hnamed] using hdomain
  byName := by
    intro hadded
    simp only [Target.add, Bool.or_eq_false_iff] at hadded
    have hiff := h.byName hadded.1
    simp only [Target.add, hadded.2, Bool.false_eq_true, if_false, List.mem_append,
      List.mem_singleton]
    cases hdomain : t.domain with
    | none =>
        rw [hdomain] at hiff
        simp only [Option.isNone_none, if_true]
        constructor
        · exact fun hnamed => ⟨row, .inr rfl, hnamed⟩
        · rintro ⟨r, hr | rfl, hnamed⟩
          · exact absurd (hiff.mpr ⟨r, hr, hnamed⟩) (by simp)
          · exact hnamed
    | some name =>
        rw [hdomain] at hiff
        obtain ⟨r, hr, hnamed⟩ := hiff.mp rfl
        exact iff_of_true (by simp) ⟨r, .inl hr, hnamed⟩

theorem sums_of_lookup {rows : List Row} {key : TargetKey} {t : Target}
    (h : (targets rows).lookup key = some t) : Sums key (groupOf targetKey rows key) t :=
  gather_induction (P := Sums key) (fun _ hkey => sums_first hkey)
    (fun _ _ row hsums _ => hsums.add row) h

/-! ## The list -/

section List

variable (order : HashOrder TargetKey) (rows : List Row)

theorem mem_aggregate {t : Target} :
    t ∈ aggregate order rows ↔ (targets rows).lookup t.key = some t := by
  unfold aggregate
  rw [List.mem_mergeSort, List.mem_filterMap]
  constructor
  · rintro ⟨key, -, hlookup⟩
    rwa [(sums_of_lookup hlookup).key]
  · intro hlookup
    refine ⟨t.key, order.mem_arrange.mpr (AList.mem_keys.mp ?_), hlookup⟩
    exact KeyedMap.mem_iff_exists_lookup.mpr ⟨t, hlookup⟩

/-- The lines before they are sorted have the keys in the order of the map. -/
theorem map_key_lookups : ((order.arrange (targets rows).keys).filterMap fun key =>
    (targets rows).lookup key).map Target.key = order.arrange (targets rows).keys := by
  rw [List.map_filterMap]
  have hsome : ∀ key ∈ order.arrange (targets rows).keys,
      ((targets rows).lookup key).map Target.key = some key := by
    intro key hkey
    obtain ⟨t, ht⟩ := KeyedMap.mem_iff_exists_lookup.mp
      (AList.mem_keys.mpr (order.mem_arrange.mp hkey))
    rw [ht, Option.map_some, (sums_of_lookup ht).key]
  rw [List.filterMap_congr hsome, List.filterMap_some]

/-- The lines are those of the targets, each once. -/
theorem keys_aggregate : ((aggregate order rows).map Target.key).Perm (targets rows).keys := by
  unfold aggregate
  refine ((List.mergeSort_perm _ _).map Target.key).trans ?_
  rw [map_key_lookups]
  exact order.perm _

theorem mem_keys_targets {key : TargetKey} :
    key ∈ (targets rows).keys ↔ ∃ row ∈ rows, targetKey row = key := by
  rw [← AList.mem_keys]
  exact mem_gather

/-- A number of the lines that sums up the rows of a line sums up all rows. -/
theorem sum_aggregate {value : Target → ℕ} {n : Row → ℕ}
    (h : ∀ key group t, Sums key group t → value t = (group.map n).sum) :
    ((aggregate order rows).map value).sum = (rows.map n).sum := by
  have hperm := keys_aggregate order rows
  have hvalue : (aggregate order rows).map value = ((aggregate order rows).map Target.key).map
      fun key => ((groupOf targetKey rows key).map n).sum := by
    rw [List.map_map]
    refine List.map_congr_left fun t ht => ?_
    exact h _ _ t (sums_of_lookup ((mem_aggregate order rows).mp ht))
  rw [hvalue]
  refine sum_groupOf targetKey n (hperm.nodup_iff.mpr (targets rows).keys_nodup) fun row hrow => ?_
  exact hperm.mem_iff.mpr ((mem_keys_targets rows).mpr ⟨row, hrow, rfl⟩)

theorem pairwise_aggregate :
    (aggregate order rows).Pairwise fun a b => b.total ≤ a.total := by
  have hsorted := List.pairwise_mergeSort Target.le_trans Target.le_total
    ((order.arrange (targets rows).keys).filterMap fun key => (targets rows).lookup key)
  refine hsorted.imp fun {a b} hle => ?_
  simp only [Target.le, decide_eq_true_eq] at hle
  omega

end List

/-- The summary has one line for every protocol, remote address and remote port of
the rows, each the summary of its rows; nothing of the rows is lost or counted
twice; and the lines are ordered by their traffic. -/
theorem aggregate_exact (order : HashOrder TargetKey) (rows : List Row) :
    ((aggregate order rows).map Target.key).Nodup ∧
    (∀ key, key ∈ (aggregate order rows).map Target.key ↔ ∃ row ∈ rows, targetKey row = key) ∧
    (∀ t ∈ aggregate order rows, Sums t.key (groupOf targetKey rows t.key) t) ∧
    (((aggregate order rows).map Target.sessions).sum = rows.length ∧
      ((aggregate order rows).map Target.live).sum = rows.countP (fun row => !row.2.closed) ∧
      ((aggregate order rows).map Target.txBytes).sum =
        (rows.map fun row => row.2.txBytes).sum ∧
      ((aggregate order rows).map Target.rxBytes).sum =
        (rows.map fun row => row.2.rxBytes).sum) ∧
    (aggregate order rows).Pairwise fun a b => b.txBytes + b.rxBytes ≤ a.txBytes + a.rxBytes := by
  have hperm := keys_aggregate order rows
  refine ⟨hperm.nodup_iff.mpr (targets rows).keys_nodup,
    fun key => hperm.mem_iff.trans (mem_keys_targets rows),
    fun t ht => sums_of_lookup ((mem_aggregate order rows).mp ht), ⟨?_, ?_, ?_, ?_⟩,
    pairwise_aggregate order rows⟩
  · rw [sum_aggregate order rows (n := fun _ => 1) fun _ group t h => by simp [h.sessions]]
    simp
  · rw [sum_aggregate order rows fun _ group t h => h.live.trans (countP_eq_sum ..),
      ← countP_eq_sum]
  · exact sum_aggregate order rows fun _ _ _ h => h.txBytes
  · exact sum_aggregate order rows fun _ _ _ h => h.rxBytes

end SocketTrail.Program
