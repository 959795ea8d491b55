/-
# Finite keyed maps with an unspecified iteration order

A hash map is a finite map whose iteration order is not part of its contract.
`KeyedMap` is Mathlib's association list with distinct keys, used at a constant
value type. `HashOrder` is the iteration order as an explicit input: an
arbitrary rearrangement of the keys, so that a result which holds for every
`HashOrder` does not rest on how a hash map happens to enumerate its entries.
-/

import Mathlib.Algebra.BigOperators.Group.Finset.Basic
import Mathlib.Algebra.GroupWithZero.Nat
import Mathlib.Data.List.AList
import Mathlib.Data.List.MinMax
import Mathlib.Data.List.Perm.Basic

namespace SocketTrail.Foundation

universe u v w

/-- An arbitrary iteration order: some rearrangement of the keys it is given. -/
structure HashOrder (α : Type u) where
  /-- The keys in the order in which the map enumerates them. -/
  arrange : List α → List α
  perm : ∀ keys, (arrange keys).Perm keys

namespace HashOrder

variable {α : Type u}

/-- The order in which the entries are stored. -/
def stored : HashOrder α where
  arrange keys := keys
  perm _ := List.Perm.refl _

/-- An order in which one key comes first, if it is there. -/
def leading [DecidableEq α] (key : α) : HashOrder α where
  arrange keys := if key ∈ keys then key :: keys.erase key else keys
  perm keys := by
    split_ifs with hkey
    · exact (List.perm_cons_erase hkey).symm
    · exact List.Perm.refl _

@[simp]
theorem mem_arrange (order : HashOrder α) {keys : List α} {key : α} :
    key ∈ order.arrange keys ↔ key ∈ keys :=
  (order.perm keys).mem_iff

theorem nodup_arrange (order : HashOrder α) {keys : List α} :
    (order.arrange keys).Nodup ↔ keys.Nodup :=
  (order.perm keys).nodup_iff

@[simp]
theorem length_arrange (order : HashOrder α) (keys : List α) :
    (order.arrange keys).length = keys.length :=
  (order.perm keys).length_eq

end HashOrder

/-- A finite map from `α` to `β`. -/
abbrev KeyedMap (α : Type u) (β : Type v) : Type (max u v) :=
  AList fun _ : α => β

namespace KeyedMap

variable {α : Type u} {β : Type v} {γ : Type w} [DecidableEq α]

/-- The number of entries. -/
def size (m : KeyedMap α β) : ℕ := m.entries.length

/-- A map whose keys are closed under lookup: presence is a successful lookup. -/
theorem mem_iff_exists_lookup {m : KeyedMap α β} {key : α} :
    key ∈ m ↔ ∃ value, m.lookup key = some value := by
  rw [← AList.lookup_isSome, Option.isSome_iff_exists]

/-! ## Rewriting every value -/

/-- Rewrite every value, keeping the keys and their order. -/
def mapValues (f : α → β → γ) (m : KeyedMap α β) : KeyedMap α γ where
  entries := m.entries.map fun entry => ⟨entry.1, f entry.1 entry.2⟩
  nodupKeys := by
    have hkeys : (m.entries.map fun entry => (⟨entry.1, f entry.1 entry.2⟩ : (_ : α) × γ)).keys =
        m.entries.keys := by
      simp [List.keys, List.map_map, Function.comp_def]
    rw [List.NodupKeys, hkeys]
    exact m.keys_nodup

omit [DecidableEq α] in
@[simp]
theorem keys_mapValues (f : α → β → γ) (m : KeyedMap α β) :
    (mapValues f m).keys = m.keys := by
  simp [mapValues, AList.keys, List.keys, List.map_map, Function.comp_def]

private theorem dlookup_mapValues (f : α → β → γ) (key : α) :
    ∀ entries : List ((_ : α) × β),
      (entries.map fun entry => (⟨entry.1, f entry.1 entry.2⟩ : (_ : α) × γ)).dlookup key =
        (entries.dlookup key).map (f key)
  | [] => rfl
  | ⟨k, value⟩ :: rest => by
      by_cases h : key = k
      · subst h
        simp
      · have hrest := dlookup_mapValues f key rest
        rw [List.map_cons, List.dlookup_cons_ne _ _ h, hrest, List.dlookup_cons_ne _ _ h]

@[simp]
theorem lookup_mapValues (f : α → β → γ) (m : KeyedMap α β) (key : α) :
    (mapValues f m).lookup key = (m.lookup key).map (f key) :=
  dlookup_mapValues f key m.entries

theorem lookup_mapValues_of_lookup (f : α → β → γ) {m : KeyedMap α β} {key : α} {value : β}
    (h : m.lookup key = some value) : (mapValues f m).lookup key = some (f key value) := by
  rw [lookup_mapValues, h]
  rfl

/-! ## Selecting entries -/

/-- Rewrite some of the values and drop the other entries. -/
def filterMap (f : α → β → Option γ) (m : KeyedMap α β) : KeyedMap α γ where
  entries := m.entries.filterMap fun entry => (f entry.1 entry.2).map fun value => ⟨entry.1, value⟩
  nodupKeys := by
    have hsub : (m.entries.filterMap fun entry =>
        (f entry.1 entry.2).map fun value => (⟨entry.1, value⟩ : (_ : α) × γ)).keys.Sublist
          m.entries.keys := by
      induction m.entries with
      | nil => exact List.Sublist.slnil
      | cons entry rest ih =>
          cases hvalue : f entry.1 entry.2 with
          | none => simpa [List.filterMap_cons, hvalue] using ih.cons entry.1
          | some value => simpa [List.filterMap_cons, hvalue] using ih.cons_cons entry.1
    exact hsub.nodup m.keys_nodup

private theorem dlookup_filterMap (f : α → β → Option γ) (key : α) :
    ∀ entries : List ((_ : α) × β), entries.NodupKeys →
      (entries.filterMap fun entry =>
        (f entry.1 entry.2).map fun value => (⟨entry.1, value⟩ : (_ : α) × γ)).dlookup key =
          (entries.dlookup key).bind (f key)
  | [], _ => rfl
  | ⟨k, value⟩ :: rest, hnodup => by
      have hrest := dlookup_filterMap f key rest (List.nodupKeys_cons.mp hnodup).2
      by_cases h : key = k
      · subst h
        have habsent : rest.dlookup key = none :=
          List.dlookup_eq_none.mpr (List.nodupKeys_cons.mp hnodup).1
        cases hvalue : f key value with
        | none => simp [hvalue, hrest, habsent]
        | some kept => simp [hvalue]
      · have hskip : (⟨k, value⟩ :: rest : List ((_ : α) × β)).dlookup key = rest.dlookup key :=
          List.dlookup_cons_ne rest ⟨k, value⟩ h
        cases hvalue : f k value with
        | none => simp [hvalue, hrest, hskip]
        | some kept =>
            have hskip' := List.dlookup_cons_ne (rest.filterMap fun entry =>
              (f entry.1 entry.2).map fun value => (⟨entry.1, value⟩ : (_ : α) × γ)) ⟨k, kept⟩ h
            simp [hvalue, hrest, hskip, hskip']

@[simp]
theorem lookup_filterMap (f : α → β → Option γ) (m : KeyedMap α β) (key : α) :
    (filterMap f m).lookup key = (m.lookup key).bind (f key) :=
  dlookup_filterMap f key m.entries m.nodupKeys

/-! ## Visiting a list of keys -/

/-- A fold over distinct keys, each step of which concerns its own key only, acts
on every listed key exactly once and on no other. -/
theorem foldl_visit {S : Type w} {γ : Type*} (view : S → α → γ) (step : S → α → S)
    (hother : ∀ s visited k, k ≠ visited → view (step s visited) k = view s k) (keys : List α)
    (hnodup : keys.Nodup) (s : S) (k : α) :
    (k ∉ keys ∧ view (keys.foldl step s) k = view s k) ∨
      (k ∈ keys ∧ ∃ before rest, keys = before ++ k :: rest ∧
        view (before.foldl step s) k = view s k ∧
        view (keys.foldl step s) k = view (step (before.foldl step s) k) k) := by
  have hkeep : ∀ (keys : List α) (s : S), k ∉ keys → view (keys.foldl step s) k = view s k := by
    intro keys
    induction keys with
    | nil =>
        intro s _
        rfl
    | cons first rest ih =>
        intro s habsent
        rw [List.mem_cons, not_or] at habsent
        rw [List.foldl_cons, ih _ habsent.2, hother s first k habsent.1]
  by_cases hmem : k ∈ keys
  · obtain ⟨before, rest, rfl⟩ := List.append_of_mem hmem
    have hbefore : k ∉ before := fun h =>
      (List.nodup_append.mp hnodup).2.2 k h k (List.mem_cons_self ..) rfl
    have hrest : k ∉ rest := (List.nodup_cons.mp (List.nodup_append.mp hnodup).2.1).1
    refine .inr ⟨hmem, before, rest, rfl, hkeep before s hbefore, ?_⟩
    rw [List.foldl_append, List.foldl_cons, hkeep rest _ hrest]
  · exact .inl ⟨hmem, hkeep keys s hmem⟩

/-! ## Removing a list of keys -/

/-- Remove every listed key. -/
def eraseAll (keys : List α) (m : KeyedMap α β) : KeyedMap α β :=
  keys.foldl (fun m key => m.erase key) m

theorem eraseAll_append (first second : List α) (m : KeyedMap α β) :
    eraseAll (first ++ second) m = eraseAll second (eraseAll first m) :=
  List.foldl_append

theorem lookup_eraseAll (keys : List α) (m : KeyedMap α β) (k : α) :
    (eraseAll keys m).lookup k = if k ∈ keys then none else m.lookup k := by
  induction keys generalizing m with
  | nil => simp [eraseAll]
  | cons key rest ih =>
      have hstep : (eraseAll (key :: rest) m).lookup k =
          if k ∈ rest then none else (m.erase key).lookup k := ih (m.erase key)
      rw [hstep]
      by_cases hrest : k ∈ rest
      · simp [hrest]
      · by_cases hkey : k = key
        · subst hkey
          simp [hrest]
        · simp [hrest, hkey, AList.lookup_erase_ne hkey]

theorem lookup_eraseAll_eq_some {keys : List α} {m : KeyedMap α β} {k : α} {value : β} :
    (eraseAll keys m).lookup k = some value ↔ k ∉ keys ∧ m.lookup k = some value := by
  rw [lookup_eraseAll]
  split
  · rename_i hk
    exact iff_of_false (by simp) fun h => h.1 hk
  · rename_i hk
    exact (and_iff_right hk).symm

/-- Removing keys never changes or adds an entry. -/
theorem lookup_of_lookup_eraseAll {keys : List α} {m : KeyedMap α β} {k : α} {value : β}
    (h : (eraseAll keys m).lookup k = some value) : m.lookup k = some value :=
  (lookup_eraseAll_eq_some.mp h).2

/-- An entry that is gone was removed. -/
theorem mem_of_notMem_eraseAll {keys : List α} {m : KeyedMap α β} {k : α} {value : β}
    (h : m.lookup k = some value) (hgone : k ∉ eraseAll keys m) : k ∈ keys := by
  by_contra hk
  exact hgone (mem_iff_exists_lookup.mpr ⟨value, lookup_eraseAll_eq_some.mpr ⟨hk, h⟩⟩)

theorem size_insert_le (key : α) (value : β) (m : KeyedMap α β) :
    size (m.insert key value) ≤ m.size + 1 := by
  have hrest := (List.kerase_sublist key m.entries).length_le
  rw [size, AList.entries_insert, List.length_cons]
  exact Nat.add_le_add_right hrest 1

theorem size_erase_le (key : α) (m : KeyedMap α β) : size (m.erase key) ≤ m.size :=
  (List.kerase_sublist key m.entries).length_le

theorem size_eraseAll_le (keys : List α) (m : KeyedMap α β) :
    size (eraseAll keys m) ≤ m.size := by
  induction keys generalizing m with
  | nil => exact le_rfl
  | cons key rest ih => exact (ih (m.erase key)).trans (size_erase_le key m)

/-! ## Counting entries -/

omit [DecidableEq α] in
theorem size_eq_length_keys (m : KeyedMap α β) : m.size = m.keys.length := by
  rw [size, AList.keys, List.keys, List.length_map]

omit [DecidableEq α] in
@[simp]
theorem size_mapValues (f : α → β → γ) (m : KeyedMap α β) : size (mapValues f m) = m.size :=
  List.length_map _

theorem size_insert_of_notMem {key : α} (value : β) {m : KeyedMap α β} (h : key ∉ m) :
    size (m.insert key value) = m.size + 1 := by
  rw [size, AList.entries_insert_of_notMem h, List.length_cons, size]

theorem size_insert_of_mem {key : α} (value : β) {m : KeyedMap α β} (h : key ∈ m) :
    size (m.insert key value) = m.size := by
  have hkey : key ∈ m.keys := AList.mem_keys.mp h
  have hpos : 0 < m.keys.length := List.length_pos_of_mem hkey
  rw [size_eq_length_keys, AList.keys_insert, List.length_cons, List.length_erase_of_mem hkey,
    size_eq_length_keys]
  omega

theorem size_erase_of_mem {key : α} {m : KeyedMap α β} (h : key ∈ m) :
    size (m.erase key) + 1 = m.size := by
  have hkey : key ∈ m.keys := AList.mem_keys.mp h
  have hpos : 0 < m.keys.length := List.length_pos_of_mem hkey
  rw [size_eq_length_keys, AList.keys_erase, List.length_erase_of_mem hkey, size_eq_length_keys]
  omega

/-- Distinct keys of the map take one entry each with them. -/
theorem size_eraseAll_of_nodup {keys : List α} {m : KeyedMap α β} (hnodup : keys.Nodup)
    (hmem : ∀ key ∈ keys, key ∈ m) : size (eraseAll keys m) + keys.length = m.size := by
  induction keys generalizing m with
  | nil => rfl
  | cons key rest ih =>
      have hkey := size_erase_of_mem (hmem key (List.mem_cons_self ..))
      have hrest : ∀ k ∈ rest, k ∈ m.erase key := by
        intro k hk
        have hne : k ≠ key := fun heq => (List.nodup_cons.mp hnodup).1 (heq ▸ hk)
        exact AList.mem_erase.mpr ⟨hne, hmem k (List.mem_cons_of_mem key hk)⟩
      have htail := ih (List.nodup_cons.mp hnodup).2 hrest
      change size (eraseAll rest (m.erase key)) + (rest.length + 1) = m.size
      omega

/-- The number of values that satisfy `p`. -/
def count (p : β → Bool) (m : KeyedMap α β) : ℕ := m.entries.countP fun entry => p entry.2

theorem count_insert_of_notMem (p : β → Bool) {key : α} (value : β) {m : KeyedMap α β}
    (h : key ∉ m) : count p (m.insert key value) = count p m + if p value then 1 else 0 := by
  rw [count, AList.entries_insert_of_notMem h, List.countP_cons, count]

omit [DecidableEq α] in
theorem count_not_add_count (p : β → Bool) (m : KeyedMap α β) :
    count (fun value => !p value) m + count p m = m.size := by
  rw [count, count, size, Nat.add_comm, List.length_eq_countP_add_countP fun entry => p entry.2]
  congr 1
  apply List.countP_congr
  intro entry _
  simp

/-- Counting the values is counting the keys that lead to them. -/
theorem length_filter_keys (p : β → Bool) (m : KeyedMap α β) :
    (m.keys.filter fun key => (m.lookup key).any p).length = count p m := by
  rw [← List.countP_eq_length_filter, AList.keys, List.keys, List.countP_map, count]
  apply List.countP_congr
  intro entry hentry
  have hlookup : m.lookup entry.1 = some entry.2 := AList.mem_lookup_iff.mpr hentry
  simp [hlookup]

/-- A value under a key of the map takes no more room, and neither does a new key
where there is room. -/
theorem size_insert_le_of_room {key : α} (value : β) {m : KeyedMap α β} {n : ℕ}
    (hsize : m.size ≤ n) (hroom : key ∉ m → m.size < n) : size (m.insert key value) ≤ n := by
  by_cases hmem : key ∈ m
  · rw [size_insert_of_mem value hmem]
    exact hsize
  · rw [size_insert_of_notMem value hmem]
    exact hroom hmem

omit [DecidableEq α] in
theorem size_filterMap_le (f : α → β → Option γ) (m : KeyedMap α β) :
    size (filterMap f m) ≤ m.size :=
  List.length_filterMap_le _ _

/-- A value that is removed at once leaves nothing behind. -/
theorem erase_insert_self (key : α) (value : β) (m : KeyedMap α β) :
    (m.insert key value).erase key = m.erase key := by
  apply AList.ext
  exact List.kerase_cons_eq rfl

/-! ## Properties of all values -/

/-- Every value of the map has the property. -/
def Every (P : β → Prop) (m : KeyedMap α β) : Prop :=
  ∀ key value, m.lookup key = some value → P value

section Every

variable {P : β → Prop} {m : KeyedMap α β}

theorem every_empty : Every P (∅ : KeyedMap α β) := by
  intro key value h
  rw [AList.lookup_empty] at h
  contradiction

/-- The values of a map are those of its entries. -/
theorem every_of_entries (h : ∀ entry ∈ m.entries, P entry.2) : Every P m :=
  fun _ _ hlookup => h _ (AList.mem_lookup_iff.mp hlookup)

theorem Every.erase (h : Every P m) (key : α) : Every P (m.erase key) := by
  intro k value hlookup
  by_cases hkey : k = key
  · subst hkey
    rw [AList.lookup_erase] at hlookup
    contradiction
  · rw [AList.lookup_erase_ne hkey] at hlookup
    exact h k value hlookup

theorem Every.insert (h : Every P m) {key : α} {value : β} (hvalue : P value) :
    Every P (m.insert key value) := by
  intro k v hlookup
  by_cases hkey : k = key
  · subst hkey
    rw [AList.lookup_insert] at hlookup
    obtain rfl := Option.some.inj hlookup
    exact hvalue
  · rw [AList.lookup_insert_ne hkey] at hlookup
    exact h k v hlookup

/-- What is kept of a map of values with the property has it as well. -/
theorem Every.filterMap {f : α → β → Option β} (h : Every P m)
    (hkeep : ∀ key value kept, f key value = some kept → kept = value) :
    Every P (KeyedMap.filterMap f m) := by
  intro k v hlookup
  rw [lookup_filterMap] at hlookup
  obtain ⟨value, hvalue, hkept⟩ := Option.bind_eq_some_iff.mp hlookup
  rw [hkeep k value v hkept]
  exact h k value hvalue

theorem Every.getD (h : Every P m) {default : β} (hdefault : P default) (key : α) :
    P ((m.lookup key).getD default) := by
  cases hlookup : m.lookup key with
  | none => exact hdefault
  | some value => exact h key value hlookup

end Every

/-! ## The oldest entry -/

/-- The first key, in the iteration order, whose value has the smallest stamp. -/
def oldest (order : HashOrder α) (stamp : β → ℕ) (m : KeyedMap α β) : Option α :=
  (order.arrange m.keys).argmin fun key => ((m.lookup key).map stamp).getD 0

/-- The oldest key is a key of the map. -/
theorem mem_of_oldest {order : HashOrder α} {stamp : β → ℕ} {m : KeyedMap α β} {key : α}
    (h : oldest order stamp m = some key) : key ∈ m := by
  have hmem := List.argmin_mem (Option.mem_def.mpr h)
  rw [HashOrder.mem_arrange] at hmem
  exact AList.mem_keys.mpr hmem

/-- A map with entries has an oldest one. -/
theorem oldest_ne_none (order : HashOrder α) (stamp : β → ℕ) {m : KeyedMap α β}
    (h : 0 < m.size) : oldest order stamp m ≠ none := by
  rw [oldest, Ne, List.argmin_eq_none, ← List.length_eq_zero_iff, HashOrder.length_arrange,
    ← size_eq_length_keys]
  omega

/-! ## Sums over the values -/

/-- The sum of a weight over all values. -/
def sum (w : β → ℕ) (m : KeyedMap α β) : ℕ :=
  (m.entries.map fun entry => w entry.2).sum

/-- The weight of the value of a key, zero where there is none. -/
def weight (w : β → ℕ) (m : KeyedMap α β) (key : α) : ℕ :=
  ((m.lookup key).map w).getD 0

/-- The sum, key by key. -/
theorem sum_eq_sum_weight (w : β → ℕ) (m : KeyedMap α β) :
    sum w m = ∑ key ∈ m.keys.toFinset, weight w m key := by
  rw [List.sum_toFinset _ m.keys_nodup, sum, AList.keys, List.keys, List.map_map]
  congr 1
  apply List.map_congr_left
  intro entry hentry
  have hlookup : m.lookup entry.1 = some entry.2 := AList.mem_lookup_iff.mpr hentry
  simp [weight, hlookup]

theorem weight_of_notMem (w : β → ℕ) {m : KeyedMap α β} {key : α} (h : key ∉ m) :
    weight w m key = 0 := by
  rw [weight, AList.lookup_eq_none.mpr h]
  rfl

/-- The sum over any set of keys that contains those of the map. -/
theorem sum_eq_of_subset (w : β → ℕ) {m : KeyedMap α β} {keys : Finset α}
    (h : m.keys.toFinset ⊆ keys) : sum w m = ∑ key ∈ keys, weight w m key := by
  rw [sum_eq_sum_weight]
  apply Finset.sum_subset h
  intro key _ habsent
  apply weight_of_notMem
  intro hmem
  exact habsent (List.mem_toFinset.mpr (AList.mem_keys.mpr hmem))

/-- Two maps that weigh the same at every key have the same sum. -/
theorem sum_congr {w : β → ℕ} {m m' : KeyedMap α β}
    (h : ∀ key, weight w m' key = weight w m key) : sum w m' = sum w m := by
  have hm' : m'.keys.toFinset ⊆ m'.keys.toFinset ∪ m.keys.toFinset := Finset.subset_union_left
  have hm : m.keys.toFinset ⊆ m'.keys.toFinset ∪ m.keys.toFinset := Finset.subset_union_right
  rw [sum_eq_of_subset w hm', sum_eq_of_subset w hm]
  exact Finset.sum_congr rfl fun key _ => h key

/-- A weight that grows at one key and nowhere else grows the sum by as much. -/
theorem sum_add_at {w : β → ℕ} {m m' : KeyedMap α β} (key : α) {n : ℕ}
    (hkey : weight w m' key = weight w m key + n)
    (hother : ∀ k, k ≠ key → weight w m' k = weight w m k) : sum w m' = sum w m + n := by
  let keys := insert key (m'.keys.toFinset ∪ m.keys.toFinset)
  have hm' : m'.keys.toFinset ⊆ keys :=
    Finset.subset_union_left.trans (Finset.subset_insert _ _)
  have hm : m.keys.toFinset ⊆ keys :=
    Finset.subset_union_right.trans (Finset.subset_insert _ _)
  have hmem : key ∈ keys := Finset.mem_insert_self _ _
  rw [sum_eq_of_subset w hm', sum_eq_of_subset w hm, ← Finset.add_sum_erase keys _ hmem,
    ← Finset.add_sum_erase keys (weight w m) hmem, hkey]
  have hrest : ∑ k ∈ keys.erase key, weight w m' k = ∑ k ∈ keys.erase key, weight w m k := by
    apply Finset.sum_congr rfl
    intro k hk
    exact hother k (Finset.ne_of_mem_erase hk)
  omega

end KeyedMap

end SocketTrail.Foundation
