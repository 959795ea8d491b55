/-
# Which rows eviction takes

A full history is cut in two phases: closed rows first, and then, if the rows that
are left are still too many, the oldest of all. `Cut` says what one phase does:
only rows of its kind go, the longest unseen first, and none of the kind is left
when there were not enough of them. The second phase runs only when the first has
left no closed row, so the order of the rows of one kind spans both.
-/

import SocketTrail.State.Ceiling

namespace SocketTrail.State

open SocketTrail.Foundation SocketTrail.Net

namespace Store

/-- The `n` longest unseen rows of a kind are cut from the rows. -/
structure Cut (kind : Conn → Bool) (n : ℕ) (conns rest : KeyedMap ConnKey Conn) : Prop where
  unchanged : ∀ k c, rest.lookup k = some c → conns.lookup k = some c
  ofKind : ∀ k c, conns.lookup k = some c → k ∉ rest → kind c = true
  oldest : ∀ k c, conns.lookup k = some c → k ∉ rest → ∀ k' c', rest.lookup k' = some c' →
    kind c' = true → c.lastSeen ≤ c'.lastSeen
  size : rest.size + min n (KeyedMap.count kind conns) = conns.size
  cleared : KeyedMap.count kind conns ≤ n → ∀ k c, rest.lookup k = some c → kind c = false

section Phase

variable (order : HashOrder ConnKey) (conns : KeyedMap ConnKey Conn) (kind : Conn → Bool)

theorem mem_oldestKeys {k : ConnKey} :
    k ∈ oldestKeys order conns kind ↔ ∃ c, conns.lookup k = some c ∧ kind c = true := by
  rw [(oldestKeys_perm order conns kind).mem_iff, List.mem_filter, Option.any_eq_true]
  constructor
  · exact fun h => h.2
  · rintro ⟨c, hrow, hkind⟩
    exact ⟨AList.mem_keys.mp (KeyedMap.mem_iff_exists_lookup.mpr ⟨c, hrow⟩), c, hrow, hkind⟩

/-- The keys are sorted by the last sight of their rows. -/
theorem pairwise_oldestKeys :
    (oldestKeys order conns kind).Pairwise fun k k' => ∀ c c', conns.lookup k = some c →
      conns.lookup k' = some c' → c.lastSeen ≤ c'.lastSeen := by
  unfold oldestKeys
  dsimp only
  generalize hrows : ((order.arrange conns.keys).filterMap fun k =>
    (conns.lookup k).bind fun c => if kind c then some (c.lastSeen, k) else none) = rows
  have hstamp : ∀ row ∈ rows, ∀ c, conns.lookup row.2 = some c → row.1 = c.lastSeen := by
    intro row hrow c hlookup
    rw [← hrows] at hrow
    obtain ⟨k, -, hk⟩ := List.mem_filterMap.mp hrow
    obtain ⟨c', hlookup', hkind⟩ := Option.bind_eq_some_iff.mp hk
    split at hkind
    · obtain rfl := Option.some.inj hkind
      rw [hlookup', Option.some.injEq] at hlookup
      exact congrArg Conn.lastSeen hlookup
    · contradiction
  have hsorted : (rows.mergeSort fun a b => decide (a.1 ≤ b.1)).Pairwise fun a b => a.1 ≤ b.1 := by
    have h := @List.pairwise_mergeSort _ (fun a b : ℕ × ConnKey => decide (a.1 ≤ b.1))
      (fun a b c hab hbc => by simp only [decide_eq_true_eq] at *; omega)
      (fun a b => by simp only [Bool.or_eq_true, decide_eq_true_eq]; omega) rows
    exact h.imp of_decide_eq_true
  rw [List.pairwise_map]
  refine hsorted.imp_of_mem fun {a b} ha hb hle c c' hc hc' => ?_
  rw [← hstamp a (List.mem_mergeSort.mp ha) c hc, ← hstamp b (List.mem_mergeSort.mp hb) c' hc']
  exact hle

/-- A row of the kind that is not among the first keys is among the others. -/
theorem mem_drop_oldestKeys {n : ℕ} {k : ConnKey} {c : Conn}
    (hrow : (KeyedMap.eraseAll ((oldestKeys order conns kind).take n) conns).lookup k = some c)
    (hkind : kind c = true) : k ∈ (oldestKeys order conns kind).drop n := by
  obtain ⟨hleft, hlookup⟩ := KeyedMap.lookup_eraseAll_eq_some.mp hrow
  have hall := (mem_oldestKeys order conns kind).mpr ⟨c, hlookup, hkind⟩
  rw [← List.take_append_drop n (oldestKeys order conns kind), List.mem_append] at hall
  exact hall.resolve_left hleft

/-- The first keys are sorted before the others. -/
theorem oldest_of_take_drop {n : ℕ} {k k' : ConnKey} {c c' : Conn}
    (hk : k ∈ (oldestKeys order conns kind).take n) (hk' : k' ∈ (oldestKeys order conns kind).drop n)
    (hrow : conns.lookup k = some c) (hrow' : conns.lookup k' = some c') :
    c.lastSeen ≤ c'.lastSeen := by
  have hsorted := pairwise_oldestKeys order conns kind
  rw [← List.take_append_drop n (oldestKeys order conns kind), List.pairwise_append] at hsorted
  exact hsorted.2.2 k hk k' hk' c c' hrow hrow'

theorem cut_eraseAll (n : ℕ) :
    Cut kind n conns (KeyedMap.eraseAll ((oldestKeys order conns kind).take n) conns) where
  unchanged _ _ hrow := KeyedMap.lookup_of_lookup_eraseAll hrow
  ofKind k c hrow hgone := by
    have htaken := List.mem_of_mem_take (KeyedMap.mem_of_notMem_eraseAll hrow hgone)
    obtain ⟨c', hrow', hkind⟩ := (mem_oldestKeys order conns kind).mp htaken
    rw [hrow, Option.some.injEq] at hrow'
    exact hrow' ▸ hkind
  oldest _ _ hrow hgone _ _ hrow' hkind :=
    oldest_of_take_drop order conns kind (KeyedMap.mem_of_notMem_eraseAll hrow hgone)
      (mem_drop_oldestKeys order conns kind hrow' hkind) hrow
      (KeyedMap.lookup_of_lookup_eraseAll hrow')
  size := size_eraseAll_oldestKeys order conns kind n
  cleared hfew k c hrow := by
    by_contra hkind
    have hdrop := mem_drop_oldestKeys order conns kind hrow (Bool.eq_true_of_not_eq_false hkind)
    have hlength := length_oldestKeys order conns kind
    rw [List.drop_eq_nil_of_le (by omega)] at hdrop
    exact List.not_mem_nil hdrop

end Phase

/-- The two phases of eviction. The second runs only when the first has left no
closed row. -/
theorem evict_phases (order : HashOrder ConnKey) {st : Store} (hfull : maxConns ≤ st.conns.size) :
    ∃ rest, Cut Conn.closed (st.conns.size - maxConns * 9 / 10) st.conns rest ∧
      ((st.evict order).conns = rest ∨
        ((∀ k c, rest.lookup k = some c → c.closed = false) ∧ maxConns < rest.size ∧
          Cut (fun _ => true) (rest.size - maxConns * 9 / 10) rest (st.evict order).conns)) := by
  have hclosed := cut_eraseAll order st.conns Conn.closed (st.conns.size - maxConns * 9 / 10)
  generalize hrest : KeyedMap.eraseAll ((oldestKeys order st.conns Conn.closed).take
    (st.conns.size - maxConns * 9 / 10)) st.conns = rest at hclosed
  have hconns : (st.evict order).conns =
      if rest.size > maxConns then
        KeyedMap.eraseAll ((oldestKeys order rest fun _ => true).take
          (rest.size - maxConns * 9 / 10)) rest
      else rest := by
    simp only [evict, apply_ite Store.conns, if_neg (Nat.not_lt_of_le hfull), hrest]
  refine ⟨rest, hclosed, ?_⟩
  rw [hconns]
  split
  · rename_i hmany
    refine .inr ⟨hclosed.cleared ?_, hmany, cut_eraseAll order rest (fun _ => true) _⟩
    have hsize := hclosed.size
    have hmax : maxConns = 20000 := rfl
    omega
  · exact .inl rfl

/-- Eviction leaves a history below its ceiling alone. From the ceiling on it
takes a live row only if no closed row is left, takes the longest unseen of the
closed and of the live rows, changes no row that stays, and leaves nine tenths of
the ceiling at least. -/
theorem evict_oldest_first (order : HashOrder ConnKey) (st : Store) :
    (st.conns.size < maxConns → st.evict order = st) ∧
    (maxConns ≤ st.conns.size →
      (∀ k c, st.conns.lookup k = some c → c.closed = false → k ∉ (st.evict order).conns →
        ∀ k' c', (st.evict order).conns.lookup k' = some c' → c'.closed = false) ∧
      (∀ k c, st.conns.lookup k = some c → k ∉ (st.evict order).conns →
        ∀ k' c', (st.evict order).conns.lookup k' = some c' → c'.closed = c.closed →
          ¬c'.lastSeen < c.lastSeen) ∧
      (∀ k c, (st.evict order).conns.lookup k = some c → st.conns.lookup k = some c) ∧
      maxConns * 9 / 10 ≤ (st.evict order).conns.size) := by
  refine ⟨evict_of_size_lt order, fun hfull => ?_⟩
  obtain ⟨rest, hclosed, heq | ⟨hlive, hmany, hall⟩⟩ := evict_phases order hfull
  · rw [heq]
    refine ⟨fun k c hrow hopen hgone => ?_, fun k c hrow hgone k' c' hrow' hkind => ?_,
      hclosed.unchanged, ?_⟩
    · rw [hclosed.ofKind k c hrow hgone] at hopen
      contradiction
    · have hoften := hclosed.ofKind k c hrow hgone
      exact Nat.not_lt_of_le (hclosed.oldest k c hrow hgone k' c' hrow' (hkind.trans hoften))
    · have hsize := hclosed.size
      have hmax : maxConns = 20000 := rfl
      omega
  · have hstays : ∀ k c, (st.evict order).conns.lookup k = some c → rest.lookup k = some c :=
      hall.unchanged
    refine ⟨fun _ _ _ _ _ k' c' hrow' => hlive k' c' (hstays k' c' hrow'),
      fun k c hrow hgone k' c' hrow' hkind => ?_,
      fun k c hrow => hclosed.unchanged k c (hstays k c hrow), ?_⟩
    · have hopen : c'.closed = false := hlive k' c' (hstays k' c' hrow')
      -- a live row goes in the second phase, so it was there between the phases
      have hthere : rest.lookup k = some c := by
        cases hrest : rest.lookup k with
        | some c₁ => rw [← hrow, hclosed.unchanged k c₁ hrest]
        | none =>
            rw [hclosed.ofKind k c hrow (AList.lookup_eq_none.mp hrest), hopen] at hkind
            contradiction
      exact Nat.not_lt_of_le (hall.oldest k c hthere hgone k' c' hrow' rfl)
    · have hsize := hall.size
      rw [count_true] at hsize
      omega

end Store

end SocketTrail.State
