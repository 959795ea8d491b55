/-
# Climbing along a partial function

`climb` follows a partial function from a start and marks what it meets, until it
comes to an end, to something marked before, or to the end of its fuel. A set that is
marked by climbs is closed under the function as long as the fuel covers what is still
unmarked on the way: a climb may stop at a mark, since an earlier climb went on from
there.
-/

import Mathlib.Data.Finset.Card
import Mathlib.Logic.Relation

namespace SocketTrail.Foundation

universe u

variable {α : Type u} [DecidableEq α]

/-- Mark what is met from `start` on. -/
def climb (next : α → Option α) : ℕ → Option α → Finset α → Finset α
  | 0, _, met => met
  | _ + 1, none, met => met
  | fuel + 1, some x, met => if x ∈ met then met else climb next fuel (next x) (insert x met)

/-- The function leads from one element to another. -/
def Leads (next : α → Option α) : α → α → Prop :=
  Relation.ReflTransGen fun x y => next x = some y

/-- Nothing leads out of the set. -/
def Closed (next : α → Option α) (met : Finset α) : Prop :=
  ∀ x ∈ met, ∀ y, next x = some y → y ∈ met

variable {next : α → Option α} {fuel : ℕ} {start : Option α} {met : Finset α}

omit [DecidableEq α] in
theorem Closed.mem_of_leads (h : Closed next met) {x y : α} (hx : x ∈ met)
    (hleads : Leads next x y) : y ∈ met := by
  induction hleads with
  | refl => exact hx
  | tail _ hnext ih => exact h _ ih _ hnext

theorem subset_climb (next : α → Option α) (fuel : ℕ) (start : Option α) (met : Finset α) :
    met ⊆ climb next fuel start met := by
  induction fuel generalizing start met with
  | zero => exact Finset.Subset.refl met
  | succ fuel ih =>
      cases start with
      | none => exact Finset.Subset.refl met
      | some x =>
          unfold climb
          split
          · exact Finset.Subset.refl met
          · exact (Finset.subset_insert x met).trans (ih (next x) (insert x met))

/-- A climb marks nothing but what lies on its way. -/
theorem leads_of_mem_climb {y : α} (h : y ∈ climb next fuel start met) :
    y ∈ met ∨ ∃ x, start = some x ∧ Leads next x y := by
  induction fuel generalizing start met with
  | zero => exact .inl h
  | succ fuel ih =>
      cases start with
      | none => exact .inl h
      | some x =>
          unfold climb at h
          split at h
          · exact .inl h
          · rcases ih h with hmet | ⟨x', hnext, hleads⟩
            · rcases Finset.mem_insert.mp hmet with rfl | hmet
              · exact .inr ⟨y, rfl, .refl⟩
              · exact .inl hmet
            · exact .inr ⟨x, rfl, .head hnext hleads⟩

/-- A climb with enough fuel for what is unmarked on its way closes a set that only
its start may lead out of. -/
theorem closed_climb {way : Finset α}
    (hopen : ∀ x ∈ met, ∀ y, next x = some y → y ∈ met ∨ start = some y)
    (hway : ∀ x, start = some x → ∀ y, Leads next x y → y ∈ way)
    (hfuel : (way \ met).card ≤ fuel) :
    Closed next (climb next fuel start met) ∧
      ∀ x, start = some x → x ∈ climb next fuel start met := by
  induction fuel generalizing start met with
  | zero =>
      have hmet : ∀ x, start = some x → x ∈ met := by
        intro x hx
        by_contra hmissing
        have hmem : x ∈ way \ met := Finset.mem_sdiff.mpr ⟨hway x hx x .refl, hmissing⟩
        exact absurd hfuel (Nat.not_le.mpr (Finset.card_pos.mpr ⟨x, hmem⟩))
      refine ⟨fun x hx y hy => ?_, hmet⟩
      rcases hopen x hx y hy with hin | hstart
      · exact hin
      · exact hmet y hstart
  | succ fuel ih =>
      cases start with
      | none =>
          refine ⟨fun x hx y hy => ?_, fun x hx => by contradiction⟩
          rcases hopen x hx y hy with hin | hstart
          · exact hin
          · contradiction
      | some x =>
          unfold climb
          split
          · rename_i hx
            refine ⟨fun z hz y hy => ?_, fun z hz => Option.some.inj hz ▸ hx⟩
            rcases hopen z hz y hy with hin | hstart
            · exact hin
            · exact Option.some.inj hstart ▸ hx
          · rename_i hx
            have hmem : x ∈ way \ met := Finset.mem_sdiff.mpr ⟨hway x rfl x .refl, hx⟩
            have hless : (way \ insert x met).card ≤ fuel := by
              rw [Finset.sdiff_insert, Finset.card_erase_of_mem hmem]
              omega
            have hnext : ∀ z ∈ insert x met, ∀ y, next z = some y →
                y ∈ insert x met ∨ next x = some y := by
              intro z hz y hy
              rcases Finset.mem_insert.mp hz with rfl | hz
              · exact .inr hy
              · rcases hopen z hz y hy with hin | hstart
                · exact .inl (Finset.mem_insert_of_mem hin)
                · exact .inl (Option.some.inj hstart ▸ Finset.mem_insert_self x met)
            have hon : ∀ z, next x = some z → ∀ y, Leads next z y → y ∈ way :=
              fun z hz y hy => hway x rfl y (.head hz hy)
            obtain ⟨hclosed, -⟩ := ih hnext hon hless
            refine ⟨hclosed, fun z hz => ?_⟩
            obtain rfl := Option.some.inj hz
            exact subset_climb next fuel _ _ (Finset.mem_insert_self x met)

/-! ## Climbing from one element after another -/

/-- Mark an element and climb on from it. -/
def climbFrom (next : α → Option α) (fuel : ℕ) (met : Finset α) (x : α) : Finset α :=
  climb next fuel (next x) (insert x met)

/-- The elements behind `x` are at most `fuel` many. -/
def Within (next : α → Option α) (fuel : ℕ) (x : α) : Prop :=
  ∃ way : Finset α, way.card ≤ fuel ∧ ∀ y, next x = some y → ∀ z, Leads next y z → z ∈ way

theorem closed_climbFrom {x : α} (hclosed : Closed next met) (hwithin : Within next fuel x) :
    Closed next (climbFrom next fuel met x) := by
  obtain ⟨way, hcard, hway⟩ := hwithin
  refine (closed_climb ?_ hway ((Finset.card_le_card Finset.sdiff_subset).trans hcard)).1
  intro z hz y hy
  rcases Finset.mem_insert.mp hz with rfl | hz
  · exact .inr hy
  · exact .inl (Finset.mem_insert_of_mem (hclosed z hz y hy))

theorem mem_climbFrom_self (next : α → Option α) (fuel : ℕ) (met : Finset α) (x : α) :
    x ∈ climbFrom next fuel met x :=
  subset_climb next fuel _ _ (Finset.mem_insert_self x met)

theorem subset_climbFrom (next : α → Option α) (fuel : ℕ) (met : Finset α) (x : α) :
    met ⊆ climbFrom next fuel met x :=
  (Finset.subset_insert x met).trans (subset_climb next fuel _ _)

theorem leads_of_mem_climbFrom {x y : α} (h : y ∈ climbFrom next fuel met x) :
    y ∈ met ∨ Leads next x y := by
  rcases leads_of_mem_climb h with hmet | ⟨z, hnext, hleads⟩
  · rcases Finset.mem_insert.mp hmet with rfl | hmet
    · exact .inr .refl
    · exact .inl hmet
  · exact .inr (.head hnext hleads)

/-- Climbs from one element after another mark what lies on the way from any of
them, however the elements are ordered. -/
theorem mem_foldl_climbFrom {xs : List α} (hwithin : ∀ x ∈ xs, Within next fuel x) {y : α} :
    y ∈ xs.foldl (climbFrom next fuel) ∅ ↔ ∃ x ∈ xs, Leads next x y := by
  have hrun (xs : List α) (hwithin : ∀ x ∈ xs, Within next fuel x) (met : Finset α)
      (hclosed : Closed next met) :
      Closed next (xs.foldl (climbFrom next fuel) met) ∧
        met ⊆ xs.foldl (climbFrom next fuel) met ∧
        (∀ x ∈ xs, x ∈ xs.foldl (climbFrom next fuel) met) ∧
        ∀ y ∈ xs.foldl (climbFrom next fuel) met, y ∈ met ∨ ∃ x ∈ xs, Leads next x y := by
    induction xs generalizing met with
    | nil => exact ⟨hclosed, Finset.Subset.refl met, by simp, fun y hy => .inl hy⟩
    | cons x xs ih =>
        obtain ⟨hx, hxs⟩ := List.forall_mem_cons.mp hwithin
        obtain ⟨hend, hsub, hmarked, hway⟩ := ih hxs _ (closed_climbFrom hclosed hx)
        rw [List.foldl_cons]
        refine ⟨hend, (subset_climbFrom next fuel met x).trans hsub, ?_, fun y hy => ?_⟩
        · exact List.forall_mem_cons.mpr ⟨hsub (mem_climbFrom_self next fuel met x), hmarked⟩
        · rcases hway y hy with hmet | ⟨z, hz, hleads⟩
          · rcases leads_of_mem_climbFrom hmet with hmet | hleads
            · exact .inl hmet
            · exact .inr ⟨x, List.mem_cons_self .., hleads⟩
          · exact .inr ⟨z, List.mem_cons_of_mem x hz, hleads⟩
  obtain ⟨hclosed, -, hmarked, hway⟩ := hrun xs hwithin ∅ (fun x hx => by simp at hx)
  constructor
  · intro hy
    rcases hway y hy with hempty | hfound
    · simp at hempty
    · exact hfound
  · rintro ⟨x, hx, hleads⟩
    exact hclosed.mem_of_leads (hmarked x hx) hleads

end SocketTrail.Foundation
