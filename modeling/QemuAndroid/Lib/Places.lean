import Mathlib.Data.List.Nodup

/-!
# Queues that share no elements

A family of queues `q : ι → List α` in which every element has at most one place (`Placed`).  An
element enters at the end of a queue (`Placed.push`), leaves at the front (`Placed.pop`), and a
whole queue can be moved to the end of another (`Placed.moveAll`).
-/

universe u v

namespace QemuAndroid.Lib

open List Function

variable {ι : Type u} {α : Type v} [DecidableEq ι] {q : ι → List α} {i j : ι} {a b : α}
    {xs : List α}

/-- Every element has at most one place. -/
structure Placed (q : ι → List α) : Prop where
  nodup : ∀ i, (q i).Nodup
  unique : ∀ i j a, a ∈ q i → a ∈ q j → i = j

def HasPlace (q : ι → List α) (a : α) : Prop := ∃ i, a ∈ q i

theorem HasPlace.push_iff :
    HasPlace (update q i (q i ++ [a])) b ↔ b = a ∨ HasPlace q b := by
  constructor
  · rintro ⟨k, hk⟩
    by_cases hki : k = i
    · subst hki
      rw [update_self, mem_append, mem_singleton] at hk
      exact hk.symm.imp_right fun h => ⟨k, h⟩
    · rw [update_of_ne hki] at hk
      exact .inr ⟨k, hk⟩
  rintro (rfl | ⟨k, hk⟩)
  · exact ⟨i, by simp⟩
  by_cases hki : k = i
  · subst hki
    exact ⟨k, by simp [hk]⟩
  · exact ⟨k, by rwa [update_of_ne hki]⟩

theorem HasPlace.moveAll_iff :
    HasPlace (update (update q i []) j (q j ++ q i)) b ↔ HasPlace q b := by
  constructor
  · rintro ⟨k, hk⟩
    by_cases hkj : k = j
    · rw [hkj, update_self, mem_append] at hk
      exact hk.elim (fun h => ⟨j, h⟩) fun h => ⟨i, h⟩
    rw [update_of_ne hkj] at hk
    by_cases hki : k = i
    · rw [hki, update_self] at hk
      cases hk
    · rw [update_of_ne hki] at hk
      exact ⟨k, hk⟩
  · rintro ⟨k, hk⟩
    by_cases hkj : k = j
    · exact ⟨j, by rw [update_self]; exact mem_append_left _ (hkj ▸ hk)⟩
    · by_cases hki : k = i
      · exact ⟨j, by rw [update_self]; exact mem_append_right _ (hki ▸ hk)⟩
      · exact ⟨k, by rwa [update_of_ne hkj, update_of_ne hki]⟩

namespace Placed

section

variable (h : Placed q)
include h

/-- Replacing one queue keeps the places apart if the new elements were nowhere else. -/
theorem update (hxs : xs.Nodup) (hnew : ∀ a ∈ xs, ∀ k, k ≠ i → a ∉ q k) :
    Placed (update q i xs) := by
  constructor
  · intro k
    by_cases hki : k = i
    · rwa [hki, update_self]
    · rw [update_of_ne hki]
      exact h.nodup k
  intro k l a hk hl
  by_cases hki : k = i <;> by_cases hli : l = i
  · exact hki.trans hli.symm
  · rw [hki, update_self] at hk
    rw [update_of_ne hli] at hl
    exact absurd hl (hnew a hk l hli)
  · rw [hli, update_self] at hl
    rw [update_of_ne hki] at hk
    exact absurd hk (hnew a hl k hki)
  · rw [update_of_ne hki] at hk
    rw [update_of_ne hli] at hl
    exact h.unique k l a hk hl

theorem push (ha : ¬ HasPlace q a) : Placed (Function.update q i (q i ++ [a])) := by
  apply h.update
  · rw [nodup_append]
    refine ⟨h.nodup i, nodup_singleton a, fun b hb c hc => ?_⟩
    rw [mem_singleton.1 hc]
    rintro rfl
    exact ha ⟨i, hb⟩
  intro b hb k hki hk
  rcases mem_append.1 hb with hb | hb
  · exact hki (h.unique k i b hk hb)
  · rw [mem_singleton.1 hb] at hk
    exact ha ⟨k, hk⟩

theorem pop (hi : q i = a :: xs) : Placed (Function.update q i xs) := by
  apply h.update
  · exact (nodup_cons.1 (hi ▸ h.nodup i)).2
  · intro b hb k hki hk
    exact hki (h.unique k i b hk (hi ▸ mem_cons_of_mem a hb))

theorem pop_iff (hi : q i = a :: xs) :
    HasPlace (Function.update q i xs) b ↔ b ≠ a ∧ HasPlace q b := by
  have hnot : a ∉ xs := (nodup_cons.1 (hi ▸ h.nodup i)).1
  have hmem : a ∈ q i := hi ▸ mem_cons_self
  constructor
  · rintro ⟨k, hk⟩
    by_cases hki : k = i
    · rw [hki, update_self] at hk
      exact ⟨fun e => hnot (e ▸ hk), i, hi ▸ mem_cons_of_mem a hk⟩
    · rw [update_of_ne hki] at hk
      exact ⟨fun e => hki (h.unique k i a (e ▸ hk) hmem), k, hk⟩
  rintro ⟨hne, k, hk⟩
  by_cases hki : k = i
  · rw [hki, hi] at hk
    exact ⟨i, by rw [update_self]; exact (mem_cons.1 hk).resolve_left hne⟩
  · exact ⟨k, by rwa [update_of_ne hki]⟩

/-- A queue is moved to the end of another. -/
theorem moveAll (hij : i ≠ j) :
    Placed (Function.update (Function.update q i []) j (q j ++ q i)) := by
  have hclear : Placed (Function.update q i []) := h.update nodup_nil fun a ha => by cases ha
  apply hclear.update
  · rw [nodup_append]
    refine ⟨h.nodup j, h.nodup i, fun a ha b hb => ?_⟩
    rintro rfl
    exact hij (h.unique i j a hb ha)
  intro a ha k hkj hk
  by_cases hki : k = i
  · rw [hki, update_self] at hk
    cases hk
  rw [update_of_ne hki] at hk
  rcases mem_append.1 ha with ha | ha
  · exact hkj (h.unique k j a hk ha)
  · exact hki (h.unique k i a hk ha)

end

end Placed

end QemuAndroid.Lib
