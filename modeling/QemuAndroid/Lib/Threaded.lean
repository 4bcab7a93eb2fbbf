import Mathlib.Data.List.Nodup

/-!
# A stack threaded through an array

`next` gives the element below each element, and `stop` is the end.  `Threaded` lists the elements
on the way from one to the end, and `Passes` holds for the elements on the way also when the way has
no end.  An element is pushed by a store to its own entry, and taken out by a store to the entry of
the one above it.
-/

namespace QemuAndroid.Lib

open Function List

universe u

variable {α : Type u} {next next' : α → α} {stop a b t : α} {l : List α}

/-- The way from `a` to `stop` goes through these elements. -/
def Threaded (next : α → α) (stop : α) : α → List α → Prop
  | a, [] => a = stop
  | a, b :: l => a = b ∧ a ≠ stop ∧ Threaded next stop (next a) l

/-- The way from an element on goes through `b`, before it gets to `stop`. -/
inductive Passes (next : α → α) (stop b : α) : α → Prop
  | here : b ≠ stop → Passes next stop b b
  | down {a : α} : a ≠ stop → Passes next stop b (next a) → Passes next stop b a

namespace Passes

variable {x v : α}

theorem next_iff (ha : a ≠ stop) (hx : x ≠ a) : Passes next stop x (next a) ↔
    Passes next stop x a := by
  constructor
  · exact down ha
  intro h
  cases h with
  | here => exact absurd rfl hx
  | down _ h => exact h

variable [DecidableEq α]

/-- A store to an entry that is not on the way. -/
theorem update_iff (h : ¬Passes next stop b a) (hb : b ≠ stop) :
    Passes (update next b v) stop x a ↔ Passes next stop x a := by
  constructor
  · intro hp
    induction hp with
    | here hx => exact .here hx
    | @down a ha _ ih =>
      have hab : a ≠ b := by
        rintro rfl
        exact h (.here ha)
      rw [update_of_ne hab] at ih
      exact .down ha (ih fun h' => h (.down ha h'))
  · intro hp
    induction hp with
    | here hx => exact .here hx
    | @down a ha _ ih =>
      have hab : a ≠ b := by
        rintro rfl
        exact h (.here ha)
      refine .down ha ?_
      rw [update_of_ne hab]
      exact ih fun h' => h (.down ha h')

/-- Taking out an element leaves the others on the way, also when the way goes round. -/
theorem unlink_iff (ht : next t = b) (hb : b ≠ stop) (hx : x ≠ b) :
    Passes (update next t (next b)) stop x a ↔ Passes next stop x a := by
  have hbelow : update next t (next b) b = next b := by
    by_cases hbt : b = t
    · rw [hbt, update_self]
    · rw [update_of_ne hbt]
  constructor
  · intro hp
    induction hp with
    | here hx => exact .here hx
    | @down a ha _ ih =>
      by_cases hat : a = t
      · subst hat
        rw [update_self] at ih
        exact .down ha (ht ▸ .down hb ih)
      · rw [update_of_ne hat] at ih
        exact .down ha ih
  · intro hp
    induction hp with
    | here hx => exact .here hx
    | @down a ha _ ih =>
      refine .down ha ?_
      by_cases hat : a = t
      · subst hat
        rw [update_self]
        rw [ht, ← next_iff hb hx, hbelow] at ih
        exact ih
      · rw [update_of_ne hat]
        exact ih

end Passes

namespace Threaded

section

variable (h : Threaded next stop a l)
include h

theorem passes_iff : Passes next stop b a ↔ b ∈ l := by
  induction l generalizing a with
  | nil =>
    refine iff_of_false (fun hp => ?_) not_mem_nil
    cases hp with
    | here hne => exact hne h
    | down hne _ => exact hne h
  | cons x l ih =>
    obtain ⟨rfl, hne, h⟩ := h
    rw [mem_cons, ← ih h]
    constructor
    · intro hp
      cases hp with
      | here => exact .inl rfl
      | down _ hp => exact .inr hp
    · rintro (rfl | hp)
      · exact .here hne
      · exact .down hne hp

theorem frame (heq : ∀ x ∈ l, next' x = next x) : Threaded next' stop a l := by
  induction l generalizing a with
  | nil => exact h
  | cons x l ih =>
    obtain ⟨rfl, hne, h⟩ := h
    refine ⟨rfl, hne, ?_⟩
    rw [heq a mem_cons_self]
    exact ih h fun x hx => heq x (mem_cons_of_mem a hx)

theorem unique {l' : List α} (h' : Threaded next stop a l') : l' = l := by
  induction l generalizing a l' with
  | nil =>
    cases l' with
    | nil => rfl
    | cons => exact absurd h h'.2.1
  | cons x l ih =>
    obtain ⟨rfl, hne, h⟩ := h
    cases l' with
    | nil => exact absurd h' hne
    | cons y l' =>
      obtain ⟨rfl, -, h'⟩ := h'
      rw [ih h h']

theorem exists_cons (ha : a ≠ stop) : ∃ l', l = a :: l' := by
  cases l with
  | nil => exact absurd h ha
  | cons x l =>
    obtain ⟨rfl, -⟩ := h
    exact ⟨l, rfl⟩

end

theorem next_mem (h : Threaded next stop a (a :: l)) (ht : t ∈ a :: l) (hne : next t ≠ stop) :
    next t ∈ l := by
  induction l generalizing a with
  | nil =>
    obtain rfl : t = a := mem_singleton.1 ht
    exact absurd h.2.2 hne
  | cons x l ih =>
    obtain ⟨-, -, h⟩ := h
    obtain ⟨rfl, -⟩ := id h
    rcases mem_cons.1 ht with rfl | ht
    · exact mem_cons_self
    · exact mem_cons_of_mem _ (ih h ht)

variable [DecidableEq α]

theorem push (h : Threaded next stop a l) (hb : b ∉ l) (hstop : b ≠ stop) :
    Threaded (update next b a) stop b (b :: l) := by
  refine ⟨rfl, hstop, ?_⟩
  rw [update_self]
  refine h.frame fun x hx => update_of_ne ?_ _ _
  rintro rfl
  exact hb hx

theorem unlink (h : Threaded next stop a l) (hnd : l.Nodup) (ht : t ∈ l) (hne : next t ≠ stop) :
    Threaded (update next t (next (next t))) stop a (l.erase (next t)) := by
  induction l generalizing a with
  | nil => exact absurd ht not_mem_nil
  | cons x l ih =>
    obtain ⟨rfl, ha, h'⟩ := id h
    obtain ⟨hxl, hnd⟩ := nodup_cons.1 hnd
    have hmem : next t ∈ l := h.next_mem ht hne
    rw [erase_cons_tail (by rw [beq_iff_eq]; rintro rfl; exact hxl hmem)]
    refine ⟨rfl, ha, ?_⟩
    by_cases hta : a = t
    · -- the element is right below the top
      subst hta
      rw [update_self]
      obtain ⟨l', rfl⟩ := h'.exists_cons hne
      rw [erase_cons_head]
      refine h'.2.2.frame fun x hx => update_of_ne ?_ _ _
      rintro rfl
      exact hxl (mem_cons_of_mem _ hx)
    · rw [update_of_ne hta]
      rcases mem_cons.1 ht with rfl | ht
      · exact absurd rfl hta
      · exact ih h' hnd ht

end Threaded

end QemuAndroid.Lib
