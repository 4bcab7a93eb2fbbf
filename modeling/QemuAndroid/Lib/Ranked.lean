import Mathlib.Logic.Relation

/-!
# Ranked relations

A relation along which a rank falls has no cycles, and following it comes to an end.  An edge to an
element without successors can always be added.
-/

namespace QemuAndroid.Lib

universe u

variable {α : Type u} {R R' : α → α → Prop}

/-- Some rank falls along the relation. -/
def Ranked (R : α → α → Prop) : Prop := ∃ rank : α → Nat, ∀ a b, R a b → rank b < rank a

namespace Ranked

theorem mono (h : Ranked R) (hle : ∀ a b, R' a b → R a b) : Ranked R' := by
  obtain ⟨rank, hrank⟩ := h
  exact ⟨rank, fun a b hab => hrank a b (hle a b hab)⟩

theorem irrefl_transGen (h : Ranked R) (a : α) : ¬Relation.TransGen R a a := by
  obtain ⟨rank, hrank⟩ := h
  have hfalls : ∀ b, Relation.TransGen R a b → rank b < rank a := by
    intro b hb
    induction hb with
    | single hab => exact hrank _ _ hab
    | tail _ hbc ih => exact Nat.lt_trans (hrank _ _ hbc) ih
  intro hcycle
  exact Nat.lt_irrefl _ (hfalls a hcycle)

/-- An edge to an element without successors keeps the relation ranked. -/
theorem insert_sink (h : Ranked R) {x y : α} (hsink : ∀ z, ¬R y z) (hne : x ≠ y) :
    Ranked fun a b => R a b ∨ a = x ∧ b = y := by
  classical
  obtain ⟨rank, hrank⟩ := h
  refine ⟨fun z => if z = y then 0 else rank z + 1, ?_⟩
  rintro a b (hab | ⟨rfl, rfl⟩)
  · have ha : a ≠ y := by
      rintro rfl
      exact hsink b hab
    simp only [if_neg ha]
    split
    · exact Nat.succ_pos _
    · exact Nat.succ_lt_succ (hrank a b hab)
  · simp only [if_neg hne, if_true]
    exact Nat.succ_pos _

/-- Following the relation from where it can be followed ends somewhere. -/
theorem exists_end (h : Ranked R) {P Q : α → Prop} (hstep : ∀ a, P a → Q a ∨ ∃ b, R a b ∧ P b)
    {a : α} (ha : P a) : ∃ b, Relation.ReflTransGen R a b ∧ P b ∧ Q b := by
  obtain ⟨rank, hrank⟩ := h
  generalize hn : rank a = n
  induction n using Nat.strongRecOn generalizing a with
  | ind n ih =>
    rcases hstep a ha with hq | ⟨b, hab, hb⟩
    · exact ⟨a, .refl, ha, hq⟩
    · obtain ⟨c, hbc, hc⟩ := ih (rank b) (hn ▸ hrank a b hab) hb rfl
      exact ⟨c, .head hab hbc, hc⟩

end Ranked

end QemuAndroid.Lib
