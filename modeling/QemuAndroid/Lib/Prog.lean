import Mathlib.Data.BitVec

/-!
# Programs that fail

A program changes a state and returns a value, raises an error that its caller may handle, or
halts: an assertion fails, its behaviour is undefined, or the steps that it was given are used up.
The state is there in each case.

`wp` is the weakest precondition of a program, with one postcondition for each way to end; it
commutes with the constructs of the language, and `wp_iterate` is the invariant rule of its loop.
-/

namespace QemuAndroid.Lib

universe u v w

/-- Why a program does not go on. -/
inductive Halt
  | assertion
  | undefined
  | fuel
deriving DecidableEq

/-- How a program ends. -/
inductive Exit (ε : Type v) (α : Type w)
  | ok (a : α)
  | raised (e : ε)
  | halted (h : Halt)
deriving DecidableEq

/-- A program over the states `σ`. -/
def Prog (σ : Type u) (ε : Type v) (α : Type w) := σ → Exit ε α × σ

namespace Prog

variable {σ : Type u} {ε : Type v} {α β : Type w}

instance : Monad (Prog σ ε) where
  pure a := fun s => (.ok a, s)
  bind m f := fun s =>
    match m s with
    | (.ok a, s') => f a s'
    | (.raised e, s') => (.raised e, s')
    | (.halted h, s') => (.halted h, s')

def get : Prog σ ε σ := fun s => (.ok s, s)

def modify (f : σ → σ) : Prog σ ε Unit := fun s => (.ok (), f s)

def raise (e : ε) : Prog σ ε α := fun s => (.raised e, s)

def halt (h : Halt) : Prog σ ε α := fun s => (.halted h, s)

def assert (p : Prop) [Decidable p] : Prog σ ε Unit := if p then pure () else halt .assertion

def when (p : Prop) [Decidable p] (m : Prog σ ε Unit) : Prog σ ε Unit := if p then m else pure ()

/-- Run a program and return its error, if it fails. -/
def attempt (m : Prog σ ε α) : Prog σ ε (Except ε α) := fun s =>
  match m s with
  | (.ok a, s') => (.ok (.ok a), s')
  | (.raised e, s') => (.ok (.error e), s')
  | (.halted h, s') => (.halted h, s')

/-- A loop: the body returns the value of the loop, or that of its variable for the next round. -/
def iterate (body : β → Prog σ ε (β ⊕ α)) : Nat → β → Prog σ ε α
  | 0, _ => halt .fuel
  | fuel + 1, b => do
      match ← body b with
      | .inl b' => iterate body fuel b'
      | .inr a => pure a

/-! ## Evaluation -/

section Bind

variable {m : Prog σ ε α} {s s' : σ}

theorem bind_of_ok {a : α} (h : m s = (.ok a, s')) (f : α → Prog σ ε β) : (m >>= f) s = f a s' := by
  dsimp only [bind]
  rw [h]

theorem bind_of_halted {k : Halt} (h : m s = (.halted k, s')) (f : α → Prog σ ε β) :
    (m >>= f) s = (.halted k, s') := by
  dsimp only [bind]
  rw [h]

end Bind

/-! ## Weakest preconditions -/

/-- Run from the state, the program ends as the postconditions say: `Q` when it returns, `R` when it
raises an error, `H` when it halts. -/
def wp (m : Prog σ ε α) (Q : α → σ → Prop) (R : ε → σ → Prop) (H : σ → Prop) (s : σ) : Prop :=
  match m s with
  | (.ok a, s') => Q a s'
  | (.raised e, s') => R e s'
  | (.halted _, s') => H s'

variable {m : Prog σ ε α} {Q Q' : α → σ → Prop} {R R' : ε → σ → Prop} {H H' : σ → Prop} {s s' : σ}

theorem wp_mono (h : wp m Q R H s) (hQ : ∀ a s', Q a s' → Q' a s') (hR : ∀ e s', R e s' → R' e s')
    (hH : ∀ s', H s' → H' s' := by exact fun _ hh => hh) : wp m Q' R' H' s := by
  unfold wp at h ⊢
  split at h
  · exact hQ _ _ h
  · exact hR _ _ h
  · exact hH _ h

@[simp]
theorem wp_pure (a : α) : wp (pure a) Q R H s ↔ Q a s := Iff.rfl

@[simp]
theorem wp_bind {Q : β → σ → Prop} (m : Prog σ ε α) (f : α → Prog σ ε β) :
    wp (m >>= f) Q R H s ↔ wp m (fun a s' => wp (f a) Q R H s') R H s := by
  unfold wp
  dsimp only [bind]
  generalize m s = r
  rcases r with ⟨a | e | h, s'⟩ <;> exact Iff.rfl

/-- The rule for one program after another. -/
theorem wp_seq {Q : α → σ → Prop} {Q' : β → σ → Prop} {f : α → Prog σ ε β} (h : wp m Q R H s)
    (hQ : ∀ a s', Q a s' → wp (f a) Q' R' H' s') (hR : ∀ e s', R e s' → R' e s')
    (hH : ∀ s', H s' → H' s' := by exact fun _ hh => hh) : wp (m >>= f) Q' R' H' s :=
  (wp_bind m f).2 (wp_mono h hQ hR hH)

@[simp]
theorem wp_get {Q : σ → σ → Prop} : wp get Q R H s ↔ Q s s := Iff.rfl

@[simp]
theorem wp_modify {Q : Unit → σ → Prop} (f : σ → σ) : wp (modify f) Q R H s ↔ Q () (f s) := Iff.rfl

@[simp]
theorem wp_attempt {Q : Except ε α → σ → Prop} (m : Prog σ ε α) :
    wp (attempt m) Q R H s ↔ wp m (fun a s' => Q (.ok a) s') (fun e s' => Q (.error e) s') H s := by
  unfold wp attempt
  generalize m s = r
  rcases r with ⟨a | e | h, s'⟩ <;> exact Iff.rfl

variable {p : Prop}

theorem wp_assert {Q : Unit → σ → Prop} [Decidable p] (hQ : p → Q () s) (hH : ¬p → H s) :
    wp (assert p) Q R H s := by
  unfold assert
  split
  · rename_i hp
    exact hQ hp
  · rename_i hp
    exact hH hp

theorem wp_when {Q : Unit → σ → Prop} [Decidable p] {m : Prog σ ε Unit} (ht : p → wp m Q R H s)
    (he : ¬p → Q () s) : wp (when p m) Q R H s := by
  unfold when
  split
  · rename_i hp
    exact ht hp
  · rename_i hp
    exact he hp

theorem wp_ite [Decidable p] {m' : Prog σ ε α} (ht : p → wp m Q R H s) (he : ¬p → wp m' Q R H s) :
    wp (if p then m else m') Q R H s := by
  split
  · rename_i hp
    exact ht hp
  · rename_i hp
    exact he hp

/-- The invariant rule: what holds of the variable and the state before each round of a loop. -/
theorem wp_iterate {body : β → Prog σ ε (β ⊕ α)} (I : β → σ → Prop) (hH : ∀ b s, I b s → H s)
    (hbody : ∀ b s, I b s → wp (body b)
      (fun r s' => match r with
        | .inl b' => I b' s'
        | .inr a => Q a s') R H s)
    (fuel : Nat) {b : β} (h : I b s) : wp (iterate body fuel b) Q R H s := by
  induction fuel generalizing b s with
  | zero => exact hH b s h
  | succ fuel ih =>
    rw [iterate, wp_bind]
    refine wp_mono (hbody b s h) ?_ (fun _ _ hr => hr)
    rintro (b' | a) s' hr
    · exact ih hr
    · exact hr

end Prog

end QemuAndroid.Lib
