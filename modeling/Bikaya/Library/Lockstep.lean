import Bikaya.Library.Runs

/-!
# Computations in lockstep

Two fallible computations agree up to a relation when both return, with related results, or
both fail, for the same reason.  Agreement is kept by the ways in which computations are
put together, and a step that agrees with another one follows every run of it.

**Results.**
* `Agree.bind`, `Agree.foldlM`, `Agree.foldl`: sequences and loops.
* `follows_run`: a run is followed from related starts on.
-/

namespace Lockstep

universe u v w

variable {ε : Type u} {α β α' β' : Type v}

/-- Both return related results, or both fail alike. -/
inductive Agree (R : α → β → Prop) : Except ε α → Except ε β → Prop
  | ok {a : α} {b : β} (h : R a b) : Agree R (.ok a) (.ok b)
  | error (e : ε) : Agree R (.error e) (.error e)

namespace Agree

variable {R R' : α → β → Prop} {T : α' → β' → Prop}
variable {x : Except ε α} {y : Except ε β}

@[simp] theorem ok_iff
    {a : α} {b : β} :
    Agree R (.ok a : Except ε α) (.ok b) ↔ R a b := by
  constructor
  · rintro ⟨h⟩
    exact h
  · exact Agree.ok

theorem mono
    (h : Agree R x y) (hR : ∀ a b, R a b → R' a b) :
    Agree R' x y := by
  cases h with
  | ok hab =>
      exact Agree.ok (hR _ _ hab)
  | error e =>
      exact Agree.error e

/-- A computation agrees with itself, and what it returns may be known. -/
theorem self
    {P : α → Prop} {x : Except ε α} (h : ∀ a, x = .ok a → P a) :
    Agree (fun a b => a = b ∧ P a) x x := by
  cases x with
  | ok a =>
      exact Agree.ok ⟨rfl, h a rfl⟩
  | error e =>
      exact Agree.error e

/-- Sequencing. -/
theorem bind
    {f : α → Except ε α'} {g : β → Except ε β'}
    (h : Agree R x y) (hfg : ∀ a b, R a b → Agree T (f a) (g b)) :
    Agree T (x >>= f) (y >>= g) := by
  cases h with
  | ok hab =>
      exact hfg _ _ hab
  | error e =>
      exact Agree.error e

/-- Sequencing after a step that the second computation takes without failing. -/
theorem bind_left
    {f : α → Except ε α'} {b : β} {z : Except ε β'}
    (h : Agree R x (.ok b)) (hf : ∀ a, R a b → Agree T (f a) z) :
    Agree T (x >>= f) z := by
  cases h with
  | ok hab =>
      exact hf _ hab

theorem map
    {f : α → α'} {g : β → β'}
    (h : Agree R x y) (hfg : ∀ a b, R a b → T (f a) (g b)) :
    Agree T (x.map f) (y.map g) := by
  cases h with
  | ok hab =>
      exact Agree.ok (hfg _ _ hab)
  | error e =>
      exact Agree.error e

/-- Loops over the same list. -/
theorem foldlM
    {ι : Type w} {f : α → ι → Except ε α} {g : β → ι → Except ε β}
    (hfg : ∀ a b i, R a b → Agree R (f a i) (g b i))
    (l : List ι) {a : α} {b : β} (hab : R a b) :
    Agree R (l.foldlM f a) (l.foldlM g b) := by
  induction l generalizing a b with
  | nil =>
      exact Agree.ok hab
  | cons i l ih =>
      rw [List.foldlM_cons, List.foldlM_cons]
      exact (hfg a b i hab).bind (fun a' b' hab' => ih hab')

/-- A loop against one that cannot fail. -/
theorem foldl
    {ι : Type w} {f : α → ι → Except ε α} {g : β → ι → β}
    (hfg : ∀ a b i, R a b → Agree R (f a i) (.ok (g b i)))
    (l : List ι) {a : α} {b : β} (hab : R a b) :
    Agree R (l.foldlM f a) (.ok (l.foldl g b)) := by
  have hpure : ∀ b, (Except.ok (l.foldl g b) : Except ε β) =
      l.foldlM (fun b i => .ok (g b i)) b := by
    intro b
    induction l generalizing b with
    | nil =>
        rfl
    | cons i l ih =>
        exact ih (g b i)
  rw [hpure]
  exact Agree.foldlM hfg l hab

/-- What the second computation returns, the first one follows. -/
theorem of_ok
    {b : β} (h : Agree R x (.ok b)) :
    ∃ a, x = .ok a ∧ R a b := by
  cases h with
  | ok hab =>
      exact ⟨_, rfl, hab⟩

theorem of_error
    {e : ε} (h : Agree R x (.error e)) :
    x = .error e := by
  cases h with
  | error e =>
      rfl

/-- What the first computation returns, the second one follows. -/
theorem ok_of
    {a : α} (h : Agree R (.ok a) y) :
    ∃ b, y = .ok b ∧ R a b := by
  cases h with
  | ok hab =>
      exact ⟨_, rfl, hab⟩

end Agree

section Runs

open TransitionSystem

variable {σ τ : Type v} {ι : Type w} {R : τ → σ → Prop}
variable {step : σ → ι → σ → Prop} {step' : τ → ι → τ → Prop}
variable {s : ℕ → σ} {e : ℕ → ι} {n : ℕ}

/--
Forward simulation: a system that follows every step of another one, as long as an
invariant of the other one and a condition on its step hold, follows its runs.
-/
theorem follows_run
    {Inv : σ → Prop} {C : σ → ι → Prop}
    (hrun : IsRun step s e n) (hC : ∀ i < n, C (s i) (e i)) (h0 : Inv (s 0))
    (hInv : ∀ a l b, Inv a → C a l → step a l b → Inv b)
    (hstep : ∀ t a l b, R t a → Inv a → C a l → step a l b → ∃ t', step' t l t' ∧ R t' b)
    {t₀ : τ} (ht₀ : R t₀ (s 0)) :
    ∃ t : ℕ → τ, t 0 = t₀ ∧ IsRun step' t e n ∧ ∀ i ≤ n, R (t i) (s i) := by
  induction n with
  | zero =>
      refine ⟨fun _ => t₀, rfl, fun i hi => absurd hi (Nat.not_lt_zero i), ?_⟩
      intro i hi
      rw [Nat.le_zero.mp hi]
      exact ht₀
  | succ n ih =>
      obtain ⟨t, hzero, hfollow, hR⟩ :=
        ih (hrun.initial (Nat.le_succ n)) (fun i hi => hC i (Nat.lt_succ_of_lt hi))
      have hinv : Inv (s n) :=
        hrun.invariant_of hC h0 hInv n (Nat.le_succ n)
      obtain ⟨t', hlast, hR'⟩ :=
        hstep (t n) (s n) (e n) (s (n + 1)) (hR n le_rfl) hinv (hC n (Nat.lt_succ_self n))
          (hrun n (Nat.lt_succ_self n))
      -- the new state is appended to the run
      have hold : ∀ i ≤ n, Function.update t (n + 1) t' i = t i := by
        intro i hi
        exact Function.update_of_ne (by omega) _ _
      refine ⟨Function.update t (n + 1) t', ?_, ?_, ?_⟩
      · rw [hold 0 (Nat.zero_le n), hzero]
      · intro i hi
        rcases Nat.lt_succ_iff_lt_or_eq.mp hi with hi | rfl
        · rw [hold i hi.le, hold (i + 1) hi]
          exact hfollow i hi
        · rw [hold i le_rfl, Function.update_self]
          exact hlast
      · intro i hi
        rcases Nat.lt_or_eq_of_le hi with hi | rfl
        · rw [hold i (Nat.lt_succ_iff.mp hi)]
          exact hR i (Nat.lt_succ_iff.mp hi)
        · rw [Function.update_self]
          exact hR'

end Runs

end Lockstep
