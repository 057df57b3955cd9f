import Mathlib.Algebra.BigOperators.Intervals
import Mathlib.Data.Nat.Init
import Mathlib.Order.Basic

/-!
# Runs of labelled transition systems

A run is given by the sequence of its states and the sequence of its events, both indexed
by the natural numbers; only an initial part of each is constrained.  Properties of runs
are obtained from the preservation of an invariant by one step.

**Results.**
* `IsRun.invariant`, `IsRun.invariant_of`: a property of the start is kept along the run.
* `IsRun.steps_iff`: when every step of a run has a property.
* `balance`: a quantity along a run is the sum of what the steps add to it.
* `isRun_states`: a run that is computed by a function.
-/

namespace TransitionSystem

universe u v

variable {σ : Type u} {ε : Type v}

/-- The first `n` states of `s` are linked by the first `n` events of `e`. -/
def IsRun
    (step : σ → ε → σ → Prop)
    (s : ℕ → σ) (e : ℕ → ε) (n : ℕ) : Prop :=
  ∀ i < n, step (s i) (e i) (s (i + 1))

/-- States reached from an initial state by finitely many steps. -/
inductive Reachable
    (init : σ → Prop)
    (step : σ → ε → σ → Prop) : σ → Prop
  | start {a : σ} : init a → Reachable init step a
  | step {a b : σ} {l : ε} :
      Reachable init step a →
      step a l b →
      Reachable init step b

section Runs

variable {step : σ → ε → σ → Prop}
variable {s : ℕ → σ} {e : ℕ → ε} {n : ℕ}

theorem IsRun.initial
    (h : IsRun step s e n) {m : ℕ} (hm : m ≤ n) :
    IsRun step s e m :=
  fun i hi => h i (Nat.lt_of_lt_of_le hi hm)

/--
The invariant rule.  The condition `C` on a step may be used while proving that
the step preserves the invariant.
-/
theorem IsRun.invariant_of
    {Inv : σ → Prop} {C : σ → ε → Prop}
    (h : IsRun step s e n)
    (hC : ∀ i < n, C (s i) (e i))
    (h0 : Inv (s 0))
    (hstep : ∀ a l b, Inv a → C a l → step a l b → Inv b) :
    ∀ i ≤ n, Inv (s i) := by
  intro i
  induction i with
  | zero =>
      intro _
      exact h0
  | succ i ih =>
      intro hi
      exact hstep _ _ _ (ih (by omega)) (hC i (by omega)) (h i (by omega))

/-- The invariant rule for an unconditional step lemma. -/
theorem IsRun.invariant
    {Inv : σ → Prop}
    (h : IsRun step s e n)
    (h0 : Inv (s 0))
    (hstep : ∀ a l b, Inv a → step a l b → Inv b) :
    ∀ i ≤ n, Inv (s i) :=
  h.invariant_of (C := fun _ _ => True) (fun _ _ => trivial) h0
    (fun a l b ha _ hb => hstep a l b ha hb)

/--
The exact condition of a property of steps: if the condition keeps the invariant,
and decides the property where the invariant holds, then it decides it for the
whole run.
-/
theorem IsRun.steps_iff
    {Inv : σ → Prop} {C : σ → ε → Prop} {P : σ → ε → σ → Prop}
    (h : IsRun step s e n)
    (h0 : Inv (s 0))
    (hstep : ∀ a l b, Inv a → C a l → step a l b → Inv b)
    (hiff : ∀ a l b, Inv a → step a l b → (P a l b ↔ C a l)) :
    (∀ i < n, P (s i) (e i) (s (i + 1))) ↔ ∀ i < n, C (s i) (e i) := by
  have hinv : ∀ i ≤ n, (∀ j < i, C (s j) (e j)) → Inv (s i) :=
    fun i hi hC => (h.initial hi).invariant_of hC h0 hstep i le_rfl
  constructor
  · intro hP i
    induction i using Nat.strong_induction_on with
    | _ i ih =>
        intro hi
        have hbefore : Inv (s i) := hinv i hi.le (fun j hj => ih j hj (by omega))
        exact (hiff _ _ _ hbefore (h i hi)).mp (hP i hi)
  · intro hC i hi
    have hbefore : Inv (s i) := hinv i hi.le (fun j hj => hC j (by omega))
    exact (hiff _ _ _ hbefore (h i hi)).mpr (hC i hi)

/-- The accounting rule: a quantity is its initial value and what the steps add to it. -/
theorem balance
    (quantity : σ → ℤ) {gain : ℕ → ℤ}
    (hgain : ∀ i < n, quantity (s (i + 1)) = quantity (s i) + gain i) :
    ∀ i ≤ n, quantity (s i) = quantity (s 0) + ∑ j ∈ Finset.range i, gain j := by
  intro i
  induction i with
  | zero =>
      intro _
      simp
  | succ i ih =>
      intro hi
      rw [Finset.sum_range_succ, hgain i (by omega), ih (by omega), add_assoc]

/-- The same from any state of a run on. -/
theorem balance_from
    {β : Type*} [AddCommMonoid β] (quantity : ℕ → β) {gain : ℕ → β} {b : ℕ}
    (hgain : ∀ i, b ≤ i → i < n → quantity (i + 1) = quantity i + gain i) {i : ℕ}
    (hbi : b ≤ i) (hi : i ≤ n) :
    quantity i = quantity b + ∑ j ∈ Finset.Ico b i, gain j := by
  induction i, hbi using Nat.le_induction with
  | base =>
      simp
  | succ i hbi ih =>
      rw [Finset.sum_Ico_succ_top hbi, hgain i hbi (by omega), ih (by omega), add_assoc]

/--
The rule of the last cause: what only begins when it is caused, and only ends when it is
ended, holds exactly when it has been caused and not ended since.
-/
theorem since_iff
    {P caused ended : ℕ → Prop} (h0 : ¬ P 0)
    (hstep : ∀ i < n, P (i + 1) ↔ (P i ∧ ¬ ended i) ∨ caused i) :
    ∀ i ≤ n, P i ↔ ∃ j < i, caused j ∧ ∀ l, j < l → l < i → ¬ ended l := by
  intro i
  induction i with
  | zero =>
      intro _
      exact ⟨fun h => absurd h h0, fun ⟨j, hj, _⟩ => absurd hj (Nat.not_lt_zero j)⟩
  | succ i ih =>
      intro hi
      rw [hstep i hi, ih (by omega)]
      constructor
      · rintro (⟨⟨j, hj, hcause, hlast⟩, hend⟩ | hcause)
        · refine ⟨j, by omega, hcause, fun l hjl hl => ?_⟩
          rcases Nat.lt_succ_iff_lt_or_eq.mp hl with hl | rfl
          · exact hlast l hjl hl
          · exact hend
        · exact ⟨i, Nat.lt_succ_self i, hcause, fun l hil hl => absurd hl (by omega)⟩
      · rintro ⟨j, hj, hcause, hlast⟩
        rcases Nat.lt_succ_iff_lt_or_eq.mp hj with hj | rfl
        · refine Or.inl ⟨⟨j, hj, hcause, fun l hjl hl => hlast l hjl (by omega)⟩, ?_⟩
          exact hlast i hj (Nat.lt_succ_self i)
        · exact Or.inr hcause

/-- Every state of a run that starts in a reachable state is reachable. -/
theorem IsRun.reachable
    {init : σ → Prop}
    (h : IsRun step s e n) (h0 : Reachable init step (s 0)) :
    ∀ i ≤ n, Reachable init step (s i) :=
  h.invariant h0 (fun _ _ _ ha hb => Reachable.step ha hb)

/-- The invariant rule for reachable states. -/
theorem Reachable.invariant
    {init : σ → Prop} {Inv : σ → Prop} {a : σ}
    (h : Reachable init step a)
    (h0 : ∀ a, init a → Inv a)
    (hstep : ∀ a l b, Inv a → step a l b → Inv b) :
    Inv a := by
  induction h with
  | start ha =>
      exact h0 _ ha
  | step _ hab ih =>
      exact hstep _ _ _ ih hab

end Runs

section Deterministic

variable (next : σ → ε → Option σ)

/-- The states a deterministic system passes through while it reads a list of events. -/
def states : σ → List ε → ℕ → σ
  | a, _, 0 => a
  | a, [], _ + 1 => a
  | a, l :: ls, i + 1 =>
      match next a l with
      | none => a
      | some b => states b ls i

/-- The system can read the whole list of events. -/
def accepts : σ → List ε → Bool
  | _, [] => true
  | a, l :: ls =>
      match next a l with
      | none => false
      | some b => accepts b ls

variable {next}

/-- Reading a list of events that is accepted is a run. -/
theorem isRun_states (l₀ : ε) :
    ∀ {a : σ} {ls : List ε}, accepts next a ls = true →
      IsRun (fun a l b => next a l = some b) (states next a ls) (fun i => ls.getD i l₀)
        ls.length := by
  intro a ls
  induction ls generalizing a with
  | nil =>
      intro _ i hi
      exact absurd hi (Nat.not_lt_zero i)
  | cons l ls ih =>
      intro h i hi
      cases hnext : next a l with
      | none =>
          rw [accepts, hnext] at h
          exact absurd h (by simp)
      | some b =>
          rw [accepts, hnext] at h
          cases i with
          | zero =>
              simp [states, hnext]
          | succ i =>
              have := ih h i (Nat.lt_of_succ_lt_succ hi)
              simpa [states, hnext] using this

end Deterministic

end TransitionSystem
