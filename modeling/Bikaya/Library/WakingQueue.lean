import Mathlib.Data.Nat.Count
import Bikaya.Library.AgingQueue

/-!
# Queues that age on wake-ups

A queue ordered by key.  A wake-up takes the first element out, and each element left
behind gains one unit.  Between two wake-ups elements enter by stable insertion, and leave
when they die, while the keys do not change.  An element is overtaken by newcomers only
until its key has reached theirs, so it is woken after a bounded number of wake-ups.

**Results.**
* `Waits.step`: one step wakes the element, or leaves it waiting with the wake-up counted.
* `woken_of_run`: the bound on the wake-ups.
-/

namespace AgingQueue

open StableInsert

universe u

variable {α : Type u}

/-- One step of the queue; the flag tells whether it is a wake-up. -/
inductive Serves
    (dead : α → Prop) (key : α → ℤ) (q : List α) (key' : α → ℤ) : Bool → List α → Prop
  /-- The first element leaves, and the others age. -/
  | wake :
      (∀ y ∈ q.tail, key' y = key y + 1) →
      Serves dead key q key' true q.tail
  /-- None but the dead elements leave. -/
  | leave (q' : List α) :
      q'.Sublist q →
      (∀ y ∈ q, ¬ dead y → y ∈ q') →
      (∀ y ∈ q', key' y = key y) →
      Serves dead key q key' false q'
  /-- A new element enters. -/
  | enter (z : α) :
      z ∉ q →
      (∀ y ∈ q, key' y = key y) →
      Serves dead key q key' false (stableInsert key' z q)

variable {dead : α → Prop} {key key' : α → ℤ} {q q' : List α} {woken : Bool} {x : α}

/-- Such a queue is an aging queue. -/
theorem Serves.evolves (h : Serves dead key q key' woken q') : Evolves key q key' q' := by
  cases h with
  | wake hage =>
      refine Evolves.leave (List.tail_sublist q) (fun y hy z hz => ?_)
      rw [hage y hy, hage z hz]
      omega
  | leave _ hsub _ hkeep =>
      exact Evolves.leave hsub (SameOrder.of_eq hkeep)
  | enter z hz hkeep =>
      exact Evolves.enter q z (List.Sublist.refl q) (SameOrder.of_eq hkeep) hz rfl

/-- An element of a shorter queue does not stand further back. -/
theorem idxOf_le_of_sublist
    [DecidableEq α] (h : q'.Sublist q) (hq : q.Nodup) (hx : x ∈ q') :
    q'.idxOf x ≤ q.idxOf x := by
  induction h with
  | slnil =>
      exact le_rfl
  | @cons l₁ l₂ a hsub ih =>
      obtain ⟨ha, hl₂⟩ := List.nodup_cons.mp hq
      have hxa : a ≠ x := fun heq => ha (heq ▸ hsub.subset hx)
      rw [List.idxOf_cons_ne _ hxa]
      exact (ih hl₂ hx).trans (Nat.le_succ _)
  | @cons_cons l₁ l₂ a hsub ih =>
      obtain ⟨-, hl₂⟩ := List.nodup_cons.mp hq
      by_cases hxa : a = x
      · rw [List.idxOf_cons_eq _ hxa]
        exact Nat.zero_le _
      · rw [List.idxOf_cons_ne _ hxa, List.idxOf_cons_ne _ hxa]
        exact Nat.succ_le_succ (ih hl₂ ((List.mem_cons.mp hx).resolve_left (Ne.symm hxa)))

section Waits

variable [DecidableEq α] {c M : ℤ} {D N v : ℕ}

/--
The element `x`, which began with the key `c`, has seen `v` wake-ups.  After the first
`D` of them it is not overtaken any more, and each one brings it a place forward.
-/
structure Waits (key : α → ℤ) (q : List α) (x : α) (c : ℤ) (D N v : ℕ) : Prop where
  mem : x ∈ q
  key_eq : key x = c + v
  place : q.idxOf x + (v - D) < N

/-- The number of wake-ups that an element sees is bounded. -/
theorem Waits.lt (h : Waits key q x c D N v) : v < D + N := by
  have := h.place
  omega

/-- One step: the element is woken, or it waits on. -/
theorem Waits.step
    (h : Waits key q x c D N v) (hstep : Serves dead key q key' woken q')
    (hsorted : NonIncreasing key q) (hnd : q.Nodup) (hx : ¬ dead x)
    (hM : ∀ z ∈ q', z ∉ q → key' z ≤ c + D) (hN : q'.length ≤ N) :
    (woken = true ∧ q.head? = some x) ∨ Waits key' q' x c D N (v + woken.toNat) := by
  have hplace := h.place
  have hkey := h.key_eq
  cases hstep with
  | wake hage =>
      have hmem := h.mem
      cases q with
      | nil =>
          exact absurd hmem List.not_mem_nil
      | cons y rest =>
          by_cases hyx : y = x
          · exact Or.inl ⟨rfl, by rw [hyx]; rfl⟩
          · have hrest : x ∈ rest := (List.mem_cons.mp hmem).resolve_left (Ne.symm hyx)
            rw [List.idxOf_cons_ne _ hyx] at hplace
            refine Or.inr ⟨hrest, ?_, ?_⟩
            · rw [hage x hrest, hkey, Bool.toNat_true]
              push_cast
              omega
            · rw [List.tail_cons, Bool.toNat_true]
              omega
  | leave _ hsub hstay hkeep =>
      have hmem := hstay x h.mem hx
      have hle := idxOf_le_of_sublist hsub hnd hmem
      refine Or.inr ⟨hmem, ?_, ?_⟩
      · rw [hkeep x hmem, hkey, Bool.toNat_false, add_zero]
      · rw [Bool.toNat_false]
        omega
  | enter z hz hkeep =>
      have hmem : x ∈ stableInsert key' z q := mem_stableInsert.mpr (Or.inr h.mem)
      have hkey' : key' x = c + v := (hkeep x h.mem).trans hkey
      refine Or.inr ⟨hmem, by rw [hkey', Bool.toNat_false, add_zero], ?_⟩
      rw [Bool.toNat_false, add_zero]
      by_cases hv : v < D
      · -- the newcomer may overtake, but the queue is bounded
        have hlt := List.idxOf_lt_length_of_mem hmem
        omega
      · -- the key of `x` has reached the bound
        have hle : key' z ≤ key' x := by
          have := hM z (mem_stableInsert.mpr (Or.inl rfl)) hz
          rw [hkey']
          omega
        have hsorted' : NonIncreasing key' q := (SameOrder.of_eq hkeep).nonIncreasing hsorted
        rw [idxOf_stableInsert_of_le hsorted' h.mem hle]
        exact hplace

variable {deads : ℕ → α → Prop} {wakes : ℕ → Bool} {n : ℕ}

/--
An element of key `c` is woken by the wake-up number `(M - c).toNat + N` at the latest,
if newcomers have keys of at most `M` and at most `N` elements are in the queue.
-/
theorem woken_of_run
    (keys : ℕ → α → ℤ) (qs : ℕ → List α)
    (hstep : ∀ i < n, Serves (deads i) (keys i) (qs i) (keys (i + 1)) (wakes i) (qs (i + 1)))
    (hsorted : NonIncreasing (keys 0) (qs 0)) (hnd : ∀ i ≤ n, (qs i).Nodup)
    (hx : x ∈ qs 0) (hlive : ∀ i < n, x ∈ qs i → ¬ deads i x)
    (hM : ∀ i < n, ∀ z ∈ qs (i + 1), z ∉ qs i → keys (i + 1) z ≤ M)
    (hN : ∀ i ≤ n, (qs i).length ≤ N)
    (hcount : (M - keys 0 x).toNat + N ≤ Nat.count (fun i => wakes i = true) n) :
    ∃ i < n, wakes i = true ∧ (qs i).head? = some x ∧
      Nat.count (fun j => wakes j = true) (i + 1) ≤ (M - keys 0 x).toNat + N := by
  have hsorted' := nonIncreasing_of_evolves (fun i hi => (hstep i hi).evolves) hsorted
  -- up to each moment the element has been woken, or it waits
  have hinv : ∀ i ≤ n,
      (∃ j < i, wakes j = true ∧ (qs j).head? = some x ∧
        Nat.count (fun j => wakes j = true) (j + 1) ≤ (M - keys 0 x).toNat + N) ∨
      Waits (keys i) (qs i) x (keys 0 x) (M - keys 0 x).toNat N
        (Nat.count (fun j => wakes j = true) i) := by
    intro i
    induction i with
    | zero =>
        intro hi
        refine Or.inr ⟨hx, by simp, ?_⟩
        have := List.idxOf_lt_length_of_mem hx
        have := hN 0 hi
        simp only [Nat.count_zero, Nat.zero_sub]
        omega
    | succ i ih =>
        intro hi
        rcases ih (by omega) with ⟨j, hj, hserved⟩ | hwaits
        · exact Or.inl ⟨j, by omega, hserved⟩
        · have hbound := hwaits.lt
          have hM' : ∀ z ∈ qs (i + 1), z ∉ qs i →
              keys (i + 1) z ≤ keys 0 x + (M - keys 0 x).toNat := by
            intro z hz hz'
            have := hM i (by omega) z hz hz'
            omega
          have hcase := hwaits.step (hstep i (by omega)) (hsorted' i (by omega)) (hnd i (by omega))
            (hlive i (by omega) hwaits.mem) hM' (hN (i + 1) hi)
          have hsucc : Nat.count (fun j => wakes j = true) (i + 1) =
              Nat.count (fun j => wakes j = true) i + (wakes i).toNat := by
            rw [Nat.count_succ]
            cases wakes i <;> rfl
          rw [hsucc]
          rcases hcase with ⟨hw, hhead⟩ | hnext
          · refine Or.inl ⟨i, by omega, hw, hhead, ?_⟩
            rw [hsucc, hw, Bool.toNat_true]
            omega
          · exact Or.inr hnext
  rcases hinv n le_rfl with ⟨i, hi, hserved⟩ | hwaits
  · exact ⟨i, hi, hserved⟩
  · have := hwaits.lt
    omega

end Waits

end AgingQueue
