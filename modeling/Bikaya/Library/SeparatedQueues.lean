import Mathlib.Data.Finset.Card
import Mathlib.Data.Fintype.Card
import Mathlib.Data.List.Perm.Basic
import Mathlib.Logic.Function.Basic

/-!
# Families of separated queues

A family of queues over a set of tokens is separated when every token occurs at most once,
in at most one queue of the family.  Separation is what a system of lists sharing one link
per token has to maintain; the rules below say how it is maintained by moving one token at
a time.

**Results.**
* `Separated.insert`, `Separated.remove`: a token enters a queue, and leaves it.
* `Separated.length_add_card_le`: the nonempty queues and the unplaced tokens are together
  no more than the tokens.
-/

namespace SeparatedQueues

universe u v

variable {ι : Type u} {α : Type v}

/-- Every token occurs at most once in the whole family. -/
structure Separated (Q : ι → List α) : Prop where
  nodup : ∀ i, (Q i).Nodup
  unique : ∀ i j x, x ∈ Q i → x ∈ Q j → i = j

/-- A token that stands in no queue of the family. -/
def Unplaced (Q : ι → List α) (x : α) : Prop :=
  ∀ i, x ∉ Q i

section Moves

variable [DecidableEq ι]
variable {Q : ι → List α} {i : ι} {l : List α} {x y : α}

/-- An unplaced token may be put into any queue, at any position. -/
theorem Separated.insert
    (h : Separated Q) (hx : Unplaced Q x)
    (hl : l.Perm (x :: Q i)) :
    Separated (Function.update Q i l) := by
  have hmem : ∀ j y, y ∈ Function.update Q i l j → y ∈ Q j ∨ (j = i ∧ y = x) := by
    intro j y hy
    by_cases hj : j = i
    · subst hj
      rw [Function.update_self, hl.mem_iff] at hy
      rcases List.mem_cons.mp hy with rfl | hy
      · exact Or.inr ⟨rfl, rfl⟩
      · exact Or.inl hy
    · rw [Function.update_of_ne hj] at hy
      exact Or.inl hy
  constructor
  · intro j
    by_cases hj : j = i
    · subst hj
      rw [Function.update_self]
      exact hl.nodup_iff.mpr (List.nodup_cons.mpr ⟨hx j, h.nodup j⟩)
    · rw [Function.update_of_ne hj]
      exact h.nodup j
  · intro j j' y hy hy'
    rcases hmem j y hy with hy | ⟨hj, hyx⟩
    · rcases hmem j' y hy' with hy' | ⟨_, hyx⟩
      · exact h.unique j j' y hy hy'
      · exact absurd (hyx ▸ hy) (hx j)
    · rcases hmem j' y hy' with hy' | ⟨hj', _⟩
      · exact absurd (hyx ▸ hy') (hx j')
      · rw [hj, hj']

/-- Removing tokens from a queue keeps the family separated. -/
theorem Separated.remove
    (h : Separated Q) (hl : l.Sublist (Q i)) :
    Separated (Function.update Q i l) := by
  have hmem : ∀ j y, y ∈ Function.update Q i l j → y ∈ Q j := by
    intro j y hy
    by_cases hj : j = i
    · subst hj
      rw [Function.update_self] at hy
      exact hl.subset hy
    · rwa [Function.update_of_ne hj] at hy
  constructor
  · intro j
    by_cases hj : j = i
    · subst hj
      rw [Function.update_self]
      exact (h.nodup j).sublist hl
    · rw [Function.update_of_ne hj]
      exact h.nodup j
  · intro j j' y hy hy'
    exact h.unique j j' y (hmem j y hy) (hmem j' y hy')

/-- A token removed from its queue is unplaced. -/
theorem Separated.unplaced_of_remove
    (h : Separated Q) (hx : x ∈ Q i) (hl : x ∉ l) :
    Unplaced (Function.update Q i l) x := by
  intro j
  by_cases hj : j = i
  · subst hj
    rwa [Function.update_self]
  · rw [Function.update_of_ne hj]
    intro hxj
    exact hj (h.unique j i x hxj hx)

/-- Putting one token somewhere leaves the other unplaced tokens unplaced. -/
theorem Unplaced.insert
    (hy : Unplaced Q y) (hne : y ≠ x)
    (hl : l.Perm (x :: Q i)) :
    Unplaced (Function.update Q i l) y := by
  intro j
  by_cases hj : j = i
  · subst hj
    rw [Function.update_self, hl.mem_iff]
    simpa [hne] using hy j
  · rw [Function.update_of_ne hj]
    exact hy j

/-- Removing tokens leaves the unplaced tokens unplaced. -/
theorem Unplaced.remove
    (hy : Unplaced Q y) (hl : l ⊆ Q i) :
    Unplaced (Function.update Q i l) y := by
  intro j
  by_cases hj : j = i
  · subst hj
    rw [Function.update_self]
    exact fun h => hy j (hl h)
  · rw [Function.update_of_ne hj]
    exact hy j

end Moves

/--
The pigeonhole rule: distinct nonempty queues, and the tokens that are unplaced,
are together no more than the tokens there are.
-/
theorem Separated.length_add_card_le
    [Fintype α] [DecidableEq α]
    {Q : ι → List α} (h : Separated Q)
    (is : List ι) (his : is.Nodup)
    (hne : ∀ i ∈ is, Q i ≠ [])
    (U : Finset α) (hU : ∀ x ∈ U, Unplaced Q x) :
    is.length + U.card ≤ Fintype.card α := by
  -- the head of each queue represents the queue
  let heads : List α := is.filterMap (fun i => (Q i).head?)
  have hheads : ∀ js : List ι, (∀ i ∈ js, Q i ≠ []) → js.Nodup →
      (js.filterMap (fun i => (Q i).head?)).Nodup ∧
        (js.filterMap (fun i => (Q i).head?)).length = js.length := by
    intro js
    induction js with
    | nil =>
        intro _ _
        simp
    | cons i js ih =>
        intro hne hnd
        obtain ⟨hi, hnd⟩ := List.nodup_cons.mp hnd
        obtain ⟨ihNodup, ihLength⟩ :=
          ih (fun j hj => hne j (List.mem_cons_of_mem _ hj)) hnd
        cases hq : Q i with
        | nil =>
            exact absurd hq (hne i List.mem_cons_self)
        | cons x q =>
            have hx : x ∈ Q i := by
              simp [hq]
            simp only [List.filterMap_cons, hq, List.head?_cons, List.nodup_cons,
              List.length_cons, ihLength, and_true]
            refine ⟨?_, ihNodup⟩
            intro hmem
            obtain ⟨j, hj, hxj⟩ := List.mem_filterMap.mp hmem
            have := h.unique i j x hx (List.mem_of_head? hxj)
            exact hi (this ▸ hj)
  obtain ⟨hnodup, hlength⟩ := hheads is hne his
  have hdisj : Disjoint heads.toFinset U := by
    rw [Finset.disjoint_left]
    intro x hx hxU
    obtain ⟨i, _, hxi⟩ := List.mem_filterMap.mp (List.mem_toFinset.mp hx)
    exact hU x hxU i (List.mem_of_head? hxi)
  calc is.length + U.card
      = heads.toFinset.card + U.card := by
        rw [List.toFinset_card_of_nodup hnodup, hlength]
    _ = (heads.toFinset ∪ U).card := (Finset.card_union_of_disjoint hdisj).symm
    _ ≤ Fintype.card α := Finset.card_le_univ _

end SeparatedQueues
