import Mathlib.Algebra.Order.Ring.Int
import Mathlib.Logic.Function.Basic

/-!
# Lists in a memory

A memory gives each address its content.  A list is placed in it element by element from an
address on; nothing outside the place of the list changes, and the parts of a list may be
placed in any order.  A terminated list ends with an element that it does not have before,
so it is determined by its place.

**Results.**
* `place_append`, `update_place`: the order in which the parts are placed.
* `holds_place`, `place_outside`: the place of the list, and everything else.
* `Terminated.unique`: a place has one terminated list at most.
-/

namespace Cells

universe u

variable {α : Type u}

/-- The memory with the list in it from the address on. -/
def place (m : ℤ → α) : ℤ → List α → ℤ → α
  | _, [] => m
  | p, x :: l => Function.update (place m (p + 1) l) p x

/-- The list stands in the memory from the address on. -/
def Holds (m : ℤ → α) : ℤ → List α → Prop
  | _, [] => True
  | p, x :: l => m p = x ∧ Holds m (p + 1) l

/-- The list stands in the memory, and behind it its terminator. -/
structure Terminated (terminator : α) (m : ℤ → α) (p : ℤ) (l : List α) : Prop where
  holds : Holds m p (l ++ [terminator])
  notMem : terminator ∉ l

section Place

variable {m : ℤ → α} {p a : ℤ} {l : List α}

@[simp] theorem place_nil (m : ℤ → α) (p : ℤ) : place m p [] = m :=
  rfl

@[simp] theorem place_cons (m : ℤ → α) (p : ℤ) (x : α) (l : List α) :
    place m p (x :: l) = Function.update (place m (p + 1) l) p x :=
  rfl

/-- Only the place of the list changes. -/
theorem place_outside
    (h : a < p ∨ p + l.length ≤ a) :
    place m p l a = m a := by
  induction l generalizing p with
  | nil =>
      rfl
  | cons x l ih =>
      rw [List.length_cons, Nat.cast_succ] at h
      have hne : a ≠ p := by omega
      rw [place_cons, Function.update_of_ne hne]
      exact ih (by omega)

/-- A cell outside the place of the list may be written before the list or after it. -/
theorem place_update
    (h : a < p ∨ p + l.length ≤ a) (x : α) :
    place (Function.update m a x) p l = Function.update (place m p l) a x := by
  induction l generalizing p with
  | nil =>
      rfl
  | cons y l ih =>
      rw [List.length_cons, Nat.cast_succ] at h
      have hne : a ≠ p := by omega
      rw [place_cons, place_cons, ih (by omega)]
      exact Function.update_comm hne _ _ _

/-- A list placed from its end. -/
theorem place_append (m : ℤ → α) (p : ℤ) (l l' : List α) :
    place m p (l ++ l') = place (place m (p + l.length) l') p l := by
  induction l generalizing p with
  | nil =>
      simp
  | cons x l ih =>
      have hp : p + ((x :: l).length : ℕ) = p + 1 + l.length := by
        rw [List.length_cons, Nat.cast_succ]
        omega
      rw [List.cons_append, place_cons, place_cons, ih, hp]

/-- One more element behind the list. -/
theorem update_place (m : ℤ → α) (p : ℤ) (l : List α) (x : α) :
    Function.update (place m p l) (p + l.length) x = place m p (l ++ [x]) := by
  rw [place_append, ← place_update (Or.inr le_rfl)]
  rfl

end Place

section Held

variable {m : ℤ → α} {p a : ℤ} {l : List α} {terminator : α}

theorem Holds.update
    (hl : Holds m p l) (h : a < p) (x : α) :
    Holds (Function.update m a x) p l := by
  induction l generalizing p with
  | nil =>
      trivial
  | cons y l ih =>
      have hne : p ≠ a := by omega
      exact ⟨(Function.update_of_ne hne x m).trans hl.1, ih hl.2 (by omega)⟩

/-- A list stands where it has been placed. -/
theorem holds_place (m : ℤ → α) (p : ℤ) (l : List α) :
    Holds (place m p l) p l := by
  induction l generalizing p with
  | nil =>
      trivial
  | cons x l ih =>
      exact ⟨Function.update_self _ _ _, (ih (p + 1)).update (by omega) x⟩

theorem terminated_place
    (h : terminator ∉ l) (m : ℤ → α) (p : ℤ) :
    Terminated terminator (place m p (l ++ [terminator])) p l :=
  ⟨holds_place m p _, h⟩

/-- The place of a terminated list determines it. -/
theorem Terminated.unique
    {l' : List α} (h : Terminated terminator m p l) (h' : Terminated terminator m p l') :
    l = l' := by
  obtain ⟨hl, hnot⟩ := h
  obtain ⟨hl', hnot'⟩ := h'
  induction l generalizing l' p with
  | nil =>
      cases l' with
      | nil =>
          rfl
      | cons y l' =>
          have heq : terminator = y := hl.1.symm.trans hl'.1
          exact absurd (heq ▸ List.mem_cons_self) hnot'
  | cons x l ih =>
      cases l' with
      | nil =>
          have heq : terminator = x := hl'.1.symm.trans hl.1
          exact absurd (heq ▸ List.mem_cons_self) hnot
      | cons y l' =>
          have heq : x = y := hl.1.symm.trans hl'.1
          have htail : l = l' := by
            refine ih hl.2 ?_ hl'.2 ?_
            · exact fun hmem => hnot (List.mem_cons_of_mem x hmem)
            · exact fun hmem => hnot' (List.mem_cons_of_mem y hmem)
          rw [heq, htail]

end Held

end Cells
