import Mathlib.Data.List.Sort
import Mathlib.Order.Basic

/-!
# Stable insertion into a list ordered by key

`stableInsert key x l` puts `x` in front of the first element with a strictly smaller key.
A list with non-increasing keys stays so, and an element is placed behind the elements that
have the same key.

**Results.**
* `NonIncreasing.stableInsert`: the list stays ordered.
* `stableInsert_split`, `stableInsert_split_of_nonIncreasing`: where the element is put.
* `erase_stableInsert`: taking it out again gives the list back.
-/

namespace StableInsert

universe u v

variable {α : Type u} {κ : Type v} [LinearOrder κ]

/-- Insertion in front of the first element with a strictly smaller key. -/
def stableInsert (key : α → κ) (x : α) (l : List α) : List α :=
  l.orderedInsert (fun a b => key b < key a) x

/-- The keys of the list do not increase. -/
def NonIncreasing (key : α → κ) (l : List α) : Prop :=
  l.Pairwise (fun a b => key b ≤ key a)

instance (key : α → κ) (l : List α) : Decidable (NonIncreasing key l) :=
  inferInstanceAs (Decidable (l.Pairwise _))

variable {key : α → κ} {x y : α} {l : List α}

theorem stableInsert_perm :
    (stableInsert key x l).Perm (x :: l) :=
  List.perm_orderedInsert _ x l

@[simp] theorem mem_stableInsert :
    y ∈ stableInsert key x l ↔ y = x ∨ y ∈ l :=
  List.mem_orderedInsert _

/--
Where the element goes: behind an initial segment of keys that are not smaller, and in
front of a suffix whose first key is smaller.
-/
theorem stableInsert_split (key : α → κ) (x : α) (l : List α) :
    ∃ front back,
      l = front ++ back ∧
      stableInsert key x l = front ++ x :: back ∧
      (∀ y ∈ front, key x ≤ key y) ∧
      (∀ y ∈ back.head?, key y < key x) := by
  induction l with
  | nil =>
      exact ⟨[], [], rfl, rfl, by simp, by simp⟩
  | cons b l ih =>
      by_cases hb : key b < key x
      · refine ⟨[], b :: l, rfl, ?_, by simp, by simpa using hb⟩
        simp [stableInsert, hb]
      · obtain ⟨front, back, hl, hins, hfront, hback⟩ := ih
        refine ⟨b :: front, back, by rw [hl]; rfl, ?_, ?_, hback⟩
        · have : stableInsert key x (b :: l) = b :: stableInsert key x l := by
            simp [stableInsert, hb]
          rw [this, hins]
          rfl
        · intro y hy
          rcases List.mem_cons.mp hy with rfl | hy
          · exact not_lt.mp hb
          · exact hfront y hy

/-- The place is determined by the keys around it. -/
theorem stableInsert_append
    {front back : List α}
    (hfront : ∀ y ∈ front, key x ≤ key y) (hback : ∀ y ∈ back.head?, key y < key x) :
    stableInsert key x (front ++ back) = front ++ x :: back := by
  induction front with
  | nil =>
      cases back with
      | nil =>
          rfl
      | cons b back =>
          have hb : key b < key x := hback b rfl
          simp [stableInsert, hb]
  | cons b front ih =>
      have hb : ¬ key b < key x := not_lt.mpr (hfront b List.mem_cons_self)
      have hins : stableInsert key x (b :: (front ++ back)) =
          b :: stableInsert key x (front ++ back) := by
        simp [stableInsert, hb]
      rw [List.cons_append, hins, ih (fun y hy => hfront y (List.mem_cons_of_mem _ hy))]
      rfl

/-- In an ordered list the whole suffix has smaller keys. -/
theorem stableInsert_split_of_nonIncreasing
    (hl : NonIncreasing key l) (x : α) :
    ∃ front back,
      l = front ++ back ∧
      stableInsert key x l = front ++ x :: back ∧
      (∀ y ∈ front, key x ≤ key y) ∧
      (∀ y ∈ back, key y < key x) := by
  obtain ⟨front, back, hsplit, hins, hfront, hback⟩ := stableInsert_split key x l
  refine ⟨front, back, hsplit, hins, hfront, ?_⟩
  cases back with
  | nil =>
      simp
  | cons b back =>
      have hb : key b < key x := hback b rfl
      have hsorted : NonIncreasing key (b :: back) := by
        rw [hsplit] at hl
        exact (List.pairwise_append.mp hl).2.1
      intro y hy
      rcases List.mem_cons.mp hy with rfl | hy
      · exact hb
      · exact lt_of_le_of_lt ((List.pairwise_cons.mp hsorted).1 y hy) hb

/-- Insertion keeps an ordered list ordered. -/
theorem NonIncreasing.stableInsert
    (hl : NonIncreasing key l) (x : α) :
    NonIncreasing key (stableInsert key x l) := by
  obtain ⟨front, back, hsplit, hins, hfront, hback⟩ :=
    stableInsert_split_of_nonIncreasing hl x
  rw [hins]
  rw [hsplit] at hl
  obtain ⟨h1, h2, h12⟩ := List.pairwise_append.mp hl
  refine List.pairwise_append.mpr ⟨h1, ?_, ?_⟩
  · exact List.pairwise_cons.mpr ⟨fun y hy => le_of_lt (hback y hy), h2⟩
  · intro a ha b hb
    rcases List.mem_cons.mp hb with rfl | hb
    · exact hfront a ha
    · exact h12 a ha b hb

theorem NonIncreasing.sublist
    {l' : List α} (hl : NonIncreasing key l) (h : l'.Sublist l) :
    NonIncreasing key l' :=
  List.Pairwise.sublist h hl

/-- The order depends on the keys of the elements of the list only. -/
theorem NonIncreasing.congr
    {key' : α → κ} (hl : NonIncreasing key l)
    (h : ∀ a ∈ l, ∀ b ∈ l, key b ≤ key a → key' b ≤ key' a) :
    NonIncreasing key' l :=
  List.Pairwise.imp_of_mem (fun ha hb hab => h _ ha _ hb hab) hl

/-- The first element of an ordered list has the greatest key. -/
theorem NonIncreasing.le_head
    (hl : NonIncreasing key (x :: l)) (hy : y ∈ x :: l) :
    key y ≤ key x := by
  rcases List.mem_cons.mp hy with rfl | hy
  · exact le_rfl
  · exact (List.pairwise_cons.mp hl).1 y hy

/-- Taking the inserted element out again gives the list back. -/
theorem erase_stableInsert
    [DecidableEq α] (hx : x ∉ l) :
    (stableInsert key x l).erase x = l := by
  obtain ⟨front, back, hsplit, hins, -, -⟩ := stableInsert_split key x l
  rw [hins, hsplit]
  rw [hsplit] at hx
  have hfront : x ∉ front := fun h => hx (List.mem_append_left _ h)
  rw [List.erase_append_right _ hfront, List.erase_cons_head]

section Position

variable [DecidableEq α]

/-- An element of the list gets at most one place further back. -/
theorem idxOf_stableInsert_le (hxy : y ≠ x) :
    (stableInsert key x l).idxOf y ≤ l.idxOf y + 1 := by
  obtain ⟨front, back, hsplit, hins, -, -⟩ := stableInsert_split key x l
  rw [hins, hsplit]
  by_cases hy : y ∈ front
  · rw [List.idxOf_append_of_mem hy, List.idxOf_append_of_mem hy]
    exact Nat.le_succ _
  · rw [List.idxOf_append_of_notMem hy, List.idxOf_append_of_notMem hy,
      List.idxOf_cons_ne _ (Ne.symm hxy)]
    omega

/-- An element whose key is not smaller keeps its place in an ordered list. -/
theorem idxOf_stableInsert_of_le
    (hl : NonIncreasing key l) (hy : y ∈ l) (hle : key x ≤ key y) :
    (stableInsert key x l).idxOf y = l.idxOf y := by
  obtain ⟨front, back, hsplit, hins, -, hback⟩ := stableInsert_split_of_nonIncreasing hl x
  rw [hsplit] at hy
  have hfront : y ∈ front :=
    (List.mem_append.mp hy).resolve_right (fun hmem => absurd (hback y hmem) (not_lt.mpr hle))
  rw [hins, hsplit, List.idxOf_append_of_mem hfront, List.idxOf_append_of_mem hfront]

end Position

end StableInsert
