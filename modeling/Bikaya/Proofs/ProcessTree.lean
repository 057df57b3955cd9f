import Bikaya.Core.Scheduler
import Bikaya.Library.OrderedForest

/-!
# Bikaya: the process tree

The invariant of the process tree and the effect of `insertChild` and `outChild` on it.
The live processes form a forest under `p_parent`; a PCB on the free list is nobody's child
and has no children, though its parent link may be stale.

**Plan.**  The forest is that of the library, given by the lists of the children.  The
parent links are determined by it for the live processes only (`TreeOk.childParent`,
`TreeOk.parentChild`); the idle process stands outside.

**Results.**
* `TreeOk.adopt`: a process from the free list becomes the last child of a live one.
* `TreeOk.removeSubtree`: a subtree goes to the free list, whatever happens to its links.
* `outChild_spec`: a detached process is nobody's child, and its siblings keep their order.
-/

namespace Bikaya

open OrderedForest

/-- The invariant of the tree links, over the live processes. -/
structure TreeOk
    (pParent : Proc → Option Proc) (pChild : Proc → List Proc)
    (free : List Proc) : Prop where
  forest : Forest pChild
  childParent : ∀ a, ∀ b ∈ pChild a, pParent b = some a ∧ b ∉ free
  parentChild : ∀ b a, b ∉ free → pParent b = some a → b ∈ pChild a
  freeChildless : ∀ a ∈ free, pChild a = []
  idleParent : pParent .idle = none
  idleChildless : pChild .idle = []

namespace TreeOk

variable {pParent : Proc → Option Proc} {pChild : Proc → List Proc}
variable {free : List Proc} {a b : Proc}

section Facts

variable (h : TreeOk pParent pChild free)
include h

/-- The children of a process are live. -/
theorem child_live (hb : b ∈ pChild a) : b ≠ .idle ∧ b ∉ free := by
  obtain ⟨hparent, hfree⟩ := h.childParent a b hb
  refine ⟨?_, hfree⟩
  rintro rfl
  rw [h.idleParent] at hparent
  exact Option.some_ne_none a hparent.symm

/-- The parent of a live process is live. -/
theorem parent_live (hb : b ∉ free) (hparent : pParent b = some a) :
    a ≠ .idle ∧ a ∉ free := by
  have hba := h.parentChild b a hb hparent
  constructor
  · rintro rfl
    rw [h.idleChildless] at hba
    exact List.not_mem_nil hba
  · intro ha
    rw [h.freeChildless a ha] at hba
    exact List.not_mem_nil hba

/-- Everything below a live process is live. -/
theorem below_live
    (hlive : a ≠ .idle ∧ a ∉ free) (hb : Below pChild b a) :
    b ≠ .idle ∧ b ∉ free := by
  rcases Relation.ReflTransGen.cases_head hb with rfl | ⟨c, hbc, -⟩
  · exact hlive
  · exact h.child_live hbc

end Facts

/-- Allocation: the first free PCB becomes a child of a live process. -/
theorem adopt
    {x r : Proc}
    (h : TreeOk pParent pChild (x :: free))
    (hx : x ∉ free) (hxIdle : x ≠ .idle)
    (hr : r ≠ .idle ∧ r ∉ x :: free) :
    TreeOk (Function.update pParent x (some r))
      (Function.update (Function.update pChild x []) r (pChild r ++ [x])) free := by
  have hxr : x ≠ r := by
    rintro rfl
    exact hr.2 List.mem_cons_self
  have hleaf : pChild x = [] := h.freeChildless x List.mem_cons_self
  have hfresh : ∀ c, x ∉ pChild c :=
    fun c hc => (h.childParent c x hc).2 List.mem_cons_self
  have hchild : Function.update (Function.update pChild x []) r (pChild r ++ [x]) =
      addLeaf pChild r x := by
    have hsame : Function.update pChild x [] = pChild := by
      rw [← hleaf]
      exact Function.update_eq_self x pChild
    rw [hsame]
    rfl
  have hmem : ∀ b c, b ∈ addLeaf pChild r x c ↔ b ∈ pChild c ∨ (b = x ∧ c = r) :=
    mem_addLeaf
  rw [hchild]
  constructor
  · exact h.forest.addLeaf hxr hleaf hfresh
  · intro c b hb
    rcases (hmem b c).mp hb with hb | ⟨rfl, rfl⟩
    · obtain ⟨hparent, hfree⟩ := h.childParent c b hb
      have hbx : b ≠ x := by
        rintro rfl
        exact hfree List.mem_cons_self
      rw [Function.update_of_ne hbx]
      exact ⟨hparent, fun hb' => hfree (List.mem_cons_of_mem _ hb')⟩
    · exact ⟨Function.update_self _ _ _, hx⟩
  · intro b c hb hparent
    by_cases hbx : b = x
    · subst hbx
      rw [Function.update_self] at hparent
      exact (hmem b c).mpr (Or.inr ⟨rfl, (Option.some.inj hparent).symm⟩)
    · rw [Function.update_of_ne hbx] at hparent
      refine (hmem b c).mpr (Or.inl (h.parentChild b c ?_ hparent))
      simp [hbx, hb]
  · intro c hc
    have hcr : c ≠ r := by
      rintro rfl
      exact hr.2 (List.mem_cons_of_mem _ hc)
    simp only [addLeaf, Function.update_of_ne hcr]
    exact h.freeChildless c (List.mem_cons_of_mem _ hc)
  · rw [Function.update_of_ne (Ne.symm hxIdle)]
    exact h.idleParent
  · simp only [addLeaf, Function.update_of_ne (Ne.symm hr.1)]
    exact h.idleChildless

/--
Removal of a subtree: its members lose their children and become free, and its
root leaves the children of its parent.
-/
theorem removeSubtree
    (h : TreeOk pParent pChild free)
    {t : Proc} (ht : t ≠ .idle ∧ t ∉ free)
    {l : List Proc} (hl : ∀ x, x ∈ l ↔ Below pChild x t)
    {pParent' : Proc → Option Proc} {pChild' : Proc → List Proc} {free' : List Proc}
    (hfree : ∀ x, x ∈ free' ↔ x ∈ l ∨ x ∈ free)
    (hparent : ∀ x ∉ l, pParent' x = pParent x)
    (hdead : ∀ x ∈ l, pChild' x = [])
    (hchild : ∀ x ∉ l, pChild' x =
      if pParent t = some x then (pChild x).erase t else pChild x) :
    TreeOk pParent' pChild' free' := by
  have hsub : ∀ x, (pChild' x).Sublist (pChild x) := by
    intro x
    by_cases hx : x ∈ l
    · rw [hdead x hx]
      exact List.nil_sublist _
    · rw [hchild x hx]
      split_ifs
      · exact List.erase_sublist
      · exact List.Sublist.refl _
  have hidle : Proc.idle ∉ l := by
    intro hmem
    exact (h.below_live ht ((hl _).mp hmem)).1 rfl
  -- a child outside the subtree has a parent outside, and conversely
  have hkeep : ∀ x, ∀ b ∈ pChild x, b ∉ l → x ∉ l := by
    intro x b hb hbl hxl
    exact hbl ((hl b).mpr ((Below.child hb).trans ((hl x).mp hxl)))
  have hback : ∀ x, ∀ b ∈ pChild x, b ∈ l → x ∈ l ∨ b = t := by
    intro x b hb hbl
    rcases Relation.ReflTransGen.cases_head ((hl b).mp hbl) with rfl | ⟨c, hbc, hct⟩
    · exact Or.inr rfl
    · have hcx : c = x := h.forest.unique b c x hbc hb
      subst hcx
      exact Or.inl ((hl c).mpr hct)
  have hin : ∀ x, ∀ b ∈ pChild' x, b ∈ pChild x ∧ b ∉ l ∧ x ∉ l := by
    intro x b hb
    have hbx := (hsub x).subset hb
    have hxl : x ∉ l := by
      intro hxl
      rw [hdead x hxl] at hb
      exact List.not_mem_nil hb
    refine ⟨hbx, ?_, hxl⟩
    intro hbl
    rcases hback x b hbx hbl with hx | rfl
    · exact hxl hx
    · have hp : pParent b = some x := (h.childParent x b hbx).1
      rw [hchild x hxl, if_pos hp] at hb
      exact ((h.forest.nodup x).mem_erase_iff.mp hb).1 rfl
  constructor
  · exact h.forest.remove hsub
  · intro x b hb
    obtain ⟨hbx, hbl, -⟩ := hin x b hb
    obtain ⟨hp, hbfree⟩ := h.childParent x b hbx
    rw [hparent b hbl, hfree b]
    exact ⟨hp, by simp [hbl, hbfree]⟩
  · intro b x hb hp
    rw [hfree b, not_or] at hb
    rw [hparent b hb.1] at hp
    have hbx := h.parentChild b x hb.2 hp
    have hbt : b ≠ t := by
      rintro rfl
      exact hb.1 ((hl b).mpr (Below.refl b))
    rw [hchild x (hkeep x b hbx hb.1)]
    split_ifs
    · exact (List.mem_erase_of_ne hbt).mpr hbx
    · exact hbx
  · intro x hx
    rcases (hfree x).mp hx with hx | hx
    · exact hdead x hx
    · have := hsub x
      rw [h.freeChildless x hx] at this
      exact List.sublist_nil.mp this
  · rw [hparent _ hidle]
    exact h.idleParent
  · have := hsub .idle
    rw [h.idleChildless] at this
    exact List.sublist_nil.mp this

end TreeOk

namespace Kernel

variable {A : Arch} {k : Kernel A}

/-- `outChild` unlinks a live process from the children of its parent. -/
theorem outChild_spec
    (h : TreeOk k.pParent k.pChild k.pcbFreeH)
    {t a : Proc} (ht : t ∉ k.pcbFreeH) (hparent : k.pParent t = some a) :
    ∃ pParent,
      k.outChild t =
        .ok (some t,
          { k with
            pParent := pParent
            pChild := Function.update k.pChild a ((k.pChild a).erase t) }) ∧
      ∀ x, x ≠ t → pParent x = k.pParent x := by
  have hta := h.parentChild t a ht hparent
  cases hchild : k.pChild a with
  | nil =>
      rw [hchild] at hta
      exact absurd hta List.not_mem_nil
  | cons first rest =>
      by_cases hfirst : first = t
      · subst hfirst
        refine ⟨Function.update k.pParent first none, ?_, fun x hx => ?_⟩
        · simp only [outChild, hparent, hchild, if_true, removeChild, List.erase_cons_head]
        · exact Function.update_of_ne hx _ _
      · refine ⟨k.pParent, ?_, fun x _ => rfl⟩
        have herase : (first :: rest).erase t = first :: rest.erase t := by
          rw [List.erase_cons_tail]
          simpa using hfirst
        simp only [outChild, hparent, hchild, hfirst, if_false, herase]

end Kernel

end Bikaya
