import Mathlib.Data.List.Nodup
import Mathlib.Logic.Function.Basic
import Mathlib.Logic.Relation
import Mathlib.Order.WellFounded

/-!
# Ordered forests

A forest is given by the list of the children of each node.  The module defines the nodes
below a node and the preorder listing of a list of trees, shows that the listing exists,
contains exactly the nodes below its roots, and contains each of them once.

**Results.**
* `exists_preorder`, `Preorder.mem_iff`, `Preorder.nodup`: the listing.
* `Forest.addLeaf`, `Forest.graft`: a root becomes a last child, alone or with its tree.
* `Forest.remove`, `Forest.shrink`: children are taken away.
-/

namespace OrderedForest

universe u

variable {α : Type u}

/-- `b` is one of the children of `a`. -/
def ChildOf (children : α → List α) (b a : α) : Prop :=
  b ∈ children a

/-- `b` is `a` or one of its descendants. -/
def Below (children : α → List α) : α → α → Prop :=
  Relation.ReflTransGen (ChildOf children)

/-- No node is listed twice as a child, and there is no infinite path downwards. -/
structure Forest (children : α → List α) : Prop where
  nodup : ∀ a, (children a).Nodup
  unique : ∀ b a a', b ∈ children a → b ∈ children a' → a = a'
  wellFounded : WellFounded (ChildOf children)

/-- Nodes without children are a forest. -/
theorem Forest.empty : Forest (fun _ : α => ([] : List α)) where
  nodup := fun _ => List.nodup_nil
  unique := fun _ _ _ hb => absurd hb List.not_mem_nil
  wellFounded := ⟨fun a => ⟨a, fun _ hb => absurd hb List.not_mem_nil⟩⟩

/-- The preorder listing of the trees with the given roots. -/
inductive Preorder (children : α → List α) : List α → List α → Prop
  | nil : Preorder children [] []
  | cons {a : α} {rest below after : List α} :
      Preorder children (children a) below →
      Preorder children rest after →
      Preorder children (a :: rest) (a :: (below ++ after))

variable {children : α → List α}

theorem Below.refl (a : α) :
    Below children a a :=
  Relation.ReflTransGen.refl

theorem Below.child {a b : α} (h : b ∈ children a) :
    Below children b a :=
  Relation.ReflTransGen.single h

theorem Below.trans {a b c : α}
    (hab : Below children a b) (hbc : Below children b c) :
    Below children a c :=
  Relation.ReflTransGen.trans hab hbc

/-- A node below `a` is `a`, or lies below one of the children of `a`. -/
theorem below_iff (a x : α) :
    Below children x a ↔ x = a ∨ ∃ c ∈ children a, Below children x c := by
  constructor
  · intro h
    rcases Relation.ReflTransGen.cases_tail h with rfl | ⟨c, hxc, hca⟩
    · exact Or.inl rfl
    · exact Or.inr ⟨c, hca, hxc⟩
  · rintro (rfl | ⟨c, hc, hxc⟩)
    · exact Below.refl _
    · exact hxc.trans (Below.child hc)

/-- What lies below a node depends on the children of these nodes only. -/
theorem below_congr
    {children' : α → List α} {a x : α}
    (h : ∀ b, Below children b a → children' b = children b) :
    Below children' x a ↔ Below children x a := by
  constructor
  · intro hx
    induction hx using Relation.ReflTransGen.head_induction_on with
    | refl =>
        exact Below.refl a
    | @head b c hb _ ih =>
        have hbc : b ∈ children c := by
          rw [← h c ih]
          exact hb
        exact (Below.child hbc).trans ih
  · intro hx
    induction hx using Relation.ReflTransGen.head_induction_on with
    | refl =>
        exact Below.refl a
    | @head b c hb hc ih =>
        have hbc : b ∈ children' c := by
          rw [h c hc]
          exact hb
        exact (Below.child hbc).trans ih

namespace Forest

variable (F : Forest children)
include F

/-- A node is not below one of its own children. -/
theorem not_below_child {a c : α} (hc : c ∈ children a) :
    ¬ Below children a c := by
  intro h
  have hcycle : Relation.TransGen (ChildOf children) a a :=
    Relation.TransGen.tail' h hc
  exact F.wellFounded.transGen.irrefl.irrefl a hcycle

/-- Two nodes above a common one are comparable. -/
theorem below_total {a b x : α}
    (ha : Below children x a) (hb : Below children x b) :
    Below children a b ∨ Below children b a :=
  Relation.ReflTransGen.total_of_right_unique
    (fun x a a' h h' => F.unique x a a' h h') ha hb

/-- Siblings are not below one another. -/
theorem siblings_incomparable {a c d : α}
    (hc : c ∈ children a) (hd : d ∈ children a) (hne : c ≠ d) :
    ¬ Below children c d := by
  intro h
  rcases Relation.ReflTransGen.cases_head h with rfl | ⟨a', hca', ha'd⟩
  · exact hne rfl
  · have : a' = a := F.unique c a' a hca' hc
    subst this
    exact F.not_below_child hd ha'd

/-- Every list of roots has a preorder listing. -/
theorem exists_preorder :
    ∀ roots : List α, ∃ l, Preorder children roots l := by
  have htree : ∀ a, ∃ l, Preorder children (children a) l := by
    intro a
    induction a using F.wellFounded.induction with
    | _ a ih =>
        have hlist : ∀ roots : List α, (∀ c ∈ roots, c ∈ children a) →
            ∃ l, Preorder children roots l := by
          intro roots
          induction roots with
          | nil =>
              exact fun _ => ⟨[], Preorder.nil⟩
          | cons c rest ihRest =>
              intro hsub
              obtain ⟨below, hbelow⟩ := ih c (hsub c List.mem_cons_self)
              obtain ⟨after, hafter⟩ :=
                ihRest (fun d hd => hsub d (List.mem_cons_of_mem _ hd))
              exact ⟨_, Preorder.cons hbelow hafter⟩
        exact hlist (children a) (fun c hc => hc)
  intro roots
  induction roots with
  | nil =>
      exact ⟨[], Preorder.nil⟩
  | cons c rest ih =>
      obtain ⟨below, hbelow⟩ := htree c
      obtain ⟨after, hafter⟩ := ih
      exact ⟨_, Preorder.cons hbelow hafter⟩

end Forest

/-- The listing contains exactly the nodes below the roots. -/
theorem Preorder.mem_iff {roots l : List α}
    (h : Preorder children roots l) (x : α) :
    x ∈ l ↔ ∃ r ∈ roots, Below children x r := by
  induction h with
  | nil =>
      simp
  | @cons a rest below after _ _ ihBelow ihAfter =>
      simp only [List.mem_cons, List.mem_append, ihBelow, ihAfter, exists_eq_or_imp]
      rw [below_iff a x, or_assoc]

/-- Roots of which none is below another one are listed with all they cover once. -/
theorem Preorder.nodup {roots l : List α}
    (h : Preorder children roots l) (F : Forest children)
    (hroots : roots.Nodup)
    (hind : ∀ a ∈ roots, ∀ b ∈ roots, a ≠ b → ¬ Below children a b) :
    l.Nodup := by
  induction h with
  | nil =>
      exact List.nodup_nil
  | @cons a rest below after hbelow hafter ihBelow ihAfter =>
      obtain ⟨haRest, hrest⟩ := List.nodup_cons.mp hroots
      have hbelowNodup :=
        ihBelow (F.nodup a) (fun c hc d hd hne => F.siblings_incomparable hc hd hne)
      have hafterNodup :=
        ihAfter hrest (fun c hc d hd hne =>
          hind c (List.mem_cons_of_mem _ hc) d (List.mem_cons_of_mem _ hd) hne)
      have hne : ∀ r ∈ rest, a ≠ r := by
        intro r hr har
        exact haRest (har ▸ hr)
      have haBelow : a ∉ below := by
        intro hmem
        obtain ⟨c, hc, hac⟩ := (hbelow.mem_iff a).mp hmem
        exact F.not_below_child hc hac
      have haAfter : a ∉ after := by
        intro hmem
        obtain ⟨r, hr, har⟩ := (hafter.mem_iff a).mp hmem
        exact hind a List.mem_cons_self r (List.mem_cons_of_mem _ hr) (hne r hr) har
      have hdisj : ∀ x ∈ below, x ∉ after := by
        intro x hx hx'
        obtain ⟨c, hc, hxc⟩ := (hbelow.mem_iff x).mp hx
        obtain ⟨r, hr, hxr⟩ := (hafter.mem_iff x).mp hx'
        have hxa : Below children x a := hxc.trans (Below.child hc)
        rcases F.below_total hxa hxr with har | hra
        · exact hind a List.mem_cons_self r (List.mem_cons_of_mem _ hr) (hne r hr) har
        · exact hind r (List.mem_cons_of_mem _ hr) a List.mem_cons_self
            (Ne.symm (hne r hr)) hra
      refine List.nodup_cons.mpr ⟨?_, ?_⟩
      · simpa using ⟨haBelow, haAfter⟩
      · exact List.nodup_append'.mpr
          ⟨hbelowNodup, hafterNodup, fun x hx hx' => hdisj x hx hx'⟩

/-- Removing children, anywhere, keeps the forest. -/
theorem Forest.remove
    (F : Forest children) {children' : α → List α}
    (h : ∀ a, (children' a).Sublist (children a)) :
    Forest children' where
  nodup := fun a => (F.nodup a).sublist (h a)
  unique := fun b a a' hb hb' => F.unique b a a' ((h a).subset hb) ((h a').subset hb')
  wellFounded := Subrelation.wf (fun {_ a} hb => (h a).subset hb) F.wellFounded

section Growth

variable [DecidableEq α] {a c : α}

/-- `c` is appended to the children of `a`. -/
def addLeaf (children : α → List α) (a c : α) : α → List α :=
  Function.update children a (children a ++ [c])

theorem mem_addLeaf (b d : α) :
    b ∈ addLeaf children a c d ↔ b ∈ children d ∨ (b = c ∧ d = a) := by
  by_cases hd : d = a
  · subst hd
    simp [addLeaf]
  · simp [addLeaf, hd]

/-- One node loses some of its children. -/
theorem Forest.shrink
    (F : Forest children) {l : List α} (hl : l.Sublist (children a)) :
    Forest (Function.update children a l) := by
  refine F.remove (fun d => ?_)
  by_cases hd : d = a
  · subst hd
    rw [Function.update_self]
    exact hl
  · rw [Function.update_of_ne hd]

/-- A tree whose root is nobody's child is put below a node outside of it. -/
theorem Forest.graft
    (F : Forest children)
    (hroot : ∀ b, c ∉ children b) (hout : ¬ Below children a c) :
    Forest (addLeaf children a c) := by
  constructor
  · intro d
    by_cases hd : d = a
    · subst hd
      simp only [addLeaf, Function.update_self]
      exact List.nodup_append'.mpr
        ⟨F.nodup d, List.nodup_singleton c, fun b hb hb' => by
          rw [List.mem_singleton.mp hb'] at hb
          exact hroot d hb⟩
    · simp only [addLeaf, Function.update_of_ne hd]
      exact F.nodup d
  · intro b d d' hd hd'
    rcases (mem_addLeaf b d).mp hd with hd | ⟨hbc, hda⟩
    · rcases (mem_addLeaf b d').mp hd' with hd' | ⟨hbc, -⟩
      · exact F.unique b d d' hd hd'
      · exact absurd (hbc ▸ hd) (hroot d)
    · rcases (mem_addLeaf b d').mp hd' with hd' | ⟨-, hda'⟩
      · exact absurd (hbc ▸ hd') (hroot d')
      · rw [hda, hda']
  · constructor
    -- the nodes of the grafted tree have the children they had
    have htree : ∀ d, Below children d c → Acc (ChildOf (addLeaf children a c)) d := by
      intro d
      induction d using F.wellFounded.induction with
      | _ d ih =>
          intro hd
          constructor
          intro b hb
          rcases (mem_addLeaf b d).mp hb with hb | ⟨-, hda⟩
          · exact ih b hb ((Below.child hb).trans hd)
          · exact absurd (hda ▸ hd) hout
    intro d
    induction d using F.wellFounded.induction with
    | _ d ih =>
        constructor
        intro b hb
        rcases (mem_addLeaf b d).mp hb with hb | ⟨rfl, -⟩
        · exact ih b hb
        · exact htree b (Below.refl b)

/-- Adding a node that is nobody's child and has no children keeps the forest. -/
theorem Forest.addLeaf
    (F : Forest children) (hne : c ≠ a)
    (hleaf : children c = []) (hfresh : ∀ b, c ∉ children b) :
    Forest (addLeaf children a c) := by
  refine F.graft hfresh ?_
  intro hbelow
  rcases (below_iff c a).mp hbelow with heq | ⟨d, hd, -⟩
  · exact hne heq.symm
  · rw [hleaf] at hd
    exact List.not_mem_nil hd

end Growth

end OrderedForest
