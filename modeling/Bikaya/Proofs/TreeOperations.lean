import Bikaya.Proofs.QueueLinks
import Bikaya.Proofs.TreeLinks

/-!
# Bikaya: runs of tree operations

Sequences of `insertChild`, `removeChild` and `outChild` on freshly allocated PCBs are
compared with the operations on ordered forests they stand for.

**Plan.**  `TreeOp.forest` is the meaning of an operation on forests and `TreeOp.Allowed`
what its caller has to promise: a process that is inserted is nobody's child and has no
children, and one that is detached has a parent.  Each operation is described by
`TreeLinks.lean`, and the run is an induction on the sequence.  `Spares` is for
`Subtrees.lean`: the operation does not insert or detach a given process.

**Results.**
* `execTree_spec`: one operation.
* `tree_refines_forest`: every allowed sequence leaves links that represent the forest, and
  every operation returns what the forest says.
-/

namespace Bikaya

open LinkRing OrderedForest TransitionSystem

/-- The calls that change the process tree. -/
inductive TreeOp (P : Type) where
  | insertChild (prnt p : P)
  | removeChild (q : P)
  | outChild (p : P)
deriving DecidableEq

namespace TreeOp

variable {P : Type} [DecidableEq P]

/-- The forest afterwards. -/
def forest (children : P → List P) : TreeOp P → P → List P
  | .insertChild prnt p => addLeaf children prnt p
  | .removeChild q => Function.update children q (children q).tail
  | .outChild p => fun a => (children a).erase p

/-- The process that gets or loses a parent. -/
def moved (children : P → List P) : TreeOp P → Option P
  | .insertChild _ p => some p
  | .removeChild q => (children q).head?
  | .outChild p => some p

/-- What the call returns; `insertChild` returns nothing. -/
def returned (children : P → List P) : TreeOp P → Option P
  | .insertChild _ _ => none
  | .removeChild q => (children q).head?
  | .outChild p => some p

/-- A detached process without children is inserted, or an attached one is taken out. -/
def Allowed (children : P → List P) : TreeOp P → Prop
  | .insertChild prnt p => (∀ a, p ∉ children a) ∧ children p = [] ∧ prnt ≠ p
  | .removeChild _ => True
  | .outChild p => ∃ a, p ∈ children a

/-- The call neither inserts nor takes out `p`. -/
def Spares (p : P) : TreeOp P → Prop
  | .insertChild _ p' => p' ≠ p
  | .removeChild _ => True
  | .outChild p' => p' ≠ p

end TreeOp

namespace Memory

variable {P S K : Type} [DecidableEq P] [DecidableEq S]
variable {m m' : Memory P S K} {children : P → List P} {p q prnt : P}

/-- The functions of `pcb.c` behind the calls. -/
def execTree (m : Memory P S K) : TreeOp P → Except Halt (Option P × Memory P S K)
  | .insertChild prnt p => do
      let m ← m.insertChild (some prnt) (some p)
      return (none, m)
  | .removeChild q => m.removeChild q
  | .outChild p => m.outChild p

/-- The calls, one after the other. -/
def execTreeAll (m : Memory P S K) : List (TreeOp P) → Except Halt (Memory P S K)
  | [] => .ok m
  | op :: ops => do
      let (_, m) ← m.execTree op
      m.execTreeAll ops

/-- The tree links of a PCB, as `allocPcb` leaves them. -/
structure Detached (m : Memory P S K) (p : P) : Prop where
  parent : m.pParent p = none
  first : m.next (.pChild p) = none
  back : m.prev (.pChild p) = none
  alone : m.IsRing [.pSib p]

omit [DecidableEq P] [DecidableEq S] in
/-- Detached PCBs are a forest without edges. -/
theorem isForest_of_detached (h : ∀ p, m.Detached p) :
    m.IsForest (fun _ => []) where
  forest := Forest.empty
  first := fun a => (h a).first
  back := fun _ _ hc => absurd hc (by simp)
  ring := fun _ hne => absurd rfl hne
  parent := fun _ _ hc => absurd hc List.not_mem_nil

/-- Taking `p` out of the only list of children it is in. -/
theorem outChild_forest
    (hforest : Forest children) (hp : p ∈ children q) :
    TreeOp.forest children (.outChild p) =
      Function.update children q ((children q).erase p) := by
  funext a
  by_cases ha : a = q
  · subst ha
    rw [Function.update_self]
    rfl
  · have hpa : p ∉ children a := fun hmem => ha (hforest.unique p a q hmem hp)
    rw [Function.update_of_ne ha]
    exact List.erase_of_not_mem hpa

/-- An allowed call returns, and leaves the forest it stands for. -/
theorem execTree_spec
    (h : m.IsForest children) {op : TreeOp P} (hop : op.Allowed children) :
    ∃ m', m.execTree op = .ok (op.returned children, m') ∧
      m'.IsForest (op.forest children) ∧
      ∀ x, op.moved children ≠ some x → m'.pParent x = m.pParent x := by
  cases op with
  | insertChild prnt p =>
      obtain ⟨hroot, hleaf, hne⟩ := hop
      have hout : ¬ Below children prnt p := by
        intro hbelow
        rcases (below_iff p prnt).mp hbelow with heq | ⟨c, hc, -⟩
        · exact hne heq
        · rw [hleaf] at hc
          exact List.not_mem_nil hc
      obtain ⟨m', heq, hforest, hparent⟩ := insertChild_spec h hroot hout (Or.inr hleaf)
      refine ⟨m', by simp [execTree, heq, TreeOp.returned], hforest, ?_⟩
      intro x hx
      have hxp : x ≠ p := fun heq => hx (congrArg some heq.symm)
      rw [hparent, Function.update_of_ne hxp]
  | removeChild q =>
      cases hq : children q with
      | nil =>
          refine ⟨m, ?_, ?_, fun _ _ => rfl⟩
          · simp [execTree, removeChild_nil h hq, TreeOp.returned, hq]
          · have hsame : TreeOp.forest children (.removeChild q) = children := by
              simp only [TreeOp.forest, hq, List.tail_nil]
              rw [← hq]
              exact Function.update_eq_self q children
            rw [hsame]
            exact h
      | cons c rest =>
          obtain ⟨m', heq, hforest, hparent⟩ := removeChild_cons h hq
          refine ⟨m', by simp [execTree, heq, TreeOp.returned, hq], ?_, ?_⟩
          · simpa [TreeOp.forest, hq] using hforest
          · intro x hx
            have hxc : x ≠ c := by
              rintro rfl
              exact hx (by simp [TreeOp.moved, hq])
            rw [hparent, Function.update_of_ne hxc]
  | outChild p =>
      obtain ⟨q, hp⟩ := hop
      obtain ⟨m', heq, hforest, hparent⟩ := outChild_spec h hp
      refine ⟨m', by simp [execTree, heq, TreeOp.returned], ?_, ?_⟩
      · rw [outChild_forest h.forest hp]
        exact hforest
      · intro x hx
        have hxp : x ≠ p := fun heq => hx (congrArg some heq.symm)
        rw [hparent]
        split_ifs
        · exact Function.update_of_ne hxp _ _
        · rfl

section Refinement

variable {A : Arch} {m : Memory Proc S K} {k : Kernel A} {p q : Proc}

/-- The tree links and the parents are those of the kernel. -/
structure RepresentsTree (m : Memory Proc S K) (k : Kernel A) : Prop where
  forest : m.IsForest k.pChild
  parent : m.pParent = k.pParent

/-- The tree functions on lists compute what those on the links leave behind. -/
theorem insertChild_refines
    (h : m.RepresentsTree k) (hroot : ∀ a, p ∉ k.pChild a) (hout : ¬ Below k.pChild q p) :
    ∃ m' k', m.insertChild (some q) (some p) = .ok m' ∧
      k.insertChild (some q) (some p) = .ok k' ∧ m'.RepresentsTree k' := by
  cases hq : k.pChild q with
  | nil =>
      obtain ⟨m', heq, hforest, hparent⟩ := insertChild_first h.forest hroot hout hq
      refine ⟨m', _, heq, by simp [Kernel.insertChild, Kernel.emptyChild, hq]; rfl, ?_, ?_⟩
      · rw [addLeaf, hq] at hforest
        exact hforest
      · rw [hparent, h.parent]
  | cons c rest =>
      obtain ⟨m', heq, hforest, hparent⟩ := insertChild_last h.forest hroot hout hq
      refine ⟨_, _, heq, by simp [Kernel.insertChild, Kernel.emptyChild, hq]; rfl, ?_, ?_⟩
      · have hclear := isForest_clear (p := p) hforest
        rw [addLeaf, hq] at hclear
        exact hclear
      · exact hparent.trans (by rw [h.parent])

theorem removeChild_refines
    (h : m.RepresentsTree k) (q : Proc) :
    ∃ m', m.removeChild q = .ok ((k.removeChild q).1, m') ∧
      m'.RepresentsTree (k.removeChild q).2 := by
  cases hq : k.pChild q with
  | nil =>
      simp only [Kernel.removeChild, hq]
      exact ⟨m, removeChild_nil h.forest hq, h⟩
  | cons c rest =>
      obtain ⟨m', heq, hforest, hparent⟩ := removeChild_cons h.forest hq
      simp only [Kernel.removeChild, hq]
      exact ⟨m', heq, hforest, hparent.trans (by rw [h.parent])⟩

theorem outChild_refines
    (h : m.RepresentsTree k) (hp : p ∈ k.pChild q) :
    ∃ m' k', m.outChild p = .ok (some p, m') ∧
      k.outChild p = .ok (some p, k') ∧ m'.RepresentsTree k' := by
  obtain ⟨m', heq, hforest, hparent⟩ := outChild_spec h.forest hp
  have hkparent : k.pParent p = some q := by
    rw [← h.parent]
    exact h.forest.parent q p hp
  cases hq : k.pChild q with
  | nil =>
      rw [hq] at hp
      exact absurd hp List.not_mem_nil
  | cons c rest =>
      rw [hq] at hforest hparent
      rw [List.head?_cons] at hparent
      by_cases hc : c = p
      · subst hc
        rw [List.erase_cons_head] at hforest
        rw [if_pos rfl] at hparent
        let k' : Kernel A := { k with
          pParent := Function.update k.pParent c none
          pChild := Function.update k.pChild q rest }
        refine ⟨m', k', heq, ?_, hforest, hparent.trans (by rw [h.parent])⟩
        simp [Kernel.outChild, hkparent, hq, Kernel.removeChild, k']
      · rw [List.erase_cons_tail (by simpa using hc)] at hforest
        rw [if_neg (by simpa using hc)] at hparent
        let k' : Kernel A := { k with
          pChild := Function.update k.pChild q (c :: rest.erase p) }
        refine ⟨m', k', heq, ?_, hforest, hparent.trans h.parent⟩
        simp [Kernel.outChild, hkparent, hq, hc, k']

end Refinement

section Runs

variable {s : Memory P S K × (P → List P)}

/-- All PCBs are freshly allocated. -/
def AllDetached (s : Memory P S K × (P → List P)) : Prop :=
  (∀ p, s.1.Detached p) ∧ s.2 = fun _ => []

/-- An allowed call, on the memory and on the forest. -/
def TreeStep
    (s : Memory P S K × (P → List P)) (op : TreeOp P) (s' : Memory P S K × (P → List P)) :
    Prop :=
  op.Allowed s.2 ∧ (∃ r, s.1.execTree op = .ok (r, s'.1)) ∧ s'.2 = op.forest s.2

theorem isForest_of_reachable (hs : Reachable AllDetached TreeStep s) :
    s.1.IsForest s.2 := by
  have hinit : ∀ s : Memory P S K × (P → List P), AllDetached s → s.1.IsForest s.2 := by
    rintro ⟨m, children⟩ ⟨hdet, rfl⟩
    exact isForest_of_detached hdet
  refine hs.invariant hinit ?_
  rintro ⟨m, children⟩ op ⟨m', children'⟩ h ⟨hop, ⟨r, heq⟩, rfl⟩
  obtain ⟨m₁, heq₁, hforest, -⟩ := execTree_spec h hop
  rw [heq₁] at heq
  obtain rfl : m₁ = m' := congrArg Prod.snd (Except.ok.inj heq)
  exact hforest

/--
After any sequence of allowed calls on freshly allocated PCBs the links enumerate the
children of each process in the order of their insertion, with the process as their
parent, and `emptyChild` tells whether there are none.  Every further allowed call
returns: `insertChild` appends, `removeChild` detaches and returns the first child,
`outChild` detaches and returns the process it is given; the other processes keep their
children and parents.
-/
theorem tree_refines_forest (hs : Reachable AllDetached TreeStep s) :
    Forest s.2 ∧
    (∀ q,
      (∀ fuel ≥ (s.2 q).length, s.1.childList fuel q = .ok (s.2 q)) ∧
      (∀ c ∈ s.2 q, s.1.pParent c = some q) ∧
      (s.1.emptyChild q = true ↔ s.2 q = [])) ∧
    ∀ op : TreeOp P, op.Allowed s.2 →
      ∃ m', s.1.execTree op = .ok (op.returned s.2, m') ∧
        TreeStep s op (m', op.forest s.2) ∧
        ∀ x, op.moved s.2 ≠ some x → m'.pParent x = s.1.pParent x := by
  have h := isForest_of_reachable hs
  refine ⟨h.forest, fun q => ?_, fun op hop => ?_⟩
  · exact ⟨fun fuel hfuel => h.childList_eq hfuel, h.parent q, emptyChild_iff h⟩
  · obtain ⟨m', heq, -, hparent⟩ := execTree_spec h hop
    exact ⟨m', heq, ⟨hop, ⟨_, heq⟩, rfl⟩, hparent⟩

end Runs

section Example

/-- Four PCBs as `allocPcb` leaves them. -/
def freshFour : Memory (Fin 4) Unit Unit where
  next := fun l =>
    match l with
    | .pSib p => some (.pSib p)
    | _ => none
  prev := fun l =>
    match l with
    | .pSib p => some (.pSib p)
    | _ => none
  pParent := fun _ => none
  priority := fun _ => 0
  pSemkey := fun _ => none
  sKey := fun _ => none

theorem freshFour_detached (p : Fin 4) : freshFour.Detached p :=
  ⟨rfl, rfl, rfl, ring_singleton.mpr ⟨rfl, rfl⟩⟩

theorem tree_refines_forest_freshFour :
    ∃ m₁ m₂, freshFour.execTree (.insertChild 0 1) = .ok (none, m₁) ∧
      m₁.childList 1 0 = .ok [1] ∧
      m₁.execTree (.insertChild 0 2) = .ok (none, m₂) := by
  have h0 : Reachable AllDetached TreeStep (freshFour, fun _ => ([] : List (Fin 4))) :=
    Reachable.start ⟨freshFour_detached, rfl⟩
  obtain ⟨m₁, heq₁, hstep, -⟩ := (tree_refines_forest h0).2.2 (.insertChild 0 1)
    ⟨by simp, rfl, by decide⟩
  have h1 := tree_refines_forest (Reachable.step h0 hstep)
  have hallowed : (TreeOp.insertChild 0 2).Allowed (addLeaf (fun _ => []) (0 : Fin 4) 1) :=
    ⟨by decide, by decide, by decide⟩
  obtain ⟨m₂, heq₂, -, -⟩ := h1.2.2 (.insertChild 0 2) hallowed
  exact ⟨m₁, m₂, heq₁, (h1.2.1 0).1 1 (Nat.le_refl 1), heq₂⟩

end Example

end Memory

end Bikaya
