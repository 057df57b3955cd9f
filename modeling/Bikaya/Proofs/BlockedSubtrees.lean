import Bikaya.Proofs.SemaphoreLinks
import Bikaya.Proofs.TreeLinks
import Mathlib.Algebra.Order.BigOperators.Group.List

/-!
# Bikaya: unblocking a subtree

`outChildBlocked` visits a process and, along the ring of its children, everything below
it.  The visit of a list of trees unblocks the processes of their preorder listing, one
after the other, whatever has been unblocked before.

**Plan.**  `Unblocks` says that a computation takes a list of processes out of their
queues, one by one, and leaves the tree and all other fields alone.  `outChildBlocked` and
its loop over the ring of siblings are mutually recursive, so the induction is on the
derivation of the preorder listing, where a tree and the trees after it come together.

**Results.**
* `unblocks_preorder`: the visit of a list of trees unblocks its preorder listing.
* `outChildBlocked_unblocks`: for every tree, wherever its processes wait, nobody of the
  subtree is blocked afterwards, and everybody else waits as before.
-/

namespace Bikaya

open LinkRing OrderedForest

namespace Memory

variable {P S K : Type} {m m' : Memory P S K} {A A' : SemLists P S}
variable {children : P → List P} {c p q first : P} {l l' front rest : List P} {n : ℕ}

theorem SameTree.isForest (h : SameTree m m') (hforest : m.IsForest children) :
    m'.IsForest children where
  forest := hforest.forest
  first := fun a => (h.nextChild a).trans (hforest.first a)
  back := fun a c hc => (h.prevChild c).trans (hforest.back a c hc)
  ring := by
    intro a hne
    refine (hforest.ring a hne).congr ?_ ?_
    · intro x hx
      obtain ⟨c, -, rfl⟩ := List.mem_map.mp hx
      exact h.nextSib c
    · intro x hx
      obtain ⟨c, -, rfl⟩ := List.mem_map.mp hx
      exact h.prevSib c
  parent := fun a c hc => (congrFun h.parent c).trans (hforest.parent a c hc)

variable [DecidableEq P]

/-- Unblocking makes no list longer. -/
theorem Unblocked.boundedBy
    (h : Unblocked l m A m' A') (hn : A.BoundedBy n) : A'.BoundedBy n := by
  constructor
  · rw [h.active]
    exact lt_of_le_of_lt (List.length_filter_le _ _) hn.1
  · intro s hs
    have hsA : s ∈ A.active := by
      rw [h.active] at hs
      exact (List.mem_filter.mp hs).1
    rw [h.queue s]
    exact lt_of_le_of_lt (List.length_filter_le _ _) (hn.2 s hsA)

/--
With enough rounds the routine returns, and has unblocked the processes of `l` in any
memory whose tree links represent the forest.
-/
def Unblocks
    (K : Type) (S : Type) (children : P → List P) (n : ℕ)
    (routine : ℕ → Memory P S K → Except Halt (Memory P S K)) (l : List P) : Prop :=
  ∃ B, ∀ (m : Memory P S K) (A : SemLists P S),
    m.IsForest children → m.IsAsl A → A.BoundedBy n →
    ∃ m' A', (∀ fuel ≥ B, routine fuel m = .ok m') ∧
      m'.IsAsl A' ∧ Unblocked l m A m' A' ∧ SameTree m m'

variable [DecidableEq S] [DecidableEq K]

omit [DecidableEq K] in
/-- `nextSibling` of one of the children of `q`, `first` being the first of them. -/
theorem IsForest.nextSibling_eq
    (h : m.IsForest children) (hq : children q = front ++ c :: rest)
    (hfirst : (children q).head? = some first) :
    m.nextSibling c first = .ok rest.head? := by
  obtain ⟨tail, htail⟩ : ∃ tail, children q = first :: tail := by
    cases hc : children q with
    | nil =>
        simp [hc] at hfirst
    | cons d tail =>
        rw [hc] at hfirst
        exact ⟨tail, by rw [Option.some.inj hfirst]⟩
  have hpath := follows_of_isRing (h.ring_cons htail)
  have hlinks : (Link.pSib first :: (tail.map Link.pSib ++ [Link.pSib first]) :
      List (Link P S)) = front.map .pSib ++ (.pSib c :: (rest.map .pSib ++ [.pSib first])) := by
    have hmap := congrArg (List.map (Link.pSib : P → Link P S)) (htail.symm.trans hq)
    rw [← List.cons_append, ← List.map_cons, hmap]
    simp
  rw [hlinks] at hpath
  have hrest : m.Follows (.pSib c :: (rest.map .pSib ++ [.pSib first])) :=
    (List.isChain_append.mp hpath).2.1
  refine Memory.nextSibling_eq hrest.next.1 ?_
  have hnodup : (front ++ c :: rest).Nodup := hq ▸ h.forest.nodup q
  intro hmem
  cases front with
  | nil =>
      rw [hq] at hfirst
      obtain rfl : c = first := Option.some.inj hfirst
      exact (List.nodup_cons.mp hnodup).1 hmem
  | cons d front =>
      rw [hq] at hfirst
      obtain rfl : d = first := Option.some.inj hfirst
      refine (List.nodup_cons.mp hnodup).1 ?_
      simp [hmem]

/-- A visit of `p` unblocks `p`, and then what the visit of its children unblocks. -/
theorem unblocks_child
    (hbelow : ∀ first, (children p).head? = some first →
      Unblocks K S children n (fun fuel m => outSiblingsBlocked fuel m first first) l)
    (hleaf : children p = [] → l = []) :
    Unblocks K S children n (fun fuel m => outChildBlocked fuel m p) (p :: l) := by
  cases hp : children p with
  | nil =>
      refine ⟨n + 1, fun m A hforest hasl hn => ?_⟩
      obtain ⟨m', A', hout, hasl', hunblocked, htree⟩ := outBlocked_spec hasl p
      have hempty : m'.emptyChild p = true := (emptyChild_iff (htree.isForest hforest)).mpr hp
      refine ⟨m', A', fun fuel hfuel => ?_, hasl', hleaf hp ▸ hunblocked, htree⟩
      obtain ⟨fuel, rfl⟩ := Nat.exists_eq_succ_of_ne_zero (Nat.ne_zero_of_lt hfuel)
      have hfuel' : A.BoundedBy fuel :=
        ⟨lt_of_lt_of_le hn.1 (Nat.le_of_succ_le_succ hfuel),
          fun s hs => lt_of_lt_of_le (hn.2 s hs) (Nat.le_of_succ_le_succ hfuel)⟩
      obtain ⟨r, hr⟩ := hout fuel hfuel'
      simp [outChildBlocked, hr, hempty]
  | cons first rest =>
      obtain ⟨B, hB⟩ := hbelow first (by simp [hp])
      refine ⟨n + B + 1, fun m A hforest hasl hn => ?_⟩
      obtain ⟨m₁, A₁, hout, hasl₁, hunblocked₁, htree₁⟩ := outBlocked_spec hasl p
      have hforest₁ := htree₁.isForest hforest
      obtain ⟨m', A', hloop, hasl', hunblocked', htree'⟩ :=
        hB m₁ A₁ hforest₁ hasl₁ (hunblocked₁.boundedBy hn)
      have hempty : ¬ m₁.emptyChild p = true := by
        intro he
        have hnil := (emptyChild_iff hforest₁).mp he
        rw [hp] at hnil
        exact List.cons_ne_nil _ _ hnil
      refine ⟨m', A', fun fuel hfuel => ?_, hasl', hunblocked₁.trans hunblocked',
        htree₁.trans htree'⟩
      obtain ⟨fuel, rfl⟩ := Nat.exists_eq_succ_of_ne_zero (Nat.ne_zero_of_lt hfuel)
      have hfuel' : A.BoundedBy fuel :=
        ⟨lt_of_lt_of_le hn.1 (by omega), fun s hs => lt_of_lt_of_le (hn.2 s hs) (by omega)⟩
      obtain ⟨r, hr⟩ := hout fuel hfuel'
      have hrun := hloop fuel (by omega)
      simp only at hrun
      simp [outChildBlocked, hr, hempty, listNext_pChild hforest₁ hp, hrun]

/-- The loop visits one child, and then the children behind it. -/
theorem unblocks_siblings
    (hq : children q = front ++ c :: rest) (hfirst : (children q).head? = some first)
    (hchild : Unblocks K S children n (fun fuel m => outChildBlocked fuel m c) l)
    (hrest : ∀ d, rest.head? = some d →
      Unblocks K S children n (fun fuel m => outSiblingsBlocked fuel m d first) l')
    (hlast : rest = [] → l' = []) :
    Unblocks K S children n (fun fuel m => outSiblingsBlocked fuel m c first) (l ++ l') := by
  obtain ⟨B, hB⟩ := hchild
  cases rest with
  | nil =>
      refine ⟨B + 1, fun m A hforest hasl hn => ?_⟩
      obtain ⟨m', A', hvisit, hasl', hunblocked, htree⟩ := hB m A hforest hasl hn
      have hsibling := (htree.isForest hforest).nextSibling_eq hq hfirst
      rw [hlast rfl, List.append_nil]
      refine ⟨m', A', fun fuel hfuel => ?_, hasl', hunblocked, htree⟩
      obtain ⟨fuel, rfl⟩ := Nat.exists_eq_succ_of_ne_zero (Nat.ne_zero_of_lt hfuel)
      have hrun := hvisit fuel (by omega)
      simp only at hrun
      simp [outSiblingsBlocked, hrun, hsibling]
  | cons d rest =>
      obtain ⟨B', hB'⟩ := hrest d rfl
      refine ⟨B + B' + 1, fun m A hforest hasl hn => ?_⟩
      obtain ⟨m₁, A₁, hvisit, hasl₁, hunblocked₁, htree₁⟩ := hB m A hforest hasl hn
      have hforest₁ := htree₁.isForest hforest
      have hsibling := hforest₁.nextSibling_eq hq hfirst
      obtain ⟨m', A', hloop, hasl', hunblocked', htree'⟩ :=
        hB' m₁ A₁ hforest₁ hasl₁ (hunblocked₁.boundedBy hn)
      refine ⟨m', A', fun fuel hfuel => ?_, hasl', hunblocked₁.trans hunblocked',
        htree₁.trans htree'⟩
      obtain ⟨fuel, rfl⟩ := Nat.exists_eq_succ_of_ne_zero (Nat.ne_zero_of_lt hfuel)
      have hrun := hvisit fuel (by omega)
      have hrun' := hloop fuel (by omega)
      simp only at hrun hrun'
      simp [outSiblingsBlocked, hrun, hsibling, hrun']

/-- The loop over the last children of `q` unblocks their preorder listing. -/
theorem unblocks_preorder
    {roots : List P} (h : Preorder children roots l) :
    ∀ q front first c, children q = front ++ roots → (children q).head? = some first →
      roots.head? = some c →
      Unblocks K S children n (fun fuel m => outSiblingsBlocked fuel m c first) l := by
  induction h with
  | nil =>
      intro q front first c _ _ hc
      simp at hc
  | @cons a rest below after hbelow hafter ihBelow ihAfter =>
      intro q front first c hq hfirst hc
      obtain rfl : a = c := Option.some.inj hc
      rw [← List.cons_append]
      refine unblocks_siblings hq hfirst (unblocks_child ?_ ?_) ?_ ?_
      · intro d hd
        exact ihBelow a [] d d rfl hd hd
      · intro hnil
        rw [hnil] at hbelow
        cases hbelow
        rfl
      · intro d hd
        exact ihAfter q (front ++ [a]) first d (by simpa using hq) hfirst hd
      · intro hnil
        subst hnil
        cases hafter
        rfl

/-- `outChildBlocked` unblocks the preorder listing of the subtree. -/
theorem unblocks_subtree
    (h : Preorder children (children p) l) :
    Unblocks K S children n (fun fuel m => outChildBlocked fuel m p) (p :: l) := by
  refine unblocks_child ?_ ?_
  · intro first hfirst
    exact unblocks_preorder h p [] first first rfl hfirst hfirst
  · intro hnil
    rw [hnil] at h
    cases h
    rfl

omit [DecidableEq P] [DecidableEq S] [DecidableEq K] in
theorem SemLists.exists_bound (A : SemLists P S) : ∃ n, A.BoundedBy n := by
  refine ⟨A.active.length + (A.active.map fun s => (A.queue s).length).sum + 1, by omega, ?_⟩
  intro s hs
  have hle : (A.queue s).length ≤ (A.active.map fun s => (A.queue s).length).sum :=
    List.le_sum_of_mem (List.mem_map.mpr ⟨s, hs, rfl⟩)
  omega

/--
`outChildBlocked` terminates, and unblocks exactly the subtree of `p`: its processes have
no key and stand in no queue, the other ones keep their keys, queues and relative order,
the descriptors whose queues got empty are freed, and the tree is not changed.
-/
theorem outChildBlocked_unblocks
    (hforest : m.IsForest children) (hasl : m.IsAsl A) (p : P) :
    ∃ B m' A', (∀ fuel ≥ B, outChildBlocked fuel m p = .ok m') ∧ m'.IsAsl A' ∧
      (∀ x, Below children x p → m'.pSemkey x = none ∧ ∀ s, x ∉ A'.queue s) ∧
      (∀ x, ¬ Below children x p → m'.pSemkey x = m.pSemkey x) ∧
      (∀ s, (A'.queue s).Sublist (A.queue s) ∧
        ∀ x, x ∈ A'.queue s ↔ x ∈ A.queue s ∧ ¬ Below children x p) ∧
      A'.active = A.active.filter (fun s => A'.queue s ≠ []) ∧
      (∃ freed, freed.Perm (A.active.filter (fun s => A'.queue s = [])) ∧
        A'.free = freed ++ A.free) ∧
      m'.IsForest children ∧ SameTree m m' := by
  obtain ⟨n, hn⟩ := SemLists.exists_bound A
  obtain ⟨below, hbelow⟩ := hforest.forest.exists_preorder (children p)
  have hmem : ∀ x, x ∈ p :: below ↔ Below children x p := by
    intro x
    rw [List.mem_cons, hbelow.mem_iff, below_iff p x]
  obtain ⟨B, hB⟩ := unblocks_subtree (S := S) (K := K) (n := n) hbelow
  obtain ⟨m', A', hrun, hasl', hunblocked, htree⟩ := hB m A hforest hasl hn
  have hqueue : ∀ s x, x ∈ A'.queue s ↔ x ∈ A.queue s ∧ ¬ Below children x p := by
    intro s x
    rw [hunblocked.queue s, List.mem_filter, decide_eq_true_iff, hmem x]
  refine ⟨B, m', A', hrun, hasl', ?_, ?_, ?_, hunblocked.active, hunblocked.freed,
    htree.isForest hforest, htree⟩
  · intro x hx
    refine ⟨?_, fun s hs => ((hqueue s x).mp hs).2 hx⟩
    rw [hunblocked.semkey x, if_pos ((hmem x).mpr hx)]
  · intro x hx
    rw [hunblocked.semkey x, if_neg (fun hxl => hx ((hmem x).mp hxl))]
  · intro s
    refine ⟨?_, hqueue s⟩
    rw [hunblocked.queue s]
    exact List.filter_sublist

section Example

/-- PCB 1 is the child of PCB 0; 1 and 2 wait on one semaphore. -/
def oneSemaphore : Memory Proc Unit Unit where
  next := fun l =>
    match l with
    | .semdH => some (.sNext ())
    | .sNext () => some .semdH
    | .semdFreeH => some .semdFreeH
    | .sProcQ () => some (.pNext (.pcb 1))
    | .pNext p => some (if p = .pcb 1 then .pNext (.pcb 2) else .sProcQ ())
    | .pChild p => if p = .pcb 0 then some (.pChild (.pcb 1)) else none
    | .pSib p => some (.pSib p)
    | _ => none
  prev := fun l =>
    match l with
    | .semdH => some (.sNext ())
    | .sNext () => some .semdH
    | .semdFreeH => some .semdFreeH
    | .sProcQ () => some (.pNext (.pcb 2))
    | .pNext p => some (if p = .pcb 2 then .pNext (.pcb 1) else .sProcQ ())
    | .pChild p => if p = .pcb 1 then some (.pChild (.pcb 0)) else none
    | .pSib p => some (.pSib p)
    | _ => none
  pParent := fun p => if p = .pcb 1 then some (.pcb 0) else none
  priority := fun _ => 0
  pSemkey := fun p => if p = .pcb 1 ∨ p = .pcb 2 then some () else none
  sKey := fun _ => some ()

def oneQueue : SemLists Proc Unit where
  active := [()]
  free := []
  queue := fun _ => [.pcb 1, .pcb 2]

theorem oneSemaphore_isForest :
    oneSemaphore.IsForest (addLeaf (fun _ => []) (.pcb 0) (.pcb 1)) := by
  refine ⟨Forest.empty.addLeaf (by decide) rfl (by simp), by decide, by decide, ?_, by decide⟩
  intro a ha
  obtain rfl : a = .pcb 0 := by
    by_contra hne
    exact ha (Function.update_of_ne hne _ _)
  exact ring_singleton.mpr ⟨rfl, rfl⟩

theorem oneSemaphore_isAsl : oneSemaphore.IsAsl oneQueue := by
  refine ⟨⟨Cycle.nodup_coe_iff.mpr (by decide), ?_⟩, ring_singleton.mpr ⟨rfl, rfl⟩,
    by simp [oneQueue], fun s _ => ⟨Cycle.nodup_coe_iff.mpr ?_, ?_⟩, by simp [oneQueue],
    by simp [oneSemaphore], fun _ _ _ _ _ => rfl, ?_, ?_⟩
  · simp [Linked, oneSemaphore, oneQueue]
  · revert s
    decide
  · simp [Linked, oneSemaphore, oneQueue]
  · decide
  · decide

theorem outChildBlocked_unblocks_oneSemaphore :
    ∃ B m', (∀ fuel ≥ B, outChildBlocked fuel oneSemaphore (.pcb 0) = .ok m') ∧
      m'.pSemkey (.pcb 1) = none ∧ m'.pSemkey (.pcb 2) = some () := by
  obtain ⟨B, m', A', hrun, -, hbelow, hother, -⟩ :=
    outChildBlocked_unblocks oneSemaphore_isForest oneSemaphore_isAsl (.pcb 0)
  have hchild : Proc.pcb 1 ∈ addLeaf (fun _ => []) (.pcb 0) (.pcb 1) (.pcb 0) := by
    decide
  have hone : ∀ c ∈ addLeaf (fun _ => []) (.pcb 0) (.pcb 1) (.pcb 0), c = Proc.pcb 1 := by
    decide
  have hnone : ∀ c, c ∉ addLeaf (fun _ => []) (.pcb 0) (.pcb 1) (Proc.pcb 1) := by
    decide
  refine ⟨B, m', hrun, (hbelow _ (Below.child hchild)).1, (hother (.pcb 2) ?_).trans rfl⟩
  intro htwo
  rcases (below_iff _ _).mp htwo with heq | ⟨c, hc, hcb⟩
  · simp at heq
  · obtain rfl := hone c hc
    rcases (below_iff _ _).mp hcb with heq | ⟨d, hd, -⟩
    · simp at heq
    · exact hnone d hd

end Example

end Memory

end Bikaya
