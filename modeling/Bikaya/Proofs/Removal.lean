import Bikaya.Proofs.ProcessTree
import Bikaya.Proofs.Residence

/-!
# Bikaya: the recursive removal

The recursion of `recursive_remove_proc` visits the subtree in preorder.  Each visit
unlinks one process and frees it, whatever the tree looks like at that moment, so the
recursion is a loop over the preorder listing; the links of the tree are taken down
independently.

**Plan.**  `withTree` separates the links of the tree from the rest, on which a visit
(`kill`) does not depend.  The recursion and its loop over the children are mutually
recursive; the induction is on the derivation of the preorder listing, and the fuel is
bounded by the number of the processes of the subtree.

**Results.**
* `recursiveRemoveProc_eq`: the recursion visits the listing and then leaves a tree without
  the subtree.
* `removal_invariant`: what the three functions of a visit keep is kept by the recursion.
-/

namespace Bikaya

open OrderedForest

/-- The panic of `recursive_remove_proc`. -/
abbrev removalPanic : Halt :=
  .panic
    "Error during recursive process removal, the given process isn't on the ready queue or in a semaphore queue."

namespace Kernel

variable {A : Arch}

/-- One visit of the removal: the process is unlinked and freed. -/
def kill (k : Kernel A) (x : Proc) : Option (Kernel A) :=
  match k.unlinkProc x with
  | (none, _) => none
  | (some toBeFreed, k) => some (k.freePcb toBeFreed)

/-- The visits of a list of processes. -/
def killAll (k : Kernel A) : List Proc → Option (Kernel A)
  | [] => some k
  | x :: l =>
      match k.kill x with
      | none => none
      | some k => killAll k l

/-- The kernel with other tree links. -/
def withTree (k : Kernel A) (pParent : Proc → Option Proc) (pChild : Proc → List Proc) :
    Kernel A :=
  { k with pParent := pParent, pChild := pChild }

theorem unlinkProc_withTree
    (k : Kernel A) (pParent : Proc → Option Proc) (pChild : Proc → List Proc) (x : Proc) :
    (k.withTree pParent pChild).unlinkProc x =
      ((k.unlinkProc x).1, (k.unlinkProc x).2.withTree pParent pChild) := by
  simp only [unlinkProc, withTree]
  cases hkey : k.pSemkey x with
  | none =>
      cases hdev : k.devWList x <;> rfl
  | some key =>
      simp only [outBlocked]
      cases hsemd : k.asl.getSemd (k.pSemkey x) with
      | none =>
          rfl
      | some s =>
          simp only [outProcQ_eq]
          by_cases hx : x ∈ k.asl.sProcQ s
          · simp only [hx, if_true]
          · simp only [hx, if_false]

theorem kill_withTree
    (k : Kernel A) (pParent : Proc → Option Proc) (pChild : Proc → List Proc) (x : Proc) :
    (k.withTree pParent pChild).kill x =
      (k.kill x).map (fun k => k.withTree pParent pChild) := by
  simp only [kill, unlinkProc_withTree]
  rcases k.unlinkProc x with ⟨_ | y, k'⟩ <;> rfl

theorem killAll_withTree
    (pParent : Proc → Option Proc) (pChild : Proc → List Proc) (l : List Proc) :
    ∀ k : Kernel A,
      (k.withTree pParent pChild).killAll l =
        (k.killAll l).map (fun k => k.withTree pParent pChild) := by
  induction l with
  | nil =>
      intro k
      rfl
  | cons x l ih =>
      intro k
      simp only [killAll, kill_withTree]
      cases k.kill x with
      | none =>
          rfl
      | some k' =>
          exact ih k'

theorem killAll_append
    (l l' : List Proc) :
    ∀ k : Kernel A, k.killAll (l ++ l') = (k.killAll l).bind (fun k => k.killAll l') := by
  induction l with
  | nil =>
      intro k
      rfl
  | cons x l ih =>
      intro k
      simp only [List.cons_append, killAll]
      cases k.kill x with
      | none =>
          rfl
      | some k' =>
          exact ih k'

/-- The parent links after the removal of the processes of `l`. -/
def orphan (pParent : Proc → Option Proc) (l : List Proc) : Proc → Option Proc :=
  fun x => if x ∈ l then none else pParent x

/-- The children after the removal of the processes of `l`. -/
def childless (pChild : Proc → List Proc) (l : List Proc) : Proc → List Proc :=
  fun x => if x ∈ l then [] else pChild x

/-- What the recursion returns, given the outcome of the visits. -/
def removed (k : Kernel A) (dead orphans : List Proc) :
    Option (Kernel A) → Except Halt (Int × Kernel A)
  | none => .error removalPanic
  | some k' => .ok (0, k'.withTree (orphan k.pParent orphans) (childless k.pChild dead))

/-- The parent links, when the first child and the lists after it are orphaned in turn. -/
theorem orphan_orphan (pParent : Proc → Option Proc) (a : Proc) (below after : List Proc) :
    orphan (orphan (Function.update pParent a none) below) after =
      orphan pParent (a :: (below ++ after)) := by
  funext x
  by_cases hxa : x = a
  · subst hxa
    simp [orphan]
  · simp only [orphan, List.mem_cons, List.mem_append, hxa, false_or, Function.update_of_ne hxa]
    by_cases hb : x ∈ below <;> by_cases hc : x ∈ after <;> simp [hb, hc]

/-- The children, when the subtree of the first child and the rest are removed in turn. -/
theorem childless_childless
    (pChild : Proc → List Proc) (p a : Proc) (rest below after : List Proc) :
    childless (childless (Function.update pChild p rest) (a :: below)) (p :: after) =
      childless pChild (p :: a :: (below ++ after)) := by
  funext x
  by_cases hxp : x = p
  · subst hxp
    simp [childless]
  · simp only [childless, List.mem_cons, List.mem_append, hxp, false_or,
      Function.update_of_ne hxp]
    by_cases ha : x = a <;> by_cases hb : x ∈ below <;> by_cases hc : x ∈ after <;>
      simp [ha, hb, hc]

/-- One round of the loop over the children of `p`. -/
theorem removeChildren_cons
    (n : Nat) {k : Kernel A} {p a : Proc} {rest : List Proc} (hp : k.pChild p = a :: rest) :
    removeChildren (n + 1) k p =
      (recursiveRemoveProc n (k.withTree (Function.update k.pParent a none)
        (Function.update k.pChild p rest)) a).bind (fun r =>
          if r.1 ≠ 0 then .ok (-1, r.2) else removeChildren n r.2 p) := by
  rw [removeChildren]
  simp only [removeChild, hp, withTree]
  split
  · next heq =>
    rw [heq]
    rfl
  · next heq =>
    rw [heq]
    rfl

/-- The visit of one process, and then of the trees below it. -/
theorem recursiveRemoveProc_succ (n : Nat) (k : Kernel A) (a : Proc) :
    recursiveRemoveProc (n + 1) k a =
      (k.kill a).elim (.error removalPanic) (fun k' => removeChildren n k' a) := by
  rw [recursiveRemoveProc, kill]
  rcases k.unlinkProc a with ⟨_ | y, k'⟩ <;> rfl

/--
The loop over the children of `p` visits the trees below `p` in preorder, and
takes their links down.
-/
theorem removeChildren_eq
    {children : Proc → List Proc} {roots l : List Proc}
    (h : Preorder children roots l) :
    ∀ (n : Nat) (k : Kernel A) (p : Proc),
      2 * l.length + 1 ≤ n →
      k.pChild p = roots →
      (∀ x ∈ l, k.pChild x = children x) →
      (p :: l).Nodup →
      removeChildren n k p = removed k (p :: l) l (k.killAll l) := by
  induction h with
  | nil =>
      intro n k p hn hp _ _
      obtain ⟨n, rfl⟩ : ∃ n', n = n' + 1 := ⟨n - 1, by omega⟩
      have hchild : childless k.pChild [p] = k.pChild := by
        funext x
        by_cases hx : x = p
        · subst hx
          simp [childless, hp]
        · simp [childless, hx]
      have hparent : orphan k.pParent [] = k.pParent := by
        funext x
        simp [orphan]
      simp only [removeChildren, removeChild, hp, killAll, removed, hchild, hparent]
      rfl
  | @cons a rest below after _ _ ihBelow ihAfter =>
      intro n k p hn hp hl hnd
      simp only [List.length_cons, List.length_append] at hn
      obtain ⟨n, rfl⟩ : ∃ n', n = n' + 2 := ⟨n - 2, by omega⟩
      obtain ⟨hpl, hnd⟩ := List.nodup_cons.mp hnd
      obtain ⟨hal, hnd⟩ := List.nodup_cons.mp hnd
      obtain ⟨hndBelow, hndAfter, hdisj⟩ := List.nodup_append'.mp hnd
      simp only [List.mem_cons, List.mem_append, not_or] at hpl hal
      obtain ⟨hpa, hpBelow, hpAfter⟩ := hpl
      -- the state in which the first child is visited
      set k1 := k.withTree (Function.update k.pParent a none) (Function.update k.pChild p rest)
        with hk1
      have hkill : k1.kill a = (k.kill a).map (fun k' => k'.withTree k1.pParent k1.pChild) :=
        kill_withTree k _ _ a
      rw [removeChildren_cons (n + 1) hp, ← hk1, recursiveRemoveProc_succ, hkill]
      simp only [killAll]
      cases hka : k.kill a with
      | none =>
          rfl
      | some k2 =>
          simp only [Option.map_some, Option.elim_some]
          set k2' := k2.withTree k1.pParent k1.pChild with hk2'
          have hchild1 : ∀ x, x ≠ p → k2'.pChild x = k.pChild x :=
            fun x hx => Function.update_of_ne hx _ _
          have hbelow := ihBelow n k2' a (by omega)
            ((hchild1 a (Ne.symm hpa)).trans (hl a List.mem_cons_self))
            (fun x hx => (hchild1 x (fun h => hpBelow (h ▸ hx))).trans (hl x (by simp [hx])))
            (List.nodup_cons.mpr ⟨hal.1, hndBelow⟩)
          rw [hbelow, killAll_append, hk2', killAll_withTree]
          cases hkb : k2.killAll below with
          | none =>
              rfl
          | some k3 =>
              simp only [Option.map_some, removed, Option.bind_some]
              set k3' := (k3.withTree k1.pParent k1.pChild).withTree
                (orphan k2'.pParent below) (childless k2'.pChild (a :: below)) with hk3'
              have hpl3 : k3'.pChild p = rest := by
                show childless k2'.pChild (a :: below) p = rest
                simp [childless, hpa, hpBelow, hk2', withTree, hk1]
              have hchild3 : ∀ x ∈ after, k3'.pChild x = children x := by
                intro x hx
                have hxb : x ∉ a :: below := by
                  intro hmem
                  rcases List.mem_cons.mp hmem with rfl | hmem
                  · exact hal.2 hx
                  · exact hdisj hmem hx
                show childless k2'.pChild (a :: below) x = children x
                rw [childless, if_neg hxb, hchild1 x (fun h => hpAfter (h ▸ hx))]
                exact hl x (by simp [hx])
              have hafter := ihAfter (n + 1) k3' p (by omega) hpl3 hchild3
                (List.nodup_cons.mpr ⟨hpAfter, hndAfter⟩)
              simp only [Except.bind, ne_eq, not_true_eq_false, if_false]
              rw [hafter, hk3', killAll_withTree, killAll_withTree]
              cases k3.killAll after with
              | none =>
                  rfl
              | some k4 =>
                  have hparents : orphan k3'.pParent after =
                      orphan k.pParent (a :: (below ++ after)) :=
                    orphan_orphan k.pParent a below after
                  have hchildren : childless k3'.pChild (p :: after) =
                      childless k.pChild (p :: a :: (below ++ after)) :=
                    childless_childless k.pChild p a rest below after
                  simp only [Option.map_some, removed]
                  rw [← hk3', hparents, hchildren]
                  rfl

/-- The removal of `t` visits the subtree of `t` in preorder. -/
theorem recursiveRemoveProc_eq
    {children : Proc → List Proc} {t : Proc} {below : List Proc}
    (h : Preorder children (children t) below)
    {n : Nat} {k : Kernel A}
    (hn : 2 * below.length + 2 ≤ n)
    (hl : ∀ x ∈ t :: below, k.pChild x = children x)
    (hnd : (t :: below).Nodup) :
    recursiveRemoveProc n k t = removed k (t :: below) below (k.killAll (t :: below)) := by
  obtain ⟨n, rfl⟩ : ∃ n', n = n' + 1 := ⟨n - 1, by omega⟩
  rw [recursiveRemoveProc, killAll, kill]
  rcases hunlink : k.unlinkProc t with ⟨_ | y, k1⟩
  · rfl
  · have hk1 : k1 = k1.withTree k.pParent k.pChild := by
      have := unlinkProc_withTree k k.pParent k.pChild t
      change k.unlinkProc t = _ at this
      rw [hunlink] at this
      exact congrArg Prod.snd this
    have htree : k1.freePcb y = (k1.freePcb y).withTree k.pParent k.pChild :=
      congrArg (fun k => freePcb k y) hk1
    show removeChildren n (k1.freePcb y) t =
      removed k (t :: below) below ((k1.freePcb y).killAll below)
    rw [htree]
    have hchildren := removeChildren_eq h n ((k1.freePcb y).withTree k.pParent k.pChild) t
      (by omega) (hl t List.mem_cons_self)
      (fun x hx => hl x (List.mem_cons_of_mem _ hx)) hnd
    rw [hchildren, killAll_withTree]
    cases (k1.freePcb y).killAll below <;> rfl

/--
A removal that returns has returned 0, and keeps what the unlinking, the freeing and the
detaching of one process keep.
-/
theorem removal_invariant
    {P : Kernel A → Prop}
    (hunlink : ∀ k x, P k → P (k.unlinkProc x).2)
    (hfree : ∀ k x, P k → P (k.freePcb x))
    (hchild : ∀ k x, P k → P (k.removeChild x).2) (n : ℕ) :
    (∀ k x r, P k → recursiveRemoveProc n k x = .ok r → r.1 = 0 ∧ P r.2) ∧
    (∀ k x r, P k → removeChildren n k x = .ok r → r.1 = 0 ∧ P r.2) := by
  induction n with
  | zero =>
      constructor
      · intro k x r _ h
        exact absurd h (by simp [recursiveRemoveProc])
      · intro k x r _ h
        exact absurd h (by simp [removeChildren])
  | succ n ih =>
      constructor
      · intro k x r hk h
        have hk₁ := hunlink k x hk
        rw [recursiveRemoveProc] at h
        split at h
        · exact absurd h (by simp)
        · rename_i toBeFreed k₁ heq
          rw [heq] at hk₁
          exact ih.2 _ _ _ (hfree k₁ toBeFreed hk₁) h
      · intro k x r hk h
        have hk₁ := hchild k x hk
        rw [removeChildren] at h
        split at h
        · rename_i k₁ heq
          rw [heq] at hk₁
          rw [← Except.ok.inj h]
          exact ⟨rfl, hk₁⟩
        · rename_i child k₁ heq
          rw [heq] at hk₁
          cases hrec : recursiveRemoveProc n k₁ child with
          | error err =>
              rw [hrec] at h
              exact absurd h (by simp)
          | ok r₁ =>
              obtain ⟨hret, hr₁⟩ := ih.1 _ _ _ hk₁ hrec
              rw [hrec] at h
              simp only [hret, ne_eq, not_true_eq_false, if_false] at h
              exact ih.2 _ _ _ hr₁ h

end Kernel

end Bikaya
