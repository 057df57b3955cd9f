import Bikaya.Proofs.TreeOperations

/-!
# Bikaya: detached processes and moved subtrees

What `outChild` leaves of a detached process, and what `insertChild` leaves of the subtree
it moves, depend on which branch of the functions is taken: a child that is not the first
one keeps its parent link, and a process that becomes a later child loses its own children.

**Plan.**  Both functions are described on all the links by `TreeLinks.lean`; here two
links are looked at.  A first child is removed by `removeChild`, which clears its parent,
and a later one by the branch that does not.  `insertChild` ends the ring of its process by
writing to the link that also starts the ring of its children.

**Results.**
* `detachesCompletely_iff`: `outChild` detaches a child completely if and only if it is the
  first one.
* `outChild_keeps_parent`: the second detachment of a later child.
* `insertChild_keeps_subtree`: a process keeps its subtree when it is inserted if and only
  if it becomes the first child or has no children.
* `insertChild_loses_subtree`: a process that loses it.
-/

namespace Bikaya

open OrderedForest

namespace Memory

variable {P S K : Type} [DecidableEq P] [DecidableEq S]
variable {m m' : Memory P S K} {children : P → List P} {p q prnt : P}

section Parents

theorem listAddBetween_parent
    {x : Link P S} {a b : Option (Link P S)} (h : m.listAddBetween x a b = .ok m') :
    m'.pParent = m.pParent := by
  obtain ⟨_, -, h⟩ := ok_of_bind h
  obtain ⟨_, -, h⟩ := ok_of_bind h
  rw [← Except.ok.inj h]
  rfl

theorem listDel_parent
    {x : Link P S} (h : m.listDel x = .ok m') :
    m'.pParent = m.pParent := by
  obtain ⟨_, -, h⟩ := ok_of_bind h
  obtain ⟨_, -, h⟩ := ok_of_bind h
  rw [← Except.ok.inj h]
  rfl

/-- Whatever the links are, `insertChild` gives a parent to the inserted process only. -/
theorem insertChild_parent
    (h : m.insertChild (some prnt) (some p) = .ok m') :
    m'.pParent = Function.update m.pParent p (some prnt) := by
  by_cases hempty : (m.setParent p (some prnt)).emptyChild prnt = true
  · simp only [insertChild, hempty, if_true] at h
    rw [← Except.ok.inj h]
    rfl
  · simp only [insertChild, hempty] at h
    obtain ⟨_, -, h⟩ := ok_of_bind h
    obtain ⟨_, hadd, h⟩ := ok_of_bind h
    rw [← Except.ok.inj h]
    exact listAddBetween_parent hadd

/-- `removeChild` gives a parent to nobody. -/
theorem removeChild_parent
    {r : Option P} (h : m.removeChild q = .ok (r, m')) (x : P) (hx : m.pParent x = none) :
    m'.pParent x = none := by
  have hclear : ∀ c, Function.update m.pParent c none x = none := by
    intro c
    by_cases hxc : x = c
    · rw [hxc]
      exact Function.update_self ..
    · rw [Function.update_of_ne hxc, hx]
  unfold removeChild at h
  split at h
  · obtain rfl := (Prod.mk.inj (Except.ok.inj h)).2
    exact hx
  · obtain ⟨c, -, h⟩ := ok_of_bind h
    dsimp only at h
    split at h
    · obtain ⟨_, -, h⟩ := ok_of_bind h
      obtain ⟨_, hdel, h⟩ := ok_of_bind h
      obtain rfl := (Prod.mk.inj (Except.ok.inj h)).2
      rw [listDel_parent hdel]
      exact hclear c
    · obtain rfl := (Prod.mk.inj (Except.ok.inj h)).2
      exact hclear c

theorem outChild_parent
    {r : Option P} (h : m.outChild q = .ok (r, m')) (x : P) (hx : m.pParent x = none) :
    m'.pParent x = none := by
  unfold outChild at h
  split at h
  · obtain rfl := (Prod.mk.inj (Except.ok.inj h)).2
    exact hx
  · split at h
    · obtain ⟨c, -, h⟩ := ok_of_bind h
      split at h
      · exact removeChild_parent h x hx
      · obtain ⟨_, hdel, h⟩ := ok_of_bind h
        obtain rfl := (Prod.mk.inj (Except.ok.inj h)).2
        rw [listDel_parent hdel]
        exact hx
    · exact absurd h (by simp)

/-- A process without a parent gets one by being inserted only. -/
theorem execTreeAll_parent
    {ops : List (TreeOp P)} (hspare : ∀ op ∈ ops, op.Spares p)
    (h : m.execTreeAll ops = .ok m') (hp : m.pParent p = none) :
    m'.pParent p = none := by
  induction ops generalizing m with
  | nil =>
      rw [← Except.ok.inj h]
      exact hp
  | cons op ops ih =>
      obtain ⟨⟨r, m₁⟩, hop, h⟩ := ok_of_bind h
      refine ih (fun op' hop' => hspare op' (List.mem_cons_of_mem _ hop')) h ?_
      have hspareOp := hspare op List.mem_cons_self
      cases op with
      | insertChild prnt c =>
          obtain ⟨_, hinsert, hop⟩ := ok_of_bind hop
          obtain rfl := congrArg Prod.snd (Except.ok.inj hop)
          have hne : p ≠ c := Ne.symm hspareOp
          rw [insertChild_parent hinsert, Function.update_of_ne hne, hp]
      | removeChild q =>
          exact removeChild_parent hop p hp
      | outChild c =>
          exact outChild_parent hop p hp

end Parents

section Detaching

/--
`outChild` leaves `p` without a parent, so that after any calls for other processes a
second `outChild` returns NULL and changes nothing.
-/
def DetachesCompletely (m : Memory P S K) (p : P) : Prop :=
  ∃ m', m.outChild p = .ok (some p, m') ∧ m'.pParent p = none ∧
    ∀ (ops : List (TreeOp P)) (m'' : Memory P S K), (∀ op ∈ ops, op.Spares p) →
      m'.execTreeAll ops = .ok m'' → m''.outChild p = .ok (none, m'')

/-- `outChild` detaches completely the first of the children, and no other one. -/
theorem detachesCompletely_iff
    (h : m.IsForest children) (hp : p ∈ children q) :
    m.DetachesCompletely p ↔ (children q).head? = some p := by
  obtain ⟨m', heq, -, hparent⟩ := outChild_spec h hp
  constructor
  · rintro ⟨m₁, heq₁, hnone, -⟩
    obtain rfl : m' = m₁ := by
      rw [heq] at heq₁
      exact congrArg Prod.snd (Except.ok.inj heq₁)
    by_contra hhead
    rw [hparent, if_neg hhead, h.parent q p hp] at hnone
    exact Option.some_ne_none q hnone
  · intro hhead
    have hnone : m'.pParent p = none := by
      rw [hparent, if_pos hhead]
      exact Function.update_self ..
    exact ⟨m', heq, hnone, fun ops m'' hspare hops =>
      outChild_none (execTreeAll_parent hspare hops hnone)⟩

/-- The first two children of 0. -/
theorem siblings_isForest :
    ∃ m, freshFour.execTreeAll [.insertChild 0 1, .insertChild 0 2] = .ok m ∧
      m.IsForest (addLeaf (addLeaf (fun _ => []) 0 1) 0 2) := by
  obtain ⟨m₁, heq₁, hforest₁, -⟩ :=
    execTree_spec (isForest_of_detached freshFour_detached)
      (show (TreeOp.insertChild 0 1).Allowed (fun _ => []) from ⟨by simp, rfl, by decide⟩)
  obtain ⟨m₂, heq₂, hforest₂, -⟩ :=
    execTree_spec hforest₁
      (show (TreeOp.insertChild 0 2).Allowed (addLeaf (fun _ => []) 0 1) from
        ⟨by decide, by decide, by decide⟩)
  exact ⟨m₂, by simp [execTreeAll, heq₁, heq₂], hforest₂⟩

/-- The second child keeps its parent link, and is returned a second time. -/
theorem outChild_keeps_parent :
    (∃ m, freshFour.execTreeAll [.insertChild 0 1, .insertChild 0 2] = .ok m ∧
      m.IsForest (addLeaf (addLeaf (fun _ => []) 0 1) 0 2) ∧ ¬ m.DetachesCompletely 2) ∧
    (do
      let m ← freshFour.execTreeAll [.insertChild 0 1, .insertChild 0 2]
      let (first, m) ← m.outChild 2
      let (second, _) ← m.outChild 2
      return (first, m.pParent 2, second)) = .ok (some 2, some 0, some 2) := by
  refine ⟨?_, rfl⟩
  obtain ⟨m, heq, hforest⟩ := siblings_isForest
  refine ⟨m, heq, hforest, ?_⟩
  rintro ⟨m', hout, hnone, -⟩
  have hchild : (2 : Fin 4) ∈ addLeaf (addLeaf (fun _ => []) (0 : Fin 4) 1) 0 2 0 := by
    decide
  obtain ⟨m₁, hout₁, -, hparent⟩ := outChild_spec hforest hchild
  rw [hout₁] at hout
  obtain rfl := (Prod.mk.inj (Except.ok.inj hout)).2
  rw [hparent, if_neg (by decide), hforest.parent 0 2 hchild] at hnone
  exact Option.some_ne_none _ hnone

theorem detachesCompletely_siblings :
    ∃ m, freshFour.execTreeAll [.insertChild 0 1, .insertChild 0 2] = .ok m ∧
      m.DetachesCompletely 1 := by
  obtain ⟨m, heq, hforest⟩ := siblings_isForest
  refine ⟨m, heq, (detachesCompletely_iff (q := 0) hforest ?_).mpr ?_⟩ <;> decide

end Detaching

section Moving

/-- Reading the children of `q` yields `l`. -/
def Lists (m : Memory P S K) (q : P) (l : List P) : Prop :=
  ∀ fuel ≥ l.length, m.childList fuel q = .ok l

/-- `insertChild` makes `p` the last child of `prnt`, and leaves the tree below `p` as it is. -/
def KeepsSubtree (m : Memory P S K) (children : P → List P) (prnt p : P) : Prop :=
  ∃ m', m.insertChild (some prnt) (some p) = .ok m' ∧
    m'.Lists prnt (children prnt ++ [p]) ∧
    ∀ x, Below children x p → m'.Lists x (children x)

theorem keepsSubtree_of
    (h : m.IsForest children) (hroot : ∀ a, p ∉ children a) (hout : ¬ Below children prnt p)
    (hkeep : children prnt = [] ∨ children p = []) :
    m.KeepsSubtree children prnt p := by
  obtain ⟨m', heq, hforest, -⟩ := insertChild_spec h hroot hout hkeep
  refine ⟨m', heq, ?_, ?_⟩
  · intro fuel hfuel
    have hlist : addLeaf children prnt p prnt = children prnt ++ [p] := Function.update_self ..
    rw [← hlist] at hfuel ⊢
    exact hforest.childList_eq hfuel
  · intro x hx fuel hfuel
    have hne : x ≠ prnt := fun heq => hout (heq ▸ hx)
    have hlist : addLeaf children prnt p x = children x := Function.update_of_ne hne _ _
    rw [← hlist] at hfuel ⊢
    exact hforest.childList_eq hfuel

/-- A process that becomes a later child has no children afterwards. -/
theorem not_keepsSubtree
    (h : m.IsForest children) (hroot : ∀ a, p ∉ children a) (hout : ¬ Below children prnt p)
    (hprnt : children prnt ≠ []) (hp : children p ≠ []) :
    ¬ m.KeepsSubtree children prnt p := by
  rintro ⟨m', heq, -, hlists⟩
  obtain ⟨c, rest, hcons⟩ := List.exists_cons_of_ne_nil hprnt
  obtain ⟨m₁, heq₁, -, -⟩ := insertChild_last h hroot hout hcons
  rw [heq₁] at heq
  have hempty : m'.emptyChild p = true := by
    rw [← Except.ok.inj heq, emptyChild, decide_eq_true_iff]
    exact Function.update_self ..
  have hnil := hlists p (Below.refl p) _ le_rfl
  rw [childList, if_pos hempty] at hnil
  exact hp (Except.ok.inj hnil).symm

theorem keepsSubtree_iff
    (h : m.IsForest children) (hroot : ∀ a, p ∉ children a) (hout : ¬ Below children prnt p) :
    m.KeepsSubtree children prnt p ↔ children prnt = [] ∨ children p = [] := by
  constructor
  · intro hkeeps
    by_contra hboth
    obtain ⟨hprnt, hp⟩ := not_or.mp hboth
    exact not_keepsSubtree h hroot hout hprnt hp hkeeps
  · exact keepsSubtree_of h hroot hout

/-- A call that takes `p` out removes it from the children of its parent. -/
theorem takesOut_forest
    (hforest : Forest children) {op : TreeOp P} (hop : op.Allowed children)
    (hret : op.returned children = some p) :
    ∃ q, p ∈ children q ∧
      op.forest children = Function.update children q ((children q).erase p) := by
  cases op with
  | insertChild prnt c =>
      exact absurd hret (by simp [TreeOp.returned])
  | removeChild q =>
      cases hq : children q with
      | nil =>
          simp [TreeOp.returned, hq] at hret
      | cons c rest =>
          obtain rfl : c = p := by simpa [TreeOp.returned, hq] using hret
          refine ⟨q, by simp [hq], ?_⟩
          simp [TreeOp.forest, hq]
  | outChild c =>
      obtain ⟨q, hc⟩ := hop
      obtain rfl : c = p := Option.some.inj hret
      exact ⟨q, hc, outChild_forest hforest hc⟩

/-- Only the children of `prnt` and of the processes below `p` matter. -/
theorem keepsSubtree_congr
    {children' : P → List P}
    (hprnt : children' prnt = children prnt)
    (hbelow : ∀ x, Below children x p → children' x = children x) :
    m.KeepsSubtree children' prnt p ↔ m.KeepsSubtree children prnt p := by
  unfold KeepsSubtree
  rw [hprnt]
  refine exists_congr fun m' => and_congr_right fun _ => and_congr_right fun _ =>
    forall_congr' fun x => ?_
  rw [below_congr hbelow]
  exact forall_congr' fun hx => by rw [hbelow x hx]

/--
`insertChild` of a tree below a process outside of it keeps the tree, and makes its root
the last child, exactly when that process or the root has no children.  The same holds
when the tree is first taken out of another family.
-/
theorem insertChild_keeps_subtree
    (h : m.IsForest children) :
    (∀ prnt p, (∀ a, p ∉ children a) → ¬ Below children prnt p →
      (m.KeepsSubtree children prnt p ↔ children prnt = [] ∨ children p = [])) ∧
    ∀ (op : TreeOp P) (prnt p : P), op.Allowed children → op.returned children = some p →
      p ∉ children prnt → ¬ Below children prnt p →
      ((∃ m₁, m.execTree op = .ok (some p, m₁) ∧ m₁.KeepsSubtree children prnt p) ↔
        children prnt = [] ∨ children p = []) := by
  refine ⟨fun prnt p hroot hout => keepsSubtree_iff h hroot hout, ?_⟩
  intro op prnt p hop hret hprnt hout
  obtain ⟨q, hp, hupdate⟩ := takesOut_forest h.forest hop hret
  obtain ⟨m₁, heq, hforest, -⟩ := execTree_spec h hop
  rw [hret] at heq
  rw [hupdate] at hforest
  have hother : ∀ x, x ≠ q →
      Function.update children q ((children q).erase p) x = children x :=
    fun x hx => Function.update_of_ne hx _ _
  have hbelow : ∀ x, Below children x p →
      Function.update children q ((children q).erase p) x = children x := by
    intro x hx
    refine hother x ?_
    rintro rfl
    exact h.forest.not_below_child hp hx
  have hother' := hother prnt (fun hpq => hprnt (hpq ▸ hp))
  have hroot : ∀ a, p ∉ Function.update children q ((children q).erase p) a := by
    intro a
    by_cases ha : a = q
    · subst ha
      rw [Function.update_self]
      exact fun hmem => ((h.forest.nodup a).mem_erase_iff.mp hmem).1 rfl
    · rw [hother a ha]
      exact fun hmem => ha (h.forest.unique p a q hmem hp)
  have hiff := keepsSubtree_iff hforest hroot (fun hb => hout ((below_congr hbelow).mp hb))
  rw [keepsSubtree_congr hother' hbelow, hother', hbelow p (Below.refl p)] at hiff
  rw [← hiff]
  constructor
  · rintro ⟨m₂, heq₂, hkeeps⟩
    rw [heq] at heq₂
    obtain rfl := (Prod.mk.inj (Except.ok.inj heq₂)).2
    exact hkeeps
  · exact fun hkeeps => ⟨m₁, heq, hkeeps⟩

/-- 3 is the child of 2, and 1 is the child of 0. -/
theorem families_isForest :
    ∃ m, freshFour.execTreeAll [.insertChild 2 3, .insertChild 0 1] = .ok m ∧
      m.IsForest (addLeaf (addLeaf (fun _ => []) 2 3) 0 1) := by
  obtain ⟨m₁, heq₁, hforest₁, -⟩ :=
    execTree_spec (isForest_of_detached freshFour_detached)
      (show (TreeOp.insertChild 2 3).Allowed (fun _ => []) from ⟨by simp, rfl, by decide⟩)
  obtain ⟨m₂, heq₂, hforest₂, -⟩ :=
    execTree_spec hforest₁
      (show (TreeOp.insertChild 0 1).Allowed (addLeaf (fun _ => []) 2 3) from
        ⟨by decide, by decide, by decide⟩)
  exact ⟨m₂, by simp [execTreeAll, heq₁, heq₂], hforest₂⟩

theorem families_outside (prnt : Fin 4) (h : prnt = 0 ∨ prnt = 1) :
    ¬ Below (addLeaf (addLeaf (fun _ => []) 2 3) 0 1) prnt (2 : Fin 4) := by
  have htwo : ∀ c ∈ addLeaf (addLeaf (fun _ => []) 2 3) 0 1 (2 : Fin 4), c = 3 := by
    decide
  have hthree : ∀ d : Fin 4, d ∉ addLeaf (addLeaf (fun _ => []) 2 3) 0 1 (3 : Fin 4) := by
    decide
  intro hbelow
  rcases (below_iff _ _).mp hbelow with heq | ⟨c, hc, hcb⟩
  · rcases h with rfl | rfl <;> simp at heq
  · obtain rfl := htwo c hc
    rcases (below_iff _ _).mp hcb with heq | ⟨d, hd, -⟩
    · rcases h with rfl | rfl <;> simp at heq
    · exact hthree d hd

/-- 2 becomes the second child of 0 and loses its child. -/
theorem insertChild_loses_subtree :
    (∃ m, freshFour.execTreeAll [.insertChild 2 3, .insertChild 0 1] = .ok m ∧
      m.IsForest (addLeaf (addLeaf (fun _ => []) 2 3) 0 1) ∧
      ¬ m.KeepsSubtree (addLeaf (addLeaf (fun _ => []) 2 3) 0 1) 0 2) ∧
    (do
      let m ← freshFour.execTreeAll [.insertChild 2 3, .insertChild 0 1]
      let m' ← m.insertChild (some 0) (some 2)
      let before ← m.childList 1 2
      let after ← m'.childList 1 2
      return (before, after)) = .ok ([3], []) := by
  refine ⟨?_, rfl⟩
  obtain ⟨m, heq, hforest⟩ := families_isForest
  refine ⟨m, heq, hforest, not_keepsSubtree hforest ?_ (families_outside 0 (Or.inl rfl)) ?_ ?_⟩ <;>
  decide

theorem insertChild_keeps_subtree_families :
    ∃ m, freshFour.execTreeAll [.insertChild 2 3, .insertChild 0 1] = .ok m ∧
      m.KeepsSubtree (addLeaf (addLeaf (fun _ => []) 2 3) 0 1) 1 2 := by
  obtain ⟨m, heq, hforest⟩ := families_isForest
  refine ⟨m, heq, ((insertChild_keeps_subtree hforest).1 1 2 ?_
    (families_outside 1 (Or.inr rfl))).mpr ?_⟩ <;>
  decide

end Moving

end Memory

end Bikaya
