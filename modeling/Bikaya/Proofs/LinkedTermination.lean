import Bikaya.Proofs.LinkedOperations

/-!
# Bikaya: termination on the links

`recursive_remove_proc` takes the processes of a subtree out of their lists and puts them
on the free list while it takes the subtree apart.  On the links this is sound as long as
every process it finds by its device registration is in none of the lists.

**Plan.**  `Dismantling` is what the recursion needs of the lists: the subtree is closed
downwards, and a process in it that is found by its registration is in no list.  A visit
frees one process and keeps that.  The removal takes the children away while it walks, so
the induction is on the fuel, with the subtree that is left as a set.

**Results.**
* `removal_agrees`: the recursion.
* `terminateProc_agrees`: the termination.
* `exec_agrees`: with it, every operation of the kernel.
-/

namespace Bikaya

open Lockstep OrderedForest

namespace Kernel

variable {A : Arch} {k : Kernel A} {D : Proc → Prop} {t c : Proc}

/-- What the removal of processes of `D` keeps. -/
structure Dismantling (D : Proc → Prop) (k : Kernel A) : Prop where
  /-- Only processes outside the lists are found by their device registration. -/
  clean : ∀ x, D x → x ∉ k.pcbFreeH → k.pSemkey x = none → k.devWList x ≠ none →
    k.lists.Unthreaded x
  closed : ∀ a, D a → ∀ b ∈ k.pChild a, D b
  childFree : ∀ a, ∀ b ∈ k.pChild a, b ∉ k.pcbFreeH

/-- A process of `D` whose removal starts: it is detached from its parent. -/
structure Detached (D : Proc → Prop) (k : Kernel A) (t : Proc) : Prop where
  mem : D t
  live : t ∉ k.pcbFreeH
  root : ∀ a, t ∉ k.pChild a

/-- The children left after the first one has been detached. -/
theorem removeChild_pChild_subset (k : Kernel A) (p a : Proc) :
    (k.removeChild p).2.pChild a ⊆ k.pChild a := by
  unfold Kernel.removeChild
  split
  · exact List.Subset.refl _
  · rename_i first rest hp
    by_cases ha : a = p
    · subst ha
      simp [hp]
    · simp [ha]

theorem Dismantling.removeChild (h : k.Dismantling D) (p : Proc) :
    (k.removeChild p).2.Dismantling D := by
  have hsub := k.removeChild_pChild_subset p
  have hsame : (k.removeChild p).2 =
      { k with
        pChild := (k.removeChild p).2.pChild
        pParent := (k.removeChild p).2.pParent } := by
    cases hp : k.pChild p <;> simp [Kernel.removeChild, hp]
  rw [hsame]
  exact ⟨h.clean, fun a ha b hb => h.closed a ha b (hsub a hb),
    fun a b hb => h.childFree a b (hsub a hb)⟩

/-- The first child is detached. -/
theorem Dismantling.detached
    (h : k.Dismantling D) (hforest : Forest k.pChild) {p : Proc} (hp : D p)
    (hc : (k.removeChild p).1 = some c) :
    (k.removeChild p).2.Detached D c := by
  cases hchild : k.pChild p with
  | nil =>
      simp [Kernel.removeChild, hchild] at hc
  | cons first rest =>
      simp only [Kernel.removeChild, hchild, Option.some.injEq] at hc ⊢
      subst hc
      have hmem : first ∈ k.pChild p := hchild ▸ List.mem_cons_self
      have hnodup := hforest.nodup p
      rw [hchild] at hnodup
      refine ⟨h.closed p hp first hmem, h.childFree p first hmem, ?_⟩
      intro a ha
      have ha : first ∈ Function.update k.pChild p rest a := ha
      by_cases hap : a = p
      · subst hap
        rw [Function.update_self] at ha
        exact (List.nodup_cons.mp hnodup).1 ha
      · rw [Function.update_of_ne hap] at ha
        exact hap (hforest.unique first a p ha hmem)

/-- A detached process, unlinked from its list, is freed. -/
theorem Dismantling.freePcb
    (h : k.Dismantling D) (hroot : ∀ a, t ∉ k.pChild a) :
    (k.freePcb t).Dismantling D where
  clean := by
    intro x hx hfree hkey hdev
    obtain ⟨hxt, hfree⟩ := not_or.mp (fun hmem => hfree (List.mem_cons.mpr hmem))
    have hout := (h.clean x hx hfree hkey hdev).setProcs (i := .pcbFreeH) (q := t :: k.pcbFreeH)
      (fun hmem => (List.mem_cons.mp hmem).elim hxt hfree)
    rw [Kernel.lists, Kernel.freePcb, listsOf_free k.asl k.pcbFreeH]
    exact hout
  closed := h.closed
  childFree := by
    intro a b hb hmem
    rcases List.mem_cons.mp hmem with rfl | hmem
    · exact hroot a hb
    · exact h.childFree a b hb hmem

/-- `t` leaves its list, and nothing else changes but its key. -/
structure Unlinks (k : Kernel A) (t : Proc) (k' : Kernel A) : Prop where
  lists : ∀ i, k'.lists.procs i ⊆ k.lists.procs i
  out : k'.lists.Unthreaded t
  semkey : ∀ x, x ≠ t → k'.pSemkey x = k.pSemkey x
  devWList : k'.devWList = k.devWList
  pChild : k'.pChild = k.pChild
  free : k'.pcbFreeH = k.pcbFreeH

theorem Dismantling.unlink
    {k' : Kernel A} (h : k.Dismantling D) (hout : k.Unlinks t k') : k'.Dismantling D where
  clean := by
    intro x hx hfree hkey hdev
    by_cases hxt : x = t
    · rw [hxt]
      exact hout.out
    · rw [hout.semkey x hxt] at hkey
      rw [hout.devWList] at hdev
      rw [hout.free] at hfree
      exact fun i hmem => h.clean x hx hfree hkey hdev i (hout.lists i hmem)
  closed := by
    rw [hout.pChild]
    exact h.closed
  childFree := by
    rw [hout.pChild, hout.free]
    exact h.childFree

/-- `outBlocked` finds the process in the queue of an active descriptor, or changes no queue. -/
theorem outBlocked_cases (k : Kernel A) (t : Proc) :
    (k.outBlocked t).1 = none ∨
    ∃ s, t ∈ k.asl.sProcQ s ∧
      k.outBlocked t =
        (some t,
          { k with
            pSemkey := Function.update k.pSemkey t none
            asl := (k.asl.setProcQ s ((k.asl.sProcQ s).erase t)).freeSemdIfEmpty s }) := by
  cases hget : k.asl.getSemd (k.pSemkey t) with
  | none =>
      exact Or.inl (by simp only [Kernel.outBlocked, hget])
  | some s =>
      by_cases ht : t ∈ k.asl.sProcQ s
      · refine Or.inr ⟨s, ht, ?_⟩
        simp only [Kernel.outBlocked, hget, outProcQ_eq, ht, if_true]
      · exact Or.inl (by simp only [Kernel.outBlocked, hget, outProcQ_eq, ht, if_false])

end Kernel

namespace LinkedKernel

variable {A : Arch} {l : LinkedKernel A} {k : Kernel A} {D : Proc → Prop} {t : Proc}

theorem Represents.forest (h : l.Represents k) : Forest k.pChild := by
  obtain ⟨next, prev, -, h⟩ := h
  exact h.forest.forest

/-- A process taken out of its list is in none of the lists. -/
theorem Represents.unthreaded_erase
    (h : l.Represents k) {i : ProcList Semd} (ht : t ∈ k.lists.procs i) :
    (k.lists.setProcs i ((k.lists.procs i).erase t)).Unthreaded t := by
  obtain ⟨next, prev, rfl, h⟩ := h
  have hthreaded : (k.linked next prev).toMemory.Threaded k.lists := h.rings
  intro j hj
  rw [Threads.procs_setProcs] at hj
  by_cases hji : j = i
  · subst hji
    rw [Function.update_self] at hj
    exact ((List.Nodup.mem_erase_iff (hthreaded.procs_nodup j)).mp hj).1 rfl
  · rw [Function.update_of_ne hji] at hj
    exact hji (hthreaded.procs_unique hj ht)

/-- The unlinking step: the process found is in none of the lists afterwards. -/
theorem unlinkProc_agrees
    (h : l.Represents k) (hD : k.Dismantling D) (ht : k.Detached D t) :
    ∃ l', l.unlinkProc t = .ok ((k.unlinkProc t).1, l') ∧
      ∀ x ∈ (k.unlinkProc t).1, x = t ∧ l'.Represents (k.unlinkProc t).2 ∧
        k.Unlinks t (k.unlinkProc t).2 := by
  have hfields : l.pSemkey = k.pSemkey ∧ l.devWList = k.devWList := by
    obtain ⟨next, prev, rfl, -⟩ := h
    exact ⟨rfl, rfl⟩
  simp only [unlinkProc, Kernel.unlinkProc, hfields.1, hfields.2]
  cases hkey : k.pSemkey t with
  | some key =>
      obtain ⟨m, hout, hm⟩ := outBlocked_represents h t
      refine ⟨l.withLinks m, ?_, ?_⟩
      · simp only [hout, ok_bind, pure_eq_ok]
      · intro x hx
        rcases k.outBlocked_cases t with hnone | ⟨s, hts, heq⟩
        · rw [hnone] at hx
          exact absurd hx (by simp)
        · have hlists : (k.outBlocked t).2.lists.procs =
              (k.lists.setProcs (.sProcQ s) ((k.asl.sProcQ s).erase t)).procs := by
            rw [heq, ← listsOf_setProcQ]
            funext i
            cases i <;> simp only [listsOf, Asl.freeSemdIfEmpty]
            split_ifs <;> rfl
          rw [heq] at hx
          refine ⟨(Option.some.inj hx).symm, hm, ?_, ?_, ?_, ?_, ?_, ?_⟩
          · intro i
            rw [hlists, Threads.procs_setProcs]
            by_cases hi : i = .sProcQ s
            · subst hi
              rw [Function.update_self]
              exact List.erase_subset
            · rw [Function.update_of_ne hi]
              exact List.Subset.refl _
          · intro i
            rw [hlists]
            exact h.unthreaded_erase (i := .sProcQ s) hts i
          · intro y hy
            rw [heq]
            exact Function.update_of_ne hy _ _
          · rw [heq]
          · rw [heq]
          · rw [heq]
  | none =>
      cases hdev : k.devWList t with
      | some d =>
          have hout := hD.clean t ht.mem ht.live hkey (by simp [hdev])
          have hwForRes : l.wForRes = k.wForRes := by
            obtain ⟨next, prev, rfl, -⟩ := h
            rfl
          refine ⟨_, rfl, ?_⟩
          intro x hx
          refine ⟨(Option.some.inj hx).symm, ?_,
            fun i => List.Subset.refl _, hout, fun _ _ => rfl, rfl, rfl, rfl⟩
          obtain ⟨next, prev, rfl, hlinks⟩ := h
          exact ⟨next, prev, rfl, hlinks⟩
      | none =>
          obtain ⟨l', heq, hl', hout⟩ := outReady_represents h t
          refine ⟨l', heq, ?_⟩
          intro x hx
          obtain ⟨hxt, hout⟩ := hout x hx
          refine ⟨hxt, hl', ?_, hout, fun _ _ => rfl, rfl, rfl, rfl⟩
          intro i
          cases i with
          | readyQueue =>
              rw [outProcQ_eq]
              exact List.erase_subset
          | _ =>
              exact List.Subset.refl _

/-- What both removals return. -/
def Removes (D : Proc → Prop) (a : Int × LinkedKernel A) (b : Int × Kernel A) : Prop :=
  a.1 = b.1 ∧ a.2.Represents b.2 ∧ b.2.Dismantling D

/-- `recursive_remove_proc` and its loop, for any budget. -/
theorem removal_agrees
    (n : ℕ) :
    (∀ l : LinkedKernel A, ∀ k t, l.Represents k → k.Dismantling D → k.Detached D t →
      Agree (Removes D) (recursiveRemoveProc n l t) (Kernel.recursiveRemoveProc n k t)) ∧
    (∀ l : LinkedKernel A, ∀ k p, l.Represents k → k.Dismantling D → D p →
      Agree (Removes D) (removeChildren n l p) (Kernel.removeChildren n k p)) := by
  induction n with
  | zero =>
      exact ⟨fun _ _ _ _ _ _ => Agree.error _, fun _ _ _ _ _ _ => Agree.error _⟩
  | succ n ih =>
      obtain ⟨ihProc, ihChildren⟩ := ih
      constructor
      · intro l k t h hD ht
        obtain ⟨l', hunlink, hl'⟩ := unlinkProc_agrees h hD ht
        rcases hk : k.unlinkProc t with ⟨_ | x, k'⟩
        · rw [hk] at hunlink
          simp only [recursiveRemoveProc, Kernel.recursiveRemoveProc, hunlink, hk, ok_bind]
          exact Agree.error _
        · rw [hk] at hunlink hl'
          obtain ⟨rfl, hrep, hout⟩ := hl' x rfl
          obtain ⟨m, hfree, hm⟩ := freePcb_represents hrep hout.out
          have hroot : ∀ a, x ∉ k'.pChild a := by
            rw [hout.pChild]
            exact ht.root
          simp only [recursiveRemoveProc, Kernel.recursiveRemoveProc, hunlink, hk, ok_bind, hfree]
          exact ihChildren _ _ x hm ((hD.unlink hout).freePcb hroot) ht.mem
      · intro l k p h hD hp
        obtain ⟨m, hremove, hm⟩ := removeChild_represents h p
        rcases hk : k.removeChild p with ⟨_ | c, k'⟩
        · have hD' := hD.removeChild p
          rw [hk] at hremove hm hD'
          simp only [removeChildren, Kernel.removeChildren, hremove, hk, ok_bind, pure_eq_ok]
          exact Agree.ok ⟨rfl, hm, hD'⟩
        · have hdetached := hD.detached h.forest hp (congrArg Prod.fst hk)
          have hD' := hD.removeChild p
          rw [hk] at hremove hm hD' hdetached
          simp only [removeChildren, Kernel.removeChildren, hremove, hk, ok_bind]
          have hagree := ihProc _ _ c hm hD' hdetached
          generalize recursiveRemoveProc n (l.withLinks m) c = first at hagree ⊢
          generalize Kernel.recursiveRemoveProc n k' c = second at hagree ⊢
          cases hagree with
          | error e =>
              exact Agree.error e
          | ok hret =>
              obtain ⟨hret, hrep, hD''⟩ := hret
              simp only [ok_bind, hret]
              split_ifs with hne
              · exact Agree.ok ⟨rfl, hrep, hD''⟩
              · exact ihChildren _ _ p hrep hD'' hp

section Detach

/-- The target of a termination, taken out of the children of its parent. -/
structure DetachedFrom (k : Kernel A) (t : Proc) (k' : Kernel A) : Prop where
  same : k' = { k with pChild := k'.pChild, pParent := k'.pParent }
  subset : ∀ a, k'.pChild a ⊆ k.pChild a
  root : ∀ a, t ∉ k'.pChild a

/-- `outChild` of a child leaves it without a parent in the lists of children. -/
theorem detachedFrom_outChild
    {k k' : Kernel A} {q : Proc} (hforest : Forest k.pChild) (hparent : k.pParent t = some q)
    (ht : t ∈ k.pChild q) (hk : k.outChild t = .ok (some t, k'))
    (hsame : k' = { k with pChild := k'.pChild, pParent := k'.pParent }) :
    DetachedFrom k t k' := by
  have hchild : k'.pChild = Function.update k.pChild q ((k.pChild q).erase t) := by
    cases hq : k.pChild q with
    | nil =>
        rw [hq] at ht
        exact absurd ht List.not_mem_nil
    | cons first rest =>
        simp only [Kernel.outChild, hparent, hq] at hk
        split_ifs at hk with hfirst
        · obtain ⟨-, rfl⟩ := Prod.mk.inj (Except.ok.inj hk)
          simp [hq, hfirst]
        · obtain ⟨-, rfl⟩ := Prod.mk.inj (Except.ok.inj hk)
          rw [List.erase_cons_tail (by simpa using hfirst)]
  refine ⟨hsame, ?_, ?_⟩
  · intro a
    rw [hchild]
    by_cases ha : a = q
    · subst ha
      rw [Function.update_self]
      exact List.erase_subset
    · rw [Function.update_of_ne ha]
      exact List.Subset.refl _
  · intro a ha
    rw [hchild] at ha
    by_cases haq : a = q
    · subst haq
      rw [Function.update_self] at ha
      exact ((List.Nodup.mem_erase_iff (hforest.nodup a)).mp ha).1 rfl
    · rw [Function.update_of_ne haq] at ha
      exact haq (hforest.unique t a q ha ht)

/-- The first step of `terminate_proc`. -/
theorem detach_agrees (h : l.Represents k) (hok : k.Ok) (ht : k.Live t) :
    ∃ l' k', (if (l.pParent t).isSome then
          (l.toMemory.outChild t).map (fun r => l.withLinks r.2) else .ok l) = .ok l' ∧
      (if (k.pParent t).isSome then (k.outChild t).map Prod.snd else .ok k) = .ok k' ∧
      l'.Represents k' ∧ DetachedFrom k t k' := by
  have hfield : l.pParent = k.pParent := by
    obtain ⟨next, prev, rfl, -⟩ := h
    rfl
  rw [hfield]
  cases hparent : k.pParent t with
  | none =>
      refine ⟨l, k, rfl, rfl, h, rfl, fun a => List.Subset.refl _, ?_⟩
      intro a ha
      rw [(hok.tree.childParent a t ha).1] at hparent
      exact Option.some_ne_none a hparent
  | some q =>
      have hchild : t ∈ k.pChild q := hok.tree.parentChild t q ht.2 hparent
      obtain ⟨m, k', heq, hk, hsame, hm⟩ := outChild_represents h hchild
      refine ⟨l.withLinks m, k', ?_, ?_, hm,
        detachedFrom_outChild hok.tree.forest hparent hchild hk hsame⟩
      · rw [heq]
        rfl
      · rw [hk]
        rfl

end Detach

/-- The removal starts with its invariant, for the processes below the target. -/
theorem dismantling_of_undamaging
    (h : l.Represents k) (hok : k.Ok) {p : Option Proc}
    (hsound : k.Undamaging (.terminateProcess p)) {k' : Kernel A}
    (hdetach : DetachedFrom k (p.getD k.runningProc) k') (priority : Proc → Int) :
    { k' with readyQueue := insertProcQ priority k'.readyQueue k'.runningProc }.Dismantling
      (fun x => Below k.pChild x (p.getD k.runningProc)) := by
  rw [hdetach.same]
  refine ⟨?_, ?_, ?_⟩
  · intro x hx hfree hkey hdev
    obtain ⟨hrun, hready⟩ := not_or.mp (fun hplace => hdev (hsound x hx hplace))
    have habsent := Residence.absent_of_semkey hok.residence hfree hready hkey
    have hout := (h.unthreaded hok.residence.aslOk habsent).setProcs
      (i := .readyQueue) (q := insertProcQ priority k.readyQueue k.runningProc)
      (fun hmem => (mem_insertProcQ.mp hmem).elim hrun hready)
    rw [Kernel.lists, listsOf_ready _ _ k.readyQueue]
    exact hout
  · intro a ha b hb
    exact (Below.child (hdetach.subset a hb)).trans ha
  · intro a b hb
    exact (hok.tree.childParent a b (hdetach.subset a hb)).2

/-- `terminate_proc`, from the insertion of the running process on. -/
theorem finish_agrees
    (h : l.Represents k) (hrun : k.lists.Unthreaded k.runningProc)
    (hD : { k with
      readyQueue := insertProcQ k.priority k.readyQueue k.runningProc }.Dismantling D)
    (ht : { k with
      readyQueue := insertProcQ k.priority k.readyQueue k.runningProc }.Detached D t) :
    Agree (fun a b => a.1 = b.1 ∧ a.2.Represents b.2)
      (do
        let l ← l.insertReady l.runningProc
        let (ret, l) ← recursiveRemoveProc Kernel.removalFuel l t
        match ← l.outReady l.runningProc with
        | (some _, l) => return (ret, l)
        | (none, l) =>
            let l ← l.runNextReady
            return (ret, l))
      (do
        let (ret, k) ← Kernel.recursiveRemoveProc Kernel.removalFuel
          { k with readyQueue := insertProcQ k.priority k.readyQueue k.runningProc } t
        match outProcQ k.readyQueue k.runningProc with
        | (some _, q) => .ok (ret, { k with readyQueue := q })
        | (none, q) => .ok (ret, { k with readyQueue := q }.runNextReady)) := by
  obtain ⟨l₁, hinsert, hl₁⟩ := insertReady_represents h hrun
  have hagree := (removal_agrees Kernel.removalFuel).1 l₁ _ _ hl₁ hD ht
  simp only [h.runningProc_eq, hinsert, ok_bind]
  refine hagree.bind ?_
  rintro ⟨ret, l₂⟩ ⟨ret', k₂⟩ ⟨hret, hl₂, -⟩
  obtain rfl : ret = ret' := hret
  have hl₂ : l₂.Represents k₂ := hl₂
  obtain ⟨l₃, hout, hl₃, -⟩ := outReady_represents hl₂ k₂.runningProc
  simp only [hl₂.runningProc_eq, hout, ok_bind]
  rcases hq : outProcQ k₂.readyQueue k₂.runningProc with ⟨_ | x, q⟩
  · rw [hq] at hl₃
    obtain ⟨l₄, hnext, hl₄⟩ := runNextReady_represents hl₃
    simp only [hnext, ok_bind, pure_eq_ok]
    exact Agree.ok ⟨rfl, hl₄⟩
  · rw [hq] at hl₃
    exact Agree.ok ⟨rfl, hl₃⟩

/-- TERMINATEPROCESS: the same value is returned, or both stop for the same reason. -/
theorem terminateProc_agrees
    (h : l.Represents k) (hok : k.Ok) {p : Option Proc} (ht : k.Live (p.getD k.runningProc))
    (hsound : k.Undamaging (.terminateProcess p)) :
    Agree (fun a b => a.1 = b.1 ∧ a.2.Represents b.2) (l.terminateProc p)
      (k.terminateProc p) := by
  obtain ⟨l₁, k₁, hl, hk, hl₁, hdetach⟩ := detach_agrees h hok ht
  have hrun : k₁.lists.Unthreaded k₁.runningProc := by
    rw [hdetach.same]
    exact h.running hok
  have hD := dismantling_of_undamaging h hok hsound hdetach k₁.priority
  have htarget : Kernel.Detached (fun x => Below k.pChild x (p.getD k.runningProc))
      { k₁ with readyQueue := insertProcQ k₁.priority k₁.readyQueue k₁.runningProc }
      (p.getD k.runningProc) := by
    refine ⟨Below.refl _, ?_, hdetach.root⟩
    rw [hdetach.same]
    exact ht.2
  have hfinish := finish_agrees hl₁ hrun hD htarget
  have hfield : l.pParent = k.pParent := by
    obtain ⟨next, prev, rfl, -⟩ := h
    rfl
  rw [hfield] at hl
  by_cases hsome : (k.pParent (p.getD k.runningProc)).isSome
  · simp only [hsome, if_true] at hl hk
    simp only [terminateProc, Kernel.terminateProc, h.runningProc_eq, hfield, hsome, if_true, hl,
      hk, ok_bind]
    exact hfinish
  · simp only [hsome] at hl hk
    obtain rfl := Except.ok.inj hl
    obtain rfl := Except.ok.inj hk
    simp only [terminateProc, Kernel.terminateProc, h.runningProc_eq, hfield, hsome, ok_bind]
    rw [h.runningProc_eq] at hfinish
    exact hfinish

/-- Every operation of the kernel, on the links. -/
theorem exec_agrees
    {i : IntModel} {op : Operation A} (h : l.Represents k) (hok : k.Ok) (hadm : k.Admissible op)
    (hsound : k.Undamaging op) :
    Agree Represents (l.exec i op) (k.exec i op) := by
  cases op with
  | createProcess s priority =>
      exact (createProcess_agrees h hok s priority).map (fun _ _ hab => hab.2)
  | terminateProcess p =>
      have ht := hok.target_live (fun _ => hadm.1) hadm.2
      exact (terminateProc_agrees h hok ht hsound).map (fun _ _ hab => hab.2)
  | passeren a tod =>
      exact p_agrees h hok a tod
  | verhogen a =>
      exact v_agrees h hok a
  | waitIo command devReg subdev tod =>
      exact waitIo_agrees h hok command devReg subdev tod
  | doneIo d status =>
      exact doneIo_agrees h hok d status
  | timeSlice =>
      exact timeSlice_agrees h hok
  | write a value =>
      obtain ⟨next, prev, rfl, hlinks⟩ := h
      exact Agree.ok ⟨next, prev, rfl, hlinks⟩

end LinkedKernel

end Bikaya
