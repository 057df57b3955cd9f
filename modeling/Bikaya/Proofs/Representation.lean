import Bikaya.Core.LinkedKernel
import Bikaya.Proofs.TreeFrames
import Bikaya.Proofs.TreeOperations

/-!
# Bikaya: the representation of the kernel by its links

A linked kernel represents a kernel when its links thread the lists and the process tree of
the latter, and all its other fields are the same.  The module gives the rules for the
functions that touch the ready queue, the free list and the process tree.

**Plan.**  The lists of a kernel are a family of threads (`lists`), so that the rules for
single functions come from `Threads.lean`.  Each of them becomes a rule for `Represents`:
the links afterwards represent the kernel afterwards.  Plain fields are written on both
sides alike.

**Results.**
* `insertReady_represents`, `removeReady_represents`, `outReady_represents`,
  `headReady_represents`: the ready queue.
* `freePcb_represents`, `allocPcb_represents`: the free list.
* `insertChild_represents`, `removeChild_represents`, `outChild_represents`: the tree.
-/

namespace Bikaya

open LinkRing StableInsert

/-- The lists of a kernel, given by its components. -/
def listsOf (asl : Asl) (free ready : List Proc) : Threads Proc Semd where
  procs := fun i =>
    match i with
    | .readyQueue => ready
    | .pcbFreeH => free
    | .sProcQ s => asl.sProcQ s
  semds := fun j =>
    match j with
    | .semdFreeH => asl.semdFreeH
    | .semdH => asl.semdH

section Lists

variable (asl : Asl) (free ready : List Proc)

theorem listsOf_ready (q : List Proc) :
    listsOf asl free q = (listsOf asl free ready).setProcs .readyQueue q := by
  simp only [listsOf, Threads.setProcs, Threads.mk.injEq, and_true]
  funext i
  cases i <;> simp

theorem listsOf_free (q : List Proc) :
    listsOf asl q ready = (listsOf asl free ready).setProcs .pcbFreeH q := by
  simp only [listsOf, Threads.setProcs, Threads.mk.injEq, and_true]
  funext i
  cases i <;> simp

theorem listsOf_setProcQ (s : Semd) (q : List Proc) :
    listsOf (asl.setProcQ s q) free ready =
      (listsOf asl free ready).setProcs (.sProcQ s) q := by
  simp only [listsOf, Asl.setProcQ, Threads.setProcs, Threads.mk.injEq, and_true]
  funext i
  cases i with
  | sProcQ t =>
      by_cases hts : t = s
      · subst hts
        simp
      · simp [hts]
  | _ =>
      simp

/-- The other lists when the descriptors are moved. -/
theorem listsOf_move
    {asl asl' : Asl} (hprocs : asl'.sProcQ = asl.sProcQ) :
    listsOf asl' free ready =
      ((listsOf asl free ready).setSemds .semdH asl'.semdH).setSemds .semdFreeH
        asl'.semdFreeH := by
  simp only [listsOf, Threads.setSemds, Threads.mk.injEq, hprocs, true_and]
  funext j
  cases j <;> simp

end Lists

/-- The links thread the lists and the process tree. -/
structure LinkedBy
    (next prev : Link Proc Semd → Option (Link Proc Semd)) (T : Threads Proc Semd)
    (pChild : Proc → List Proc) (pParent : Proc → Option Proc) : Prop where
  rings : Rings next prev sentinel T.links
  /-- A descriptor that is not active has no processes. -/
  spare : ∀ s, s ∉ T.semds .semdH → T.procs (.sProcQ s) = []
  forest : Memory.IsForest (K := SemKey)
    ⟨next, prev, pParent, fun _ => 0, fun _ => none, fun _ => none⟩ pChild

namespace Kernel

variable {A : Arch}

/-- The lists of the kernel. -/
abbrev lists (k : Kernel A) : Threads Proc Semd :=
  listsOf k.asl k.pcbFreeH k.readyQueue

/-- The linked kernel with the fields of `k` and the given links. -/
def linked (k : Kernel A) (next prev : Link Proc Semd → Option (Link Proc Semd)) :
    LinkedKernel A where
  next := next
  prev := prev
  pParent := k.pParent
  priority := k.priority
  pSemkey := k.pSemkey
  sKey := k.asl.sKey
  pS := k.pS
  originalPriority := k.originalPriority
  devWList := k.devWList
  kernelTimer := k.kernelTimer
  userTimer := k.userTimer
  todCache := k.todCache
  todAtStart := k.todAtStart
  specAreas := k.specAreas
  runningProc := k.runningProc
  wForCmdSem := k.wForCmdSem
  wForRes := k.wForRes
  sem := k.sem
  bus := k.bus
  okbuf := k.okbuf

end Kernel

namespace LinkedKernel

variable {A : Arch}

/-- The links represent the lists and the tree of `k`, and the other fields are its own. -/
def Represents (l : LinkedKernel A) (k : Kernel A) : Prop :=
  ∃ next prev, l = k.linked next prev ∧ LinkedBy next prev k.lists k.pChild k.pParent

end LinkedKernel

theorem Memory.IsForest.of_sameTree
    {P S K : Type} {m m' : Memory P S K} {children : P → List P}
    (h : m.IsForest children) (hsame : Memory.SameTree m m') :
    m'.IsForest children where
  forest := h.forest
  first := fun a => (hsame.nextChild a).trans (h.first a)
  back := fun a c hc => (hsame.prevChild c).trans (h.back a c hc)
  ring := by
    intro a ha
    refine (h.ring a ha).congr ?_ ?_
    · intro y hy
      obtain ⟨c, -, rfl⟩ := List.mem_map.mp hy
      exact hsame.nextSib c
    · intro y hy
      obtain ⟨c, -, rfl⟩ := List.mem_map.mp hy
      exact hsame.prevSib c
  parent := by
    intro a c hc
    rw [hsame.parent]
    exact h.parent a c hc

namespace LinkedBy

variable {next prev : Link Proc Semd → Option (Link Proc Semd)} {T : Threads Proc Semd}
variable {pChild : Proc → List Proc} {pParent : Proc → Option Proc}
variable {m : Memory Proc Semd SemKey}

/-- The tree links, whatever the other fields of the memory are. -/
theorem isForest
    (h : LinkedBy m.next m.prev T pChild m.pParent) :
    m.IsForest pChild :=
  h.forest.of_sameTree ⟨fun _ => rfl, fun _ => rfl, fun _ => rfl, fun _ => rfl, rfl⟩

theorem of_memory
    (hthreaded : m.Threaded T) (hspare : ∀ s, s ∉ T.semds .semdH → T.procs (.sProcQ s) = [])
    (hforest : m.IsForest pChild) :
    LinkedBy m.next m.prev T pChild m.pParent :=
  ⟨hthreaded, hspare,
    hforest.of_sameTree ⟨fun _ => rfl, fun _ => rfl, fun _ => rfl, fun _ => rfl, rfl⟩⟩

/-- A list of processes has fewer elements than the loops have rounds. -/
theorem procs_length_lt
    (h : LinkedBy next prev T pChild pParent) (i : ProcList Semd) :
    (T.procs i).length < listFuel := by
  have hnodup : (T.procs i).Nodup := List.Nodup.of_map _ (h.rings.list_nodup (.inl i))
  have hcard := hnodup.length_le_card
  rw [Proc.card] at hcard
  exact Nat.lt_succ_of_le hcard

theorem semds_length_lt
    (h : LinkedBy next prev T pChild pParent) (j : SemdList) :
    (T.semds j).length < listFuel := by
  have hnodup : (T.semds j).Nodup := List.Nodup.of_map _ (h.rings.list_nodup (.inr j))
  have hcard := hnodup.length_le_card
  rw [Fintype.card_fin] at hcard
  exact Nat.lt_succ_of_le (Nat.le_succ_of_le hcard)

end LinkedBy

namespace LinkedKernel

variable {A : Arch} {l : LinkedKernel A} {k k' : Kernel A} {p x : Proc}
variable {next prev : Link Proc Semd → Option (Link Proc Semd)}

/-- The links are rewritten to those of another kernel. -/
theorem represents_withLinks
    {m : Memory Proc Semd SemKey}
    (hfields : k'.linked m.next m.prev = (k.linked next prev).withLinks m)
    (hthreaded : m.Threaded k'.lists)
    (hspare : ∀ s, s ∉ k'.asl.semdH → k'.asl.sProcQ s = [])
    (hforest : m.IsForest k'.pChild) :
    ((k.linked next prev).withLinks m).Represents k' := by
  have hparent : m.pParent = k'.pParent :=
    congrArg (fun l : LinkedKernel A => l.pParent) hfields.symm
  refine ⟨m.next, m.prev, hfields.symm, ?_⟩
  rw [← hparent]
  exact LinkedBy.of_memory hthreaded hspare hforest

/-- Only the lists, and the keys of processes and of descriptors, are rewritten. -/
theorem represents_rekey
    {m : Memory Proc Semd SemKey} {asl : Asl} {free ready : List Proc}
    {pSemkey : Proc → Option SemKey} (h : LinkedBy next prev k.lists k.pChild k.pParent)
    (htree : Memory.SameTree (k.linked next prev).toMemory m)
    (hprio : m.priority = k.priority) (hsemkey : m.pSemkey = pSemkey) (hsKey : m.sKey = asl.sKey)
    (hthreaded : m.Threaded (listsOf asl free ready))
    (hspare : ∀ s, s ∉ asl.semdH → asl.sProcQ s = []) :
    ((k.linked next prev).withLinks m).Represents
      { k with asl := asl, pcbFreeH := free, readyQueue := ready, pSemkey := pSemkey } := by
  have hforest : (k.linked next prev).toMemory.IsForest k.pChild :=
    LinkedBy.isForest (m := (k.linked next prev).toMemory) h
  refine represents_withLinks ?_ hthreaded hspare (hforest.of_sameTree htree)
  have hparent : m.pParent = k.pParent := htree.parent
  simp only [Kernel.linked, withLinks, ← hparent, ← hprio, ← hsKey, ← hsemkey]

/-- Only the lists of processes and of descriptors are rewritten. -/
theorem represents_relink
    {m : Memory Proc Semd SemKey} {asl : Asl} {free ready : List Proc}
    {pSemkey : Proc → Option SemKey} (h : LinkedBy next prev k.lists k.pChild k.pParent)
    (hsame : Memory.SameFields (k.linked next prev).toMemory m)
    (hsemkey : m.pSemkey = pSemkey) (hkey : asl.sKey = k.asl.sKey)
    (hthreaded : m.Threaded (listsOf asl free ready))
    (hspare : ∀ s, s ∉ asl.semdH → asl.sProcQ s = []) :
    ((k.linked next prev).withLinks m).Represents
      { k with asl := asl, pcbFreeH := free, readyQueue := ready, pSemkey := pSemkey } :=
  represents_rekey h hsame.tree hsame.priority hsemkey (hsame.sKey.trans hkey.symm)
    hthreaded hspare

/-- The queues of processes. -/
theorem Represents.isQueue (h : l.Represents k) (i : ProcList Semd) :
    l.toMemory.IsQueue (sentinel (.inl i)) (k.lists.procs i) := by
  obtain ⟨next, prev, rfl, h⟩ := h
  exact h.rings.ring (.inl i)

section ReadyQueue

/-- `headProcQ(&ready_queue)`. -/
theorem headReady_represents (h : l.Represents k) :
    l.toMemory.headProcQ .readyQueue = .ok k.readyQueue.head? :=
  Memory.headProcQ_spec (h.isQueue .readyQueue)

/-- `insertProcQ(&ready_queue, p)`. -/
theorem insertReady_represents
    (h : l.Represents k) (hp : k.lists.Unthreaded p) :
    ∃ l', l.insertReady p = .ok l' ∧
      l'.Represents { k with readyQueue := insertProcQ k.priority k.readyQueue p } := by
  obtain ⟨next, prev, rfl, h⟩ := h
  obtain ⟨m, heq, hthreaded, hsame, hsemkey⟩ :=
    Memory.insertProcQ_threaded (m := (k.linked next prev).toMemory) h.rings hp .readyQueue
  have hinsert := heq listFuel (h.procs_length_lt _)
  simp only [sentinel] at hinsert
  refine ⟨(k.linked next prev).withLinks m, ?_, represents_relink h hsame hsemkey rfl ?_ h.spare⟩
  · simp only [insertReady, hinsert, ok_bind, pure_eq_ok]
  · rw [listsOf_ready _ _ k.readyQueue, insertProcQ_eq]
    exact hthreaded

/-- `removeProcQ(&ready_queue)`. -/
theorem removeReady_represents (h : l.Represents k) :
    ∃ l', l.removeReady = .ok ((removeProcQ k.readyQueue).1, l') ∧
      l'.Represents { k with readyQueue := (removeProcQ k.readyQueue).2 } ∧
      ∀ x ∈ (removeProcQ k.readyQueue).1,
        (listsOf k.asl k.pcbFreeH (removeProcQ k.readyQueue).2).Unthreaded x := by
  obtain ⟨next, prev, rfl, h⟩ := h
  obtain ⟨m, heq, hthreaded, hsame, hsemkey, hout⟩ :=
    Memory.removeProcQ_threaded (m := (k.linked next prev).toMemory) h.rings .readyQueue
  simp only [sentinel] at heq
  rw [removeProcQ_eq, listsOf_ready _ _ k.readyQueue]
  refine ⟨(k.linked next prev).withLinks m, ?_,
    represents_relink h hsame hsemkey rfl ?_ h.spare, hout⟩
  · simp only [removeReady, heq, ok_bind, pure_eq_ok]
    rfl
  · rw [listsOf_ready _ _ k.readyQueue]
    exact hthreaded

/-- `outProcQ(&ready_queue, p)`. -/
theorem outReady_represents (h : l.Represents k) (p : Proc) :
    ∃ l', l.outReady p = .ok ((outProcQ k.readyQueue p).1, l') ∧
      l'.Represents { k with readyQueue := (outProcQ k.readyQueue p).2 } ∧
      ∀ x ∈ (outProcQ k.readyQueue p).1,
        x = p ∧ (listsOf k.asl k.pcbFreeH (outProcQ k.readyQueue p).2).Unthreaded p := by
  obtain ⟨next, prev, rfl, h⟩ := h
  obtain ⟨m, heq, hthreaded, hsame, hsemkey, hout⟩ :=
    Memory.outProcQ_threaded (m := (k.linked next prev).toMemory) h.rings p .readyQueue
  have hremove := heq listFuel (h.procs_length_lt _)
  simp only [sentinel] at hremove
  rw [outProcQ_eq, listsOf_ready _ _ k.readyQueue]
  refine ⟨(k.linked next prev).withLinks m, ?_,
    represents_relink h hsame hsemkey rfl ?_ h.spare, ?_⟩
  · simp only [outReady, hremove, ok_bind, pure_eq_ok]
    rfl
  · rw [listsOf_ready _ _ k.readyQueue]
    exact hthreaded
  · intro x hx
    by_cases hp : p ∈ k.readyQueue
    · rw [if_pos hp] at hx
      exact ⟨(Option.some.inj hx).symm, hout hp⟩
    · rw [if_neg hp] at hx
      exact absurd hx (by simp)

end ReadyQueue

section ProcessTree

/-- Only the process tree is rewritten. -/
theorem represents_retree
    {m : Memory Proc Semd SemKey} {pChild : Proc → List Proc} {pParent : Proc → Option Proc}
    (h : LinkedBy next prev k.lists k.pChild k.pParent)
    (hsame : Memory.TreeOnly (k.linked next prev).toMemory m)
    (hforest : m.IsForest pChild) (hparent : m.pParent = pParent) :
    ((k.linked next prev).withLinks m).Represents
      { k with pChild := pChild, pParent := pParent } := by
  have hthreaded : (k.linked next prev).toMemory.Threaded k.lists := h.rings
  refine represents_withLinks ?_ (hthreaded.congr hsame) h.spare hforest
  have hprio : m.priority = k.priority := hsame.priority
  have hsemkey : m.pSemkey = k.pSemkey := hsame.pSemkey
  have hsKey : m.sKey = k.asl.sKey := hsame.sKey
  simp only [Kernel.linked, withLinks, ← hparent, ← hprio, ← hsKey, ← hsemkey]

theorem representsTree (h : LinkedBy next prev k.lists k.pChild k.pParent) :
    (k.linked next prev).toMemory.RepresentsTree k :=
  ⟨LinkedBy.isForest (m := (k.linked next prev).toMemory) h, rfl⟩

/-- `insertChild` of a root. -/
theorem insertChild_represents
    (h : l.Represents k) {q : Proc} (hroot : ∀ a, p ∉ k.pChild a)
    (hout : ¬ OrderedForest.Below k.pChild q p) :
    ∃ m k', l.toMemory.insertChild (some q) (some p) = .ok m ∧
      k.insertChild (some q) (some p) = .ok k' ∧
      k' = { k with pChild := k'.pChild, pParent := k'.pParent } ∧
      (l.withLinks m).Represents k' := by
  obtain ⟨next, prev, rfl, h⟩ := h
  have htree := representsTree h
  obtain ⟨m, k', heq, hk', hforest, hparent⟩ := Memory.insertChild_refines htree hroot hout
  have hsame := Memory.insertChild_treeOnly htree.forest hroot heq
  have hk : k' = { k with pChild := k'.pChild, pParent := k'.pParent } := by
    simp only [Kernel.insertChild] at hk'
    split_ifs at hk' with hempty
    · obtain rfl := Except.ok.inj hk'
      rfl
    · obtain rfl := Except.ok.inj hk'
      rfl
  refine ⟨m, k', heq, hk', hk, ?_⟩
  rw [hk]
  exact represents_retree h hsame hforest hparent

/-- `removeChild`. -/
theorem removeChild_represents (h : l.Represents k) (q : Proc) :
    ∃ m, l.toMemory.removeChild q = .ok ((k.removeChild q).1, m) ∧
      (l.withLinks m).Represents (k.removeChild q).2 := by
  obtain ⟨next, prev, rfl, h⟩ := h
  have htree := representsTree h
  obtain ⟨m, heq, hforest, hparent⟩ := Memory.removeChild_refines htree q
  have hsame := Memory.removeChild_treeOnly htree.forest heq
  refine ⟨m, heq, ?_⟩
  have hk : (k.removeChild q).2 =
      { k with
        pChild := (k.removeChild q).2.pChild
        pParent := (k.removeChild q).2.pParent } := by
    cases hq : k.pChild q <;> simp [Kernel.removeChild, hq]
  rw [hk]
  exact represents_retree h hsame hforest hparent

/-- `outChild` of a child. -/
theorem outChild_represents (h : l.Represents k) {q : Proc} (hp : p ∈ k.pChild q) :
    ∃ m k', l.toMemory.outChild p = .ok (some p, m) ∧ k.outChild p = .ok (some p, k') ∧
      k' = { k with pChild := k'.pChild, pParent := k'.pParent } ∧
      (l.withLinks m).Represents k' := by
  obtain ⟨next, prev, rfl, h⟩ := h
  have htree := representsTree h
  obtain ⟨m, k', heq, hk', hforest, hparent⟩ := Memory.outChild_refines htree hp
  have hsame := Memory.outChild_treeOnly htree.forest hp heq
  have hk : k' = { k with pChild := k'.pChild, pParent := k'.pParent } := by
    have hpq : k.pParent p = some q := htree.forest.parent q p hp
    simp only [Kernel.outChild, hpq] at hk'
    cases hq : k.pChild q with
    | nil =>
        rw [hq] at hp
        exact absurd hp List.not_mem_nil
    | cons c rest =>
        simp only [hq] at hk'
        split_ifs at hk' with hc
        · obtain ⟨-, rfl⟩ := Prod.mk.inj (Except.ok.inj hk')
          simp [hq]
        · obtain ⟨-, rfl⟩ := Prod.mk.inj (Except.ok.inj hk')
          rfl
  refine ⟨m, k', heq, hk', hk, ?_⟩
  rw [hk]
  exact represents_retree h hsame hforest hparent

/-- `freePcb`. -/
theorem freePcb_represents (h : l.Represents k) (hp : k.lists.Unthreaded p) :
    ∃ m, l.toMemory.freePcb p = .ok m ∧ (l.withLinks m).Represents (k.freePcb p) := by
  obtain ⟨next, prev, rfl, h⟩ := h
  obtain ⟨m, heq, hthreaded, hsame, hsemkey⟩ :=
    Memory.freePcb_threaded (m := (k.linked next prev).toMemory) h.rings hp
  refine ⟨m, heq, represents_relink h hsame hsemkey rfl ?_ h.spare⟩
  rw [listsOf_free k.asl k.pcbFreeH]
  exact hthreaded

theorem allocPcb_represents_nil (h : l.Represents k) (hfree : k.pcbFreeH = []) :
    l.allocPcb = .ok (none, l) := by
  obtain ⟨next, prev, rfl, h⟩ := h
  have hnone : (k.linked next prev).toMemory.allocPcb = .ok (none, (k.linked next prev).toMemory) :=
    Memory.allocPcb_nil (m := (k.linked next prev).toMemory) h.rings hfree
  simp only [allocPcb, hnone, ok_bind]
  rfl

/-- `allocPcb`, when the first free PCB is a tree of its own. -/
theorem allocPcb_represents
    (h : l.Represents k) {free : List Proc} (hfree : k.pcbFreeH = x :: free)
    (hleaf : k.pChild x = []) (hroot : ∀ a, x ∉ k.pChild a) :
    ∃ l', l.allocPcb = .ok (some x, l') ∧ l'.Represents k.allocPcb.2 ∧
      (listsOf k.asl free k.readyQueue).Unthreaded x := by
  obtain ⟨next, prev, rfl, h⟩ := h
  obtain ⟨m, heq, hthreaded, hout, hparent, hprio, hsemkey, hsKey, hforest⟩ :=
    Memory.allocPcb_threaded (m := (k.linked next prev).toMemory) h.rings hfree
  have hforest : m.IsForest k.pChild :=
    hforest k.pChild (representsTree h).forest hleaf hroot
  have hparent : m.pParent = Function.update k.pParent x none := hparent
  have hprio : m.priority = Function.update k.priority x 0 := hprio
  have hsemkey : m.pSemkey = Function.update k.pSemkey x none := hsemkey
  have hsKey : m.sKey = k.asl.sKey := hsKey
  have hchild : Function.update k.pChild x [] = k.pChild := by
    rw [← hleaf]
    exact Function.update_eq_self x k.pChild
  have halloc : k.allocPcb.2.linked m.next m.prev =
      { (k.linked next prev).withLinks m with
        originalPriority := Function.update k.originalPriority x 0
        kernelTimer := Function.update k.kernelTimer x 0
        userTimer := Function.update k.userTimer x 0
        todCache := Function.update k.todCache x 0
        todAtStart := Function.update k.todAtStart x 0
        pS := Function.update k.pS x State.reset
        specAreas := Function.update k.specAreas x (fun _ => 0) } := by
    simp only [Kernel.linked, Kernel.allocPcb, hfree, withLinks, ← hparent, ← hprio, ← hsemkey,
      ← hsKey]
  refine ⟨k.allocPcb.2.linked m.next m.prev, ?_, ⟨m.next, m.prev, rfl, ?_⟩, ?_⟩
  · rw [halloc]
    simp only [allocPcb, heq, ok_bind, pure_eq_ok]
    rfl
  · simp only [Kernel.allocPcb, hfree, hchild, Kernel.lists, ← hparent]
    refine LinkedBy.of_memory ?_ h.spare hforest
    rw [listsOf_free k.asl k.pcbFreeH]
    exact hthreaded
  · rw [listsOf_free k.asl k.pcbFreeH]
    exact hout

end ProcessTree

end LinkedKernel

end Bikaya
