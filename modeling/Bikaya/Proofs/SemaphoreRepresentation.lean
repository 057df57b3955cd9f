import Bikaya.Proofs.Representation
import Bikaya.Proofs.ProcessQueue

/-!
# Bikaya: the representation of the semaphore list

The functions of `asl.c` on a linked kernel: each one does on the links what its
counterpart does on the lists.

**Plan.**  A descriptor goes from one ring to the other when its queue becomes empty or is
started, and the queue is a ring of its own; each function is a sequence of such steps on
the threads of the kernel.  The queue of a descriptor that is not active is empty, which
lets a new queue start with it.

**Results.**
* `retrieveFreeSemd_represents`, `freeSemdIfEmpty_represents`, `targetSemd_represents`: the
  descriptors.
* `insertBlocked_represents`, `insertBlockedFifo_represents`, `removeBlocked_represents`,
  `headBlocked_represents`, `outBlocked_represents`: the functions of `asl.c`.
-/

namespace Bikaya

open LinkRing StableInsert

namespace Asl

variable {a : Asl} {s : Semd} {q : List Proc}

/-- A descriptor that is not active has no processes. -/
abbrev Spare (a : Asl) : Prop :=
  ∀ s, s ∉ a.semdH → a.sProcQ s = []

theorem Spare.setProcQ (h : a.Spare) (hs : s ∈ a.semdH) : (a.setProcQ s q).Spare := by
  intro t ht
  have hne : t ≠ s := by
    rintro rfl
    exact ht hs
  simpa [Asl.setProcQ, hne] using h t ht

theorem Spare.freeSemdIfEmpty (h : a.Spare) (s : Semd) : (a.freeSemdIfEmpty s).Spare := by
  unfold Asl.freeSemdIfEmpty
  split_ifs with hs
  · intro t ht
    by_cases hts : t = s
    · rw [hts]
      exact hs
    · exact h t (fun hmem => ht ((List.mem_erase_of_ne hts).mpr hmem))
  · exact h

theorem Spare.retrieveFreeSemd (h : a.Spare) (key : SemKey) :
    (a.retrieveFreeSemd key).2.Spare := by
  unfold Asl.retrieveFreeSemd
  split
  · exact h
  · rename_i s free hfree
    intro t (ht : t ∉ s :: a.semdH)
    rw [List.mem_cons, not_or] at ht
    simpa [ht.1] using h t ht.2

theorem Spare.targetSemd (h : a.Spare) (key : SemKey) : (a.targetSemd key).2.Spare := by
  unfold Asl.targetSemd
  split
  · exact h
  · exact h.retrieveFreeSemd key

/-- The descriptor of an insertion is active. -/
theorem targetSemd_active {key : SemKey} (hs : (a.targetSemd key).1 = some s) :
    s ∈ (a.targetSemd key).2.semdH := by
  unfold Asl.targetSemd at hs ⊢
  cases hget : a.getSemd (some key) with
  | some t =>
      simp only [hget, Option.some.injEq] at hs ⊢
      subst hs
      exact List.mem_of_find?_eq_some hget
  | none =>
      simp only [hget] at hs ⊢
      unfold Asl.retrieveFreeSemd at hs ⊢
      cases hfree : a.semdFreeH with
      | nil =>
          simp [hfree] at hs
      | cons t free =>
          simp only [hfree, Option.some.injEq] at hs ⊢
          subst hs
          exact List.mem_cons_self

/-- Without a descriptor nothing changes. -/
theorem targetSemd_none {key : SemKey} (hs : (a.targetSemd key).1 = none) :
    (a.targetSemd key).2 = a := by
  unfold Asl.targetSemd at hs ⊢
  split at hs
  · simp at hs
  · unfold Asl.retrieveFreeSemd at hs ⊢
    split at hs
    · rfl
    · simp at hs

/-- No process enters a queue when a descriptor is looked for. -/
theorem mem_of_targetSemd {key : SemKey} {t : Semd} {x : Proc}
    (hx : x ∈ (a.targetSemd key).2.sProcQ t) :
    x ∈ a.sProcQ t := by
  unfold Asl.targetSemd at hx
  split at hx
  · exact hx
  · unfold Asl.retrieveFreeSemd at hx
    split at hx
    · exact hx
    · rename_i s free hfree
      by_cases hts : t = s
      · subst hts
        simp at hx
      · simpa [hts] using hx

end Asl

/-- The lists after a free descriptor has become active. -/
theorem listsOf_retrieve
    (asl : Asl) (free ready : List Proc) {s : Semd} {rest : List Semd} (key : SemKey)
    (hfree : asl.semdFreeH = s :: rest) :
    listsOf (asl.retrieveFreeSemd key).2 free ready =
      (((listsOf asl free ready).setSemds .semdFreeH rest).setSemds .semdH
        (s :: asl.semdH)).setProcs (.sProcQ s) [] := by
  simp only [listsOf, Asl.retrieveFreeSemd, hfree, Threads.setSemds, Threads.setProcs,
    Threads.mk.injEq]
  constructor
  · funext i
    cases i with
    | sProcQ t =>
        by_cases hts : t = s
        · subst hts
          simp
        · simp [hts]
    | _ =>
        simp
  · funext j
    cases j <;> simp

namespace LinkedKernel

variable {A : Arch} {l : LinkedKernel A} {k : Kernel A} {p x : Proc} {s : Semd} {key : SemKey}

theorem Represents.spare (h : l.Represents k) : k.asl.Spare := by
  obtain ⟨next, prev, -, h⟩ := h
  exact h.spare

/-- `getSemd`. -/
theorem getSemd_represents (h : l.Represents k) (key : Option SemKey) :
    l.toMemory.getSemd listFuel key = .ok (k.asl.getSemd key) := by
  obtain ⟨next, prev, rfl, h⟩ := h
  exact Memory.getSemd_threaded (m := (k.linked next prev).toMemory) h.rings
    (h.semds_length_lt .semdH)

/-- The key of a process is written. -/
theorem setSemkey_represents (h : l.Represents k) (p : Proc) (key : Option SemKey) :
    (l.withLinks (l.toMemory.setSemkey p key)).Represents
      { k with pSemkey := Function.update k.pSemkey p key } := by
  obtain ⟨next, prev, rfl, h⟩ := h
  exact ⟨next, prev, rfl, h⟩

section Queues

/-- `insertProcQ`, on the queue of an active descriptor. -/
theorem insertProcQ_represents
    (h : l.Represents k) (hp : k.lists.Unthreaded p) (hs : s ∈ k.asl.semdH) :
    ∃ m, l.toMemory.insertProcQ listFuel (.sProcQ s) p = .ok m ∧
      (l.withLinks m).Represents
        { k with asl := k.asl.setProcQ s (insertProcQ k.priority (k.asl.sProcQ s) p) } := by
  obtain ⟨next, prev, rfl, h⟩ := h
  obtain ⟨m, heq, hthreaded, hsame, hsemkey⟩ :=
    Memory.insertProcQ_threaded (m := (k.linked next prev).toMemory) h.rings hp (.sProcQ s)
  refine ⟨m, heq listFuel (h.procs_length_lt _),
    represents_relink h hsame hsemkey rfl ?_ (Asl.Spare.setProcQ h.spare hs)⟩
  rw [listsOf_setProcQ, insertProcQ_eq]
  exact hthreaded

/-- `list_add_tail`, on the queue of an active descriptor. -/
theorem listAddTail_represents
    (h : l.Represents k) (hp : k.lists.Unthreaded p) (hs : s ∈ k.asl.semdH) :
    ∃ m, l.toMemory.listAddTail (.pNext p) (.sProcQ s) = .ok m ∧
      (l.withLinks m).Represents
        { k with asl := k.asl.setProcQ s (k.asl.sProcQ s ++ [p]) } := by
  obtain ⟨next, prev, rfl, h⟩ := h
  obtain ⟨m, heq, hthreaded, hsame, hsemkey⟩ :=
    Memory.listAddTail_threaded (m := (k.linked next prev).toMemory) h.rings hp (.sProcQ s)
  refine ⟨m, heq, represents_relink h hsame hsemkey rfl ?_ (Asl.Spare.setProcQ h.spare hs)⟩
  rw [listsOf_setProcQ]
  exact hthreaded

/-- `removeProcQ`, on the queue of an active descriptor. -/
theorem removeProcQ_represents (h : l.Represents k) (hs : s ∈ k.asl.semdH) :
    ∃ m, l.toMemory.removeProcQ (.sProcQ s) = .ok ((removeProcQ (k.asl.sProcQ s)).1, m) ∧
      (l.withLinks m).Represents
        { k with asl := k.asl.setProcQ s (removeProcQ (k.asl.sProcQ s)).2 } := by
  obtain ⟨next, prev, rfl, h⟩ := h
  obtain ⟨m, heq, hthreaded, hsame, hsemkey, -⟩ :=
    Memory.removeProcQ_threaded (m := (k.linked next prev).toMemory) h.rings (.sProcQ s)
  rw [removeProcQ_eq]
  refine ⟨m, heq, represents_relink h hsame hsemkey rfl ?_ (Asl.Spare.setProcQ h.spare hs)⟩
  rw [listsOf_setProcQ]
  exact hthreaded

/-- `outProcQ`, on the queue of an active descriptor. -/
theorem outProcQ_represents (h : l.Represents k) (hs : s ∈ k.asl.semdH) (p : Proc) :
    ∃ m, l.toMemory.outProcQ listFuel (.sProcQ s) p =
        .ok ((outProcQ (k.asl.sProcQ s) p).1, m) ∧
      (l.withLinks m).Represents
        { k with asl := k.asl.setProcQ s (outProcQ (k.asl.sProcQ s) p).2 } := by
  obtain ⟨next, prev, rfl, h⟩ := h
  obtain ⟨m, heq, hthreaded, hsame, hsemkey, -⟩ :=
    Memory.outProcQ_threaded (m := (k.linked next prev).toMemory) h.rings p (.sProcQ s)
  rw [outProcQ_eq]
  refine ⟨m, heq listFuel (h.procs_length_lt _),
    represents_relink h hsame hsemkey rfl ?_ (Asl.Spare.setProcQ h.spare hs)⟩
  rw [listsOf_setProcQ]
  exact hthreaded

end Queues

section Descriptors

/-- `freeSemdIfEmpty`. -/
theorem freeSemdIfEmpty_represents (h : l.Represents k) (hs : s ∈ k.asl.semdH) :
    ∃ m, l.toMemory.freeSemdIfEmpty s = .ok m ∧
      (l.withLinks m).Represents { k with asl := k.asl.freeSemdIfEmpty s } := by
  obtain ⟨next, prev, rfl, h⟩ := h
  obtain ⟨m, heq, hthreaded, hsame, hsemkey⟩ :=
    Memory.freeSemdIfEmpty_threaded (m := (k.linked next prev).toMemory) h.rings hs
  refine ⟨m, heq, represents_relink h hsame hsemkey ?_ ?_
    (Asl.Spare.freeSemdIfEmpty h.spare s)⟩
  · unfold Asl.freeSemdIfEmpty
    split_ifs <;> rfl
  · have hlists : listsOf (k.asl.freeSemdIfEmpty s) k.pcbFreeH k.readyQueue =
        if k.asl.sProcQ s = [] then
          (k.lists.setSemds .semdH (k.asl.semdH.erase s)).setSemds .semdFreeH
            (s :: k.asl.semdFreeH)
        else k.lists := by
      unfold Asl.freeSemdIfEmpty
      split_ifs
      · exact listsOf_move _ _ rfl
      · rfl
    rw [hlists]
    exact hthreaded

/-- `retrieve_free_semd`. -/
theorem retrieveFreeSemd_represents (h : l.Represents k) (key : SemKey) :
    ∃ m, l.toMemory.retrieveFreeSemd (some key) =
        .ok ((k.asl.retrieveFreeSemd key).1, m) ∧
      (l.withLinks m).Represents { k with asl := (k.asl.retrieveFreeSemd key).2 } := by
  obtain ⟨next, prev, rfl, h⟩ := h
  cases hfree : k.asl.semdFreeH with
  | nil =>
      have heq : (k.linked next prev).toMemory.retrieveFreeSemd (some key) =
          .ok (none, (k.linked next prev).toMemory) :=
        Memory.retrieveFreeSemd_nil (m := (k.linked next prev).toMemory) h.rings hfree (some key)
      refine ⟨_, ?_, ⟨next, prev, rfl, ?_⟩⟩
      · rw [heq]
        simp only [Asl.retrieveFreeSemd, hfree]
        rfl
      · simp only [Asl.retrieveFreeSemd, hfree]
        exact h
  | cons s rest =>
      obtain ⟨m, heq, hthreaded, htree, hprio, hsemkey, hsKey⟩ :=
        Memory.retrieveFreeSemd_threaded (m := (k.linked next prev).toMemory) h.rings hfree
          (some key)
      refine ⟨m, ?_, represents_rekey h htree hprio hsemkey ?_ ?_
        (Asl.Spare.retrieveFreeSemd h.spare key)⟩
      · rw [heq]
        simp only [Asl.retrieveFreeSemd, hfree]
      · simp only [Asl.retrieveFreeSemd, hfree]
        exact hsKey
      · rw [listsOf_retrieve _ _ _ key hfree]
        exact hthreaded

/-- The search of the descriptor for an insertion. -/
theorem targetSemd_represents (h : l.Represents k) (key : SemKey) :
    ∃ m, l.toMemory.targetSemd listFuel key = .ok ((k.asl.targetSemd key).1, m) ∧
      (l.withLinks m).Represents { k with asl := (k.asl.targetSemd key).2 } := by
  cases hget : k.asl.getSemd (some key) with
  | some s =>
      refine ⟨l.toMemory, ?_, ?_⟩
      · simp only [Memory.targetSemd, Asl.targetSemd, getSemd_represents h, hget, ok_bind,
          pure_eq_ok]
      · simp only [Asl.targetSemd, hget]
        exact h
  | none =>
      obtain ⟨m, heq, hm⟩ := retrieveFreeSemd_represents h key
      refine ⟨m, ?_, ?_⟩
      · simp only [Memory.targetSemd, Asl.targetSemd, getSemd_represents h, hget, ok_bind, heq]
      · simp only [Asl.targetSemd, hget]
        exact hm

end Descriptors

section Blocked

/-- A process outside the lists stays outside when a descriptor is looked for. -/
theorem unthreaded_targetSemd
    (hp : k.lists.Unthreaded p) (key : SemKey) :
    (listsOf (k.asl.targetSemd key).2 k.pcbFreeH k.readyQueue).Unthreaded p := by
  intro i
  cases i with
  | sProcQ t =>
      exact fun hmem => hp (.sProcQ t) (Asl.mem_of_targetSemd hmem)
  | readyQueue =>
      exact hp .readyQueue
  | pcbFreeH =>
      exact hp .pcbFreeH

/-- `insertBlocked`. -/
theorem insertBlocked_represents
    (h : l.Represents k) (hp : k.lists.Unthreaded p) (key : SemKey) :
    ∃ l', l.insertBlocked key p = .ok ((k.insertBlocked key p).1, l') ∧
      l'.Represents (k.insertBlocked key p).2 := by
  obtain ⟨m, htarget, hm⟩ := targetSemd_represents h key
  unfold Kernel.insertBlocked
  rcases hs : k.asl.targetSemd key with ⟨_ | s, asl⟩
  · have hnone := Asl.targetSemd_none (congrArg Prod.fst hs : (k.asl.targetSemd key).1 = none)
    rw [hnone] at hm
    refine ⟨l.withLinks m, ?_, hm⟩
    simp only [insertBlocked, Memory.insertBlocked, htarget, hs, ok_bind, pure_eq_ok]
  · have hp' := unthreaded_targetSemd hp key
    have hactive := Asl.targetSemd_active (congrArg Prod.fst hs : (k.asl.targetSemd key).1 = some s)
    rw [hs] at htarget hm hp' hactive
    obtain ⟨m', hinsert, hm'⟩ :=
      insertProcQ_represents (setSemkey_represents hm p (some key)) hp' hactive
    refine ⟨l.withLinks m', ?_, hm'⟩
    have hinsert : (m.setSemkey p (some key)).insertProcQ listFuel (.sProcQ s) p = .ok m' :=
      hinsert
    simp only [insertBlocked, Memory.insertBlocked, htarget, ok_bind, pure_eq_ok, hinsert]

/-- `insertBlockedFifo`. -/
theorem insertBlockedFifo_represents
    (h : l.Represents k) (hp : k.lists.Unthreaded p) (key : SemKey) :
    ∃ l', l.insertBlockedFifo key p = .ok ((k.insertBlockedFifo key p).1, l') ∧
      l'.Represents (k.insertBlockedFifo key p).2 := by
  obtain ⟨m, htarget, hm⟩ := targetSemd_represents h key
  unfold Kernel.insertBlockedFifo
  rcases hs : k.asl.targetSemd key with ⟨_ | s, asl⟩
  · have hnone := Asl.targetSemd_none (congrArg Prod.fst hs : (k.asl.targetSemd key).1 = none)
    rw [hnone] at hm
    refine ⟨l.withLinks m, ?_, hm⟩
    simp only [insertBlockedFifo, Memory.insertBlockedFifo, htarget, hs, ok_bind, pure_eq_ok]
  · have hp' := unthreaded_targetSemd hp key
    have hactive := Asl.targetSemd_active (congrArg Prod.fst hs : (k.asl.targetSemd key).1 = some s)
    rw [hs] at htarget hm hp' hactive
    obtain ⟨m', hinsert, hm'⟩ := listAddTail_represents hm hp' hactive
    refine ⟨_, ?_, setSemkey_represents hm' p (some key)⟩
    have hinsert : m.listAddTail (.pNext p) (.sProcQ s) = .ok m' := hinsert
    simp only [insertBlockedFifo, Memory.insertBlockedFifo, htarget, ok_bind, pure_eq_ok, hinsert]
    rfl

/-- `removeBlocked`. -/
theorem removeBlocked_represents (h : l.Represents k) (key : SemKey) :
    ∃ l', l.removeBlocked key = .ok ((k.removeBlocked key).1, l') ∧
      l'.Represents (k.removeBlocked key).2 := by
  cases hget : k.asl.getSemd (some key) with
  | none =>
      have hk : k.removeBlocked key = (none, k) := by
        simp only [Kernel.removeBlocked, hget]
      rw [hk]
      refine ⟨l, ?_, h⟩
      simp only [removeBlocked, Memory.removeBlocked, getSemd_represents h, hget, ok_bind,
        pure_eq_ok]
      rfl
  | some s =>
      have hs : s ∈ k.asl.semdH := List.mem_of_find?_eq_some hget
      obtain ⟨m, hremove, hm⟩ := removeProcQ_represents h hs
      cases hq : k.asl.sProcQ s with
      | nil =>
          have hk : k.removeBlocked key = (none, k) := by
            simp only [Kernel.removeBlocked, hget, hq, removeProcQ]
          have hsame : k.asl.setProcQ s [] = k.asl := by
            rw [Asl.setProcQ, ← hq, Function.update_eq_self]
          simp only [hq, removeProcQ, hsame] at hremove hm
          rw [hk]
          refine ⟨l.withLinks m, ?_, hm⟩
          simp only [removeBlocked, Memory.removeBlocked, getSemd_represents h, hget, ok_bind,
            pure_eq_ok, hremove]
      | cons x q =>
          have hk : k.removeBlocked key =
              (some x,
                { k with
                  asl := (k.asl.setProcQ s q).freeSemdIfEmpty s
                  pSemkey := Function.update k.pSemkey x none }) := by
            simp only [Kernel.removeBlocked, hget, hq, removeProcQ]
          simp only [hq, removeProcQ] at hremove hm
          obtain ⟨m', hfree, hm'⟩ :=
            freeSemdIfEmpty_represents (setSemkey_represents hm x none) (s := s) hs
          have hfree : (m.setSemkey x none).freeSemdIfEmpty s = .ok m' := hfree
          rw [hk]
          refine ⟨l.withLinks m', ?_, hm'⟩
          simp only [removeBlocked, Memory.removeBlocked, getSemd_represents h, hget, ok_bind,
            pure_eq_ok, hremove, hfree]

/-- `headBlocked`. -/
theorem headBlocked_represents (h : l.Represents k) (key : SemKey) :
    l.toMemory.headBlocked listFuel key = .ok (k.headBlocked key) := by
  simp only [Memory.headBlocked, getSemd_represents h, ok_bind, Kernel.headBlocked]
  cases hget : k.asl.getSemd (some key) with
  | none =>
      rfl
  | some s =>
      have hhead := Memory.headProcQ_spec (h.isQueue (.sProcQ s))
      simp only [Memory.headProcQ, ite_not] at hhead
      exact hhead

/-- `outBlocked`. -/
theorem outBlocked_represents (h : l.Represents k) (p : Proc) :
    ∃ m, l.toMemory.outBlocked listFuel p = .ok ((k.outBlocked p).1, m) ∧
      (l.withLinks m).Represents (k.outBlocked p).2 := by
  have hkey : l.pSemkey p = k.pSemkey p := by
    obtain ⟨next, prev, rfl, -⟩ := h
    rfl
  cases hget : k.asl.getSemd (k.pSemkey p) with
  | none =>
      have hk : k.outBlocked p = (none, k) := by
        simp only [Kernel.outBlocked, hget]
      rw [hk]
      refine ⟨l.toMemory, ?_, h⟩
      simp only [Memory.outBlocked, hkey, getSemd_represents h, hget, ok_bind, pure_eq_ok]
  | some s =>
      have hs : s ∈ k.asl.semdH := List.mem_of_find?_eq_some hget
      obtain ⟨m, hout, hm⟩ := outProcQ_represents h hs p
      rcases hq : outProcQ (k.asl.sProcQ s) p with ⟨_ | x, q⟩
      · have hk : k.outBlocked p =
            (none, { k with asl := (k.asl.setProcQ s q).freeSemdIfEmpty s }) := by
          simp only [Kernel.outBlocked, hget, hq]
        simp only [hq] at hout hm
        obtain ⟨m', hfree, hm'⟩ := freeSemdIfEmpty_represents hm (s := s) hs
        have hfree : m.freeSemdIfEmpty s = .ok m' := hfree
        rw [hk]
        refine ⟨m', ?_, hm'⟩
        simp only [Memory.outBlocked, hkey, getSemd_represents h, hget, ok_bind, pure_eq_ok, hout,
          hfree]
      · have hk : k.outBlocked p =
            (some x,
              { k with
                pSemkey := Function.update k.pSemkey x none
                asl := (k.asl.setProcQ s q).freeSemdIfEmpty s }) := by
          simp only [Kernel.outBlocked, hget, hq]
        simp only [hq] at hout hm
        obtain ⟨m', hfree, hm'⟩ :=
          freeSemdIfEmpty_represents (setSemkey_represents hm x none) (s := s) hs
        have hfree : (m.setSemkey x none).freeSemdIfEmpty s = .ok m' := hfree
        rw [hk]
        refine ⟨m', ?_, hm'⟩
        simp only [Memory.outBlocked, hkey, getSemd_represents h, hget, ok_bind, pure_eq_ok, hout,
          hfree]

end Blocked

end LinkedKernel

end Bikaya
