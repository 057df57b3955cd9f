import Bikaya.Library.Lockstep
import Bikaya.Proofs.LinkedScheduler
import Bikaya.Proofs.Preservation

/-!
# Bikaya: the operations on the links

Each operation of a linked kernel agrees with the one of the kernel it represents, as long
as the invariant of the latter holds: both return, and the results represent each other, or
both stop for the same reason.

**Plan.**  The invariant of the kernel on lists says which processes are in no list, and
that is what the rings need to take them in.  Each operation is cut into the routines of
the modules before, and the agreement of the whole is the one of its parts, in their order.

**Results.**
* `p_agrees`, `v_agrees`, `timeSlice_agrees`, `createProcess_agrees`: the operations of
  `scheduler.c`, but for the termination.
* `waitIo_agrees`, `doneIo_agrees`: those of `interrupts.c`.
-/

namespace Bikaya

open Lockstep OrderedForest

namespace LinkedKernel

variable {A : Arch} {l : LinkedKernel A} {k : Kernel A} {x : Proc}
variable {i : IntModel}

section Facts

/-- The processes in none of the lists, when the invariant holds. -/
theorem Represents.unthreaded
    (h : l.Represents k) (hasl : k.asl.Ok) (hx : k.Absent x) : k.lists.Unthreaded x :=
  Kernel.Absent.unthreaded hx hasl h.spare

theorem Represents.running
    (h : l.Represents k) (hok : k.Ok) : k.lists.Unthreaded k.runningProc :=
  h.unthreaded hok.residence.aslOk hok.running

theorem Represents.runningProc_eq (h : l.Represents k) : l.runningProc = k.runningProc := by
  obtain ⟨next, prev, rfl, -⟩ := h
  rfl

theorem addSem_represents (h : l.Represents k) (a : SemAddr) (n : Int) :
    (l.addSem i a n).Represents (k.addSem i a n) := by
  obtain ⟨next, prev, rfl, h⟩ := h
  exact ⟨next, prev, rfl, h⟩

theorem flushKernelTime_represents (h : l.Represents k) (tod : Word) (p : Proc) :
    (l.flushKernelTime tod p).Represents (k.flushKernelTime tod p) := by
  obtain ⟨next, prev, rfl, h⟩ := h
  exact ⟨next, prev, rfl, h⟩

theorem sendCommand_represents
    (h : l.Represents k) (type : ExtDevType) (command devReg : Word) (owner : Option Proc) :
    (l.sendCommand type command devReg owner).Represents
      (k.sendCommand type command devReg owner) := by
  obtain ⟨next, prev, rfl, h⟩ := h
  exact ⟨next, prev, rfl, h⟩

theorem addCmdSem_represents (h : l.Represents k) (d : Dev) (n : Int) :
    LinkedKernel.Represents
      { l with wForCmdSem := Function.update l.wForCmdSem d (i.add (l.wForCmdSem d) n) }
      { k with wForCmdSem := Function.update k.wForCmdSem d (i.add (k.wForCmdSem d) n) } := by
  obtain ⟨next, prev, rfl, h⟩ := h
  exact ⟨next, prev, rfl, h⟩

/-- A process is registered with a device. -/
theorem register_represents (h : l.Represents k) (d : Dev) (p : Proc) :
    LinkedKernel.Represents
      { l with
        wForRes := Function.update l.wForRes d (some p)
        devWList := Function.update l.devWList p (some d) }
      { k with
        wForRes := Function.update k.wForRes d (some p)
        devWList := Function.update k.devWList p (some d) } := by
  obtain ⟨next, prev, rfl, h⟩ := h
  exact ⟨next, prev, rfl, h⟩

theorem setRet_represents (h : l.Represents k) (p : Proc) (status : Word) :
    LinkedKernel.Represents
      { l with pS := Function.update l.pS p ((l.pS p).setRet status) }
      { k with pS := Function.update k.pS p ((k.pS p).setRet status) } := by
  obtain ⟨next, prev, rfl, h⟩ := h
  exact ⟨next, prev, rfl, h⟩

/-- The state and the priorities that `create_process` gives to a process. -/
theorem setState_represents (h : l.Represents k) (p : Proc) (s : State A) (priority : Int) :
    LinkedKernel.Represents
      { l with
        pS := Function.update l.pS p s
        priority := Function.update l.priority p priority
        originalPriority := Function.update l.originalPriority p priority }
      { k with
        pS := Function.update k.pS p s
        priority := Function.update k.priority p priority
        originalPriority := Function.update k.originalPriority p priority } := by
  obtain ⟨next, prev, rfl, h⟩ := h
  exact ⟨next, prev, rfl, h⟩

end Facts

section Semaphores

/-- P. -/
theorem p_agrees (h : l.Represents k) (hok : k.Ok) (a : SemAddr) (tod : Word) :
    Agree Represents (l.p i a tod) (k.p i a tod) := by
  have hsem := addSem_represents (i := i) h a (-1)
  have hvalue : (l.addSem i a (-1)).sem = (k.addSem i a (-1)).sem := by
    obtain ⟨next, prev, rfl, -⟩ := h
    rfl
  simp only [p, Kernel.p, hvalue]
  split_ifs with hneg
  · have hrun : (l.addSem i a (-1)).runningProc = k.runningProc := h.runningProc_eq
    have hflush := flushKernelTime_represents hsem tod k.runningProc
    obtain ⟨l', heq, hl'⟩ :=
      insertBlocked_represents hflush (p := k.runningProc) (h.running hok) (.user a)
    have hrun' : ((l.addSem i a (-1)).flushKernelTime tod k.runningProc).runningProc =
        k.runningProc := h.runningProc_eq
    rw [hrun, hrun', heq]
    have hk : ((k.addSem i a (-1)).flushKernelTime tod
        (k.addSem i a (-1)).runningProc).insertBlocked (.user a)
        ((k.addSem i a (-1)).flushKernelTime tod (k.addSem i a (-1)).runningProc).runningProc =
        ((k.addSem i a (-1)).flushKernelTime tod k.runningProc).insertBlocked (.user a)
          k.runningProc := rfl
    rw [hk]
    rcases hins : ((k.addSem i a (-1)).flushKernelTime tod k.runningProc).insertBlocked (.user a)
      k.runningProc with ⟨_ | _, k'⟩
    · rw [hins] at hl'
      obtain ⟨l'', hnext, hl''⟩ := runNextReady_represents hl'
      simp only [ok_bind, hnext, pure_eq_ok]
      exact Agree.ok (addSem_represents hl'' a 1)
    · simp only [ok_bind]
      exact Agree.error _
  · exact Agree.ok hsem

/-- V. -/
theorem v_agrees (h : l.Represents k) (hok : k.Ok) (a : SemAddr) :
    Agree Represents (l.v i a) (.ok (k.v i a)) := by
  have hsem := addSem_represents (i := i) h a 1
  obtain ⟨l₁, heq, hl₁⟩ := removeBlocked_represents hsem (.user a)
  cases hq : k.waitQueue (.user a) with
  | nil =>
      have hnone := Kernel.removeBlocked_nil (k := k.addSem i a 1) hok.residence.aslOk hq
      rw [hnone] at heq hl₁
      simp only [v, heq, ok_bind, pure_eq_ok, Kernel.v, hnone]
      exact Agree.ok hl₁
  | cons x q =>
      obtain ⟨asl, hrem, hOk, hwait⟩ :=
        Kernel.removeBlocked_cons (k := k.addSem i a 1) hok.residence.aslOk hq
      rw [hrem] at heq hl₁
      have hok₁ : (k.addSem i a 1).Ok := ⟨hok.residence, hok.tree, hok.idle, hok.running⟩
      obtain ⟨hok₂, habsent, -, -⟩ := hok₁.unblock hOk hq hwait
      have hx := hl₁.unthreaded hOk habsent
      have hrun := hl₁.running hok₂
      -- the priority of the woken process, then those of the processes left
      have hl₂ : LinkedKernel.Represents
          { l₁ with priority := Function.update l₁.priority x (l₁.originalPriority x) }
          { k.addSem i a 1 with
            asl := asl
            pSemkey := Function.update k.pSemkey x none
            priority := Function.update k.priority x (k.originalPriority x) } := by
        obtain ⟨next, prev, rfl, hlinks⟩ := hl₁
        exact ⟨next, prev, rfl, hlinks⟩
      obtain ⟨l₃, hage, hl₃⟩ := ageBlocked_represents i hl₂ (.user a)
      rw [Kernel.ageBlocked_eq] at hl₃
      obtain ⟨l₄, hsched, hl₄⟩ := scheduleProc_represents hl₃ (x := x) hx (fun _ => hrun)
      simp only [v, heq, ok_bind, hage, hsched, pure_eq_ok, Kernel.v, hrem,
        Kernel.ageBlocked_eq]
      exact Agree.ok (addSem_represents hl₄ a (-1))

/-- The end of a time slice. -/
theorem timeSlice_agrees (h : l.Represents k) (hok : k.Ok) :
    Agree Represents (l.timeSliceCallback i) (.ok (k.timeSliceCallback i)) := by
  obtain ⟨l₁, hraise, hl₁⟩ := raisePriorities_represents i h .readyQueue
  have hrun : k.lists.Unthreaded k.runningProc := h.running hok
  have hslices : l₁.Represents
      { k with
        slices := k.slices + 1
        priority := Bikaya.raisePriorities i k.priority k.readyQueue } := hl₁
  have hhead : l₁.toMemory.headProcQ .readyQueue = .ok k.readyQueue.head? :=
    (headReady_represents hl₁ :)
  have hraise : l.raisePriorities i .readyQueue = .ok l₁ := hraise
  cases hq : k.readyQueue with
  | nil =>
      rw [hq] at hhead hslices
      simp only [timeSliceCallback, hraise, hhead, ok_bind, List.head?_nil, pure_eq_ok,
        Kernel.timeSliceCallback, headProcQ, hq]
      exact Agree.ok hslices
  | cons x q =>
      have hprio : l₁.priority = Bikaya.raisePriorities i k.priority k.readyQueue ∧
          l₁.runningProc = k.runningProc := by
        obtain ⟨next, prev, rfl, -⟩ := hl₁
        exact ⟨rfl, rfl⟩
      obtain ⟨l₂, hremove, hl₂, -⟩ := removeReady_represents hslices
      simp only [hq, removeProcQ] at hremove hl₂ hprio
      have hrun' : (listsOf k.asl k.pcbFreeH q).Unthreaded k.runningProc := by
        rw [listsOf_ready _ _ k.readyQueue]
        refine hrun.setProcs (fun hmem => hrun .readyQueue ?_)
        show k.runningProc ∈ k.readyQueue
        rw [hq]
        exact List.mem_cons_of_mem _ hmem
      obtain ⟨l₃, hstop, hl₃⟩ := stopRunningProc_represents hl₂ (fun _ => hrun')
      simp only [timeSliceCallback, hraise, hhead, hq, ok_bind, List.head?_cons, hprio.1, hprio.2,
        Kernel.timeSliceCallback, headProcQ]
      split_ifs with hle
      · simp only [hremove, hstop, ok_bind, pure_eq_ok, removeProcQ]
        exact Agree.ok (setRunningProc_represents hl₃ (some x))
      · rw [hq] at hslices
        exact Agree.ok hslices

end Semaphores

section Devices

/-- The process that ran is still in no list when the next one runs. -/
theorem unthreaded_runNextReady
    (hx : k.lists.Unthreaded x) : k.runNextReady.lists.Unthreaded x := by
  rw [Kernel.runNextReady_eq, Kernel.lists, listsOf_ready _ _ k.readyQueue]
  exact hx.setProcs (fun hmem => hx .readyQueue (List.mem_of_mem_tail hmem))

/-- WAITIO, for a known device. -/
theorem waitDev_agrees
    (h : l.Represents k) (hok : k.Ok) (command devReg : Word) (d : Dev) (tod : Word) :
    Agree Represents (l.waitDev i command devReg d tod)
      (.ok (k.waitDev i command devReg d tod)) := by
  obtain ⟨l₁, hnext, hl₁⟩ := runNextReady_represents h
  have htarget := unthreaded_runNextReady (h.running hok)
  have hl₂ := addCmdSem_represents (i := i) hl₁ d (-1)
  have hvalue : l₁.wForCmdSem = k.runNextReady.wForCmdSem := by
    obtain ⟨next, prev, rfl, -⟩ := hl₁
    rfl
  rw [hvalue] at hl₂
  simp only [waitDev, popRunning, hnext, ok_bind, pure_eq_ok, h.runningProc_eq, hvalue,
    Kernel.waitDev, Kernel.popRunning]
  by_cases hneg : Function.update k.runNextReady.wForCmdSem d
      (i.add (k.runNextReady.wForCmdSem d) (-1)) d < 0
  · obtain ⟨l₃, hinsert, hl₃⟩ :=
      insertBlocked_represents hl₂ (p := k.runningProc) htarget (.dev d)
    simp only [hneg, if_true, hinsert, ok_bind]
    exact Agree.ok (flushKernelTime_represents (addCmdSem_represents hl₃ d 1) tod k.runningProc)
  · obtain ⟨l₃, hinsert, hl₃⟩ :=
      insertBlockedFifo_represents hl₂ (p := k.runningProc) htarget (.dev d)
    have hl₄ := sendCommand_represents hl₃ d.type command devReg (some k.runningProc)
    simp only [hneg, if_false, hinsert, ok_bind]
    exact Agree.ok
      (flushKernelTime_represents (register_represents hl₄ d k.runningProc) tod k.runningProc)

/-- WAITIO. -/
theorem waitIo_agrees
    (h : l.Represents k) (hok : k.Ok) (command devReg subdev tod : Word) :
    Agree Represents (l.waitIo i command devReg subdev tod)
      (k.waitIo i command devReg subdev tod) := by
  delta waitIo Kernel.waitIo
  cases devCell (getExtDevType (A.getDevLine devReg) subdev) (A.getDevInstance devReg) with
  | none =>
      exact Agree.error _
  | some d =>
      exact waitDev_agrees h hok command devReg d tod

/-- The first half of `done_io`. -/
theorem respond_represents
    (h : l.Represents k) (hx : k.lists.Unthreaded x)
    (hrun : k.lists.Unthreaded k.runningProc) (status : Word) :
    ∃ l', l.respond x status = .ok l' ∧ l'.Represents (k.respond x status) := by
  have hl₁ : LinkedKernel.Represents { l with devWList := Function.update l.devWList x none }
      { k with devWList := Function.update k.devWList x none } := by
    obtain ⟨next, prev, rfl, hlinks⟩ := h
    exact ⟨next, prev, rfl, hlinks⟩
  obtain ⟨l₂, hsched, hl₂⟩ := scheduleProc_represents hl₁ (x := x) hx (fun _ => hrun)
  refine ⟨_, ?_, setRet_represents hl₂ x status⟩
  simp only [respond, hsched, ok_bind, pure_eq_ok]

/-- The second half of `done_io`. -/
theorem nextCommand_represents (h : l.Represents k) (d : Dev) (next : Option Proc) :
    (l.nextCommand i d next).Represents (k.nextCommand i d next) := by
  obtain ⟨_, _, rfl, hlinks⟩ := h
  cases next <;> exact ⟨_, _, rfl, hlinks⟩

/-- What `done_io` does once the first process has left the queue. -/
theorem sendNext_agrees (h : l.Represents k) (d : Dev) :
    Agree Represents
      (do
        let next ← l.toMemory.headBlocked listFuel (.dev d)
        return l.nextCommand i d next)
      (.ok (k.nextCommand i d (k.headBlocked (.dev d)))) := by
  simp only [headBlocked_represents h, ok_bind, pure_eq_ok]
  exact Agree.ok (nextCommand_represents h d _)

/-- The completion of a device operation. -/
theorem doneIo_agrees (h : l.Represents k) (hok : k.Ok) (d : Dev) (status : Word) :
    Agree Represents (l.doneIo i d status) (.ok (k.doneIo i d status)) := by
  have hres : l.wForRes = k.wForRes := by
    obtain ⟨next, prev, rfl, -⟩ := h
    rfl
  simp only [doneIo, Kernel.doneIo, hres]
  cases hr : k.wForRes d with
  | none =>
      refine Agree.ok ?_
      obtain ⟨next, prev, rfl, hlinks⟩ := h
      exact ⟨next, prev, rfl, hlinks⟩
  | some res =>
      obtain ⟨l₁, hremove, hl₁⟩ := removeBlocked_represents h (.dev d)
      simp only [hremove, ok_bind]
      by_cases hdone : (k.removeBlocked (.dev d)).1 = some res
      · -- the registered process is the one taken out of the queue
        simp only [hdone, if_true]
        cases hq : k.waitQueue (.dev d) with
        | nil =>
            rw [Kernel.removeBlocked_nil hok.residence.aslOk hq] at hdone
            exact absurd hdone (by simp)
        | cons x q =>
            obtain ⟨asl, hrem, hOk, hwait⟩ := Kernel.removeBlocked_cons hok.residence.aslOk hq
            obtain ⟨hok₁, habsent, -, -⟩ := hok.unblock hOk hq hwait
            rw [hrem] at hdone hl₁ ⊢
            obtain rfl : x = res := Option.some.inj hdone
            obtain ⟨l₂, hresp, hl₂⟩ :=
              respond_represents hl₁ (hl₁.unthreaded hOk habsent) (hl₁.running hok₁) status
            simp only [hresp, ok_bind]
            exact sendNext_agrees hl₂ d
      · simp only [hdone, if_false]
        exact sendNext_agrees hl₁ d

end Devices

section Creation

/-- CREATEPROCESS: the same PCB is taken, and the same value is returned. -/
theorem createProcess_agrees
    (h : l.Represents k) (hok : k.Ok) (s : State A) (priority : Int) :
    Agree (fun a b => a.1 = b.1 ∧ a.2.Represents b.2) (l.createProcess s priority)
      (k.createProcess s priority) := by
  cases hfree : k.pcbFreeH with
  | nil =>
      rw [Kernel.createProcess_nil hfree]
      simp only [createProcess, allocPcb_represents_nil h hfree, ok_bind, pure_eq_ok]
      exact Agree.ok ⟨rfl, h⟩
  | cons x free =>
      have hxfree : x ∈ k.pcbFreeH := hfree ▸ List.mem_cons_self
      have hleaf : k.pChild x = [] := hok.tree.freeChildless x hxfree
      have hroot : ∀ a, x ∉ k.pChild a := fun a ha => (hok.tree.childParent a x ha).2 hxfree
      have hne : x ≠ k.runningProc := by
        rintro rfl
        exact hok.running_not_free hxfree
      obtain ⟨l₁, halloc, hl₁, hx⟩ := allocPcb_represents h hfree hleaf hroot
      have hchild : Function.update k.pChild x [] = k.pChild := by
        rw [← hleaf]
        exact Function.update_eq_self x k.pChild
      have hl₂ := setState_represents hl₁ x s priority
      simp only [Kernel.allocPcb, hfree, hchild, Function.update_idem] at hl₂
      obtain ⟨m, k₃, hinsert, hk₃, hsame, hl₃⟩ :=
        insertChild_represents (p := x) (q := k.runningProc) hl₂ hroot (by
          intro hbelow
          rcases (below_iff x k.runningProc).mp hbelow with heq | ⟨c, hc, -⟩
          · exact hne heq.symm
          · rw [hleaf] at hc
            exact absurd hc List.not_mem_nil)
      have hlists : k₃.lists = listsOf k.asl free k.readyQueue ∧
          k₃.runningProc = k.runningProc := by
        rw [hsame]
        exact ⟨rfl, rfl⟩
      have hrun : k₃.lists.Unthreaded k₃.runningProc := by
        rw [hlists.1, hlists.2, listsOf_free k.asl k.pcbFreeH]
        refine (h.running hok).setProcs (fun hmem => hok.running_not_free ?_)
        rw [hfree]
        exact List.mem_cons_of_mem x hmem
      obtain ⟨l₄, hsched, hl₄⟩ :=
        scheduleProc_represents hl₃ (x := x) (hlists.1 ▸ hx) (fun _ => hrun)
      have hrun₁ : l₁.runningProc = k.runningProc := by
        rw [hl₁.runningProc_eq, Kernel.allocPcb, hfree]
      rw [← hrun₁] at hinsert
      simp only [createProcess, halloc, hinsert, hsched, ok_bind, pure_eq_ok,
        Kernel.createProcess, Kernel.allocPcb, hfree, hchild, Function.update_idem, hk₃]
      exact Agree.ok ⟨rfl, hl₄⟩

end Creation

end LinkedKernel

end Bikaya
