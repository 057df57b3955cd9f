import Bikaya.Core.Operations
import Bikaya.Proofs.RunningProcess

/-!
# Bikaya: the effects of the operations

One theorem for each operation of the kernel.  It says everything the operation can do, as
an update of the kernel followed by a routine that changes who runs.  The later invariants
are derived from these theorems and never unfold the code.

**Results.**
* `createProcess_nil`, `createProcess_cons`: a creation without and with a free PCB.
* `p_spec`, `v_spec`: the semaphore operations, with the queue of the semaphore before and
  after them.
* `timeSlice_spec`: the end of a time slice.
* `waitDev_spec`: a command is sent, or its process waits.
* `doneIo_none`, `doneIo_nil`, `doneIo_cons`: a completion with nobody registered, with an
  empty queue, and with a first process that is the registered one or not.

The effect of a termination needs the invariants of the tree and of the lists; it is in
`Termination.lean`.
-/

namespace Bikaya

namespace Kernel

variable {A : Arch} {k : Kernel A}

section Creation

/-- The new process `x` with state `s`, a child of the running process. -/
def adopt (k : Kernel A) (x : Proc) (free : List Proc) (s : State A) (priority : Int) :
    Kernel A :=
  { k with
    pcbFreeH := free
    pParent := Function.update k.pParent x (some k.runningProc)
    pChild := Function.update (Function.update k.pChild x []) k.runningProc
      (k.pChild k.runningProc ++ [x])
    pS := Function.update k.pS x s
    priority := Function.update k.priority x priority
    originalPriority := Function.update k.originalPriority x priority
    pSemkey := Function.update k.pSemkey x none
    kernelTimer := Function.update k.kernelTimer x 0
    userTimer := Function.update k.userTimer x 0
    todCache := Function.update k.todCache x 0
    todAtStart := Function.update k.todAtStart x 0
    specAreas := Function.update k.specAreas x (fun _ => 0) }

/-- Without a free PCB nothing happens. -/
theorem createProcess_nil
    (hfree : k.pcbFreeH = []) (s : State A) (priority : Int) :
    k.createProcess s priority = .ok (⟨-1, none⟩, k) := by
  simp [createProcess, allocPcb, hfree]

/-- With a free PCB the new process is adopted and scheduled. -/
theorem createProcess_cons
    {x : Proc} {free : List Proc} (hfree : k.pcbFreeH = x :: free)
    (hne : x ≠ k.runningProc) (s : State A) (priority : Int) :
    k.createProcess s priority =
      .ok (⟨0, some x⟩, (k.adopt x free s priority).scheduleProc x) := by
  have hrun : Function.update k.pChild x [] k.runningProc = k.pChild k.runningProc :=
    Function.update_of_ne (Ne.symm hne) _ _
  have hinsert : ∀ k₁ : Kernel A, k₁.pChild x = [] →
      k₁.insertChild (some k.runningProc) (some x) =
        .ok { k₁ with
          pParent := Function.update k₁.pParent x (some k.runningProc)
          pChild := Function.update k₁.pChild k.runningProc
            (k₁.pChild k.runningProc ++ [x]) } := by
    intro k₁ hx
    by_cases hempty : (k₁.pChild k.runningProc).isEmpty
    · simp [insertChild, emptyChild, List.isEmpty_iff.mp hempty]
    · have hkeep : Function.update
          (Function.update k₁.pChild k.runningProc (k₁.pChild k.runningProc ++ [x])) x [] =
          Function.update k₁.pChild k.runningProc (k₁.pChild k.runningProc ++ [x]) := by
        conv_rhs => rw [← Function.update_eq_self x (Function.update k₁.pChild k.runningProc _)]
        rw [Function.update_of_ne hne, hx]
      simp only [insertChild, emptyChild, hempty, if_false, Bool.false_eq_true, hkeep]
  simp only [createProcess, allocPcb, hfree]
  rw [hinsert _ (Function.update_self _ _ _)]
  simp only [hrun, Function.update_idem]
  rfl

end Creation

section Semaphores

variable (m : IntModel) (a : SemAddr)

theorem p_blocked
    {tod : Word} {k₁ : Kernel A} (hneg : (k.addSem m a (-1)).sem a < 0)
    (hins : ((k.addSem m a (-1)).flushKernelTime tod k.runningProc).insertBlocked (.user a)
      k.runningProc = (false, k₁)) :
    k.p m a tod = .ok (k₁.runNextReady.addSem m a 1) := by
  have hins' : ((k.addSem m a (-1)).flushKernelTime tod
      (k.addSem m a (-1)).runningProc).insertBlocked (.user a)
      ((k.addSem m a (-1)).flushKernelTime tod (k.addSem m a (-1)).runningProc).runningProc =
        (false, k₁) := hins
  simp only [p, hneg, if_true, hins']

/-- P: the semaphore is granted, or the running process waits on it. -/
theorem p_spec
    (h : k.Ok) (hidle : k.runningProc ≠ .idle) (tod : Word) :
    (¬ m.add (k.sem a) (-1) < 0 ∧
      k.p m a tod =
        .ok { k with sem := Function.update k.sem a (m.add (k.sem a) (-1)) }) ∨
    (m.add (k.sem a) (-1) < 0 ∧ ∃ asl : Asl,
      k.p m a tod = .ok
        { k with
          sem := Function.update k.sem a (m.add (m.add (k.sem a) (-1)) 1)
          asl := asl
          pSemkey := Function.update k.pSemkey k.runningProc (some (.user a))
          kernelTimer := Function.update k.kernelTimer k.runningProc
            (k.kernelTimer k.runningProc + (tod - k.todCache k.runningProc))
          todCache := Function.update k.todCache k.runningProc tod }.runNextReady ∧
      asl.Ok ∧
      asl.waitQueue = Function.update k.waitQueue (.user a)
        (insertProcQ k.priority (k.waitQueue (.user a)) k.runningProc)) := by
  by_cases hneg : m.add (k.sem a) (-1) < 0
  · refine Or.inr ⟨hneg, ?_⟩
    obtain ⟨asl, hins, hOk, hwait⟩ := insertBlocked_spec
      (k := (k.addSem m a (-1)).flushKernelTime tod k.runningProc)
      h.residence.aslOk (.user a) k.runningProc (h.room hidle _)
    refine ⟨asl, ?_, hOk, hwait⟩
    have hsem : (k.addSem m a (-1)).sem a < 0 := by
      simpa [addSem] using hneg
    rw [p_blocked m a hsem hins]
    simp only [addSem, flushKernelTime, runNextReady_eq, Function.update_self,
      Function.update_idem]
  · refine Or.inl ⟨hneg, ?_⟩
    simp [p, addSem, hneg]

/-- The scheduler does not read the integers of the semaphores. -/
theorem scheduleProc_addSem (x : Proc) (n : Int) :
    (k.scheduleProc x).addSem m a n = (k.addSem m a n).scheduleProc x := by
  unfold scheduleProc stopRunningProc setRunningProc addSem
  simp only
  split_ifs <;> rfl

/-- V: the integer grows, or the first waiting process is woken and the others age. -/
theorem v_spec
    (h : k.asl.Ok) :
    (k.waitQueue (.user a) = [] ∧
      k.v m a = { k with sem := Function.update k.sem a (m.add (k.sem a) 1) }) ∨
    (∃ x q, ∃ asl : Asl,
      k.waitQueue (.user a) = x :: q ∧
      k.v m a =
        { k with
          sem := Function.update k.sem a (m.add (m.add (k.sem a) 1) (-1))
          asl := asl
          pSemkey := Function.update k.pSemkey x none
          priority := raisePriorities m
            (Function.update k.priority x (k.originalPriority x)) q }.scheduleProc x ∧
      asl.Ok ∧
      asl.waitQueue = Function.update k.waitQueue (.user a) q) := by
  cases hq : k.waitQueue (.user a) with
  | nil =>
      refine Or.inl ⟨rfl, ?_⟩
      have := removeBlocked_nil (k := k.addSem m a 1) h hq
      simp only [v, this]
      rfl
  | cons x q =>
      refine Or.inr ⟨x, q, ?_⟩
      obtain ⟨asl, hrem, hOk, hwait⟩ := removeBlocked_cons (k := k.addSem m a 1) h hq
      have hrest : asl.waitQueue (.user a) = q := by
        rw [hwait]
        exact Function.update_self _ _ _
      refine ⟨asl, rfl, ?_, hOk, hwait⟩
      simp only [v, hrem, ageBlocked_eq, scheduleProc_addSem]
      simp only [waitQueue, hrest, addSem, Function.update_self, Function.update_idem]

/-- The end of a time slice: the ready processes age, and the first one may run. -/
theorem timeSlice_spec :
    (k.timeSliceCallback m =
        { k with
          slices := k.slices + 1
          priority := raisePriorities m k.priority k.readyQueue } ∧
      ∀ x ∈ k.readyQueue.head?,
        raisePriorities m k.priority k.readyQueue x <
          raisePriorities m k.priority k.readyQueue k.runningProc) ∨
    (∃ x q,
      k.readyQueue = x :: q ∧
      raisePriorities m k.priority k.readyQueue k.runningProc ≤
        raisePriorities m k.priority k.readyQueue x ∧
      k.timeSliceCallback m =
        { k with
          slices := k.slices + 1
          priority := raisePriorities m k.priority k.readyQueue
          readyQueue := q }.preempt x) := by
  cases hq : k.readyQueue with
  | nil =>
      exact Or.inl ⟨by simp [timeSliceCallback, headProcQ, hq], by simp⟩
  | cons x q =>
      by_cases hle : raisePriorities m k.priority (x :: q) k.runningProc ≤
          raisePriorities m k.priority (x :: q) x
      · refine Or.inr ⟨x, q, rfl, hle, ?_⟩
        simp only [timeSliceCallback, headProcQ, hq, List.head?_cons, hle, if_true,
          removeProcQ_cons]
        rfl
      · refine Or.inl ⟨?_, by simpa using not_le.mp hle⟩
        simp only [timeSliceCallback, headProcQ, hq, List.head?_cons, hle, if_false]

end Semaphores

section Devices

variable (m : IntModel) (d : Dev)

/-- A WAITIO that returns has found the cell of its device. -/
theorem exec_waitIo
    {m : IntModel} {command devReg subdev tod : Word} {k' : Kernel A}
    (h : k.exec m (.waitIo command devReg subdev tod) = .ok k') :
    ∃ d, devCell (getExtDevType (A.getDevLine devReg) subdev) (A.getDevInstance devReg) = some d ∧
      k' = k.waitDev m command devReg d tod := by
  have h : k.waitIo m command devReg subdev tod = .ok k' := h
  delta waitIo at h
  cases hcell : devCell (getExtDevType (A.getDevLine devReg) subdev) (A.getDevInstance devReg) with
  | none =>
      rw [hcell] at h
      exact absurd h (by simp)
  | some d =>
      rw [hcell] at h
      exact ⟨d, rfl, (Except.ok.inj h).symm⟩

/-- WAITIO: the running process waits for its turn, or sends its command and waits. -/
theorem waitDev_spec
    (h : k.Ok) (hidle : k.runningProc ≠ .idle) (command devReg tod : Word) :
    (m.add (k.wForCmdSem d) (-1) < 0 ∧ ∃ asl : Asl,
      k.waitDev m command devReg d tod =
        { k with
          wForCmdSem := Function.update k.wForCmdSem d
            (m.add (m.add (k.wForCmdSem d) (-1)) 1)
          asl := asl
          pSemkey := Function.update k.pSemkey k.runningProc (some (.dev d))
          kernelTimer := Function.update k.kernelTimer k.runningProc
            (k.kernelTimer k.runningProc + (tod - k.todCache k.runningProc))
          todCache := Function.update k.todCache k.runningProc tod }.runNextReady ∧
      asl.Ok ∧
      asl.waitQueue = Function.update k.waitQueue (.dev d)
        (insertProcQ k.priority (k.waitQueue (.dev d)) k.runningProc)) ∨
    (¬ m.add (k.wForCmdSem d) (-1) < 0 ∧ ∃ asl : Asl,
      k.waitDev m command devReg d tod =
        { k with
          wForCmdSem := Function.update k.wForCmdSem d (m.add (k.wForCmdSem d) (-1))
          asl := asl
          pSemkey := Function.update k.pSemkey k.runningProc (some (.dev d))
          bus := k.bus ++ [(⟨d.type, devReg, command, some k.runningProc⟩ : BusWrite)]
          wForRes := Function.update k.wForRes d (some k.runningProc)
          devWList := Function.update k.devWList k.runningProc (some d)
          kernelTimer := Function.update k.kernelTimer k.runningProc
            (k.kernelTimer k.runningProc + (tod - k.todCache k.runningProc))
          todCache := Function.update k.todCache k.runningProc tod }.runNextReady ∧
      asl.Ok ∧
      asl.waitQueue = Function.update k.waitQueue (.dev d)
        (k.waitQueue (.dev d) ++ [k.runningProc])) := by
  set k₁ : Kernel A :=
    { k.popRunning.2 with
      wForCmdSem := Function.update k.wForCmdSem d (m.add (k.wForCmdSem d) (-1)) } with hk₁
  have hroom : k₁.waitQueue (.dev d) ≠ [] ∨ k₁.asl.semdFreeH ≠ [] := by
    rw [hk₁]
    simp only [popRunning, runNextReady_eq]
    exact h.room hidle _
  have hOk : k₁.asl.Ok := by
    rw [hk₁]
    simp only [popRunning, runNextReady_eq]
    exact h.residence.aslOk
  have hunfold : k.waitDev m command devReg d tod =
      (if k₁.wForCmdSem d < 0 then
        let k := (k₁.insertBlocked (.dev d) k.runningProc).2
        { k with
          wForCmdSem := Function.update k.wForCmdSem d (m.add (k.wForCmdSem d) 1) }
      else
        let k' := (k₁.insertBlockedFifo (.dev d) k.runningProc).2
        let k' := k'.sendCommand d.type command devReg (some k.runningProc)
        { k' with
          wForRes := Function.update k'.wForRes d (some k.runningProc)
          devWList := Function.update k'.devWList k.runningProc (some d)
          }).flushKernelTime tod k.runningProc := by
    rw [hk₁]
    simp only [waitDev, popRunning, runNextReady_eq]
  by_cases hneg : m.add (k.wForCmdSem d) (-1) < 0
  · refine Or.inl ⟨hneg, ?_⟩
    obtain ⟨asl, hins, hOk', hwait⟩ := insertBlocked_spec hOk (.dev d) k.runningProc hroom
    refine ⟨asl, ?_, hOk', ?_⟩
    · have hsem : (k₁.wForCmdSem d < 0) := by
        rw [hk₁]
        simpa using hneg
      rw [hunfold, if_pos hsem, hins, hk₁]
      simp only [popRunning, runNextReady_eq, flushKernelTime, Function.update_self,
        Function.update_idem]
    · rw [hwait, hk₁]
      simp only [popRunning, runNextReady_eq]
      rfl
  · refine Or.inr ⟨hneg, ?_⟩
    obtain ⟨asl, hins, hOk', hwait⟩ := insertBlockedFifo_spec hOk (.dev d) k.runningProc hroom
    refine ⟨asl, ?_, hOk', ?_⟩
    · have hsem : ¬ (k₁.wForCmdSem d < 0) := by
        rw [hk₁]
        simpa using hneg
      rw [hunfold, if_neg hsem, hins, hk₁]
      simp only [popRunning, runNextReady_eq, flushKernelTime, sendCommand]
    · rw [hwait, hk₁]
      simp only [popRunning, runNextReady_eq]
      rfl

/-- Without a registered process a completion leaves a message only. -/
theorem doneIo_none
    (hres : k.wForRes d = none) (status : Word) :
    k.doneIo m d status = { k with okbuf := k.okbuf ++ [unexpectedInterrupt] } := by
  simp only [doneIo, hres]

/-- A registered process, but nobody waits any more: the device is released. -/
theorem doneIo_nil
    (h : k.asl.Ok) {r : Proc} (hres : k.wForRes d = some r)
    (hq : k.waitQueue (.dev d) = []) (status : Word) :
    k.doneIo m d status = k.nextCommand m d none := by
  simp [doneIo, hres, removeBlocked_nil h hq, headBlocked_eq, hq]

/--
A registered process, and a process at the head of the queue, which leaves it: if
the two are the same then the process is scheduled with the status.  Then the
command of the next process is sent.
-/
theorem doneIo_cons
    (h : k.asl.Ok) {r x : Proc} {q : List Proc} (hres : k.wForRes d = some r)
    (hq : k.waitQueue (.dev d) = x :: q) (status : Word) :
    ∃ asl : Asl,
      k.doneIo m d status =
        (if x = r then
          { k with asl := asl, pSemkey := Function.update k.pSemkey x none }.respond r status
        else
          { k with asl := asl, pSemkey := Function.update k.pSemkey x none }).nextCommand m d
            q.head? ∧
      asl.Ok ∧
      asl.waitQueue = Function.update k.waitQueue (.dev d) q := by
  obtain ⟨asl, hrem, hOk, hwait⟩ := removeBlocked_cons h hq
  refine ⟨asl, ?_, hOk, hwait⟩
  have hrest : asl.waitQueue (.dev d) = q := by
    rw [hwait]
    exact Function.update_self _ _ _
  have hasl : ∀ k₁ : Kernel A, (k₁.scheduleProc r).asl = k₁.asl := by
    intro k₁
    rcases scheduleProc_cases k₁ r with ⟨-, heq⟩ | ⟨-, -, heq⟩ <;> rw [heq]
    unfold preempt stopRunningProc setRunningProc
    split_ifs <;> rfl
  by_cases hx : x = r
  · subst hx
    simp only [doneIo, hres, hrem, respond, headBlocked_eq, waitQueue, if_true, hasl, hrest]
  · have hx' : (some x : Option Proc) ≠ some r := fun h => hx (Option.some.inj h)
    simp only [doneIo, hres, hrem, headBlocked_eq, waitQueue, hx', hx, if_false, hrest]

end Devices

end Kernel

end Bikaya
