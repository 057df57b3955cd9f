import Bikaya.Core.Asl

/-!
# Bikaya: the scheduler

The functions of `scheduler.c`: initialization, launch, the choice of the running
process, creation and termination of processes, the semaphore operations and the
time slice.

The time-of-day register is read at a few fixed places of a kernel entry; a
function that reads it takes the value read as the argument `tod`.

A termination is a recursion over the children that changes the tree while it runs; its
fuel is enough for every tree over the PCBs.  An
arithmetic operation on an `int` is that of the model (`IntModel`), with or without the
overflow of 32 bits.
-/

namespace Bikaya

/--
The loop that ages the processes of a queue: each visit of a process increments
its priority.
-/
def raisePriorities (m : IntModel) (priority : Proc → Int) (q : List Proc) : Proc → Int :=
  q.foldl
    (fun priority p =>
      Function.update priority p (m.add (priority p) PRIORITY_INC_PER_TIME_SLICE))
    priority

namespace Kernel

variable {A : Arch}

/-- `flush_user_time`. -/
def flushUserTime (k : Kernel A) (tod : Word) (proc : Proc) : Kernel A :=
  { k with
    userTimer := Function.update k.userTimer proc
      (k.userTimer proc + (tod - k.todCache proc))
    todCache := Function.update k.todCache proc tod }

/-- `flush_kernel_time`. -/
def flushKernelTime (k : Kernel A) (tod : Word) (proc : Proc) : Kernel A :=
  { k with
    kernelTimer := Function.update k.kernelTimer proc
      (k.kernelTimer proc + (tod - k.todCache proc))
    todCache := Function.update k.todCache proc tod }

/-- `flush_reset_time`. -/
def flushResetTime (k : Kernel A) (tod : Word) (proc : Proc) : Kernel A :=
  { k with todCache := Function.update k.todCache proc tod }

/-- `populate_pcb`. -/
def populatePcb (k : Kernel A) (p : Proc) (data : ProcInitData) : Kernel A :=
  let s := A.setPc (k.pS p) data.method
  let s := A.setSp s (A.ramTop - A.frameSize * BitVec.ofNat 32 (p.index + 1))
  let s := A.setIntervalTimerInterrupts s data.timerIntOn
  let s := A.setOtherInterrupts s data.otherIntsOn
  { k with
    pS := Function.update k.pS p (A.populateMode s data)
    priority := Function.update k.priority p data.priority
    originalPriority := Function.update k.originalPriority p data.priority }

/-- `stop_running_proc`: the running process goes back to the ready queue. -/
def stopRunningProc (k : Kernel A) : Kernel A :=
  if k.runningProc ≠ .idle then
    let priority :=
      Function.update k.priority k.runningProc (k.originalPriority k.runningProc)
    { k with
      priority := priority
      readyQueue := insertProcQ priority k.readyQueue k.runningProc }
  else k

/-- `set_running_proc`: NULL stands for the idle process. -/
def setRunningProc (k : Kernel A) : Option Proc → Kernel A
  | some p => { k with runningProc := p }
  | none => { k with runningProc := .idle }

/-- `set_running_proc(removeProcQ(&ready_queue))`. -/
def runNextReady (k : Kernel A) : Kernel A :=
  { k with readyQueue := (removeProcQ k.readyQueue).2 }.setRunningProc
    (removeProcQ k.readyQueue).1

/-- `pop_running`: returns the process that was running. -/
def popRunning (k : Kernel A) : Proc × Kernel A :=
  (k.runningProc, k.runNextReady)

/-- `schedule_proc`. -/
def scheduleProc (k : Kernel A) (p : Proc) : Kernel A :=
  if k.priority p > k.priority k.runningProc ∨ k.runningProc = .idle then
    k.stopRunningProc.setRunningProc (some p)
  else
    { k with readyQueue := insertProcQ k.priority k.readyQueue p }

/-- `get_free_pcb_else_panic`, then `populate_pcb` and `insertProcQ`. -/
def addStartingProc (k : Kernel A) (data : ProcInitData) : Except Halt (Kernel A) :=
  match k.allocPcb with
  | (none, _) =>
      .error (.panic "ERROR: The maximum number of processes has been reached!")
  | (some p, k) =>
      let k := k.populatePcb p data
      .ok { k with readyQueue := insertProcQ k.priority k.readyQueue p }

/-- The data the idle process is set up with. -/
def idleProcData (A : Arch) : ProcInitData :=
  { method := A.idleMethod, priority := 0, vmOn := 0, kmOn := 1, timerIntOn := 1,
    otherIntsOn := 1 }

/-- `init_scheduler`. -/
def initScheduler (k : Kernel A) (startingProcs : List ProcInitData) :
    Except Halt (Kernel A) := do
  let k := k.initPcbs
  let k := { k with asl := k.asl.init, readyQueue := [] }
  let k ← startingProcs.foldlM addStartingProc k
  let k := { k with pS := Function.update k.pS .idle State.reset }
  let k := k.populatePcb .idle (idleProcData A)
  .ok { k with wForCmdSem := fun _ => 1, wForRes := fun _ => none }

/--
`launch`, up to the load of the state of the running process.  It reads `TOD` twice, for
`tod_at_start` and for `tod_cache`.
-/
def launch (k : Kernel A) (tod : Word × Word) : Except Halt (Kernel A) :=
  match removeProcQ k.readyQueue with
  | (none, _) =>
      .error (.panic "Impossible to launch the system, no processes in the ready queue")
  | (some p, q) =>
      let k := { k with readyQueue := q }.setRunningProc (some p)
      .ok { k with
        todAtStart := Function.update k.todAtStart p tod.1
        todCache := Function.update k.todCache p tod.2 }

/-- What `create_process` returns: the status, and the child written to `*cpid`. -/
structure Created where
  ret : Int
  cpid : Option Proc

/--
`create_process`: the new process is a child of the running one.  The argument is the state
that the pointer `s` leads to.  A NULL pointer ends in the `PANIC()` of `memcpy` while a PCB is
free; `MemoryMachine.createProcess` has the pointer and the panic.
-/
def createProcess (k : Kernel A) (s : State A) (priority : Int) :
    Except Halt (Created × Kernel A) :=
  match k.allocPcb with
  | (none, k) => .ok (⟨-1, none⟩, k)
  | (some p, k) => do
      let k :=
        { k with
          pS := Function.update k.pS p s
          priority := Function.update k.priority p priority
          originalPriority := Function.update k.originalPriority p priority }
      let k ← k.insertChild (some k.runningProc) (some p)
      .ok (⟨0, some p⟩, k.scheduleProc p)

/--
The unlinking step of `recursive_remove_proc`: the process is looked for on the
semaphore it is blocked on, else in the device list it is registered with, else
in the ready queue.
-/
def unlinkProc (k : Kernel A) (p : Proc) : Option Proc × Kernel A :=
  match k.pSemkey p with
  | some _ => k.outBlocked p
  | none =>
      match k.devWList p with
      | some d => (some p, { k with wForRes := Function.update k.wForRes d none })
      | none =>
          ((outProcQ k.readyQueue p).1,
            { k with readyQueue := (outProcQ k.readyQueue p).2 })

mutual

/-- `recursive_remove_proc`, with a budget for the depth of the recursion. -/
def recursiveRemoveProc : Nat → Kernel A → Proc → Except Halt (Int × Kernel A)
  | 0, _, _ => .error .fuel
  | n + 1, k, p =>
      match k.unlinkProc p with
      | (none, _) =>
          .error (.panic
            "Error during recursive process removal, the given process isn't on the ready queue or in a semaphore queue.")
      | (some toBeFreed, k) => removeChildren n (k.freePcb toBeFreed) p

/-- The loop of `recursive_remove_proc` over the children of `p`. -/
def removeChildren : Nat → Kernel A → Proc → Except Halt (Int × Kernel A)
  | 0, _, _ => .error .fuel
  | n + 1, k, p =>
      match k.removeChild p with
      | (none, k) => .ok (0, k)
      | (some targetChild, k) =>
          match recursiveRemoveProc n k targetChild with
          | .error e => .error e
          | .ok (ret, k) =>
              if ret ≠ 0 then .ok (-1, k)
              else removeChildren n k p

end

/-- A budget that suffices for any forest over the `MAXPROC + 1` PCBs. -/
abbrev removalFuel : Nat := 2 * (MAXPROC + 1)

/-- `terminate_proc`; `none` is the argument NULL. -/
def terminateProc (k : Kernel A) (p : Option Proc) : Except Halt (Int × Kernel A) := do
  let p := p.getD k.runningProc
  let k ← if (k.pParent p).isSome then (k.outChild p).map Prod.snd else .ok k
  let k := { k with readyQueue := insertProcQ k.priority k.readyQueue k.runningProc }
  let (ret, k) ← recursiveRemoveProc removalFuel k p
  match outProcQ k.readyQueue k.runningProc with
  | (some _, q) => .ok (ret, { k with readyQueue := q })
  | (none, q) => .ok (ret, { k with readyQueue := q }.runNextReady)

/-- `(*semaddr)++` and `(*semaddr)--`. -/
def addSem (m : IntModel) (k : Kernel A) (semaddr : SemAddr) (n : Int) : Kernel A :=
  { k with sem := Function.update k.sem semaddr (m.add (k.sem semaddr) n) }

/-- `p`: the P operation of the running process. -/
def p (m : IntModel) (k : Kernel A) (semaddr : SemAddr) (tod : Word) :
    Except Halt (Kernel A) :=
  let k := k.addSem m semaddr (-1)
  if k.sem semaddr < 0 then
    let k := k.flushKernelTime tod k.runningProc
    match k.insertBlocked (.user semaddr) k.runningProc with
    | (true, _) => .error (.panic "No free SEMDs")
    | (false, k) => .ok (k.runNextReady.addSem m semaddr 1)
  else .ok k

/-- The loop of `v`: the processes left on the semaphore, if any, are aged. -/
def ageBlocked (m : IntModel) (k : Kernel A) (key : SemKey) : Kernel A :=
  match k.asl.getSemd (some key) with
  | none => k
  | some s => { k with priority := raisePriorities m k.priority (k.asl.sProcQ s) }

/-- `v`: the V operation. -/
def v (m : IntModel) (k : Kernel A) (semaddr : SemAddr) : Kernel A :=
  let k := k.addSem m semaddr 1
  match k.removeBlocked (.user semaddr) with
  | (none, k) => k
  | (some dequeued, k) =>
      let k :=
        { k with
          priority := Function.update k.priority dequeued (k.originalPriority dequeued) }
      let k := (k.ageBlocked m (.user semaddr)).scheduleProc dequeued
      k.addSem m semaddr (-1)

/-- `time_slice_callback`. -/
def timeSliceCallback (m : IntModel) (k : Kernel A) : Kernel A :=
  let k :=
    { k with
      slices := k.slices + 1
      priority := raisePriorities m k.priority k.readyQueue }
  match headProcQ k.readyQueue with
  | none => k
  | some head =>
      if k.priority k.runningProc ≤ k.priority head then
        { k with readyQueue := (removeProcQ k.readyQueue).2 }.stopRunningProc.setRunningProc
          (some head)
      else k

end Kernel

end Bikaya
