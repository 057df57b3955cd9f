import Bikaya.Core.Links
import Bikaya.Core.Operations

/-!
# Bikaya: the kernel on its links

The functions of `scheduler.c` and `interrupts.c` once more, as they run: the free list,
the ready queue, the semaphore list and the process tree are the embedded links of the
PCBs and of the descriptors, and the queues are walked and rewritten through them.

A queue has at most `MAXPROC + 1` elements, which bounds the loops over the queues.
-/

namespace Bikaya

/-- The storage of the kernel apart from the links. -/
structure Fields (A : Arch) where
  -- `pcb_t`
  pS : Proc → State A
  originalPriority : Proc → Int
  devWList : Proc → Option Dev
  kernelTimer : Proc → Word
  userTimer : Proc → Word
  todCache : Proc → Word
  todAtStart : Proc → Word
  specAreas : Proc → Fin 6 → Word
  -- `scheduler.c`
  runningProc : Proc
  wForCmdSem : Dev → Int
  wForRes : Dev → Option Proc
  sem : SemAddr → Int
  bus : List BusWrite
  okbuf : List String

/-- The storage of the kernel. -/
structure LinkedKernel (A : Arch) extends Memory Proc Semd SemKey, Fields A

/-- A bound on the rounds of a loop over a list of processes or of descriptors. -/
abbrev listFuel : Nat := MAXPROC + 2

/-- `semd_table`. -/
def semdTable : List Semd :=
  List.finRange MAXPROC

/-- `pcbFree_table`. -/
def pcbFreeTable : List Proc :=
  (List.finRange MAXPROC).map .pcb

namespace LinkedKernel

variable {A : Arch}

/-- The links are replaced. -/
def withLinks (l : LinkedKernel A) (m : Memory Proc Semd SemKey) : LinkedKernel A :=
  { l with toMemory := m }

/-- The storage before initialization, all fields 0 or NULL. -/
def bss (sem : SemAddr → Int) : LinkedKernel A where
  next := fun _ => none
  prev := fun _ => none
  pParent := fun _ => none
  priority := fun _ => 0
  pSemkey := fun _ => none
  sKey := fun _ => none
  pS := fun _ => State.reset
  originalPriority := fun _ => 0
  devWList := fun _ => none
  kernelTimer := fun _ => 0
  userTimer := fun _ => 0
  todCache := fun _ => 0
  todAtStart := fun _ => 0
  specAreas := fun _ _ => 0
  runningProc := .idle
  wForCmdSem := fun _ => 0
  wForRes := fun _ => none
  sem := sem
  bus := []
  okbuf := []

/-! ## `scheduler.c` -/

/-- `allocPcb`, with the fields that are not links. -/
def allocPcb (l : LinkedKernel A) : Except Halt (Option Proc × LinkedKernel A) := do
  match ← l.toMemory.allocPcb with
  | (none, m) => return (none, l.withLinks m)
  | (some p, m) =>
      return (some p,
        { l.withLinks m with
          originalPriority := Function.update l.originalPriority p 0
          kernelTimer := Function.update l.kernelTimer p 0
          userTimer := Function.update l.userTimer p 0
          todCache := Function.update l.todCache p 0
          todAtStart := Function.update l.todAtStart p 0
          pS := Function.update l.pS p State.reset
          specAreas := Function.update l.specAreas p (fun _ => 0) })

/-- `flush_kernel_time`. -/
def flushKernelTime (l : LinkedKernel A) (tod : Word) (proc : Proc) : LinkedKernel A :=
  { l with
    kernelTimer := Function.update l.kernelTimer proc
      (l.kernelTimer proc + (tod - l.todCache proc))
    todCache := Function.update l.todCache proc tod }

/-- `populate_pcb`. -/
def populatePcb (l : LinkedKernel A) (p : Proc) (data : ProcInitData) : LinkedKernel A :=
  let s := A.setPc (l.pS p) data.method
  let s := A.setSp s (A.ramTop - A.frameSize * BitVec.ofNat 32 (p.index + 1))
  let s := A.setIntervalTimerInterrupts s data.timerIntOn
  let s := A.setOtherInterrupts s data.otherIntsOn
  { l with
    pS := Function.update l.pS p (A.populateMode s data)
    priority := Function.update l.priority p data.priority
    originalPriority := Function.update l.originalPriority p data.priority }

/-- `insertProcQ(&ready_queue, p)`. -/
def insertReady (l : LinkedKernel A) (p : Proc) : Except Halt (LinkedKernel A) := do
  let m ← l.toMemory.insertProcQ listFuel .readyQueue p
  return l.withLinks m

/-- `removeProcQ(&ready_queue)`. -/
def removeReady (l : LinkedKernel A) : Except Halt (Option Proc × LinkedKernel A) := do
  let (p, m) ← l.toMemory.removeProcQ .readyQueue
  return (p, l.withLinks m)

/-- `outProcQ(&ready_queue, p)`. -/
def outReady (l : LinkedKernel A) (p : Proc) : Except Halt (Option Proc × LinkedKernel A) := do
  let (r, m) ← l.toMemory.outProcQ listFuel .readyQueue p
  return (r, l.withLinks m)

/-- `stop_running_proc`. -/
def stopRunningProc (l : LinkedKernel A) : Except Halt (LinkedKernel A) :=
  if l.runningProc ≠ .idle then
    { l with
      priority := Function.update l.priority l.runningProc
        (l.originalPriority l.runningProc) }.insertReady l.runningProc
  else .ok l

/-- `set_running_proc`: NULL stands for the idle process. -/
def setRunningProc (l : LinkedKernel A) : Option Proc → LinkedKernel A
  | some p => { l with runningProc := p }
  | none => { l with runningProc := .idle }

/-- `set_running_proc(removeProcQ(&ready_queue))`. -/
def runNextReady (l : LinkedKernel A) : Except Halt (LinkedKernel A) := do
  let (p, l) ← l.removeReady
  return l.setRunningProc p

/-- `pop_running`: returns the process that was running. -/
def popRunning (l : LinkedKernel A) : Except Halt (Proc × LinkedKernel A) := do
  let prevRunning := l.runningProc
  let l ← l.runNextReady
  return (prevRunning, l)

/-- `schedule_proc`. -/
def scheduleProc (l : LinkedKernel A) (p : Proc) : Except Halt (LinkedKernel A) :=
  if l.priority p > l.priority l.runningProc ∨ l.runningProc = .idle then do
    let l ← l.stopRunningProc
    return l.setRunningProc (some p)
  else l.insertReady p

/-- `get_free_pcb_else_panic`, then `populate_pcb` and `insertProcQ`. -/
def addStartingProc (l : LinkedKernel A) (data : ProcInitData) : Except Halt (LinkedKernel A) := do
  match ← l.allocPcb with
  | (none, _) =>
      .error (.panic "ERROR: The maximum number of processes has been reached!")
  | (some p, l) => (l.populatePcb p data).insertReady p

/-- `init_scheduler`. -/
def initScheduler (l : LinkedKernel A) (startingProcs : List ProcInitData) :
    Except Halt (LinkedKernel A) := do
  let m ← l.toMemory.initPcbs pcbFreeTable
  let m ← m.initASL semdTable
  let l ← startingProcs.foldlM addStartingProc (l.withLinks (m.mkEmptyProcQ .readyQueue))
  let l := { l with pS := Function.update l.pS .idle State.reset }
  let l := l.populatePcb .idle (Kernel.idleProcData A)
  return { l with wForCmdSem := fun _ => 1, wForRes := fun _ => none }

/-- `launch`, up to the load of the state of the running process. -/
def launch (l : LinkedKernel A) (tod : Word × Word) : Except Halt (LinkedKernel A) :=
  if ¬ l.emptyProcQ .readyQueue then do
    let (p, l) ← l.removeReady
    let l := l.setRunningProc p
    return { l with
      todAtStart := Function.update l.todAtStart l.runningProc tod.1
      todCache := Function.update l.todCache l.runningProc tod.2 }
  else
    .error (.panic "Impossible to launch the system, no processes in the ready queue")

/-- `create_process`: the new process is a child of the running one. -/
def createProcess (l : LinkedKernel A) (s : State A) (priority : Int) :
    Except Halt (Kernel.Created × LinkedKernel A) := do
  match ← l.allocPcb with
  | (none, l) => return (⟨-1, none⟩, l)
  | (some p, l) =>
      let l :=
        { l with
          pS := Function.update l.pS p s
          priority := Function.update l.priority p priority
          originalPriority := Function.update l.originalPriority p priority }
      let m ← l.toMemory.insertChild (some l.runningProc) (some p)
      let l ← (l.withLinks m).scheduleProc p
      return (⟨0, some p⟩, l)

/-- The unlinking step of `recursive_remove_proc`. -/
def unlinkProc (l : LinkedKernel A) (p : Proc) : Except Halt (Option Proc × LinkedKernel A) :=
  match l.pSemkey p with
  | some _ => do
      let (r, m) ← l.toMemory.outBlocked listFuel p
      return (r, l.withLinks m)
  | none =>
      match l.devWList p with
      | some d => .ok (some p, { l with wForRes := Function.update l.wForRes d none })
      | none => l.outReady p

mutual

/-- `recursive_remove_proc`, with a budget for the depth of the recursion. -/
def recursiveRemoveProc : Nat → LinkedKernel A → Proc → Except Halt (Int × LinkedKernel A)
  | 0, _, _ => .error .fuel
  | n + 1, l, p => do
      match ← l.unlinkProc p with
      | (none, _) =>
          .error (.panic
            "Error during recursive process removal, the given process isn't on the ready queue or in a semaphore queue.")
      | (some toBeFreed, l) =>
          let m ← l.toMemory.freePcb toBeFreed
          removeChildren n (l.withLinks m) p

/-- The loop of `recursive_remove_proc` over the children of `p`. -/
def removeChildren : Nat → LinkedKernel A → Proc → Except Halt (Int × LinkedKernel A)
  | 0, _, _ => .error .fuel
  | n + 1, l, p => do
      match ← l.toMemory.removeChild p with
      | (none, m) => return (0, l.withLinks m)
      | (some targetChild, m) =>
          let (ret, l) ← recursiveRemoveProc n (l.withLinks m) targetChild
          if ret ≠ 0 then return (-1, l)
          else removeChildren n l p

end

/-- `terminate_proc`; `none` is the argument NULL. -/
def terminateProc (l : LinkedKernel A) (p : Option Proc) : Except Halt (Int × LinkedKernel A) := do
  let p := p.getD l.runningProc
  let l ←
    if (l.pParent p).isSome then (l.toMemory.outChild p).map (fun r => l.withLinks r.2)
    else .ok l
  let l ← l.insertReady l.runningProc
  let (ret, l) ← recursiveRemoveProc Kernel.removalFuel l p
  match ← l.outReady l.runningProc with
  | (some _, l) => return (ret, l)
  | (none, l) =>
      let l ← l.runNextReady
      return (ret, l)

/-- `(*semaddr)++` and `(*semaddr)--`. -/
def addSem (i : IntModel) (l : LinkedKernel A) (semaddr : SemAddr) (n : Int) : LinkedKernel A :=
  { l with sem := Function.update l.sem semaddr (i.add (l.sem semaddr) n) }

/-- `insertBlocked(key, p)`. -/
def insertBlocked (l : LinkedKernel A) (key : SemKey) (p : Proc) :
    Except Halt (Bool × LinkedKernel A) := do
  let (full, m) ← l.toMemory.insertBlocked listFuel key p
  return (full, l.withLinks m)

/-- `insertBlockedFifo(key, p)`. -/
def insertBlockedFifo (l : LinkedKernel A) (key : SemKey) (p : Proc) :
    Except Halt (Bool × LinkedKernel A) := do
  let (full, m) ← l.toMemory.insertBlockedFifo listFuel key p
  return (full, l.withLinks m)

/-- `removeBlocked(key)`. -/
def removeBlocked (l : LinkedKernel A) (key : SemKey) :
    Except Halt (Option Proc × LinkedKernel A) := do
  let (p, m) ← l.toMemory.removeBlocked listFuel key
  return (p, l.withLinks m)

/-- `p`: the P operation of the running process. -/
def p (i : IntModel) (l : LinkedKernel A) (semaddr : SemAddr) (tod : Word) :
    Except Halt (LinkedKernel A) :=
  let l := l.addSem i semaddr (-1)
  if l.sem semaddr < 0 then do
    let l := l.flushKernelTime tod l.runningProc
    match ← l.insertBlocked (.user semaddr) l.runningProc with
    | (true, _) => .error (.panic "No free SEMDs")
    | (false, l) =>
        let l ← l.runNextReady
        return l.addSem i semaddr 1
  else .ok l

/-- `list_for_each_entry(.., head, p_next)`, each visit of a process ageing it. -/
def raiseFrom (i : IntModel) (head : Link Proc Semd) :
    Nat → LinkedKernel A → Link Proc Semd → Except Halt (LinkedKernel A)
  | 0, _, _ => .error .fuel
  | fuel + 1, l, target => do
      if target = head then return l
      else
        let targetProc ← Link.containerPNext (some target)
        let l :=
          { l with
            priority := Function.update l.priority targetProc
              (i.add (l.priority targetProc) PRIORITY_INC_PER_TIME_SLICE) }
        let target ← deref (l.next target)
        raiseFrom i head fuel l target

/-- The ageing of the processes of a queue. -/
def raisePriorities (i : IntModel) (l : LinkedKernel A) (head : Link Proc Semd) :
    Except Halt (LinkedKernel A) := do
  let target ← deref (l.next head)
  raiseFrom i head listFuel l target

/-- The loop of `v`: the processes left on the semaphore, if any, are aged. -/
def ageBlocked (i : IntModel) (l : LinkedKernel A) (key : SemKey) :
    Except Halt (LinkedKernel A) := do
  match ← l.toMemory.getSemd listFuel (some key) with
  | none => return l
  | some s => l.raisePriorities i (.sProcQ s)

/-- `v`: the V operation. -/
def v (i : IntModel) (l : LinkedKernel A) (semaddr : SemAddr) : Except Halt (LinkedKernel A) := do
  let l := l.addSem i semaddr 1
  match ← l.removeBlocked (.user semaddr) with
  | (none, l) => return l
  | (some dequeued, l) =>
      let l :=
        { l with
          priority := Function.update l.priority dequeued (l.originalPriority dequeued) }
      let l ← l.ageBlocked i (.user semaddr)
      let l ← l.scheduleProc dequeued
      return l.addSem i semaddr (-1)

/-- `time_slice_callback`. -/
def timeSliceCallback (i : IntModel) (l : LinkedKernel A) : Except Halt (LinkedKernel A) := do
  let l ← l.raisePriorities i .readyQueue
  match ← l.toMemory.headProcQ .readyQueue with
  | none => return l
  | some head =>
      if l.priority l.runningProc ≤ l.priority head then
        let (toStart, l) ← l.removeReady
        let l ← l.stopRunningProc
        return l.setRunningProc toStart
      else return l

/-! ## `interrupts.c` -/

/-- `send_command`; the last argument is the proof-only owner of the command. -/
def sendCommand (l : LinkedKernel A) (type : ExtDevType) (command devReg : Word)
    (owner : Option Proc) : LinkedKernel A :=
  { l with bus := l.bus ++ [⟨type, devReg, command, owner⟩] }

/-- `wait_io`, once the cell of `dev_w_lists` is known. -/
def waitDev (i : IntModel) (l : LinkedKernel A) (command devReg : Word) (d : Dev) (tod : Word) :
    Except Halt (LinkedKernel A) := do
  let (target, l) ← l.popRunning
  let l :=
    { l with wForCmdSem := Function.update l.wForCmdSem d (i.add (l.wForCmdSem d) (-1)) }
  if (l.wForCmdSem d : Int) < 0 then
    let (_, l) ← l.insertBlocked (.dev d) target
    let l :=
      { l with wForCmdSem := Function.update l.wForCmdSem d (i.add (l.wForCmdSem d) 1) }
    return l.flushKernelTime tod target
  else
    let (_, l) ← l.insertBlockedFifo (.dev d) target
    let l := l.sendCommand d.type command devReg (some target)
    let l :=
      { l with
        wForRes := Function.update l.wForRes d (some target)
        devWList := Function.update l.devWList target (some d) }
    return l.flushKernelTime tod target

/-- `wait_io`: the cell is computed from the device register and the sub-device. -/
def waitIo (i : IntModel) (l : LinkedKernel A) (command devReg subdev : Word) (tod : Word) :
    Except Halt (LinkedKernel A) :=
  match devCell (getExtDevType (A.getDevLine devReg) subdev) (A.getDevInstance devReg) with
  | none => .error .fault
  | some d => l.waitDev i command devReg d tod

/-- The first half of `done_io`: `done` is scheduled, and gets its status. -/
def respond (l : LinkedKernel A) (done : Proc) (status : Word) : Except Halt (LinkedKernel A) := do
  let l := { l with devWList := Function.update l.devWList done none }
  let l ← l.scheduleProc done
  return { l with pS := Function.update l.pS done ((l.pS done).setRet status) }

/-- The second half of `done_io`: the command of the next process, or an acknowledgement. -/
def nextCommand (i : IntModel) (l : LinkedKernel A) (d : Dev) (next : Option Proc) :
    LinkedKernel A :=
  match next with
  | some next =>
      let l := l.sendCommand d.type (l.pS next A.arg1) (A.devReg d) (some next)
      { l with
        wForRes := Function.update l.wForRes d (some next)
        devWList := Function.update l.devWList next (some d) }
  | none =>
      let l := l.sendCommand d.type DEVICE_CMD_ACK (A.devReg d) none
      { l with
        wForRes := Function.update l.wForRes d none
        wForCmdSem := Function.update l.wForCmdSem d (i.add (l.wForCmdSem d) 1) }

/-- `done_io`; `status` is what `get_status` reads from the device. -/
def doneIo (i : IntModel) (l : LinkedKernel A) (d : Dev) (status : Word) :
    Except Halt (LinkedKernel A) :=
  match l.wForRes d with
  | none => .ok { l with okbuf := l.okbuf ++ [Kernel.unexpectedInterrupt] }
  | some res => do
      let (done, l) ← l.removeBlocked (.dev d)
      let l ← if done = some res then l.respond res status else .ok l
      let next ← l.toMemory.headBlocked listFuel (.dev d)
      return l.nextCommand i d next

/-- One operation. -/
def exec (i : IntModel) (l : LinkedKernel A) : Operation A → Except Halt (LinkedKernel A)
  | .createProcess s priority => (l.createProcess s priority).map Prod.snd
  | .terminateProcess p => (l.terminateProc p).map Prod.snd
  | .passeren semaddr tod => l.p i semaddr tod
  | .verhogen semaddr => l.v i semaddr
  | .waitIo command devReg subdev tod => l.waitIo i command devReg subdev tod
  | .doneIo d status => l.doneIo i d status
  | .timeSlice => l.timeSliceCallback i
  | .write a value => .ok { l with sem := Function.update l.sem a value }

/-- `init_scheduler` followed by `launch`. -/
def boot (sem : SemAddr → Int) (startingProcs : List ProcInitData) (tod : Word × Word) :
    Except Halt (LinkedKernel A) := do
  let l ← (bss sem).initScheduler startingProcs
  l.launch tod

end LinkedKernel

end Bikaya
