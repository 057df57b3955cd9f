import Bikaya.Core.Entries
import Bikaya.Core.Memory

/-!
# Bikaya: the exception handlers on the memory

The functions that work on a `state_t`, once more, over the bytes of the memory: the boot,
the creation of a process, the completion of a device operation, and the handlers with
their system calls.  The queues, the tree and the timers are those of the kernel's data;
the processor states of the PCBs and of the old areas lie in memory, and so does
everything that user code hands over or gets back by a pointer, except for the integers
of its semaphores.

The functions take a `Linkage`, so that they hold for every placement of the PCBs.
-/

namespace Bikaya

open Mps

namespace Mps

/-- The address of `p->p_s`, behind the links. -/
def Linkage.pcbState (L : Linkage) (p : Proc) : Word :=
  L.pcbAddr p + 28

/-- The states that the kernel keeps: those of the PCBs and the old areas. -/
def Linkage.kernelStates (L : Linkage) : List Word :=
  Proc.all.map L.pcbState ++ [ExcType.SYS, .PRG, .TLB, .INT].map (area OLD)

/-- The address belongs to a state of the kernel. -/
def Linkage.InKernel (L : Linkage) (x : Word) : Prop :=
  ∃ s ∈ L.kernelStates, ByteMemory.InRange s 140 x

instance (L : Linkage) (x : Word) : Decidable (L.InKernel x) :=
  inferInstanceAs (Decidable (∃ _ ∈ _, _))

/-- The fields of a `state_t`. -/
def allRegs : List Reg :=
  [.entry_hi, .cause, .status, .pc_epc, .hi, .lo] ++ (List.finRange 29).map .gpr

variable (order : ByteOrder)

/-- The hardware stores all the registers at an address. -/
def storeState (mem : Ram) (s : Word) (st : MpsState) : Ram :=
  allRegs.foldl (fun mem r => storeReg order mem s r (st r)) mem

/-- Assignment to a word that a pointer leads to. -/
def storeWord (mem : Ram) (a w : Word) : Ram :=
  order.store mem a w

/-- The address of a `pcb_t`, or NULL. -/
def Linkage.pcbPointer (L : Linkage) (p : Option Proc) : Word :=
  p.elim 0 L.pcbAddr

/-- What a system call writes through its arguments. -/
def storeReply (L : Linkage) (mem : Ram) (arg1 arg2 arg3 : Word) : Reply → Ram
  | .none => mem
  | .cpuTime user kernel wallclock =>
      let mem := storeWord order mem arg1 user
      let mem := storeWord order mem arg2 kernel
      storeWord order mem arg3 wallclock
  | .created none => mem
  | .created (some p) => storeWord order mem arg3 (L.pcbAddr p)
  | .pids pid ppid =>
      let mem :=
        match pid with
        | none => mem
        | some p => storeWord order mem arg1 (L.pcbAddr p)
      match ppid with
      | none => mem
      | some parent => storeWord order mem arg2 (L.pcbPointer parent)

/-- The part of `populate_pcb` that is about the previous-mode bits. -/
def populateModeAt (mem : Ram) (s : Word) (data : ProcInitData) : Ram :=
  let mem := setVirtualMemAt order mem s 0
  let mem :=
    if data.kmOn = 0 then
      storeReg order mem s .status (loadState order mem s .status ||| STATUS_KUp)
    else mem
  let mem :=
    if data.vmOn ≠ 0 then
      storeReg order mem s .status (loadState order mem s .status ||| STATUS_VMp)
    else mem
  if data.timerIntOn ≠ 0 ∨ data.otherIntsOn ≠ 0 then
    storeReg order mem s .status (loadState order mem s .status ||| STATUS_IEp)
  else mem

/-- The part of `populate_pcb` that is about the processor state. -/
def populateStateAt (L : Linkage) (mem : Ram) (p : Proc) (data : ProcInitData) : Ram :=
  let mem := setPcAt order mem (L.pcbState p) data.method
  let mem := setSpAt order mem (L.pcbState p)
    (L.ramTop - L.arch.frameSize * BitVec.ofNat 32 (p.index + 1))
  let mem := setIntervalTimerInterruptsAt order mem (L.pcbState p) data.timerIntOn
  let mem := setOtherInterruptsAt order mem (L.pcbState p) data.otherIntsOn
  populateModeAt order mem (L.pcbState p) data

end Mps

/-- The machine with its memory; its processor states are those that lie there. -/
structure MemoryMachine (L : Linkage) (order : ByteOrder) where
  machine : Machine L.arch
  mem : Ram
  pS_eq : machine.kernel.pS = fun p => loadState order mem (L.pcbState p)
  oldArea_eq : machine.oldArea = fun t => loadState order mem (area OLD t)

/-- An entry into the kernel, with the memory that user code leaves. -/
structure MemoryEntry (L : Linkage) (order : ByteOrder) extends Entry L.arch where
  user : Ram
  stateAt_eq : stateAt = fun a => loadState order user a

namespace MemoryMachine

/-- A machine whose processor states are read from a memory. -/
def reading {L : Linkage} (order : ByteOrder) (M : Machine L.arch) (mem : Ram) :
    MemoryMachine L order where
  machine :=
    { M with
      kernel := { M.kernel with pS := fun p => loadState order mem (L.pcbState p) }
      oldArea := fun t => loadState order mem (area OLD t) }
  mem := mem
  pS_eq := rfl
  oldArea_eq := rfl

variable {L : Linkage} {order : ByteOrder}

/-- Code that writes to no processor state. -/
def onMachine (X : MemoryMachine L order) (f : Machine L.arch → Machine L.arch) :
    MemoryMachine L order :=
  reading order (f X.machine) X.mem

/-- The same, for code that works on the kernel's data. -/
def onKernel (X : MemoryMachine L order) (f : Kernel L.arch → Kernel L.arch) :
    MemoryMachine L order :=
  X.onMachine (fun M => { M with kernel := f M.kernel })

/-- The memory is written to. -/
def withMem (X : MemoryMachine L order) (mem : Ram) : MemoryMachine L order :=
  reading order X.machine mem

/-! ## `pcb.c` and `scheduler.c` -/

/-- `allocPcb`; the state is cleared by `reset_state`. -/
def allocPcb (X : MemoryMachine L order) : Option Proc × MemoryMachine L order :=
  match X.machine.kernel.allocPcb with
  | (none, _) => (none, X)
  | (some p, k) =>
      (some p, (X.onKernel (fun _ => k)).withMem (resetStateAt order X.mem (L.pcbState p)))

/-- `populate_pcb`. -/
def populatePcb (X : MemoryMachine L order) (p : Proc) (data : ProcInitData) :
    MemoryMachine L order :=
  (X.withMem (populateStateAt order L X.mem p data)).onKernel (fun k =>
    { k with
      priority := Function.update k.priority p data.priority
      originalPriority := Function.update k.originalPriority p data.priority })

/-- `get_free_pcb_else_panic`, then `populate_pcb` and `insertProcQ`. -/
def addStartingProc (X : MemoryMachine L order) (data : ProcInitData) :
    Except Halt (MemoryMachine L order) :=
  match X.allocPcb with
  | (none, _) =>
      .error (.panic "ERROR: The maximum number of processes has been reached!")
  | (some p, X) =>
      .ok ((X.populatePcb p data).onKernel (fun k =>
        { k with readyQueue := insertProcQ k.priority k.readyQueue p }))

/-- `init_scheduler`. -/
def initScheduler (X : MemoryMachine L order) (startingProcs : List ProcInitData) :
    Except Halt (MemoryMachine L order) := do
  let X := X.onKernel Kernel.initPcbs
  let X := X.onKernel (fun k => { k with asl := k.asl.init, readyQueue := [] })
  let X ← startingProcs.foldlM addStartingProc X
  let X := X.withMem (resetStateAt order X.mem (L.pcbState .idle))
  let X := X.populatePcb .idle (Kernel.idleProcData L.arch)
  .ok (X.onKernel (fun k => { k with wForCmdSem := fun _ => 1, wForRes := fun _ => none }))

/-- `launch`; the result is the address given to `LDST`. -/
def launch (X : MemoryMachine L order) (tod : Word × Word) :
    Except Halt (MemoryMachine L order × Word) := do
  let k ← X.machine.kernel.launch tod
  .ok (X.onKernel (fun _ => k), L.pcbState k.runningProc)

/-- The static storage and the hardware before `bikaya_launch`. -/
def unlaunched (sem : SemAddr → Int) (clockTicks : Word) (areas : ExcType → State L.arch) :
    Machine L.arch :=
  ⟨Kernel.bss sem, .idle, 0, clockTicks, clockTicks, areas⟩

/-- `bikaya_launch`, for the addresses of the handlers. -/
def bikayaLaunch (L : Linkage) (order : ByteOrder) (sem : SemAddr → Int)
    (startingProcs : List ProcInitData) (clockTicks : Word) (tod : Word × Word)
    (handler : ExcType → Word) (mem : Ram) :
    Except Halt (MemoryMachine L order × Word) := do
  let mem := initializeNewAreas order L.ramTop mem handler
  let X := reading order (unlaunched sem clockTicks (fun _ => State.reset)) mem
  let X ← X.initScheduler startingProcs
  X.launch tod

/-- `create_process`; the child is written to `*cpid`. -/
def createProcess (X : MemoryMachine L order) (s : Word) (priority : Int) (cpid : Word) :
    Except Halt (Kernel.Created × MemoryMachine L order) :=
  match X.allocPcb with
  | (none, X) => .ok (⟨-1, none⟩, X)
  | (some p, X) => do
      let (_, mem) ← memcpy X.mem (L.pcbState p) s STATE_T_SIZE
      let X := (X.withMem mem).onKernel (fun k =>
        { k with
          priority := Function.update k.priority p priority
          originalPriority := Function.update k.originalPriority p priority })
      let k ← X.machine.kernel.insertChild (some X.machine.kernel.runningProc) (some p)
      let X := X.onKernel (fun _ => k)
      let X := if cpid ≠ 0 then X.withMem (storeWord order X.mem cpid (L.pcbAddr p)) else X
      .ok (⟨0, some p⟩, X.onKernel (fun k => k.scheduleProc p))

/-! ## `interrupts.c` -/

/-- The first half of `done_io`: `done` is scheduled, and gets its status. -/
def respond (X : MemoryMachine L order) (done : Proc) (status : Word) : MemoryMachine L order :=
  let X := X.onKernel (fun k => { k with devWList := Function.update k.devWList done none })
  let X := X.onKernel (fun k => k.scheduleProc done)
  X.withMem (storeReg order X.mem (L.pcbState done) (.gpr 1) status)

/-- `done_io`; `status` is what `get_status` reads from the device. -/
def doneIo (i : IntModel) (X : MemoryMachine L order) (d : Dev) (status : Word) :
    MemoryMachine L order :=
  match X.machine.kernel.wForRes d with
  | none => X.onKernel (fun k => { k with okbuf := k.okbuf ++ [Kernel.unexpectedInterrupt] })
  | some res =>
      let done := (X.machine.kernel.removeBlocked (.dev d)).1
      let X := X.onKernel (fun k => (k.removeBlocked (.dev d)).2)
      let X := if done = some res then X.respond res status else X
      X.onKernel (fun k => k.nextCommand i d (k.headBlocked (.dev d)))

/-- The scan of one line of devices that are not terminals. -/
def consumeLine (i : IntModel) (irq : Irq) (X : MemoryMachine L order) (line : Nat) :
    MemoryMachine L order :=
  if irq.pending line then
    match Kernel.lineType line with
    | none => X
    | some t =>
        (Kernel.pendingDevs (irq.bitmap line)).foldl
          (fun X n => X.doneIo i ⟨t, n⟩ (irq.status ⟨t, n⟩)) X
  else X

/-- `done_io` for one terminal sub-device, if its status says it is done. -/
def consumeSubdev (i : IntModel) (irq : Irq) (X : MemoryMachine L order) (d : Dev) :
    MemoryMachine L order :=
  if irq.status d &&& DEV_STATUS_MASK = TERM_ST_DONE then X.doneIo i d (irq.status d)
  else X

/-- `consume_interrupts`. -/
def consumeInterrupts (i : IntModel) (irq : Irq) (X : MemoryMachine L order) :
    MemoryMachine L order :=
  let X := if irq.pending IL_TIMER then X.onKernel (Kernel.timeSliceCallback i) else X
  let X := [3, 4, 5, 6].foldl (consumeLine i irq) X
  if irq.pending IL_TERMINAL then
    (Kernel.pendingDevs (irq.bitmap IL_TERMINAL)).foldl
      (fun X n => consumeSubdev i irq (consumeSubdev i irq X ⟨.TERM_RX, n⟩) ⟨.TERM_TX, n⟩) X
  else X

/-! ## `syscalls.c` -/

/-- Assignment to the return register in the old area of the system calls. -/
def setRet (X : MemoryMachine L order) (ret : Int) : MemoryMachine L order :=
  X.withMem (storeReg order X.mem (area OLD .SYS) (.gpr 1) (BitVec.ofInt 32 ret))

/--
`consume_syscall`.  CREATEPROCESS and TERMINATEPROCESS write to the old area; the other
system calls only work on the kernel's data, and on the words they are given pointers to.
-/
def consumeSyscall (i : IntModel) (X : MemoryMachine L order) (tod : Word) :
    Except Halt (MemoryMachine L order × Reply) :=
  let st := loadState order X.mem (area OLD .SYS)
  let arg1 := st (.gpr 4)
  let arg2 := st (.gpr 5)
  let arg3 := st (.gpr 6)
  match (st (.gpr 3)).toNat with
  | 2 => do
      let (created, X) ← X.createProcess arg1 arg2.toInt arg3
      .ok (X.setRet created.ret, .created (if arg3 = 0 then none else created.cpid))
  | 3 => do
      let target ← L.arch.procArg arg1
      let (ret, k) ← X.machine.kernel.terminateProc target
      .ok ((X.onKernel (fun _ => k)).setRet ret, .none)
  | _ => do
      let served ← X.machine.kernel.consumeSyscall i st X.machine.interruptedProc
        (loadState order X.mem) tod
      let X := X.onKernel (fun _ => served.kernel)
      .ok (X.withMem (storeReply order L X.mem arg1 arg2 arg3 served.reply), served.reply)

/-! ## `handler.c` -/

/-- `conclude_handler`; the result is the address given to `LDST`. -/
def concludeHandler (X : MemoryMachine L order) (t : ExcType) (tod : Word) :
    Except Halt (MemoryMachine L order × Word) :=
  let resuming := X.machine.kernel.runningProc
  let interrupted := X.machine.interruptedProc
  if interrupted ≠ resuming then
    let X := X.onKernel (fun k => k.flushResetTime tod resuming)
    let X := X.onMachine (fun M => { M with intervalTimer := M.clockTicksPerTimeSlice })
    if interrupted ≠ .idle then do
      let (_, mem) ← memcpy X.mem (L.pcbState interrupted) (area OLD t) STATE_T_SIZE
      .ok (X.withMem mem, L.pcbState resuming)
    else .ok (X, L.pcbState resuming)
  else
    let X := X.onMachine (fun M => { M with intervalTimer := M.intTimerCache })
    .ok (X.onKernel (fun k => k.flushKernelTime tod interrupted), area OLD t)

/-- `launch_spec_area`. -/
def launchSpecArea (X : MemoryMachine L order) (t : ExcType) :
    Except Halt (MemoryMachine L order × Word) := do
  let k := X.machine.kernel
  let (_, mem) ← memcpy X.mem (k.getPassupArea OLD t k.runningProc) (area OLD t) STATE_T_SIZE
  .ok (X.withMem mem, k.getPassupArea NEW t k.runningProc)

/-- `handle_sysbreak`, after `start_handler`. -/
def handleSysbreak (i : IntModel) (X : MemoryMachine L order) (e : Exception L.arch) :
    Except Halt (MemoryMachine L order × Reply × Word) :=
  let pc := loadState order X.mem (area OLD .SYS) .pc_epc
  let X := X.withMem (storeReg order X.mem (area OLD .SYS) .pc_epc (pc + WORD_SIZE))
  let st := loadState order X.mem (area OLD .SYS)
  match getExccode st with
  | .E_SYS =>
      if (st (.gpr 3)).toNat > SYSTEM_SYSCALL_MAX then
        if X.machine.kernel.isPassupSet .SYS X.machine.interruptedProc then do
          let X := X.onKernel (fun k => k.flushKernelTime e.todMid X.machine.interruptedProc)
          let (X, s) ← X.launchSpecArea .SYS
          .ok (X, .none, s)
        else do
          let (_, k) ← X.machine.kernel.terminateProc (some X.machine.interruptedProc)
          let (X, s) ← (X.onKernel (fun _ => k)).concludeHandler .SYS e.todEnd
          .ok (X, .none, s)
      else do
        let (X, reply) ← X.consumeSyscall i e.todMid
        let (X, s) ← X.concludeHandler .SYS e.todEnd
        .ok (X, reply, s)
  | .E_BP =>
      if X.machine.kernel.isPassupSet .SYS X.machine.interruptedProc then do
        let (X, s) ← X.launchSpecArea .SYS
        .ok (X, .none, s)
      else
        .error (.panic "ERROR: BreakPoint launched, handler still not implemented!")
  | .E_OTHER => .error (.panic "Exc cause code not recognised")

/-- `handle_interrupt`, after `start_handler`. -/
def handleInterrupt (i : IntModel) (X : MemoryMachine L order) (e : Exception L.arch) :
    Except Halt (MemoryMachine L order × Word) :=
  (X.consumeInterrupts i e.irq).concludeHandler .INT e.todEnd

/-- `handle_TLB` and `handle_trap`, after `start_handler`. -/
def handleFault (X : MemoryMachine L order) (t : ExcType) (e : Exception L.arch) :
    Except Halt (MemoryMachine L order × Word) :=
  let current := X.machine.kernel.runningProc
  if X.machine.kernel.isPassupSet t current then X.launchSpecArea t
  else do
    let (_, k) ← X.machine.kernel.terminateProc (some current)
    (X.onKernel (fun _ => k)).concludeHandler t e.todEnd

/-- One exception: the old area is stored and the handler of its type runs. -/
def handle (i : IntModel) (X : MemoryMachine L order) (e : Exception L.arch) :
    Except Halt (MemoryMachine L order × Reply × Word) :=
  let X := X.withMem (storeState order X.mem (area OLD e.type) e.state)
  let X := X.onMachine (fun M => M.startHandler e.timer e.todStart)
  match e.type with
  | .SYS => X.handleSysbreak i e
  | .PRG => (X.handleFault .PRG e).map (fun r => (r.1, .none, r.2))
  | .TLB => (X.handleFault .TLB e).map (fun r => (r.1, .none, r.2))
  | .INT => (X.handleInterrupt i e).map (fun r => (r.1, .none, r.2))

/-- User code runs, and leaves the memory that the kernel does not keep for itself. -/
def userRuns (X : MemoryMachine L order) (e : MemoryEntry L order) : MemoryMachine L order :=
  (X.onMachine (fun M => M.userWrites e.memory)).withMem
    (fun x => if L.InKernel x then X.mem x else e.user x)

/-- User code runs, an exception is raised, and its handler runs. -/
def enter (i : IntModel) (X : MemoryMachine L order) (e : MemoryEntry L order) :
    Except Halt (MemoryMachine L order × Reply × Word) :=
  (X.userRuns e).handle i e.toException

end MemoryMachine

end Bikaya
