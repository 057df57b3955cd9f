import Bikaya.Core.Entries
import Bikaya.Core.LinkedKernel

/-!
# Bikaya: the exception handlers on the links

The functions of `interrupts.c`, `syscalls.c`, `handler.c` and `bikaya.c` once more, over
the kernel on its links.

The text of the handlers is the same, branch by branch; only the calls go to the functions
of `LinkedKernel.lean`, which can fault.  The interrupt scan is therefore a loop of
computations that may fail, and a fault ends the machine with its reason.  Nothing in
these definitions refers to the lists of the other kernel.
-/

namespace Bikaya

/-- The state after a syscall: the kernel, the old area and the reply. -/
structure LinkedServed (A : Arch) where
  kernel : LinkedKernel A
  state : State A
  reply : Reply

namespace LinkedKernel

variable {A : Arch}

/-! ## `interrupts.c` -/

/-- The interrupt of the interval timer. -/
def consumeTimer (i : IntModel) (irq : Irq) (l : LinkedKernel A) :
    Except Halt (LinkedKernel A) :=
  if irq.pending IL_TIMER then l.timeSliceCallback i else .ok l

/-- The scan of one line of devices that are not terminals. -/
def consumeLine (i : IntModel) (irq : Irq) (l : LinkedKernel A) (line : Nat) :
    Except Halt (LinkedKernel A) :=
  if irq.pending line then
    match Kernel.lineType line with
    | none => .ok l
    | some t =>
        (Kernel.pendingDevs (irq.bitmap line)).foldlM
          (fun l n => l.doneIo i ⟨t, n⟩ (irq.status ⟨t, n⟩)) l
  else .ok l

/-- `done_io` for one terminal sub-device, if its status says it is done. -/
def consumeSubdev (i : IntModel) (irq : Irq) (l : LinkedKernel A) (d : Dev) :
    Except Halt (LinkedKernel A) :=
  if irq.status d &&& DEV_STATUS_MASK = TERM_ST_DONE then l.doneIo i d (irq.status d)
  else .ok l

/-- The two sub-devices of one terminal. -/
def consumeTerminal (i : IntModel) (irq : Irq) (l : LinkedKernel A) (n : Fin 8) :
    Except Halt (LinkedKernel A) := do
  let l ← l.consumeSubdev i irq ⟨.TERM_RX, n⟩
  l.consumeSubdev i irq ⟨.TERM_TX, n⟩

/-- `consume_interrupts`, after the program counter adjustment. -/
def consumeInterrupts (i : IntModel) (irq : Irq) (l : LinkedKernel A) :
    Except Halt (LinkedKernel A) := do
  let l ← l.consumeTimer i irq
  let l ← [3, 4, 5, 6].foldlM (consumeLine i irq) l
  if irq.pending IL_TERMINAL then
    (Kernel.pendingDevs (irq.bitmap IL_TERMINAL)).foldlM (consumeTerminal i irq) l
  else .ok l

/-! ## `syscalls.c` -/

/-- The SPECPASSUP case of `consume_syscall`. -/
def specPassup (l : LinkedKernel A) (arg1 arg2 arg3 : Word) : Except Halt (LinkedKernel A) := do
  let current := l.runningProc
  let old ← specIndex (specTypeCode arg1 * 2 + OLD)
  let new ← specIndex (specTypeCode arg1 * 2 + NEW)
  if l.specAreas current new = 0 ∧ l.specAreas current old = 0 then
    .ok
      { l with
        specAreas := Function.update l.specAreas current
          (Function.update (Function.update (l.specAreas current) old arg2) new arg3) }
  else
    (l.terminateProc (some current)).map Prod.snd

/-- `consume_syscall`; `st` is the state in the old area. -/
def consumeSyscall (i : IntModel) (l : LinkedKernel A) (st : State A) (interrupted : Proc)
    (stateAt : Word → State A) (tod : Word) : Except Halt (LinkedServed A) :=
  let arg1 := st A.arg1
  let arg2 := st A.arg2
  let arg3 := st A.arg3
  match (st A.sysN).toNat with
  | 1 => -- GETCPUTIME
      .ok ⟨l, st, .cpuTime (l.userTimer interrupted)
        (l.kernelTimer interrupted + (tod - l.todCache interrupted))
        (tod - l.todAtStart interrupted)⟩
  | 2 => do -- CREATEPROCESS
      let (created, l) ← l.createProcess (stateAt arg1) arg2.toInt
      .ok ⟨l, st.setRet (BitVec.ofInt 32 created.ret),
        .created (if arg3 = 0 then none else created.cpid)⟩
  | 3 => do -- TERMINATEPROCESS
      let target ← A.procArg arg1
      let (ret, l) ← l.terminateProc target
      .ok ⟨l, st.setRet (BitVec.ofInt 32 ret), .none⟩
  | 4 => do -- VERHOGEN
      let semaddr ← semArg arg1
      let l ← l.v i semaddr
      .ok ⟨l, st, .none⟩
  | 5 => do -- PASSEREN
      let semaddr ← semArg arg1
      let l ← l.p i semaddr tod
      .ok ⟨l, st, .none⟩
  | 6 => do -- WAITIO
      let l ← l.waitIo i arg1 arg2 arg3 tod
      .ok ⟨l, st, .none⟩
  | 7 => do -- SPECPASSUP
      let l ← l.specPassup arg1 arg2 arg3
      .ok ⟨l, st, .none⟩
  | 8 => -- GETPID
      .ok ⟨l, st, .pids (if arg1 = 0 then none else some l.runningProc)
        (if arg2 = 0 then none else some (l.pParent l.runningProc))⟩
  | _ => .error (.panic "ERROR: Syscall not recognised. Did you mean syscall number 42?")

/-! ## `handler.c` -/

/-- `flush_user_time`. -/
def flushUserTime (l : LinkedKernel A) (tod : Word) (proc : Proc) : LinkedKernel A :=
  { l with
    userTimer := Function.update l.userTimer proc
      (l.userTimer proc + (tod - l.todCache proc))
    todCache := Function.update l.todCache proc tod }

/-- `flush_reset_time`. -/
def flushResetTime (l : LinkedKernel A) (tod : Word) (proc : Proc) : LinkedKernel A :=
  { l with todCache := Function.update l.todCache proc tod }

/-- `get_passup_area`: an entry of `spec_areas`. -/
def getPassupArea (l : LinkedKernel A) (age : Word) (t : ExcType) (p : Proc) : Word :=
  match specIndex (BitVec.ofNat 32 (t.toNat * 2) + age) with
  | .ok i => l.specAreas p i
  | .error _ => 0

/-- `is_passup_set`. -/
def isPassupSet (l : LinkedKernel A) (t : ExcType) (p : Proc) : Bool :=
  l.getPassupArea NEW t p ≠ 0 && l.getPassupArea OLD t p ≠ 0

end LinkedKernel

/-- The kernel on its links with the static storage of `handler.c` and the hardware. -/
structure LinkedMachine (A : Arch) where
  kernel : LinkedKernel A
  interruptedProc : Proc
  intTimerCache : Word
  /-- The interval timer register, as last written. -/
  intervalTimer : Word
  clockTicksPerTimeSlice : Word
  /-- The old areas. -/
  oldArea : ExcType → State A

namespace LinkedMachine

variable {A : Arch}

/-- `bikaya_launch`: initialization, then the load of the first process. -/
def bikayaLaunch (sem : SemAddr → Int) (startingProcs : List ProcInitData)
    (clockTicks : Word) (tod : Word × Word) (areas : ExcType → State A) :
    Except Halt (LinkedMachine A × Resumed A) := do
  let l ← (LinkedKernel.bss sem).initScheduler startingProcs
  let l ← l.launch tod
  .ok (⟨l, .idle, 0, clockTicks, clockTicks, areas⟩,
    .proc l.runningProc (l.pS l.runningProc))

/-- `start_handler`. -/
def startHandler (N : LinkedMachine A) (timer tod : Word) : LinkedMachine A :=
  { N with
    intTimerCache :=
      if timer > N.clockTicksPerTimeSlice then N.clockTicksPerTimeSlice else timer
    interruptedProc := N.kernel.runningProc
    kernel := N.kernel.flushUserTime tod N.kernel.runningProc }

/-- `conclude_handler`. -/
def concludeHandler (N : LinkedMachine A) (t : ExcType) (tod : Word) :
    LinkedMachine A × Resumed A :=
  let resuming := N.kernel.runningProc
  if N.interruptedProc ≠ resuming then
    let l := N.kernel.flushResetTime tod resuming
    let l :=
      if N.interruptedProc ≠ .idle then
        { l with pS := Function.update l.pS N.interruptedProc (N.oldArea t) }
      else l
    ({ N with kernel := l, intervalTimer := N.clockTicksPerTimeSlice },
      .proc resuming (l.pS resuming))
  else
    ({ N with
        intervalTimer := N.intTimerCache
        kernel := N.kernel.flushKernelTime tod N.interruptedProc },
      .proc resuming (N.oldArea t))

/-- `launch_spec_area`. -/
def launchSpecArea (N : LinkedMachine A) (t : ExcType) : LinkedMachine A × Resumed A :=
  (N, .passup (N.kernel.getPassupArea OLD t N.kernel.runningProc)
    (N.kernel.getPassupArea NEW t N.kernel.runningProc) (N.oldArea t))

/-- The content of one old area is replaced. -/
def setArea (N : LinkedMachine A) (t : ExcType) (s : State A) : LinkedMachine A :=
  { N with oldArea := Function.update N.oldArea t s }

/-- `handle_interrupt`, after `start_handler`. -/
def handleInterrupt (i : IntModel) (N : LinkedMachine A) (e : Exception A) :
    Except Halt (LinkedMachine A × Resumed A) := do
  let N := N.setArea .INT (N.oldArea .INT).afterInterrupt
  let l ← N.kernel.consumeInterrupts i e.irq
  .ok ({ N with kernel := l }.concludeHandler .INT e.todEnd)

/-- `handle_sysbreak`, after `start_handler`. -/
def handleSysbreak (i : IntModel) (N : LinkedMachine A) (e : Exception A) :
    Except Halt (LinkedMachine A × Reply × Resumed A) :=
  let N := N.setArea .SYS (N.oldArea .SYS).afterSysbreak
  let st := N.oldArea .SYS
  match A.getExccode st with
  | .E_SYS =>
      if (st A.sysN).toNat > SYSTEM_SYSCALL_MAX then
        if N.kernel.isPassupSet .SYS N.interruptedProc then
          let l := N.kernel.flushKernelTime e.todMid N.interruptedProc
          let (N, r) := { N with kernel := l }.launchSpecArea .SYS
          .ok (N, .none, r)
        else do
          let (_, l) ← N.kernel.terminateProc (some N.interruptedProc)
          let (N, r) := { N with kernel := l }.concludeHandler .SYS e.todEnd
          .ok (N, .none, r)
      else do
        let served ← N.kernel.consumeSyscall i st N.interruptedProc e.stateAt e.todMid
        let N := { N with kernel := served.kernel }.setArea .SYS served.state
        let (N, r) := N.concludeHandler .SYS e.todEnd
        .ok (N, served.reply, r)
  | .E_BP =>
      if N.kernel.isPassupSet .SYS N.interruptedProc then
        let (N, r) := N.launchSpecArea .SYS
        .ok (N, .none, r)
      else
        .error (.panic "ERROR: BreakPoint launched, handler still not implemented!")
  | .E_OTHER => .error (.panic "Exc cause code not recognised")

/-- `handle_TLB` and `handle_trap`, after `start_handler`. -/
def handleFault (N : LinkedMachine A) (t : ExcType) (e : Exception A) :
    Except Halt (LinkedMachine A × Resumed A) :=
  if N.kernel.isPassupSet t N.kernel.runningProc then .ok (N.launchSpecArea t)
  else do
    let (_, l) ← N.kernel.terminateProc (some N.kernel.runningProc)
    .ok ({ N with kernel := l }.concludeHandler t e.todEnd)

/-- `handle_TLB`. -/
def handleTLB (N : LinkedMachine A) (e : Exception A) :
    Except Halt (LinkedMachine A × Resumed A) :=
  N.handleFault .TLB e

/-- `handle_trap`. -/
def handleTrap (N : LinkedMachine A) (e : Exception A) :
    Except Halt (LinkedMachine A × Resumed A) :=
  N.handleFault .PRG e

/-- One exception: the old area is stored and the handler of its type runs. -/
def handle (i : IntModel) (N : LinkedMachine A) (e : Exception A) :
    Except Halt (LinkedMachine A × Reply × Resumed A) :=
  let N := (N.setArea e.type e.state).startHandler e.timer e.todStart
  match e.type with
  | .SYS => N.handleSysbreak i e
  | .PRG => (N.handleTrap e).map (fun r => (r.1, .none, r.2))
  | .TLB => (N.handleTLB e).map (fun r => (r.1, .none, r.2))
  | .INT => (N.handleInterrupt i e).map (fun r => (r.1, .none, r.2))

/-- The integers of the semaphores, after the execution of user code. -/
def userWrites (N : LinkedMachine A) (memory : SemAddr → Int) : LinkedMachine A :=
  { N with kernel := { N.kernel with sem := memory } }

/-- User code runs, an exception is raised, and its handler runs. -/
def enter (i : IntModel) (N : LinkedMachine A) (e : Entry A) :
    Except Halt (LinkedMachine A × Reply × Resumed A) :=
  (N.userWrites e.memory).handle i e.toException

end LinkedMachine

end Bikaya
