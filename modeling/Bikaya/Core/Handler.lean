import Bikaya.Core.Interrupts

/-!
# Bikaya: the exception handlers

The functions of `syscalls.c`, `handler.c` and `bikaya.c`.  An exception stores
the processor state in the old area of its type and runs one of the four
handlers; a handler ends with the load of a processor state.

A system call is served on the stored state, and the state that is loaded in the end is
part of the result, so that a run shows what user code can observe.  A panic is an error
of the computation, with the message of the source.
-/

namespace Bikaya

/-- What the environment supplies while one exception is raised and handled. -/
structure Exception (A : Arch) where
  type : ExcType
  /-- The processor state that the hardware stores in the old area. -/
  state : State A
  /-- The interval timer, as `start_handler` reads it. -/
  timer : Word
  /-- The time of day, as read at the start, inside and at the end of the handler. -/
  todStart : Word
  todMid : Word
  todEnd : Word
  irq : Irq
  /-- The `state_t` objects of user memory, by address. -/
  stateAt : Word → State A

/-- What a handler leaves running. -/
inductive Resumed (A : Arch) where
  /-- `LDST` of the state of a process. -/
  | proc (p : Proc) (s : State A)
  /-- The state `stored` is copied to the user's old area and the new area is loaded. -/
  | passup (oldArea newArea : Word) (stored : State A)

/-- What a syscall writes through the pointers it was given. -/
inductive Reply where
  | none
  | cpuTime (user kernel wallclock : Word)
  | created (cpid : Option Proc)
  | pids (pid : Option Proc) (ppid : Option (Option Proc))

/-- The state after a syscall: the kernel, the old area and the reply. -/
structure Served (A : Arch) where
  kernel : Kernel A
  state : State A
  reply : Reply

/-- An argument used as a `pcb_t*`. -/
def Arch.procArg (A : Arch) (a : Word) : Except Halt (Option Proc) :=
  if a = 0 then .ok none
  else
    match A.procAt a with
    | some p => .ok (some p)
    | none => .error .fault

/-- An argument used as an `int*` that is dereferenced. -/
def semArg (a : Word) : Except Halt SemAddr :=
  if h : a ≠ 0 then .ok ⟨a, h⟩ else .error .fault

/--
An index into `spec_areas`.  It is checked before the offset in bytes is formed, which wraps
around on a 32-bit machine: an index outside the array counts as a fault even where the
offset leads back into it.
-/
def specIndex (i : Word) : Except Halt (Fin 6) :=
  if h : i.toNat < 6 then .ok ⟨i.toNat, h⟩ else .error .fault

/-- `enum area_age`. -/
abbrev NEW : Word := 0

abbrev OLD : Word := 1

/-- The reordering of the type codes of SPECPASSUP. -/
def specTypeCode (arg1 : Word) : Word :=
  if arg1 = 1 then 2 else if arg1 = 2 then 1 else arg1

namespace Kernel

variable {A : Arch}

/-- `get_passup_area`: an entry of `spec_areas`. -/
def getPassupArea (k : Kernel A) (age : Word) (t : ExcType) (p : Proc) : Word :=
  match specIndex (BitVec.ofNat 32 (t.toNat * 2) + age) with
  | .ok i => k.specAreas p i
  | .error _ => 0

/-- `is_passup_set`. -/
def isPassupSet (k : Kernel A) (t : ExcType) (p : Proc) : Bool :=
  k.getPassupArea NEW t p ≠ 0 && k.getPassupArea OLD t p ≠ 0

/-- The SPECPASSUP case of `consume_syscall`. -/
def specPassup (k : Kernel A) (arg1 arg2 arg3 : Word) : Except Halt (Kernel A) := do
  let current := k.runningProc
  let old ← specIndex (specTypeCode arg1 * 2 + OLD)
  let new ← specIndex (specTypeCode arg1 * 2 + NEW)
  if k.specAreas current new = 0 ∧ k.specAreas current old = 0 then
    .ok
      { k with
        specAreas := Function.update k.specAreas current
          (Function.update (Function.update (k.specAreas current) old arg2) new arg3) }
  else
    (k.terminateProc (some current)).map Prod.snd

/-- `consume_syscall`; `st` is the state in the old area. -/
def consumeSyscall (m : IntModel) (k : Kernel A) (st : State A) (interrupted : Proc)
    (stateAt : Word → State A) (tod : Word) : Except Halt (Served A) :=
  let arg1 := st A.arg1
  let arg2 := st A.arg2
  let arg3 := st A.arg3
  match (st A.sysN).toNat with
  | 1 => -- GETCPUTIME
      .ok ⟨k, st, .cpuTime (k.userTimer interrupted)
        (k.kernelTimer interrupted + (tod - k.todCache interrupted))
        (tod - k.todAtStart interrupted)⟩
  | 2 => do -- CREATEPROCESS
      let (created, k) ← k.createProcess (stateAt arg1) arg2.toInt
      .ok ⟨k, st.setRet (BitVec.ofInt 32 created.ret),
        .created (if arg3 = 0 then none else created.cpid)⟩
  | 3 => do -- TERMINATEPROCESS
      let target ← A.procArg arg1
      let (ret, k) ← k.terminateProc target
      .ok ⟨k, st.setRet (BitVec.ofInt 32 ret), .none⟩
  | 4 => do -- VERHOGEN
      let semaddr ← semArg arg1
      .ok ⟨k.v m semaddr, st, .none⟩
  | 5 => do -- PASSEREN
      let semaddr ← semArg arg1
      let k ← k.p m semaddr tod
      .ok ⟨k, st, .none⟩
  | 6 => do -- WAITIO
      let k ← k.waitIo m arg1 arg2 arg3 tod
      .ok ⟨k, st, .none⟩
  | 7 => do -- SPECPASSUP
      let k ← k.specPassup arg1 arg2 arg3
      .ok ⟨k, st, .none⟩
  | 8 => -- GETPID
      .ok ⟨k, st, .pids (if arg1 = 0 then none else some k.runningProc)
        (if arg2 = 0 then none else some (k.pParent k.runningProc))⟩
  | _ => .error (.panic "ERROR: Syscall not recognised. Did you mean syscall number 42?")

end Kernel

/-- The kernel with the static storage of `handler.c` and the hardware it drives. -/
structure Machine (A : Arch) where
  kernel : Kernel A
  interruptedProc : Proc
  intTimerCache : Word
  /-- The interval timer register, as last written. -/
  intervalTimer : Word
  clockTicksPerTimeSlice : Word
  /-- The old areas. -/
  oldArea : ExcType → State A

namespace Machine

variable {A : Arch}

/-- `bikaya_launch`: initialization, then the load of the first process. -/
def bikayaLaunch (sem : SemAddr → Int) (startingProcs : List ProcInitData)
    (clockTicks : Word) (tod : Word × Word) (areas : ExcType → State A) :
    Except Halt (Machine A × Resumed A) := do
  let k ← (Kernel.bss sem).initScheduler startingProcs
  let k ← k.launch tod
  .ok (⟨k, .idle, 0, clockTicks, clockTicks, areas⟩,
    .proc k.runningProc (k.pS k.runningProc))

/-- `start_handler`. -/
def startHandler (M : Machine A) (timer tod : Word) : Machine A :=
  { M with
    intTimerCache :=
      if timer > M.clockTicksPerTimeSlice then M.clockTicksPerTimeSlice else timer
    interruptedProc := M.kernel.runningProc
    kernel := M.kernel.flushUserTime tod M.kernel.runningProc }

/-- `conclude_handler`. -/
def concludeHandler (M : Machine A) (t : ExcType) (tod : Word) : Machine A × Resumed A :=
  let resuming := M.kernel.runningProc
  if M.interruptedProc ≠ resuming then
    let k := M.kernel.flushResetTime tod resuming
    let k :=
      if M.interruptedProc ≠ .idle then
        { k with pS := Function.update k.pS M.interruptedProc (M.oldArea t) }
      else k
    ({ M with kernel := k, intervalTimer := M.clockTicksPerTimeSlice },
      .proc resuming (k.pS resuming))
  else
    ({ M with
        intervalTimer := M.intTimerCache
        kernel := M.kernel.flushKernelTime tod M.interruptedProc },
      .proc resuming (M.oldArea t))

/-- `launch_spec_area`. -/
def launchSpecArea (M : Machine A) (t : ExcType) : Machine A × Resumed A :=
  (M, .passup (M.kernel.getPassupArea OLD t M.kernel.runningProc)
    (M.kernel.getPassupArea NEW t M.kernel.runningProc) (M.oldArea t))

/-- The content of one old area is replaced. -/
def setArea (M : Machine A) (t : ExcType) (s : State A) : Machine A :=
  { M with oldArea := Function.update M.oldArea t s }

/-- `handle_interrupt`, after `start_handler`. -/
def handleInterrupt (m : IntModel) (M : Machine A) (e : Exception A) :
    Machine A × Resumed A :=
  let M := M.setArea .INT (M.oldArea .INT).afterInterrupt
  let M := { M with kernel := M.kernel.consumeInterrupts m e.irq }
  M.concludeHandler .INT e.todEnd

/-- `handle_sysbreak`, after `start_handler`. -/
def handleSysbreak (m : IntModel) (M : Machine A) (e : Exception A) :
    Except Halt (Machine A × Reply × Resumed A) :=
  let M := M.setArea .SYS (M.oldArea .SYS).afterSysbreak
  let st := M.oldArea .SYS
  match A.getExccode st with
  | .E_SYS =>
      if (st A.sysN).toNat > SYSTEM_SYSCALL_MAX then
        if M.kernel.isPassupSet .SYS M.interruptedProc then
          let k := M.kernel.flushKernelTime e.todMid M.interruptedProc
          let (M, r) := { M with kernel := k }.launchSpecArea .SYS
          .ok (M, .none, r)
        else do
          let (_, k) ← M.kernel.terminateProc (some M.interruptedProc)
          let (M, r) := { M with kernel := k }.concludeHandler .SYS e.todEnd
          .ok (M, .none, r)
      else do
        let served ← M.kernel.consumeSyscall m st M.interruptedProc e.stateAt e.todMid
        let M := { M with kernel := served.kernel }.setArea .SYS served.state
        let (M, r) := M.concludeHandler .SYS e.todEnd
        .ok (M, served.reply, r)
  | .E_BP =>
      if M.kernel.isPassupSet .SYS M.interruptedProc then
        let (M, r) := M.launchSpecArea .SYS
        .ok (M, .none, r)
      else
        .error (.panic "ERROR: BreakPoint launched, handler still not implemented!")
  | .E_OTHER => .error (.panic "Exc cause code not recognised")

/-- `handle_TLB` and `handle_trap`, after `start_handler`. -/
def handleFault (M : Machine A) (t : ExcType) (e : Exception A) :
    Except Halt (Machine A × Resumed A) :=
  if M.kernel.isPassupSet t M.kernel.runningProc then .ok (M.launchSpecArea t)
  else do
    let (_, k) ← M.kernel.terminateProc (some M.kernel.runningProc)
    .ok ({ M with kernel := k }.concludeHandler t e.todEnd)

/-- `handle_TLB`. -/
def handleTLB (M : Machine A) (e : Exception A) : Except Halt (Machine A × Resumed A) :=
  M.handleFault .TLB e

/-- `handle_trap`. -/
def handleTrap (M : Machine A) (e : Exception A) : Except Halt (Machine A × Resumed A) :=
  M.handleFault .PRG e

/-- One exception: the old area is stored and the handler of its type runs. -/
def handle (m : IntModel) (M : Machine A) (e : Exception A) :
    Except Halt (Machine A × Reply × Resumed A) :=
  let M := (M.setArea e.type e.state).startHandler e.timer e.todStart
  match e.type with
  | .SYS => M.handleSysbreak m e
  | .PRG => (M.handleTrap e).map (fun r => (r.1, .none, r.2))
  | .TLB => (M.handleTLB e).map (fun r => (r.1, .none, r.2))
  | .INT => .ok ((M.handleInterrupt m e).1, .none, (M.handleInterrupt m e).2)

end Machine

end Bikaya
