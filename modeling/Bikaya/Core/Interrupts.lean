import Bikaya.Core.Scheduler

/-!
# Bikaya: device input and output

The functions of `interrupts.c` and the command side of `devices.c`: a process
waiting for a device, the completion of a device operation, and the scan of the
pending interrupts.

**Devices.**  The registers of the devices are not part of the kernel's data.  A command
is recorded as a write to the bus, and what the handler reads is collected in `Irq`; a
result for every content of `Irq` holds however the devices behave.  `Registers.lean` has
the handler on the devices themselves.
-/

namespace Bikaya

/--
What the interrupt handler reads from the hardware during one interrupt: each register as
it is when the handler comes to it.  The handler's own writes may have changed it since the
interrupt was raised; `Registers.lean` has the devices that answer to them.
-/
structure Irq where
  /-- `is_interrupt_pending(line)`. -/
  pending : Nat → Bool
  /-- `*CDEV_BITMAP_ADDR(line)`. -/
  bitmap : Nat → Nat
  /-- The status register of each device. -/
  status : Dev → Word

namespace Kernel

variable {A : Arch}

/-- `send_command`; the last argument is the proof-only owner of the command. -/
def sendCommand (k : Kernel A) (type : ExtDevType) (command devReg : Word)
    (owner : Option Proc) : Kernel A :=
  { k with bus := k.bus ++ [⟨type, devReg, command, owner⟩] }

/-- `wait_io`, once the cell of `dev_w_lists` is known. -/
def waitDev (m : IntModel) (k : Kernel A) (command devReg : Word) (d : Dev) (tod : Word) :
    Kernel A :=
  let target := k.popRunning.1
  let k := k.popRunning.2
  let k :=
    { k with wForCmdSem := Function.update k.wForCmdSem d (m.add (k.wForCmdSem d) (-1)) }
  let k :=
    if k.wForCmdSem d < 0 then
      let k := (k.insertBlocked (.dev d) target).2
      { k with wForCmdSem := Function.update k.wForCmdSem d (m.add (k.wForCmdSem d) 1) }
    else
      let k := (k.insertBlockedFifo (.dev d) target).2
      let k := k.sendCommand d.type command devReg (some target)
      { k with
        wForRes := Function.update k.wForRes d (some target)
        devWList := Function.update k.devWList target (some d) }
  k.flushKernelTime tod target

/-- `wait_io`: the cell is computed from the device register and the sub-device. -/
def waitIo (m : IntModel) (k : Kernel A) (command devReg subdev : Word) (tod : Word) :
    Except Halt (Kernel A) :=
  match devCell (getExtDevType (A.getDevLine devReg) subdev) (A.getDevInstance devReg) with
  | none => .error .fault
  | some d => .ok (k.waitDev m command devReg d tod)

/-- The first half of `done_io`: `done` is scheduled, and gets its status. -/
def respond (k : Kernel A) (done : Proc) (status : Word) : Kernel A :=
  let k := { k with devWList := Function.update k.devWList done none }
  let k := k.scheduleProc done
  { k with pS := Function.update k.pS done ((k.pS done).setRet status) }

/-- The second half of `done_io`: the command of the next process, or an acknowledgement. -/
def nextCommand (m : IntModel) (k : Kernel A) (d : Dev) (next : Option Proc) : Kernel A :=
  match next with
  | some next =>
      let k := k.sendCommand d.type (k.pS next A.arg1) (A.devReg d) (some next)
      { k with
        wForRes := Function.update k.wForRes d (some next)
        devWList := Function.update k.devWList next (some d) }
  | none =>
      let k := k.sendCommand d.type DEVICE_CMD_ACK (A.devReg d) none
      { k with
        wForRes := Function.update k.wForRes d none
        wForCmdSem := Function.update k.wForCmdSem d (m.add (k.wForCmdSem d) 1) }

/-- What `done_io` prints when no process is registered. -/
abbrev unexpectedInterrupt : String :=
  "A device interrupt was raised, but there's no process in the device queue, maybe you sent the command directly to the device without the proper syscall?"

/--
`done_io`, as far as the kernel's data go; `status` is what `get_status` reads from the
device.  What `addokbuf` does to terminal 1 is in `Devices.doneIo`.
-/
def doneIo (m : IntModel) (k : Kernel A) (d : Dev) (status : Word) : Kernel A :=
  match k.wForRes d with
  | none => { k with okbuf := k.okbuf ++ [unexpectedInterrupt] }
  | some res =>
      let done := (k.removeBlocked (.dev d)).1
      let k := (k.removeBlocked (.dev d)).2
      let k := if done = some res then k.respond res status else k
      k.nextCommand m d (k.headBlocked (.dev d))

/-- The device numbers whose bit is set in a bitmap, in the order of the scan. -/
def pendingDevs (bitmap : Nat) : List (Fin 8) :=
  (List.finRange 8).filter (fun n => bitmap.testBit n)

/-- The type of the devices on a line other than the terminals' one. -/
def lineType (line : Nat) : Option ExtDevType :=
  ExtDevType.ofNat? (getExtDevType (BitVec.ofNat 32 line) 0).toNat

/-- The scan of one line of devices that are not terminals. -/
def consumeLine (m : IntModel) (irq : Irq) (k : Kernel A) (line : Nat) : Kernel A :=
  if irq.pending line then
    match lineType line with
    | none => k
    | some t =>
        (pendingDevs (irq.bitmap line)).foldl
          (fun k n => k.doneIo m ⟨t, n⟩ (irq.status ⟨t, n⟩)) k
  else k

/-- `done_io` for one terminal sub-device, if its status says it is done. -/
def consumeSubdev (m : IntModel) (irq : Irq) (k : Kernel A) (d : Dev) : Kernel A :=
  if irq.status d &&& DEV_STATUS_MASK = TERM_ST_DONE then k.doneIo m d (irq.status d)
  else k

/-- `consume_interrupts`, after the program counter adjustment. -/
def consumeInterrupts (m : IntModel) (irq : Irq) (k : Kernel A) : Kernel A :=
  let k := if irq.pending IL_TIMER then k.timeSliceCallback m else k
  let k := [3, 4, 5, 6].foldl (consumeLine m irq) k
  if irq.pending IL_TERMINAL then
    (pendingDevs (irq.bitmap IL_TERMINAL)).foldl
      (fun k n => consumeSubdev m irq (consumeSubdev m irq k ⟨.TERM_RX, n⟩) ⟨.TERM_TX, n⟩) k
  else k

end Kernel

end Bikaya
