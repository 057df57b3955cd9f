import Bikaya.Core.Interrupts

/-!
# Bikaya: the interrupts on the device registers

`Interrupts.lean` takes what the handler reads from the hardware as it comes.  Here the
handler runs on the devices: every register is read when the code reads it, after the
writes that the handler has made before.

**Devices.**  Not part of the program.  `Devices` is what the code relies on: a write to a
command register concerns one device only, an acknowledged device is not done any more,
and a device with an unanswered completion shows on its line and in the bitmap.  No
device completes by itself while the handler runs.

**Messages.**  `done_io` prints a message for a device without a registered process, and
`addokbuf` prints on terminal 1: it writes to the transmitter's command register and
acknowledges it, character by character, whatever the transmitter is used for.

The work on the kernel's data is that of `Interrupts.lean`, for the registers read here.
-/

namespace Bikaya

/-- The registers that the interrupt handler reads. -/
structure Registers where
  /-- The devices, between two accesses of the kernel. -/
  State : Type
  /-- `is_interrupt_pending(line)`. -/
  pending : State → Nat → Bool
  /-- `*CDEV_BITMAP_ADDR(line)`. -/
  bitmap : State → Nat → Nat
  /-- `get_status(type, dev_reg)`. -/
  status : State → Dev → Word
  /-- The device has a completion that has not been answered. -/
  raised : State → Dev → Bool

/-- What the handler would read if nothing changed. -/
def Registers.irq (R : Registers) (s : R.State) : Irq :=
  ⟨R.pending s, R.bitmap s, R.status s⟩

/-- The states are the same but for some devices, their lines and their bitmaps. -/
structure Registers.SameBut (R : Registers) (ds : Dev → Prop) (s s' : R.State) : Prop where
  status : ∀ d, ¬ ds d → R.status s' d = R.status s d
  raised : ∀ d, ¬ ds d → R.raised s' d = R.raised s d
  pending : ∀ line, (∀ d, ds d → getExtDevLine d.type ≠ line) →
    R.pending s' line = R.pending s line
  bitmap : ∀ line, (∀ d, ds d → getExtDevLine d.type ≠ line) →
    R.bitmap s' line = R.bitmap s line

/-- The devices, and how they answer to the writes of the kernel. -/
structure Devices extends Registers where
  /-- A word is written to the command register of the device. -/
  write : State → Dev → Word → State
  /-- The status of the device is read until it is not `DEVICE_ST_BUSY`. -/
  wait : State → Dev → State
  pending_of_raised : ∀ s d, raised s d = true → pending s (getExtDevLine d.type) = true
  bitmap_of_raised : ∀ s d, raised s d = true →
    (bitmap s (getExtDevLine d.type)).testBit d.num = true
  write_sameBut : ∀ s d w, toRegisters.SameBut (· = d) s (write s d w)
  wait_sameBut : ∀ s d, toRegisters.SameBut (· = d) s (wait s d)
  status_ack : ∀ s d, status (write s d DEVICE_CMD_ACK) d &&& DEV_STATUS_MASK ≠ TERM_ST_DONE

namespace Devices

variable {A : Arch} (D : Devices)

/-! ## `terminal.c` -/

abbrev DEVICE_ST_BUSY : Word := 3

abbrev TERM_TX_ST_SPECIFIC : Word := 5

abbrev TERM_STATUS_MASK : Word := 0xff

abbrev TERM_CHAR_OFFSET : Nat := 8

/-- The terminal that the messages are printed on. -/
abbrev SYS_TERM : Fin 8 := 1

/-- Its transmitter. -/
abbrev console : Dev := ⟨.TERM_TX, SYS_TERM⟩

/-- `term_tx_status`. -/
def termTxStatus (s : D.State) (term : Fin 8) : Word :=
  D.status s ⟨.TERM_TX, term⟩ &&& TERM_STATUS_MASK

/-- `term_putchar`. -/
def termPutchar (s : D.State) (term : Fin 8) (c : Char) : Int × D.State :=
  let stat := D.termTxStatus s term
  if stat ≠ DEVICE_ST_READY ∧ stat ≠ TERM_TX_ST_SPECIFIC then (-1, s)
  else
    let s := D.write s ⟨.TERM_TX, term⟩
      (BitVec.ofNat 32 c.toNat <<< TERM_CHAR_OFFSET ||| DEVICE_CMD_FUNC_SPECIFIC)
    let s := D.wait s ⟨.TERM_TX, term⟩
    let stat := D.termTxStatus s term
    let s := D.write s ⟨.TERM_TX, term⟩ DEVICE_CMD_ACK
    (if stat ≠ TERM_TX_ST_SPECIFIC then -1 else 0, s)

/-- `term_putstr`: up to the first character that cannot be printed. -/
def termPutstr (term : Fin 8) : D.State → List Char → D.State
  | s, [] => s
  | s, c :: str =>
      let r := D.termPutchar s term c
      if r.1 ≠ 0 then r.2 else termPutstr term r.2 str

/-- `addokbuf`. -/
def addokbuf (s : D.State) (strp : String) : D.State :=
  D.termPutstr SYS_TERM s strp.toList

/-! ## `interrupts.c` -/

/--
`done_io`: the status is read from the device, and what `send_command` puts on the bus is
written to it.
-/
def doneIo (m : IntModel) (x : Kernel A × D.State) (d : Dev) : Kernel A × D.State :=
  let k := x.1.doneIo m d (D.status x.2 d)
  match x.1.wForRes d with
  | none => (k, D.addokbuf x.2 Kernel.unexpectedInterrupt)
  | some _ => (k, (k.bus.drop x.1.bus.length).foldl (fun s w => D.write s d w.command) x.2)

/-- The scan of one line of devices that are not terminals. -/
def consumeLine (m : IntModel) (x : Kernel A × D.State) (line : Nat) : Kernel A × D.State :=
  if D.pending x.2 line then
    match Kernel.lineType line with
    | none => x
    | some t =>
        (Kernel.pendingDevs (D.bitmap x.2 line)).foldl (fun x n => D.doneIo m x ⟨t, n⟩) x
  else x

/-- `done_io` for one terminal sub-device, if its status says it is done. -/
def consumeSubdev (m : IntModel) (x : Kernel A × D.State) (d : Dev) : Kernel A × D.State :=
  if D.status x.2 d &&& DEV_STATUS_MASK = TERM_ST_DONE then D.doneIo m x d else x

/-- `consume_interrupts`. -/
def consumeInterrupts (m : IntModel) (x : Kernel A × D.State) : Kernel A × D.State :=
  let x := if D.pending x.2 IL_TIMER then (x.1.timeSliceCallback m, x.2) else x
  let x := [3, 4, 5, 6].foldl (D.consumeLine m) x
  if D.pending x.2 IL_TERMINAL then
    (Kernel.pendingDevs (D.bitmap x.2 IL_TERMINAL)).foldl
      (fun x n => D.consumeSubdev m (D.consumeSubdev m x ⟨.TERM_RX, n⟩) ⟨.TERM_TX, n⟩) x
  else x

end Devices

end Bikaya
