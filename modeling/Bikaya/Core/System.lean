import Mathlib.Data.BitVec
import Mathlib.Data.Fintype.Basic
import Mathlib.Logic.Function.Basic

/-!
# Bikaya: the system layer

This module fixes the vocabulary of `system.h`, `architecture.h`, `const.h`,
`devices.h` and `process_initialization_data.h`: machine words, the process
slots, the external devices, the processor state saved in an old area, and the
architecture dependent operations the kernel calls.

The kernel is built for two emulators.  What differs between them is collected
in `Arch`; every result of the development holds for an arbitrary `Arch`, and
`SystemMps` instantiates it with the code of `system_mps.c`.
-/

namespace Bikaya

/-- A 32-bit register or memory word (`unsigned int`). -/
abbrev Word := BitVec 32

/-- Maximum number of overall concurrent processes. -/
abbrev MAXPROC : Nat := 20

instance MAXPROC.neZero : NeZero MAXPROC := ⟨by decide⟩

/-- The highest syscall number handled by the nucleus. -/
abbrev SYSTEM_SYSCALL_MAX : Nat := 8

/-- The amount by which one time slice ages a waiting process. -/
abbrev PRIORITY_INC_PER_TIME_SLICE : Int := 1

/-- The command acknowledging a completed device operation. -/
abbrev DEVICE_CMD_ACK : Word := 1

/-- The command that makes a transmitter print a character. -/
abbrev DEVICE_CMD_FUNC_SPECIFIC : Word := 2

/-- The status of a device that can take a command. -/
abbrev DEVICE_ST_READY : Word := 1

/-- The status of a terminal sub-device that is done with its command. -/
abbrev TERM_ST_DONE : Word := 5

/-- Mask for the device status bits. -/
abbrev DEV_STATUS_MASK : Word := 0xff

/--
The two readings of the C type `int`: a mathematical integer, or the machine's
32-bit signed integer, whose additions wrap around.
-/
inductive IntModel where
  | unbounded
  | int32
deriving DecidableEq

/-- Addition of two `int` values. -/
def IntModel.add : IntModel → Int → Int → Int
  | .unbounded, a, b => a + b
  | .int32, a, b => (a + b).bmod (2 ^ 32)

/-- The ways in which a kernel routine fails to return. -/
inductive Halt where
  /-- `adderrbuf` printed the message and executed `PANIC()`. -/
  | panic (message : String)
  /-- A pointer that is NULL or leaves the modelled memory is followed. -/
  | fault
  /-- The recursion budget of the model is exhausted. -/
  | fuel
deriving DecidableEq

@[simp] theorem ok_bind {α β : Type} (a : α) (f : α → Except Halt β) :
    (Except.ok a >>= f) = f a :=
  rfl

@[simp] theorem pure_eq_ok {α : Type} (a : α) :
    (pure a : Except Halt α) = .ok a :=
  rfl

/-- A computation that returns consists of two that return. -/
theorem ok_of_bind
    {α β : Type} {x : Except Halt α} {f : α → Except Halt β} {b : β} (h : (x >>= f) = .ok b) :
    ∃ a, x = .ok a ∧ f a = .ok b := by
  cases x with
  | error err =>
      exact absurd h (by simp [bind, Except.bind])
  | ok a =>
      exact ⟨a, rfl, h⟩

/-- A `pcb_t` of the system: an entry of `pcbFree_table`, or `idle_proc`. -/
inductive Proc where
  | idle
  | pcb (i : Fin MAXPROC)
deriving DecidableEq

/-- All the `pcb_t` objects, the idle process included. -/
def Proc.all : List Proc :=
  .idle :: (List.finRange MAXPROC).map .pcb

theorem Proc.mem_all (p : Proc) : p ∈ Proc.all := by
  cases p <;> simp [Proc.all]

instance : Fintype Proc where
  elems := ⟨Proc.all, by decide⟩
  complete := Proc.mem_all

/-- There are `MAXPROC` PCBs in the table, and the idle process. -/
theorem Proc.card : Fintype.card Proc = MAXPROC + 1 :=
  rfl

/-- `get_proc_index`: the slot in the table, `MAXPROC` for the idle process. -/
def Proc.index : Proc → Nat
  | .idle => MAXPROC
  | .pcb i => i

/-- `enum ext_dev_type`: the rows of `dev_w_lists`. -/
inductive ExtDevType where
  | DISK
  | TAPE
  | NETW
  | PRIN
  | TERM_TX
  | TERM_RX
deriving DecidableEq

/-- The enumeration constant with the given value. -/
def ExtDevType.ofNat? : Nat → Option ExtDevType
  | 0 => some .DISK
  | 1 => some .TAPE
  | 2 => some .NETW
  | 3 => some .PRIN
  | 4 => some .TERM_TX
  | 5 => some .TERM_RX
  | _ => none

/-- The value of an enumeration constant. -/
def ExtDevType.toNat : ExtDevType → Nat
  | .DISK => 0
  | .TAPE => 1
  | .NETW => 2
  | .PRIN => 3
  | .TERM_TX => 4
  | .TERM_RX => 5

/-- A cell of `dev_w_lists`: a device type and an instance on its line. -/
structure Dev where
  type : ExtDevType
  num : Fin 8
deriving DecidableEq

/-- Numerals stand for the instances on a line. -/
instance Dev.neZero : NeZero 8 := ⟨by decide⟩

/-- `enum exc_type`: the exception types, each with its own old and new area. -/
inductive ExcType where
  | SYS
  | PRG
  | TLB
  | INT
deriving DecidableEq

/-- The value of an exception type. -/
def ExcType.toNat : ExcType → Nat
  | .SYS => 0
  | .PRG => 1
  | .TLB => 2
  | .INT => 3

/-- `enum exc_code`: the platform-independent cause of a syscall exception. -/
inductive ExcCode where
  | E_BP
  | E_SYS
  | E_OTHER
deriving DecidableEq

/-- The relevant data for the initialization of a process. -/
structure ProcInitData where
  method : Word
  priority : Int
  vmOn : Word
  kmOn : Word
  timerIntOn : Word
  otherIntsOn : Word

/--
What `architecture.h` and the emulator headers provide: the register file, the
syscall argument registers, the program counter adjustments of the handlers, the
`system.h` setters used on a fresh processor state, and the addresses fixed at
link time.
-/
structure Arch where
  Reg : Type
  decEqReg : DecidableEq Reg
  pc : Reg
  retReg : Reg
  sysN : Reg
  arg1 : Reg
  arg2 : Reg
  arg3 : Reg
  /-- Added to the program counter by `handle_sysbreak`. -/
  sysbreakPcStep : Word
  /-- Added to the program counter by `consume_interrupts`. -/
  interruptPcStep : Word
  getExccode : (Reg → Word) → ExcCode
  setPc : (Reg → Word) → Word → Reg → Word
  setSp : (Reg → Word) → Word → Reg → Word
  setIntervalTimerInterrupts : (Reg → Word) → Word → Reg → Word
  setOtherInterrupts : (Reg → Word) → Word → Reg → Word
  /-- The architecture dependent part of `populate_pcb`. -/
  populateMode : (Reg → Word) → ProcInitData → Reg → Word
  ramTop : Word
  frameSize : Word
  idleMethod : Word
  pcbAddr : Proc → Word
  pcbAddr_injective : Function.Injective pcbAddr
  pcbAddr_ne_zero : ∀ p, pcbAddr p ≠ 0
  devRegStart : Int
  devRegStart_nonneg : 0 ≤ devRegStart
  devRegEnd_lt : devRegStart + 40 * 16 < 2 ^ 31

variable {A : Arch}

instance : DecidableEq A.Reg := A.decEqReg

/-- A processor state `state_t`. -/
abbrev State (A : Arch) := A.Reg → Word

namespace State

/-- `reset_state`: all the state values are 0. -/
def reset : State A := fun _ => 0

/-- Assignment to one register. -/
def set (s : State A) (r : A.Reg) (w : Word) : State A :=
  Function.update s r w

/-- `SYSCALL_RET_REG(s) = w`. -/
def setRet (s : State A) (w : Word) : State A :=
  s.set A.retReg w

/-- The program counter adjustment of `handle_sysbreak`. -/
def afterSysbreak (s : State A) : State A :=
  s.set A.pc (s A.pc + A.sysbreakPcStep)

/-- The program counter adjustment of `consume_interrupts`. -/
def afterInterrupt (s : State A) : State A :=
  s.set A.pc (s A.pc + A.interruptPcStep)

end State

/-- The process a user-supplied `pcb_t*` points to; `none` for a wild pointer. -/
def Arch.procAt (A : Arch) (a : Word) : Option Proc :=
  Proc.all.find? (fun p => A.pcbAddr p = a)

/-- The size of a device register and the extent of `dev_w_lists`. -/
abbrev DEV_REG_SIZE : Int := 16

abbrev N_IL : Nat := 8

abbrev N_EXT_IL : Nat := 5

abbrev N_DEV_PER_IL : Nat := 8

abbrev IL_TIMER : Nat := 2

abbrev IL_TERMINAL : Nat := 7

/-- `GET_DEV_INSTANCE(reg)`, assigned to an `unsigned int`. -/
def Arch.getDevInstance (A : Arch) (reg : Word) : Word :=
  BitVec.ofInt 32 (((reg.toInt - A.devRegStart).tdiv DEV_REG_SIZE).tmod N_DEV_PER_IL)

/-- `GET_DEV_LINE(reg)`, assigned to an `unsigned int`. -/
def Arch.getDevLine (A : Arch) (reg : Word) : Word :=
  BitVec.ofInt 32
    (((reg.toInt - A.devRegStart).tdiv DEV_REG_SIZE).tdiv N_DEV_PER_IL +
      (N_IL - N_EXT_IL : Nat))

/-- `get_ext_dev_type`: the enumeration value, before it is used as an index. -/
def getExtDevType (line subdev : Word) : Word :=
  let t := line - BitVec.ofNat 32 (N_IL - N_EXT_IL)
  if line = BitVec.ofNat 32 IL_TERMINAL then t + subdev else t

/-- `get_ext_dev_line`: the interrupt line of a device type. -/
def getExtDevLine (t : ExtDevType) : Nat :=
  (if t = .TERM_RX then ExtDevType.TERM_TX.toNat else t.toNat) + 3

/--
The cell `dev_w_lists[type][num]`; `none` outside the table.  The indices are checked, not
the offset in bytes that they lead to, which wraps around on a 32-bit machine.
-/
def devCell (type num : Word) : Option Dev :=
  match ExtDevType.ofNat? type.toNat with
  | none => none
  | some t => if h : num.toNat < 8 then some ⟨t, ⟨num.toNat, h⟩⟩ else none

/-- `DEV_REG_ADDR(line, num)`: the address of a device register. -/
def Arch.devRegAddr (A : Arch) (line num : Nat) : Word :=
  BitVec.ofInt 32
    (A.devRegStart + ((line : Int) - (N_IL - N_EXT_IL : Nat)) * 128 + num * DEV_REG_SIZE)

/-- The device register of a cell of `dev_w_lists`. -/
def Arch.devReg (A : Arch) (d : Dev) : Word :=
  A.devRegAddr (getExtDevLine d.type) d.num

end Bikaya
