import Bikaya.Core.System

/-!
# Bikaya: the uMPS instance of the system layer

The code of `system_mps.c` and the `TARGET_UMPS` parts of `populate_pcb` and of
the handlers, over the masks of the emulator's `cp0.h`.

**Status register.**  The masks are those of the header, and the setters compute with them
as the source does, the complement in `set_kernel_mode` included.

**Linkage.**  Where the kernel's data lie is decided when the system is linked and started:
`Linkage` has the address of each PCB and the end of the memory, with what is known of
them, and every linkage gives an instance of the system layer.  `tableLinkage` is one, with
the PCBs in a table behind the areas.
-/

namespace Bikaya
namespace Mps

/-- The fields of the uMPS `state_t`. -/
inductive Reg where
  | entry_hi
  | cause
  | status
  | pc_epc
  | hi
  | lo
  | gpr (n : Fin 29)
deriving DecidableEq

/-- Numerals stand for the cells of `gpr`. -/
instance Reg.neZero : NeZero 29 := ⟨by decide⟩

abbrev WORD_SIZE : Word := 4

abbrev STATUS_IEc : Word := 0x1

abbrev STATUS_KUc : Word := 0x2

abbrev STATUS_IEp : Word := 0x4

abbrev STATUS_KUp : Word := 0x8

abbrev STATUS_IM_MASK : Word := 0xff00

/-- The interrupt mask bit of a line. -/
abbrev STATUS_IM (line : Nat) : Word := 1 <<< (8 + line)

abbrev STATUS_VMc_BIT : Nat := 24

abbrev STATUS_VMc : Word := 0x01000000

abbrev STATUS_VMp : Word := 0x02000000

abbrev EXC_SYS : Word := 8

abbrev EXC_BP : Word := 9

/-- A uMPS processor state. -/
abbrev MpsState := Reg → Word

/-- `set_bits` of `utils.c`. -/
def setBits (original mask value : Word) : Word :=
  (original &&& ~~~mask) ||| value

/-- Assignment to the status register. -/
def setStatus (s : MpsState) (w : Word) : MpsState :=
  Function.update s .status w

def setPc (s : MpsState) (ptr : Word) : MpsState :=
  Function.update (Function.update s .pc_epc ptr) (.gpr 24) ptr

def setSp (s : MpsState) (spVal : Word) : MpsState :=
  Function.update s (.gpr 26) spVal

/-- `set_kernel_mode`: the kernel mode is on when the bit is 0. -/
def setKernelMode (s : MpsState) (on : Word) : MpsState :=
  if on ≠ 0 then
    setStatus s (s .status &&& ~~~STATUS_KUc)
  else
    setStatus s (s .status ||| ~~~STATUS_KUc)

def setVirtualMem (s : MpsState) (on : Word) : MpsState :=
  setStatus s (setBits (s .status) STATUS_VMc (on <<< STATUS_VMc_BIT))

def setOtherInterrupts (s : MpsState) (on : Word) : MpsState :=
  if on ≠ 0 then
    setStatus s (s .status ||| (STATUS_IM_MASK &&& ~~~(STATUS_IM IL_TIMER)) ||| STATUS_IEc)
  else
    setStatus s (s .status &&& ~~~(STATUS_IM_MASK &&& ~~~(STATUS_IM IL_TIMER)))

def setIntervalTimerInterrupts (s : MpsState) (on : Word) : MpsState :=
  if on ≠ 0 then
    setStatus s (s .status ||| STATUS_IM IL_TIMER ||| STATUS_IEc)
  else
    setStatus s (s .status &&& ~~~(STATUS_IM IL_TIMER))

/-- The previous-mode bits set by `populate_pcb`, popped when the state is loaded. -/
def populateMode (s : MpsState) (data : ProcInitData) : MpsState :=
  let s := setVirtualMem s 0
  let s := if data.kmOn = 0 then setStatus s (s .status ||| STATUS_KUp) else s
  let s := if data.vmOn ≠ 0 then setStatus s (s .status ||| STATUS_VMp) else s
  if data.timerIntOn ≠ 0 ∨ data.otherIntsOn ≠ 0 then
    setStatus s (s .status ||| STATUS_IEp)
  else s

def getExccode (s : MpsState) : ExcCode :=
  let val := (s .cause &&& 0x7c) >>> 2
  if val = EXC_BP then .E_BP
  else if val = EXC_SYS then .E_SYS
  else .E_OTHER

abbrev PCB_T_SIZE : Nat := 224

/--
What depends on the hardware and on the linker: the top of the memory, the code of the
idle process, and the places of the PCBs.
-/
structure Linkage where
  /-- `RAM_TOP`, which is read from the bus registers. -/
  ramTop : Word
  idleMethod : Word
  /-- The address of a `pcb_t`. -/
  pcbAddr : Proc → Word
  /-- The PCBs lie behind the eight new and old areas. -/
  pcbAddr_behind : ∀ p, 0x20000460 ≤ (pcbAddr p).toNat
  pcbAddr_fits : ∀ p, (pcbAddr p).toNat + PCB_T_SIZE ≤ 2 ^ 32
  pcbAddr_apart : ∀ p q, p ≠ q →
    (pcbAddr p).toNat + PCB_T_SIZE ≤ (pcbAddr q).toNat ∨
      (pcbAddr q).toNat + PCB_T_SIZE ≤ (pcbAddr p).toNat

namespace Linkage

variable (L : Linkage)

theorem pcbAddr_injective : Function.Injective L.pcbAddr := by
  intro p q h
  by_contra hne
  have hsize : 0 < PCB_T_SIZE := by decide
  have hapart := L.pcbAddr_apart p q hne
  rw [h] at hapart
  omega

theorem pcbAddr_ne_zero (p : Proc) : L.pcbAddr p ≠ 0 := by
  intro h
  have hbehind := L.pcbAddr_behind p
  rw [h] at hbehind
  exact absurd hbehind (by decide)

/-- The uMPS target. -/
def arch : Arch where
  Reg := Reg
  decEqReg := inferInstance
  pc := .pc_epc
  retReg := .gpr 1
  sysN := .gpr 3
  arg1 := .gpr 4
  arg2 := .gpr 5
  arg3 := .gpr 6
  sysbreakPcStep := WORD_SIZE
  interruptPcStep := 0
  getExccode := getExccode
  setPc := setPc
  setSp := setSp
  setIntervalTimerInterrupts := setIntervalTimerInterrupts
  setOtherInterrupts := setOtherInterrupts
  populateMode := populateMode
  ramTop := L.ramTop
  frameSize := 4096
  idleMethod := L.idleMethod
  pcbAddr := L.pcbAddr
  pcbAddr_injective := L.pcbAddr_injective
  pcbAddr_ne_zero := L.pcbAddr_ne_zero
  devRegStart := 0x10000050
  devRegStart_nonneg := by decide
  devRegEnd_lt := by decide

end Linkage

theorem index_le (p : Proc) : p.index ≤ 20 := by
  cases p with
  | idle =>
      exact le_rfl
  | pcb i =>
      exact i.isLt.le

theorem index_injective : Function.Injective Proc.index := by
  intro p q h
  cases p with
  | idle =>
      cases q with
      | idle =>
          rfl
      | pcb j =>
          exact absurd h (by simp [Proc.index]; omega)
  | pcb i =>
      cases q with
      | idle =>
          exact absurd h (by simp [Proc.index]; omega)
      | pcb j =>
          exact congrArg Proc.pcb (Fin.ext h)

/-- The `i`-th PCB of a table without gaps. -/
def tableAddr (p : Proc) : Word :=
  0x20010000 + BitVec.ofNat 32 (PCB_T_SIZE * p.index)

theorem tableAddr_toNat (p : Proc) : (tableAddr p).toNat = 0x20010000 + 224 * p.index := by
  have hindex := index_le p
  have hbase : (0x20010000 : Word).toNat = 0x20010000 := rfl
  simp only [tableAddr, PCB_T_SIZE, BitVec.toNat_add, BitVec.toNat_ofNat, hbase]
  omega

/-- A machine with one megabyte of memory. -/
def tableLinkage : Linkage where
  ramTop := 0x20100000
  idleMethod := 0x20008000
  pcbAddr := tableAddr
  pcbAddr_behind p := by
    rw [tableAddr_toNat]
    omega
  pcbAddr_fits p := by
    have hindex := index_le p
    rw [tableAddr_toNat, PCB_T_SIZE]
    omega
  pcbAddr_apart p q hne := by
    have hindex : p.index ≠ q.index := fun h => hne (index_injective h)
    rw [tableAddr_toNat, tableAddr_toNat, PCB_T_SIZE]
    omega

end Mps

/-- The uMPS target with this machine. -/
def umps : Arch :=
  Mps.tableLinkage.arch

end Bikaya
