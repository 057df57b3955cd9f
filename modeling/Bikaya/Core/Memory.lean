import Bikaya.Library.ByteMemory
import Bikaya.Core.Handler
import Bikaya.Core.SystemMps

/-!
# Bikaya: processor states in memory

`memcpy` of `utils.c`, and the code that works on a `state_t` through its address: the
areas of `system.h`, `init_new_area` of `system.c`, the setters of `system_mps.c` and
`initialize_new_areas` of `bikaya.c`.

The order of the bytes of a word is that of the emulator's host, so it is a parameter.

A pointer is a 32-bit address, and a field of a `state_t` lies at its offset.  The setters
read and write the fields that the source does, one after the other.  `memcpy` copies from
the lowest byte on and panics for a NULL pointer.
-/

namespace Bikaya
namespace Mps

open ByteMemory

/-- The memory of the machine, byte by byte. -/
abbrev Ram := Word → BitVec 8

/-- How a word is stored in four bytes. -/
abbrev ByteOrder := Codec 4 (BitVec 8) Word

/-- The lowest byte first. -/
def littleEndian : ByteOrder where
  encode := fun v i => v.extractLsb' (8 * i) 8
  decode := fun b => b 3 ++ b 2 ++ b 1 ++ b 0
  decode_encode := by
    intro v
    refine BitVec.eq_of_getLsbD_eq (fun i hi => ?_)
    have hread : ∀ j o : ℕ, j < 8 → o + j = i →
        (decide (j < 8) && v.getLsbD (o + j)) = v.getLsbD i := by
      rintro j o hj rfl
      simp [hj]
    show (v.extractLsb' (8 * 3) 8 ++ v.extractLsb' (8 * 2) 8 ++ v.extractLsb' (8 * 1) 8 ++
      v.extractLsb' (8 * 0) 8).getLsbD i = v.getLsbD i
    simp only [BitVec.getLsbD_append, BitVec.getLsbD_extractLsb']
    split_ifs with h0 h1 h2
    · exact hread _ _ h0 (by omega)
    · exact hread _ _ h1 (by omega)
    · exact hread _ _ h2 (by omega)
    · exact hread _ _ (by omega) (by omega)

/-- `memcpy`: the destination is returned; a NULL pointer ends in `PANIC()`, without a message. -/
def memcpy (mem : Ram) (dst src bytes : Word) : Except Halt (Word × Ram) :=
  if src ≠ 0 ∧ dst ≠ 0 then .ok (dst, copyForward mem dst src bytes.toNat)
  else .error (.panic "")

abbrev STATE_T_SIZE : Word := 140

/-- The starting point of the areas: `RAM_BASE`. -/
abbrev AREA_BASE : Word := 0x20000000

/-- The place of a register in a `state_t`. -/
def stateOffset : Reg → ℕ
  | .entry_hi => 0
  | .cause => 4
  | .status => 8
  | .pc_epc => 12
  | .gpr n => 16 + 4 * n
  | .hi => 132
  | .lo => 136

/-- A `state_t` consists of its registers. -/
def stateLayout : Layout Reg 4 140 where
  offset := stateOffset
  offset_le := by
    intro r
    cases r with
    | gpr n =>
        simp only [stateOffset]
        omega
    | _ =>
        simp [stateOffset]
  separated := by
    intro r r' hne
    cases r <;> cases r' <;> first
      | exact absurd rfl hne
      | (simp only [stateOffset]; omega)
      | skip
    rename_i i j
    have hij : (i : ℕ) ≠ j := fun h => hne (congrArg Reg.gpr (Fin.ext h))
    simp only [stateOffset]
    omega

/-- `AREA(new_old, exc_type)`. -/
def area (newOld : Word) (t : ExcType) : Word :=
  AREA_BASE + (7 - BitVec.ofNat 32 (t.toNat * 2) - newOld) * STATE_T_SIZE

section Setters

variable (order : ByteOrder)

/-- `*s` -/
def loadState (mem : Ram) (s : Word) : MpsState :=
  loadRecord order stateLayout mem s

/-- Assignment to one register of `*s`. -/
def storeReg (mem : Ram) (s : Word) (r : Reg) (w : Word) : Ram :=
  storeField order stateLayout mem s r w

/-- A setter of the status register reads the word and writes it back. -/
def storeStatus (set : MpsState → Word → MpsState) (mem : Ram) (s on : Word) : Ram :=
  storeReg order mem s .status (set (loadState order mem s) on .status)

/-- `set_kernel_mode(s, on)`. -/
def setKernelModeAt : Ram → Word → Word → Ram :=
  storeStatus order setKernelMode

/-- `set_virtual_mem(s, on)`. -/
def setVirtualMemAt : Ram → Word → Word → Ram :=
  storeStatus order setVirtualMem

/-- `set_interval_timer_interrupts(s, on)`. -/
def setIntervalTimerInterruptsAt : Ram → Word → Word → Ram :=
  storeStatus order setIntervalTimerInterrupts

/-- `set_other_interrupts(s, on)`. -/
def setOtherInterruptsAt : Ram → Word → Word → Ram :=
  storeStatus order setOtherInterrupts

/-- `set_sp(s, sp_val)`. -/
def setSpAt (mem : Ram) (s spVal : Word) : Ram :=
  storeReg order mem s (.gpr 26) spVal

/-- `set_pc(s, ptr)`. -/
def setPcAt (mem : Ram) (s ptr : Word) : Ram :=
  storeReg order (storeReg order mem s .pc_epc ptr) s (.gpr 24) ptr

/-- `reset_state(s)`. -/
def resetStateAt (mem : Ram) (s : Word) : Ram :=
  let mem := storeReg order mem s .pc_epc 0
  let mem := storeReg order mem s .hi 0
  let mem := storeReg order mem s .entry_hi 0
  let mem := storeReg order mem s .cause 0
  let mem := storeReg order mem s .status 0
  let mem := storeReg order mem s .lo 0
  (List.finRange 29).foldl (fun mem i => storeReg order mem s (.gpr i) 0) mem

/-- `init_new_area`. -/
def initNewArea (ramTop : Word) (mem : Ram) (area handler : Word) : Ram :=
  let mem := setKernelModeAt order mem area 1
  let mem := setVirtualMemAt order mem area 0
  let mem := setIntervalTimerInterruptsAt order mem area 0
  let mem := setOtherInterruptsAt order mem area 0
  let mem := setSpAt order mem area ramTop
  setPcAt order mem area handler

/-- `initialize_new_areas`, for the addresses of the four handlers. -/
def initializeNewAreas (ramTop : Word) (mem : Ram) (handler : ExcType → Word) : Ram :=
  let mem := initNewArea order ramTop mem (area NEW .INT) (handler .INT)
  let mem := initNewArea order ramTop mem (area NEW .SYS) (handler .SYS)
  let mem := initNewArea order ramTop mem (area NEW .TLB) (handler .TLB)
  initNewArea order ramTop mem (area NEW .PRG) (handler .PRG)

end Setters

end Mps
end Bikaya
