import Bikaya.Core.Interrupts
import Bikaya.Library.Runs

/-!
# Bikaya: runs of the kernel operations

The kernel as a transition system: user processes and the hardware enter the
kernel one operation at a time, starting from a booted kernel.  Between two
entries user code may also write to the integers of its semaphores.

`Operation` has one constructor for each service that changes the lists of the kernel.
Terminations may be aimed at live processes only (`Admissible`); what happens otherwise is
in `Containment.lean`.  `boot` starts the system, and `Booted` are its results for 1 to
`MAXPROC` starting processes.
-/

namespace Bikaya

/-- What happens to the kernel. -/
inductive Operation (A : Arch) where
  | createProcess (s : State A) (priority : Int)
  | terminateProcess (p : Option Proc)
  | passeren (semaddr : SemAddr) (tod : Word)
  | verhogen (semaddr : SemAddr)
  | waitIo (command devReg subdev tod : Word)
  | doneIo (d : Dev) (status : Word)
  | timeSlice
  /-- User code writes to the integer of a semaphore. -/
  | write (a : SemAddr) (value : Int)

namespace Operation

variable {A : Arch}

/-- The operations that have nothing to do with devices. -/
def DeviceFree : Operation A → Prop
  | .waitIo _ _ _ _ => False
  | .doneIo _ _ => False
  | _ => True

instance (op : Operation A) : Decidable op.DeviceFree := by
  cases op <;> unfold DeviceFree <;> infer_instance

/-- The operations that terminate processes. -/
def Terminates : Operation A → Prop
  | .terminateProcess _ => True
  | _ => False

instance (op : Operation A) : Decidable op.Terminates := by
  cases op <;> unfold Terminates <;> infer_instance

end Operation

namespace Kernel

open TransitionSystem

variable {A : Arch}

/-- One operation. -/
def exec (m : IntModel) (k : Kernel A) : Operation A → Except Halt (Kernel A)
  | .createProcess s priority => (k.createProcess s priority).map Prod.snd
  | .terminateProcess p => (k.terminateProc p).map Prod.snd
  | .passeren semaddr tod => k.p m semaddr tod
  | .verhogen semaddr => .ok (k.v m semaddr)
  | .waitIo command devReg subdev tod => k.waitIo m command devReg subdev tod
  | .doneIo d status => .ok (k.doneIo m d status)
  | .timeSlice => .ok (k.timeSliceCallback m)
  | .write a value => .ok { k with sem := Function.update k.sem a value }

/--
The operations that can occur.  System calls are made by a process, the idle
process makes none; the target of a termination is NULL or a live process.
-/
def Admissible (k : Kernel A) : Operation A → Prop
  | .createProcess _ _ => k.runningProc ≠ .idle
  | .terminateProcess p => k.runningProc ≠ .idle ∧ ∀ q ∈ p, k.Live q
  | .passeren _ _ => k.runningProc ≠ .idle
  | .verhogen _ => k.runningProc ≠ .idle
  | .waitIo _ _ _ _ => k.runningProc ≠ .idle
  | .doneIo _ _ => True
  | .timeSlice => True
  | .write _ _ => True

instance (k : Kernel A) (op : Operation A) : Decidable (k.Admissible op) := by
  cases op <;> unfold Admissible <;> infer_instance

/-- The step relation of the kernel. -/
def Step (m : IntModel) (k : Kernel A) (op : Operation A) (k' : Kernel A) : Prop :=
  k.Admissible op ∧ k.exec m op = .ok k'

/-- The same, as a partial function. -/
def next (m : IntModel) (k : Kernel A) (op : Operation A) : Option (Kernel A) :=
  if k.Admissible op then (k.exec m op).toOption else none

theorem step_of_next
    {m : IntModel} {k k' : Kernel A} {op : Operation A} (h : k.next m op = some k') :
    Step m k op k' := by
  unfold next at h
  split_ifs at h with hadm
  cases hexec : k.exec m op with
  | error e =>
      rw [hexec] at h
      exact absurd h (by simp [Except.toOption])
  | ok k₁ =>
      rw [hexec] at h
      exact ⟨hadm, by rw [hexec, Option.some.inj h]⟩

/-- A list of operations that are all possible is a run. -/
theorem isRun_of_accepts
    {m : IntModel} {k : Kernel A} {ops : List (Operation A)}
    (h : accepts (next m) k ops = true) :
    IsRun (Step m) (states (next m) k ops) (fun i => ops.getD i .timeSlice) ops.length :=
  fun i hi => step_of_next (isRun_states .timeSlice h i hi)

/-- `init_scheduler` followed by `launch`. -/
def boot (sem : SemAddr → Int) (startingProcs : List ProcInitData) (tod : Word × Word) :
    Except Halt (Kernel A) := do
  let k ← (bss sem).initScheduler startingProcs
  k.launch tod

/-- The kernel after a boot with 1 to `MAXPROC` starting processes. -/
def Booted (k : Kernel A) : Prop :=
  ∃ (sem : SemAddr → Int) (startingProcs : List ProcInitData) (tod : Word × Word),
    1 ≤ startingProcs.length ∧ startingProcs.length ≤ MAXPROC ∧
      boot sem startingProcs tod = .ok k

end Kernel

end Bikaya
