import Bikaya.Core.System

/-!
# Bikaya: the kernel's data

The static storage of `pcb.c`, `asl.c` and `scheduler.c`, together with the parts
of memory the kernel reads and writes through user pointers.

The fields of `pcb_t` are kept component-wise: `p->priority` is `k.priority p`.
The embedded links are represented by the lists they thread.  `p_next` occurs as
the free list, the ready queue and the semaphore queues; `p_child` and `p_sib`
occur as the list `pChild p` of the children of `p`, first child first.
-/

namespace Bikaya

/-- The address of a user semaphore: a non-NULL `int*`. -/
abbrev SemAddr := { a : Word // a ≠ 0 }

/--
A semaphore key.  Keys are addresses of integers: a user semaphore, or the
field `w_for_cmd_sem` of a cell of `dev_w_lists`.
-/
inductive SemKey where
  | user (a : SemAddr)
  | dev (d : Dev)
deriving DecidableEq

/-- An index of `semd_table`. -/
abbrev Semd := Fin MAXPROC

/-- The static storage of `asl.c`. -/
structure Asl where
  sKey : Semd → Option SemKey
  sProcQ : Semd → List Proc
  /-- The active semaphore list. -/
  semdH : List Semd
  /-- The free descriptors. -/
  semdFreeH : List Semd

/--
A write to a device command register.  The last field is proof-only: the process
on whose behalf the command is sent, `none` for an acknowledgement.
-/
structure BusWrite where
  type : ExtDevType
  devReg : Word
  command : Word
  owner : Option Proc
deriving DecidableEq

/-- The state of the kernel. -/
structure Kernel (A : Arch) where
  -- `pcb_t`
  pParent : Proc → Option Proc
  pChild : Proc → List Proc
  pS : Proc → State A
  priority : Proc → Int
  originalPriority : Proc → Int
  pSemkey : Proc → Option SemKey
  /-- `&dev_w_lists[..][..].w_for_res`, given by the cell. -/
  devWList : Proc → Option Dev
  kernelTimer : Proc → Word
  userTimer : Proc → Word
  todCache : Proc → Word
  todAtStart : Proc → Word
  /-- `spec_areas`, NULL being the word 0. -/
  specAreas : Proc → Fin 6 → Word
  -- `pcb.c`
  pcbFreeH : List Proc
  -- `asl.c`
  asl : Asl
  -- `scheduler.c`
  readyQueue : List Proc
  runningProc : Proc
  wForCmdSem : Dev → Int
  wForRes : Dev → Option Proc
  /-- The integers at the addresses of the user semaphores. -/
  sem : SemAddr → Int
  /-- The writes to the device command registers, oldest first. -/
  bus : List BusWrite
  /-- The messages that `addokbuf` was called with, oldest first. -/
  okbuf : List String
  /-- Proof-only: how many times `time_slice_callback` has run. -/
  slices : Nat

namespace Kernel

variable {A : Arch}

/--
The storage before initialization, all fields 0 or NULL.  `running_proc` is NULL
until `launch`, which nothing reads; the model puts the idle process there.
-/
def bss (sem : SemAddr → Int) : Kernel A where
  pParent := fun _ => none
  pChild := fun _ => []
  pS := fun _ => State.reset
  priority := fun _ => 0
  originalPriority := fun _ => 0
  pSemkey := fun _ => none
  devWList := fun _ => none
  kernelTimer := fun _ => 0
  userTimer := fun _ => 0
  todCache := fun _ => 0
  todAtStart := fun _ => 0
  specAreas := fun _ _ => 0
  pcbFreeH := []
  asl := { sKey := fun _ => none, sProcQ := fun _ => [], semdH := [], semdFreeH := [] }
  readyQueue := []
  runningProc := .idle
  wForCmdSem := fun _ => 0
  wForRes := fun _ => none
  sem := sem
  bus := []
  okbuf := []
  slices := 0

/-- A process of the table that is not on the free list. -/
def Live (k : Kernel A) (p : Proc) : Prop :=
  p ≠ .idle ∧ p ∉ k.pcbFreeH

instance (k : Kernel A) (p : Proc) : Decidable (k.Live p) :=
  inferInstanceAs (Decidable (_ ∧ _))

end Kernel

end Bikaya
