import Bikaya.Core.Pcb

/-!
# Bikaya: the active semaphore list

The functions of `asl.c`.  Descriptors move between the free list and the active
list as the queues of the semaphores fill and drain.

`semd_h` and `semdFree_h` are lists of descriptors, and the queue of a descriptor is a list
of processes.  A key is the address of the integer of a semaphore, of user code or of a
device.  When no descriptor is free an insertion returns without effect, as in the source,
and says so by its result.  The functions on the links themselves are in `Links.lean`.
-/

namespace Bikaya

namespace Asl

/-- `initASL`. -/
def init (a : Asl) : Asl :=
  (List.finRange MAXPROC).foldl
    (fun a i =>
      { a with sProcQ := Function.update a.sProcQ i [], semdFreeH := i :: a.semdFreeH })
    { a with semdH := [], semdFreeH := [] }

/-- `getSemd`: the first active descriptor with the given key. -/
def getSemd (a : Asl) (key : Option SemKey) : Option Semd :=
  a.semdH.find? (fun s => a.sKey s = key)

/-- `retrieve_free_semd`: a free descriptor is moved to the active list. -/
def retrieveFreeSemd (a : Asl) (key : SemKey) : Option Semd × Asl :=
  match a.semdFreeH with
  | [] => (none, a)
  | s :: free =>
      (some s,
        { a with
          semdFreeH := free
          semdH := s :: a.semdH
          sKey := Function.update a.sKey s (some key)
          sProcQ := Function.update a.sProcQ s [] })

/-- The descriptor both insertions work on: an active one, else a free one. -/
def targetSemd (a : Asl) (key : SemKey) : Option Semd × Asl :=
  match a.getSemd (some key) with
  | some s => (some s, a)
  | none => a.retrieveFreeSemd key

/-- `freeSemdIfEmpty`. -/
def freeSemdIfEmpty (a : Asl) (s : Semd) : Asl :=
  if a.sProcQ s = [] then
    { a with semdH := a.semdH.erase s, semdFreeH := s :: a.semdFreeH }
  else a

/-- The queue of a descriptor is replaced. -/
def setProcQ (a : Asl) (s : Semd) (q : List Proc) : Asl :=
  { a with sProcQ := Function.update a.sProcQ s q }

end Asl

namespace Kernel

variable {A : Arch}

/-- `insertBlockedFifo`; the result is TRUE when no descriptor is free. -/
def insertBlockedFifo (k : Kernel A) (key : SemKey) (p : Proc) : Bool × Kernel A :=
  match k.asl.targetSemd key with
  | (none, _) => (true, k)
  | (some s, a) =>
      (false,
        { k with
          asl := a.setProcQ s (a.sProcQ s ++ [p])
          pSemkey := Function.update k.pSemkey p (some key) })

/-- `insertBlocked`; the result is TRUE when no descriptor is free. -/
def insertBlocked (k : Kernel A) (key : SemKey) (p : Proc) : Bool × Kernel A :=
  match k.asl.targetSemd key with
  | (none, _) => (true, k)
  | (some s, a) =>
      (false,
        { k with
          pSemkey := Function.update k.pSemkey p (some key)
          asl := a.setProcQ s (insertProcQ k.priority (a.sProcQ s) p) })

/-- `removeBlocked`: the first process blocked on the semaphore. -/
def removeBlocked (k : Kernel A) (key : SemKey) : Option Proc × Kernel A :=
  match k.asl.getSemd (some key) with
  | none => (none, k)
  | some s =>
      match removeProcQ (k.asl.sProcQ s) with
      | (none, _) => (none, k)
      | (some p, q) =>
          (some p,
            { k with
              asl := (k.asl.setProcQ s q).freeSemdIfEmpty s
              pSemkey := Function.update k.pSemkey p none })

/-- `outBlocked`: removes `p` from the queue of the semaphore it is blocked on. -/
def outBlocked (k : Kernel A) (p : Proc) : Option Proc × Kernel A :=
  match k.asl.getSemd (k.pSemkey p) with
  | none => (none, k)
  | some s =>
      match outProcQ (k.asl.sProcQ s) p with
      | (none, q) =>
          (none, { k with asl := (k.asl.setProcQ s q).freeSemdIfEmpty s })
      | (some removed, q) =>
          (some removed,
            { k with
              pSemkey := Function.update k.pSemkey removed none
              asl := (k.asl.setProcQ s q).freeSemdIfEmpty s })

/-- `headBlocked`: the first process blocked on the semaphore, which stays there. -/
def headBlocked (k : Kernel A) (key : SemKey) : Option Proc :=
  match k.asl.getSemd (some key) with
  | none => none
  | some s => headProcQ (k.asl.sProcQ s)

end Kernel

end Bikaya
