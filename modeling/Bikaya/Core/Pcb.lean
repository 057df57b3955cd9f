import Bikaya.Core.Kernel

/-!
# Bikaya: process control blocks

The functions of `pcb.c`: the free list, the process queues and the process tree.

The embedded links of the source are lists here: the free list, a queue and the children
of a process are the lists of their elements, first element first.  A queue is ordered by
descending priority, and the loop that looks for the place of a process is the recursion on
the queue.  `outChild` keeps what the source keeps: a child that is not the first one has
the parent link it had before.

`Links.lean` has the same functions on the links themselves, and `QueueLinks.lean` and
`TreeLinks.lean` relate the two.
-/

namespace Bikaya

/-- `insertProcQ`: `p` goes in front of the first process of smaller priority. -/
def insertProcQ (priority : Proc → Int) : List Proc → Proc → List Proc
  | [], p => [p]
  | target :: q, p =>
      if priority p > priority target then p :: target :: q
      else target :: insertProcQ priority q p

/-- `headProcQ`: the first process of a queue, which stays there. -/
def headProcQ (q : List Proc) : Option Proc :=
  q.head?

/-- `removeProcQ`: the first process of a queue, and the queue without it. -/
def removeProcQ : List Proc → Option Proc × List Proc
  | [] => (none, [])
  | p :: q => (some p, q)

/-- `outProcQ`: looks for `p` in the queue and unlinks it. -/
def outProcQ : List Proc → Proc → Option Proc × List Proc
  | [], _ => (none, [])
  | target :: q, p =>
      if target = p then (some target, q)
      else ((outProcQ q p).1, target :: (outProcQ q p).2)

namespace Kernel

variable {A : Arch}

/-- `freePcb`: the PCB becomes the first of the free list. -/
def freePcb (k : Kernel A) (p : Proc) : Kernel A :=
  { k with pcbFreeH := p :: k.pcbFreeH }

/-- `initPcbs`. -/
def initPcbs (k : Kernel A) : Kernel A :=
  (List.finRange MAXPROC).reverse.foldl (fun k i => k.freePcb (.pcb i))
    { k with pcbFreeH := [] }

/--
`allocPcb`: takes the first free PCB and clears its fields.  As in the source,
`dev_w_list` is not among the fields that are cleared.
-/
def allocPcb (k : Kernel A) : Option Proc × Kernel A :=
  match k.pcbFreeH with
  | [] => (none, k)
  | p :: free =>
      (some p,
        { k with
          pcbFreeH := free
          priority := Function.update k.priority p 0
          originalPriority := Function.update k.originalPriority p 0
          pSemkey := Function.update k.pSemkey p none
          pParent := Function.update k.pParent p none
          pChild := Function.update k.pChild p []
          kernelTimer := Function.update k.kernelTimer p 0
          userTimer := Function.update k.userTimer p 0
          todCache := Function.update k.todCache p 0
          todAtStart := Function.update k.todAtStart p 0
          pS := Function.update k.pS p State.reset
          specAreas := Function.update k.specAreas p (fun _ => 0) })

/-- `emptyChild`. -/
def emptyChild (k : Kernel A) (p : Proc) : Bool :=
  (k.pChild p).isEmpty

/--
`insertChild`.  A later child has its own link to its children set to NULL, a
first child keeps it.
-/
def insertChild (k : Kernel A) : Option Proc → Option Proc → Except Halt (Kernel A)
  | some prnt, some p =>
      let k := { k with pParent := Function.update k.pParent p (some prnt) }
      if k.emptyChild prnt then
        .ok { k with pChild := Function.update k.pChild prnt [p] }
      else
        let k := { k with pChild := Function.update k.pChild prnt (k.pChild prnt ++ [p]) }
        .ok { k with pChild := Function.update k.pChild p [] }
  | _, _ => .error (.panic "ERROR: insertChild() received invalid pointers")

/-- `removeChild`: detaches and returns the first child. -/
def removeChild (k : Kernel A) (p : Proc) : Option Proc × Kernel A :=
  match k.pChild p with
  | [] => (none, k)
  | first :: rest =>
      (some first,
        { k with
          pParent := Function.update k.pParent first none
          pChild := Function.update k.pChild p rest })

/--
`outChild`: removes `p` from the children of its parent.  Only a first child has
its parent link cleared.
-/
def outChild (k : Kernel A) (p : Proc) : Except Halt (Option Proc × Kernel A) :=
  match k.pParent p with
  | none => .ok (none, k)
  | some parent =>
      match k.pChild parent with
      | [] =>
          .error (.panic
            "ERROR: outChild() couldn't find the received p, something must be broken with the tree structure")
      | first :: rest =>
          if first = p then .ok (k.removeChild parent)
          else
            .ok (some p,
              { k with pChild := Function.update k.pChild parent (first :: rest.erase p) })

end Kernel

end Bikaya
