import Bikaya.Core.System

/-!
# Bikaya: the embedded links

The functions of `listx.h`, and those of `pcb.c` and `asl.c` that walk and rewrite
the embedded `list_head`s, as they work on the memory.  The objects of type `pcb_t`
and `semd_t` are those of two arbitrary types `P` and `S`, keys are those of a type
`K`; a pointer is an `Option`, NULL being `none`.  Following a NULL pointer, or a
`list_head` taken for the field of a structure it is not a field of, is a fault.

The loops take a bound on their number of rounds.
-/

namespace Bikaya

/-- The objects of type `struct list_head`: sentinels, and fields of `pcb_t` and `semd_t`. -/
inductive Link (P S : Type) where
  | readyQueue
  | pcbFreeH
  | semdFreeH
  | semdH
  | pNext (p : P)
  | pChild (p : P)
  | pSib (p : P)
  | sNext (s : S)
  | sProcQ (s : S)
deriving DecidableEq

/-- The fields of the `list_head`s, and the other fields that the functions here use. -/
structure Memory (P S K : Type) where
  next : Link P S → Option (Link P S)
  prev : Link P S → Option (Link P S)
  pParent : P → Option P
  priority : P → Int
  pSemkey : P → Option K
  sKey : S → Option K

/-- The address behind a pointer. -/
def deref {α : Type} : Option α → Except Halt α
  | none => .error .fault
  | some a => .ok a

namespace Link

variable {P S : Type}

/-- `container_of(.., struct pcb_t, p_next)`. -/
def containerPNext : Option (Link P S) → Except Halt P
  | some (.pNext p) => .ok p
  | _ => .error .fault

/-- `container_of(.., struct pcb_t, p_child)`. -/
def containerPChild : Option (Link P S) → Except Halt P
  | some (.pChild p) => .ok p
  | _ => .error .fault

/-- `container_of(.., struct pcb_t, p_sib)`. -/
def containerPSib : Option (Link P S) → Except Halt P
  | some (.pSib p) => .ok p
  | _ => .error .fault

/-- `container_of(.., struct semd_t, s_next)`. -/
def containerSNext : Option (Link P S) → Except Halt S
  | some (.sNext s) => .ok s
  | _ => .error .fault

end Link

namespace Memory

variable {P S K : Type} [DecidableEq P] [DecidableEq S]

def setNext (m : Memory P S K) (l : Link P S) (value : Option (Link P S)) : Memory P S K :=
  { m with next := Function.update m.next l value }

def setPrev (m : Memory P S K) (l : Link P S) (value : Option (Link P S)) : Memory P S K :=
  { m with prev := Function.update m.prev l value }

def setParent (m : Memory P S K) (p : P) (value : Option P) : Memory P S K :=
  { m with pParent := Function.update m.pParent p value }

def setPriority (m : Memory P S K) (p : P) (value : Int) : Memory P S K :=
  { m with priority := Function.update m.priority p value }

def setSemkey (m : Memory P S K) (p : P) (value : Option K) : Memory P S K :=
  { m with pSemkey := Function.update m.pSemkey p value }

def setKey (m : Memory P S K) (s : S) (value : Option K) : Memory P S K :=
  { m with sKey := Function.update m.sKey s value }

/-! ## `listx.h` -/

/-- `INIT_LIST_HEAD`. -/
def initListHead (m : Memory P S K) (list : Link P S) : Memory P S K :=
  (m.setNext list (some list)).setPrev list (some list)

/-- `__list_add`: `new` is put between `prev` and `next`. -/
def listAddBetween (m : Memory P S K) (new : Link P S) (prev next : Option (Link P S)) :
    Except Halt (Memory P S K) := do
  let nextAt ← deref next
  let m := m.setPrev nextAt (some new)
  let m := m.setNext new next
  let m := m.setPrev new prev
  let prevAt ← deref prev
  return m.setNext prevAt (some new)

/-- `list_add`. -/
def listAdd (m : Memory P S K) (new head : Link P S) : Except Halt (Memory P S K) :=
  m.listAddBetween new (some head) (m.next head)

/-- `list_add_tail`. -/
def listAddTail (m : Memory P S K) (new head : Link P S) : Except Halt (Memory P S K) :=
  m.listAddBetween new (m.prev head) (some head)

/-- `__list_del`: `prev` and `next` are linked to each other. -/
def listDelBetween (m : Memory P S K) (prev next : Option (Link P S)) :
    Except Halt (Memory P S K) := do
  let nextAt ← deref next
  let m := m.setPrev nextAt prev
  let prevAt ← deref prev
  return m.setNext prevAt next

/-- `list_del`. -/
def listDel (m : Memory P S K) (entry : Link P S) : Except Halt (Memory P S K) :=
  m.listDelBetween (m.prev entry) (m.next entry)

/-- `list_empty`. -/
def listEmpty (m : Memory P S K) (head : Link P S) : Bool :=
  m.next head = some head

/-- `list_next`: NULL for a list that is empty. -/
def listNext (m : Memory P S K) (current : Link P S) : Option (Link P S) :=
  if m.listEmpty current then none else m.next current

/-! ## `pcb.c` -/

/-- `freePcb`: the PCB becomes the first of the free list. -/
def freePcb (m : Memory P S K) (p : P) : Except Halt (Memory P S K) :=
  m.listAdd (.pNext p) .pcbFreeH

/-- `initPcbs`; the argument is `pcbFree_table`, which the loop walks from its end. -/
def initPcbs (m : Memory P S K) (pcbFreeTable : List P) : Except Halt (Memory P S K) :=
  pcbFreeTable.reverse.foldlM freePcb (m.initListHead .pcbFreeH)

/-- `allocPcb`: takes the first free PCB and clears its fields. -/
def allocPcb (m : Memory P S K) : Except Halt (Option P × Memory P S K) :=
  if m.listEmpty .pcbFreeH then .ok (none, m)
  else do
    let firstFreePcb ← Link.containerPNext (m.listNext .pcbFreeH)
    let m ← m.listDel (.pNext firstFreePcb)
    let m := m.setPriority firstFreePcb 0
    let m := m.setSemkey firstFreePcb none
    let m := m.setParent firstFreePcb none
    let m := m.setNext (.pChild firstFreePcb) none
    let m := m.setPrev (.pChild firstFreePcb) none
    let m := m.initListHead (.pNext firstFreePcb)
    let m := m.initListHead (.pSib firstFreePcb)
    return (some firstFreePcb, m)

/-- `mkEmptyProcQ`. -/
def mkEmptyProcQ (m : Memory P S K) (head : Link P S) : Memory P S K :=
  m.initListHead head

/-- `emptyProcQ`. -/
def emptyProcQ (m : Memory P S K) (head : Link P S) : Bool :=
  m.listEmpty head

/-- The loop of `insertProcQ`; `target` is the link of the current PCB, or the sentinel. -/
def insertProcQFrom (m : Memory P S K) (head : Link P S) (p : P) :
    Nat → Link P S → Except Halt (Memory P S K)
  | 0, _ => .error .fuel
  | fuel + 1, target => do
      if target = head then
        m.listAddTail (.pNext p) head
      else
        let targetPcb ← Link.containerPNext (some target)
        if m.priority p > m.priority targetPcb then
          m.listAddBetween (.pNext p) (m.prev target) (some target)
        else
          let target ← deref (m.next target)
          m.insertProcQFrom head p fuel target

/-- `insertProcQ`: `p` goes in front of the first process of smaller priority. -/
def insertProcQ (fuel : Nat) (m : Memory P S K) (head : Link P S) (p : P) :
    Except Halt (Memory P S K) := do
  let target ← deref (m.next head)
  m.insertProcQFrom head p fuel target

/-- `headProcQ`. -/
def headProcQ (m : Memory P S K) (head : Link P S) : Except Halt (Option P) :=
  if ¬ m.listEmpty head then do
    let next ← Link.containerPNext (m.listNext head)
    return some next
  else .ok none

/-- `removeProcQ`. -/
def removeProcQ (m : Memory P S K) (head : Link P S) :
    Except Halt (Option P × Memory P S K) :=
  if m.listEmpty head then .ok (none, m)
  else do
    let requestPcb ← Link.containerPNext (m.listNext head)
    let m ← m.listDel (.pNext requestPcb)
    return (some requestPcb, m)

/-- The loop of `outProcQ`. -/
def outProcQFrom (m : Memory P S K) (head : Link P S) (p : P) :
    Nat → Link P S → Except Halt (Option P × Memory P S K)
  | 0, _ => .error .fuel
  | fuel + 1, target => do
      if target = head then
        return (none, m)
      else
        let targetPcb ← Link.containerPNext (some target)
        if targetPcb = p then
          let m ← m.listDel (.pNext p)
          return (some targetPcb, m)
        else
          let target ← deref (m.next target)
          m.outProcQFrom head p fuel target

/-- `outProcQ`: looks for `p` in the queue and unlinks it. -/
def outProcQ (fuel : Nat) (m : Memory P S K) (head : Link P S) (p : P) :
    Except Halt (Option P × Memory P S K) := do
  let target ← deref (m.next head)
  m.outProcQFrom head p fuel target

/-- `emptyChild`. -/
def emptyChild (m : Memory P S K) (this : P) : Bool :=
  m.next (.pChild this) = none

/-- `insertChild`. -/
def insertChild (m : Memory P S K) : Option P → Option P → Except Halt (Memory P S K)
  | some prnt, some p =>
      let m := m.setParent p (some prnt)
      if m.emptyChild prnt then
        let m := m.setNext (.pChild prnt) (some (.pChild p))
        let m := m.setPrev (.pChild p) (some (.pChild prnt))
        let m := m.setNext (.pSib p) none
        .ok (m.initListHead (.pSib p))
      else do
        let firstChild ← Link.containerPChild (m.listNext (.pChild prnt))
        let m ← m.listAddTail (.pSib p) (.pSib firstChild)
        return m.setNext (.pChild p) none
  | _, _ => .error (.panic "ERROR: insertChild() received invalid pointers")

/-- `removeChild`: the next sibling of the first child takes over its place. -/
def removeChild (m : Memory P S K) (p : P) : Except Halt (Option P × Memory P S K) :=
  if m.emptyChild p then .ok (none, m)
  else do
    let firstChild ← Link.containerPChild (m.next (.pChild p))
    let m := m.setParent firstChild none
    let m := m.setPrev (.pChild firstChild) none
    if ¬ m.listEmpty (.pSib firstChild) then
      let firstSibling ← Link.containerPSib (m.listNext (.pSib firstChild))
      let m := m.setNext (.pChild p) (some (.pChild firstSibling))
      let m := m.setPrev (.pChild firstSibling) (some (.pChild p))
      let m ← m.listDel (.pSib firstChild)
      return (some firstChild, m)
    else
      return (some firstChild, m.setNext (.pChild p) none)

/-- `outChild`. -/
def outChild (m : Memory P S K) (p : P) : Except Halt (Option P × Memory P S K) :=
  match m.pParent p with
  | none => .ok (none, m)
  | some parent =>
      if ¬ m.emptyChild parent then do
        let firstChild ← Link.containerPChild (m.next (.pChild parent))
        if firstChild = p then
          m.removeChild parent
        else
          let m ← m.listDel (.pSib p)
          return (some p, m)
      else
        .error (.panic
          "ERROR: outChild() couldn't find the received p, something must be broken with the tree structure")

/-- `nextSibling`. -/
def nextSibling (m : Memory P S K) (target first : P) : Except Halt (Option P) :=
  if m.next (.pSib target) = some (.pSib first) then .ok none
  else do
    let sibling ← Link.containerPSib (m.next (.pSib target))
    return some sibling

/-! ## `asl.c` -/

/-- `initASL`; the argument is `semd_table`. -/
def initASL (m : Memory P S K) (semdTable : List S) : Except Halt (Memory P S K) :=
  semdTable.foldlM
    (fun m s => ((m.initListHead (.sNext s)).initListHead (.sProcQ s)).listAdd (.sNext s) .semdFreeH)
    ((m.initListHead .semdH).initListHead .semdFreeH)

/-- `retrieve_free_semd`: the first free descriptor is moved to the active list. -/
def retrieveFreeSemd (m : Memory P S K) (key : Option K) :
    Except Halt (Option S × Memory P S K) :=
  if m.listEmpty .semdFreeH then .ok (none, m)
  else do
    let firstFree ← deref (m.listNext .semdFreeH)
    let m ← m.listDel firstFree
    let m ← m.listAdd firstFree .semdH
    let targetSemd ← Link.containerSNext (some firstFree)
    let m := m.setKey targetSemd key
    return (some targetSemd, m.initListHead (.sProcQ targetSemd))

variable [DecidableEq K]

/-- The loop of `getSemd`. -/
def getSemdFrom (m : Memory P S K) (key : Option K) : Nat → Link P S → Except Halt (Option S)
  | 0, _ => .error .fuel
  | fuel + 1, target => do
      if target = .semdH then
        return none
      else
        let semd ← Link.containerSNext (some target)
        if m.sKey semd = key then
          return some semd
        else
          let target ← deref (m.next target)
          m.getSemdFrom key fuel target

/-- `getSemd`: the first active descriptor with the given key. -/
def getSemd (fuel : Nat) (m : Memory P S K) (key : Option K) : Except Halt (Option S) := do
  let target ← deref (m.next .semdH)
  m.getSemdFrom key fuel target

/-- The descriptor both insertions work on: an active one, else a free one. -/
def targetSemd (fuel : Nat) (m : Memory P S K) (key : K) :
    Except Halt (Option S × Memory P S K) := do
  match ← m.getSemd fuel (some key) with
  | some targetSemd => return (some targetSemd, m)
  | none => m.retrieveFreeSemd (some key)

/-- `insertBlockedFifo`; the result is TRUE when no descriptor is free. -/
def insertBlockedFifo (fuel : Nat) (m : Memory P S K) (key : K) (p : P) :
    Except Halt (Bool × Memory P S K) := do
  match ← m.targetSemd fuel key with
  | (none, m) => return (true, m)
  | (some targetSemd, m) =>
      let m ← m.listAddTail (.pNext p) (.sProcQ targetSemd)
      return (false, m.setSemkey p (some key))

/-- `insertBlocked`; the result is TRUE when no descriptor is free. -/
def insertBlocked (fuel : Nat) (m : Memory P S K) (key : K) (p : P) :
    Except Halt (Bool × Memory P S K) := do
  match ← m.targetSemd fuel key with
  | (none, m) => return (true, m)
  | (some targetSemd, m) =>
      let m := m.setSemkey p (some key)
      let m ← m.insertProcQ fuel (.sProcQ targetSemd) p
      return (false, m)

/-- `freeSemdIfEmpty`. -/
def freeSemdIfEmpty (m : Memory P S K) (targetSemd : S) : Except Halt (Memory P S K) :=
  if m.listEmpty (.sProcQ targetSemd) then do
    let m ← m.listDel (.sNext targetSemd)
    m.listAdd (.sNext targetSemd) .semdFreeH
  else .ok m

/-- `removeBlocked`: the first process blocked on the semaphore. -/
def removeBlocked (fuel : Nat) (m : Memory P S K) (key : K) :
    Except Halt (Option P × Memory P S K) := do
  match ← m.getSemd fuel (some key) with
  | none => return (none, m)
  | some targetSemd =>
      match ← m.removeProcQ (.sProcQ targetSemd) with
      | (none, m) => return (none, m)
      | (some targetPcb, m) =>
          let m := m.setSemkey targetPcb none
          let m ← m.freeSemdIfEmpty targetSemd
          return (some targetPcb, m)

/-- `headBlocked`: the first process blocked on the semaphore, which stays there. -/
def headBlocked (fuel : Nat) (m : Memory P S K) (key : K) : Except Halt (Option P) := do
  match ← m.getSemd fuel (some key) with
  | none => return none
  | some targetSemd =>
      if m.listEmpty (.sProcQ targetSemd) then return none
      else do
        let head ← Link.containerPNext (m.listNext (.sProcQ targetSemd))
        return some head

/-- `outBlocked`: removes `p` from the queue of the semaphore it is blocked on. -/
def outBlocked (fuel : Nat) (m : Memory P S K) (p : P) :
    Except Halt (Option P × Memory P S K) := do
  match ← m.getSemd fuel (m.pSemkey p) with
  | none => return (none, m)
  | some targetSemd =>
      match ← m.outProcQ fuel (.sProcQ targetSemd) p with
      | (none, m) =>
          let m ← m.freeSemdIfEmpty targetSemd
          return (none, m)
      | (some removedPcb, m) =>
          let m := m.setSemkey removedPcb none
          let m ← m.freeSemdIfEmpty targetSemd
          return (some removedPcb, m)

mutual

/-- `outChildBlocked`: visits `p` and then its children, one after the other. -/
def outChildBlocked : Nat → Memory P S K → P → Except Halt (Memory P S K)
  | 0, _, _ => .error .fuel
  | fuel + 1, m, p => do
      let (_, m) ← m.outBlocked fuel p
      if ¬ m.emptyChild p then
        let first ← Link.containerPChild (m.listNext (.pChild p))
        outSiblingsBlocked fuel m first first
      else
        return m

/-- The `do`-`while` loop of `outChildBlocked`. -/
def outSiblingsBlocked : Nat → Memory P S K → P → P → Except Halt (Memory P S K)
  | 0, _, _, _ => .error .fuel
  | fuel + 1, m, target, first => do
      let m ← outChildBlocked fuel m target
      match ← m.nextSibling target first with
      | none => return m
      | some target => outSiblingsBlocked fuel m target first

end

end Memory

end Bikaya
