import Bikaya.Proofs.Boot
import Bikaya.Proofs.LinkedTermination

/-!
# Bikaya: the boot on the links

`initPcbs`, `initASL` and `mkEmptyProcQ` build the rings of the kernel from storage whose
links are all NULL.  The boot of a linked kernel agrees with the one of the kernel.

**Plan.**  The loops of `initPcbs` and `initASL` put one object after the other into a
ring, so the invariant of each loop is that the ring has the objects put so far.  The rings
are built one after the other in storage that the others do not use yet.

**Results.**
* `initPcbs_spec`, `initASL_spec`: the rings after the initialization.
* `init_represents`: the initialized links represent the kernel's initial lists.
* `boot_agrees`: the boot on the links and on the lists, panics included.
-/

namespace Bikaya

open LinkRing Lockstep

namespace Memory

variable {P S K : Type} [DecidableEq P] [DecidableEq S] {m : Memory P S K}
variable {p : P} {q : List P} {active : List S}

theorem initListHead_writes (m : Memory P S K) (x : Link P S) :
    WritesLinks [x] m (m.initListHead x) := by
  refine ⟨?_, ?_, rfl, rfl, rfl, rfl⟩
  · intro y hy
    exact Function.update_of_ne (List.ne_of_not_mem_cons hy) _ _
  · intro y hy
    exact Function.update_of_ne (List.ne_of_not_mem_cons hy) _ _

/-- PCBs freed one after the other. -/
theorem foldlM_freePcb
    (table : List P) :
    ∀ {m : Memory P S K} {q : List P}, m.IsQueue .pcbFreeH q → (table.reverse ++ q).Nodup →
      ∃ m', table.foldlM freePcb m = .ok m' ∧ m'.IsQueue .pcbFreeH (table.reverse ++ q) ∧
        WritesLinks (queueLinks .pcbFreeH (table.reverse ++ q)) m m' := by
  induction table with
  | nil =>
      exact fun {m q} h _ => ⟨m, rfl, h, WritesLinks.refl _ m⟩
  | cons p table ih =>
      intro m q h hnodup
      rw [List.reverse_cons, List.append_assoc, List.singleton_append] at hnodup ⊢
      have hp : p ∉ q := (List.nodup_cons.mp (List.nodup_append.mp hnodup).2.1).1
      obtain ⟨m₁, hadd, hring, hwrites⟩ :=
        listAdd_spec h (notMem_queueLinks (fun x => by simp) hp)
      obtain ⟨m', hfold, hqueue, hwrites'⟩ := ih (q := p :: q) hring hnodup
      refine ⟨m', ?_, hqueue, WritesLinks.trans (hwrites.mono ?_) hwrites'⟩
      · rw [List.foldlM_cons, freePcb, hadd]
        exact hfold
      · intro y hy
        simp only [List.mem_cons, List.map_append, List.map_cons, List.mem_append] at hy ⊢
        tauto

/-- `initPcbs`: the free list has the PCBs in the order of the table. -/
theorem initPcbs_spec
    (m : Memory P S K) {table : List P} (hnodup : table.Nodup) :
    ∃ m', m.initPcbs table = .ok m' ∧ m'.IsQueue .pcbFreeH table ∧
      WritesLinks (queueLinks .pcbFreeH table) m m' := by
  have hempty : (m.initListHead .pcbFreeH).IsQueue .pcbFreeH [] := initListHead_isRing m .pcbFreeH
  obtain ⟨m', hfold, hqueue, hwrites⟩ :=
    foldlM_freePcb table.reverse hempty (by simpa using hnodup)
  rw [List.reverse_reverse, List.append_nil] at hqueue hwrites
  refine ⟨m', hfold, hqueue, WritesLinks.trans ?_ hwrites⟩
  exact (initListHead_writes m .pcbFreeH).mono (by simp)

/-- The links that the initialization of descriptors writes. -/
abbrev semdLinks (free table : List S) : List (Link P S) :=
  .semdFreeH :: (free.map .sNext ++ table.map .sProcQ)

/-- Descriptors freed one after the other, with an empty queue each. -/
theorem foldlM_initSemd
    (table : List S) :
    ∀ {m : Memory P S K} {free : List S}, m.IsRing (.semdFreeH :: free.map .sNext) →
      (table.reverse ++ free).Nodup →
      ∃ m', table.foldlM (fun m s =>
          ((m.initListHead (.sNext s)).initListHead (.sProcQ s)).listAdd (.sNext s) .semdFreeH) m =
            .ok m' ∧
        m'.IsRing (.semdFreeH :: (table.reverse ++ free).map .sNext) ∧
        (∀ s ∈ table, m'.IsQueue (.sProcQ s) []) ∧
        WritesLinks (semdLinks (table.reverse ++ free) table) m m' := by
  induction table with
  | nil =>
      intro m free h _
      refine ⟨m, rfl, h, ?_, WritesLinks.refl _ m⟩
      intro s hs
      exact absurd hs List.not_mem_nil
  | cons s table ih =>
      intro m free h hnodup
      rw [List.reverse_cons, List.append_assoc, List.singleton_append] at hnodup ⊢
      obtain ⟨hs, -⟩ := List.nodup_cons.mp (List.nodup_append.mp hnodup).2.1
      have hstable : s ∉ table := by
        intro hmem
        exact (List.nodup_append.mp hnodup).2.2 s (List.mem_reverse.mpr hmem) s
          List.mem_cons_self rfl
      -- the two links of the descriptor are made rings of their own
      have hnew := initListHead_writes m (.sNext s)
      have hqueue := initListHead_writes (m.initListHead (.sNext s)) (.sProcQ s)
      have hring : ((m.initListHead (.sNext s)).initListHead (.sProcQ s)).IsRing
          (.semdFreeH :: free.map .sNext) := by
        refine hqueue.isRing (hnew.isRing h ?_) ?_
        · intro x hx heq
          rw [List.mem_singleton] at heq
          subst heq
          simp [hs] at hx
        · intro x hx heq
          rw [List.mem_singleton] at heq
          subst heq
          simp at hx
      obtain ⟨m₁, hadd, hring₁, hwrites⟩ := listAdd_spec hring (x := .sNext s) (by simp [hs])
      rw [← List.map_cons] at hring₁
      obtain ⟨m', hfold, hring', hqueues, hwrites'⟩ := ih hring₁ hnodup
      refine ⟨m', ?_, hring', ?_, ?_⟩
      · rw [List.foldlM_cons, hadd]
        exact hfold
      · intro t ht
        rcases List.mem_cons.mp ht with rfl | ht
        · have hown : m₁.IsQueue (.sProcQ t) [] :=
            hwrites.isRing (initListHead_isRing _ (.sProcQ t)) (by simp)
          refine hwrites'.isRing hown ?_
          intro x hx
          obtain rfl : x = .sProcQ t := by simpa using hx
          simp [hstable]
        · exact hqueues t ht
      · refine (hnew.mono ?_).trans ((hqueue.mono ?_).trans ((hwrites.mono ?_).trans
          (hwrites'.mono ?_)))
        all_goals
          intro y hy
          simp only [List.mem_cons, List.mem_append, List.map_append, List.map_cons,
            List.not_mem_nil, or_false] at hy ⊢
          tauto

/-- `initASL`: all descriptors are free, with empty queues. -/
theorem initASL_spec
    (m : Memory P S K) {table : List S} (hnodup : table.Nodup) :
    ∃ m', m.initASL table = .ok m' ∧ m'.IsRing [.semdH] ∧
      m'.IsRing (.semdFreeH :: table.reverse.map .sNext) ∧
      (∀ s ∈ table, m'.IsQueue (.sProcQ s) []) ∧
      WritesLinks (.semdH :: semdLinks table.reverse table) m m' := by
  have hactive := initListHead_writes m .semdH
  have hfree := initListHead_writes (m.initListHead .semdH) .semdFreeH
  have hempty : ((m.initListHead .semdH).initListHead .semdFreeH).IsRing
      (.semdFreeH :: ([] : List S).map .sNext) :=
    initListHead_isRing _ .semdFreeH
  obtain ⟨m', hfold, hring, hqueues, hwrites⟩ :=
    foldlM_initSemd table hempty (by simpa using hnodup)
  rw [List.append_nil] at hring hwrites
  refine ⟨m', hfold, ?_, hring, hqueues, ?_⟩
  · refine hwrites.isRing (hfree.isRing (initListHead_isRing m .semdH) (by simp)) ?_
    intro x hx
    obtain rfl : x = .semdH := by simpa using hx
    simp
  · refine (hactive.mono ?_).trans ((hfree.mono ?_).trans (hwrites.mono ?_))
    all_goals
      intro y hy
      simp only [List.mem_cons, List.mem_append, List.not_mem_nil, or_false] at hy ⊢
      tauto

end Memory

/-- `initASL`, on the lists. -/
theorem Asl.init_eq (a : Asl) (hqueue : ∀ s, a.sProcQ s = []) :
    a.init = { a with semdH := [], semdFreeH := semdTable.reverse } := by
  have hfold : ∀ (table : List Semd) (a : Asl), (∀ s, a.sProcQ s = []) →
      table.foldl (fun a i =>
        { a with sProcQ := Function.update a.sProcQ i [], semdFreeH := i :: a.semdFreeH }) a =
        { a with semdFreeH := table.reverse ++ a.semdFreeH } := by
    intro table
    induction table with
    | nil =>
        exact fun a _ => rfl
    | cons i table ih =>
        intro a hqueue
        have hsame : Function.update a.sProcQ i [] = a.sProcQ := by
          rw [← hqueue i, Function.update_eq_self]
        rw [List.foldl_cons, hsame, ih { a with semdFreeH := i :: a.semdFreeH } hqueue,
          List.reverse_cons, List.append_assoc, List.singleton_append]
  rw [Asl.init, hfold _ { a with semdH := [], semdFreeH := [] } hqueue, List.append_nil]
  rfl

theorem pcbFreeTable_nodup : pcbFreeTable.Nodup :=
  (List.nodup_finRange _).map (fun _ _ h => Proc.pcb.inj h)

namespace LinkedKernel

variable {A : Arch} {l : LinkedKernel A} {k : Kernel A}

/-- The kernel after `initPcbs`, `initASL` and `mkEmptyProcQ`. -/
abbrev started (sem : SemAddr → Int) : Kernel A :=
  { (Kernel.bss sem : Kernel A).initPcbs with
    asl := (Kernel.bss sem : Kernel A).initPcbs.asl.init
    readyQueue := [] }

/-- The rings that the initialization builds. -/
theorem init_represents (sem : SemAddr → Int) :
    ∃ m m', (bss sem : LinkedKernel A).toMemory.initPcbs pcbFreeTable = .ok m ∧
      m.initASL semdTable = .ok m' ∧
      ((bss sem : LinkedKernel A).withLinks (m'.mkEmptyProcQ .readyQueue)).Represents
        (started sem) := by
  obtain ⟨m, hpcbs, hfree, hwrites⟩ :=
    Memory.initPcbs_spec (bss sem : LinkedKernel A).toMemory pcbFreeTable_nodup
  obtain ⟨m', hasl, hactive, hspare, hqueues, hwrites'⟩ :=
    Memory.initASL_spec m (List.nodup_finRange MAXPROC)
  have hwrites'' := Memory.initListHead_writes m' .readyQueue
  refine ⟨m, m', hpcbs, hasl, ?_⟩
  have hstarted : (started sem : Kernel A) =
      { (Kernel.bss sem : Kernel A) with
        pcbFreeH := pcbFreeTable
        asl := { (Kernel.bss sem : Kernel A).asl with
          semdH := [], semdFreeH := semdTable.reverse } } := by
    rw [started, Kernel.initPcbs_eq, Asl.init_eq _ (fun _ => rfl)]
    rfl
  rw [hstarted]
  have hfree' : (m'.mkEmptyProcQ .readyQueue).IsQueue .pcbFreeH pcbFreeTable :=
    hwrites''.isRing (hwrites'.isRing hfree (by simp)) (by simp)
  have hqueues' : ∀ s, (m'.mkEmptyProcQ .readyQueue).IsQueue (.sProcQ s) [] := fun s =>
    hwrites''.isRing (hqueues s (List.mem_finRange s)) (by simp)
  have hspare' : (m'.mkEmptyProcQ .readyQueue).IsRing
      (.semdFreeH :: semdTable.reverse.map .sNext) :=
    hwrites''.isRing hspare (by simp)
  have hactive' : (m'.mkEmptyProcQ .readyQueue).IsRing [.semdH] :=
    hwrites''.isRing hactive (by simp)
  have hpChild : ∀ a, (m'.mkEmptyProcQ .readyQueue).next (.pChild a) = none := fun a =>
    (hwrites''.next _ (by simp)).trans
      ((hwrites'.next _ (by simp)).trans (hwrites.next _ (by simp)))
  have hparent : (m'.mkEmptyProcQ .readyQueue).pParent = fun _ => none :=
    hwrites''.pParent.trans (hwrites'.pParent.trans hwrites.pParent)
  have hprio : (m'.mkEmptyProcQ .readyQueue).priority = fun _ => 0 :=
    hwrites''.priority.trans (hwrites'.priority.trans hwrites.priority)
  have hsemkey : (m'.mkEmptyProcQ .readyQueue).pSemkey = fun _ => none :=
    hwrites''.pSemkey.trans (hwrites'.pSemkey.trans hwrites.pSemkey)
  have hsKey : (m'.mkEmptyProcQ .readyQueue).sKey = fun _ => none :=
    hwrites''.sKey.trans (hwrites'.sKey.trans hwrites.sKey)
  have hbss : (bss sem : LinkedKernel A) =
      (Kernel.bss sem).linked (fun _ => none) (fun _ => none) := rfl
  rw [hbss]
  refine represents_withLinks ?_ ⟨?_, sentinel_injective, ?_⟩ (fun _ _ => rfl) ?_
  · simp only [Kernel.linked, withLinks, Kernel.bss, ← hparent, ← hprio, ← hsemkey, ← hsKey]
  · rintro ((_ | _ | s) | (_ | _))
    · exact Memory.initListHead_isRing m' .readyQueue
    · exact hfree'
    · exact hqueues' s
    · exact hspare'
    · exact hactive'
  · rintro ((_ | _ | s) | (_ | _)) j hmem
    all_goals
      rcases j with (_ | _ | t) | (_ | _) <;> simp [Threads.links, sentinel] at hmem
  · refine ⟨OrderedForest.Forest.empty, hpChild, ?_, ?_, ?_⟩
    · intro a c hc
      exact absurd hc (by simp [Kernel.bss])
    · intro a ha
      exact absurd rfl ha
    · intro a c hc
      exact absurd hc List.not_mem_nil

section Scheduler

/-- `populate_pcb`. -/
theorem populatePcb_represents (h : l.Represents k) (p : Proc) (data : ProcInitData) :
    (l.populatePcb p data).Represents (k.populatePcb p data) := by
  obtain ⟨next, prev, rfl, h⟩ := h
  exact ⟨next, prev, rfl, h⟩

/-- One starting process. -/
theorem addStartingProc_agrees
    (h : l.Represents k) (hchild : ∀ a, k.pChild a = []) (data : ProcInitData) :
    Agree (fun a b => a.Represents b ∧ ∀ x, b.pChild x = []) (l.addStartingProc data)
      (k.addStartingProc data) := by
  cases hfree : k.pcbFreeH with
  | nil =>
      simp only [addStartingProc, allocPcb_represents_nil h hfree, ok_bind,
        Kernel.addStartingProc, Kernel.allocPcb, hfree]
      exact Agree.error _
  | cons x free =>
      obtain ⟨l₁, halloc, hl₁, hx⟩ := allocPcb_represents h hfree (hchild x)
        (fun a hmem => by rw [hchild a] at hmem; exact absurd hmem List.not_mem_nil)
      have hl₂ := populatePcb_represents hl₁ x data
      simp only [Kernel.allocPcb, hfree] at hl₂
      obtain ⟨l₃, hinsert, hl₃⟩ := insertReady_represents hl₂ hx
      simp only [addStartingProc, halloc, hinsert, ok_bind, Kernel.addStartingProc,
        Kernel.allocPcb, hfree]
      refine Agree.ok ⟨hl₃, fun y => ?_⟩
      show Function.update k.pChild x [] y = []
      by_cases hy : y = x
      · rw [hy, Function.update_self]
      · rw [Function.update_of_ne hy, hchild]

/-- `init_scheduler`. -/
theorem initScheduler_agrees (sem : SemAddr → Int) (startingProcs : List ProcInitData) :
    Agree Represents ((bss sem : LinkedKernel A).initScheduler startingProcs)
      ((Kernel.bss sem : Kernel A).initScheduler startingProcs) := by
  obtain ⟨m, m', hpcbs, hasl, hstart⟩ := init_represents (A := A) sem
  have hchild : ∀ a, (started sem : Kernel A).pChild a = [] := by
    intro a
    simp only [Kernel.initPcbs_eq]
    rfl
  have hfold := Agree.foldlM
    (fun a b data (hab : LinkedKernel.Represents a b ∧ ∀ x, b.pChild x = []) =>
      addStartingProc_agrees hab.1 hab.2 data) startingProcs ⟨hstart, hchild⟩
  simp only [initScheduler, hpcbs, hasl, ok_bind, Kernel.initScheduler]
  refine hfold.bind ?_
  rintro l₁ k₁ ⟨⟨next, prev, rfl, h⟩, -⟩
  exact Agree.ok ⟨next, prev, rfl, h⟩

/-- `launch`. -/
theorem launch_agrees (h : l.Represents k) (tod : Word × Word) :
    Agree Represents (l.launch tod) (k.launch tod) := by
  have hempty : l.toMemory.emptyProcQ .readyQueue = true ↔ k.readyQueue = [] :=
    Memory.emptyProcQ_iff (h.isQueue .readyQueue)
  obtain ⟨l₁, hremove, hl₁, -⟩ := removeReady_represents h
  cases hq : k.readyQueue with
  | nil =>
      simp only [launch, hempty.mpr hq, not_true, if_false, Kernel.launch, hq, removeProcQ]
      exact Agree.error _
  | cons x q =>
      have hnonempty : l.toMemory.emptyProcQ .readyQueue = false := by
        rw [← Bool.not_eq_true, hempty, hq]
        simp
      simp only [hq, removeProcQ] at hremove hl₁
      simp only [launch, hnonempty, hremove, ok_bind, Kernel.launch, hq, removeProcQ,
        Bool.false_eq_true, not_false_eq_true, if_true]
      obtain ⟨next, prev, rfl, hlinks⟩ := hl₁
      exact Agree.ok ⟨next, prev, rfl, hlinks⟩

/-- The boot: with any starting processes both succeed, or both stop for the same reason. -/
theorem boot_agrees (sem : SemAddr → Int) (startingProcs : List ProcInitData) (tod : Word × Word) :
    Agree Represents (boot sem startingProcs tod : Except Halt (LinkedKernel A))
      (Kernel.boot sem startingProcs tod) :=
  (initScheduler_agrees sem startingProcs).bind (fun _ _ h => launch_agrees h tod)

end Scheduler

end LinkedKernel

end Bikaya
