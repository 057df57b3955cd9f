import Bikaya.Core.SystemMps
import Bikaya.Library.AgingQueue
import Bikaya.Proofs.Effects

/-!
# Bikaya: the booted kernel

`init_scheduler` followed by `launch`.  With 1 to `MAXPROC` starting processes the boot
succeeds, and the kernel it leaves satisfies everything the later invariants start from.

**Plan.**  `Booting` is the invariant of `init_scheduler` and of the loop that adds the
starting processes: the lists are separated, the added processes are ready in order, the
others free, and nothing has happened yet.  `launch` then takes the first of the ready
queue, which is not empty.  The two readings of the clock that it takes are parameters.

**Results.**
* `boot_spec`: with 1 to `MAXPROC` starting processes the boot returns.
* `Booted.fresh`: the state it leaves has sound lists, an empty tree, idle devices, and a
  running process that is none of the ready ones.
* `bootMps`: a booted kernel with given priorities, where the examples start.
-/

namespace Bikaya

open StableInsert AgingQueue

theorem Asl.init_ok (a : Asl) :
    a.init.Ok ∧ ∀ key, a.init.waitQueue key = [] := by
  have hfold : ∀ (l : List Semd) (a : Asl),
      (l.foldl (fun a i =>
        { a with sProcQ := Function.update a.sProcQ i [], semdFreeH := i :: a.semdFreeH })
        a).semdH = a.semdH ∧
      (l.foldl (fun a i =>
        { a with sProcQ := Function.update a.sProcQ i [], semdFreeH := i :: a.semdFreeH })
        a).semdFreeH = l.reverse ++ a.semdFreeH := by
    intro l
    induction l with
    | nil =>
        exact fun a => ⟨rfl, rfl⟩
    | cons i l ih =>
        intro a
        obtain ⟨hactive, hfree⟩ := ih
          { a with sProcQ := Function.update a.sProcQ i [], semdFreeH := i :: a.semdFreeH }
        exact ⟨hactive, by rw [List.foldl_cons, hfree]; simp⟩
  obtain ⟨hactive, hfree⟩ := hfold (List.finRange MAXPROC) { a with semdH := [], semdFreeH := [] }
  change a.init.semdH = [] at hactive
  change a.init.semdFreeH = _ at hfree
  constructor
  · constructor
    · rw [hactive]
      exact List.nodup_nil
    · rw [hfree, List.append_nil, List.nodup_reverse]
      exact List.nodup_finRange _
    · intro s
      rw [hfree]
      simp
    all_goals
      rw [hactive]
      simp
  · intro key
    rw [Asl.waitQueue, Asl.getSemd, hactive]
    rfl

namespace Kernel

variable {A : Arch} {k : Kernel A}

/-- The kernel while `init_scheduler` runs, after `j` starting processes. -/
structure Booting (k : Kernel A) (j : Nat) : Prop where
  aslOk : k.asl.Ok
  noWaiters : ∀ key, k.waitQueue key = []
  semkey : ∀ x, k.pSemkey x = none
  unregistered : ∀ x, k.devWList x = none
  parent : ∀ x, k.pParent x = none
  child : ∀ x, k.pChild x = []
  free : k.pcbFreeH = ((List.finRange MAXPROC).drop j).map .pcb
  ready : ∀ x, x ∈ k.readyQueue ↔ ∃ i : Fin MAXPROC, x = .pcb i ∧ (i : Nat) < j
  nodup : k.readyQueue.Nodup
  priority : ∀ x, k.priority x = k.originalPriority x
  sorted : NonIncreasing k.priority k.readyQueue
  inOrder : ∀ x y, Precedes k.readyQueue x y → k.priority x = k.priority y → x.index < y.index
  userTimer : ∀ x, k.userTimer x = 0
  kernelTimer : ∀ x, k.kernelTimer x = 0
  todAtStart : ∀ x, k.todAtStart x = 0
  specAreas : ∀ x, k.specAreas x = fun _ => 0
  bus : k.bus = []
  slices : k.slices = 0

theorem initPcbs_eq (k : Kernel A) :
    k.initPcbs = { k with pcbFreeH := (List.finRange MAXPROC).map .pcb } := by
  have hfold : ∀ (l : List (Fin MAXPROC)) (k : Kernel A),
      l.foldl (fun k i => k.freePcb (.pcb i)) k =
        { k with pcbFreeH := l.reverse.map .pcb ++ k.pcbFreeH } := by
    intro l
    induction l with
    | nil =>
        exact fun k => rfl
    | cons i l ih =>
        intro k
        rw [List.foldl_cons, ih]
        simp [freePcb]
  rw [initPcbs, hfold]
  simp

/-- The lists before the first starting process is added. -/
theorem Booting.start (sem : SemAddr → Int) :
    Booting
      { (bss sem : Kernel A).initPcbs with
        asl := (bss sem : Kernel A).initPcbs.asl.init
        readyQueue := [] } 0 := by
  rw [initPcbs_eq]
  obtain ⟨hOk, hwait⟩ := Asl.init_ok (bss sem : Kernel A).asl
  constructor
  · exact hOk
  · exact hwait
  all_goals first
    | (intro x; rfl)
    | rfl
    | skip
  · intro x
    simp
  · exact List.nodup_nil
  · exact List.Pairwise.nil
  · intro x y hxy
    exact absurd hxy.left_mem List.not_mem_nil

/-- One more starting process. -/
theorem Booting.addStartingProc
    {j : Nat} (h : Booting k j) (hj : j < MAXPROC) (data : ProcInitData) :
    ∃ k', k.addStartingProc data = .ok k' ∧ Booting k' (j + 1) := by
  have hlen : j < (List.finRange MAXPROC).length := by simpa using hj
  set x : Proc := .pcb ⟨j, hj⟩ with hx
  have hfree : k.pcbFreeH = x :: ((List.finRange MAXPROC).drop (j + 1)).map .pcb := by
    rw [h.free, List.drop_eq_getElem_cons hlen]
    simp [hx]
  have hxready : x ∉ k.readyQueue := by
    intro hmem
    obtain ⟨i, hxi, hi⟩ := (h.ready x).mp hmem
    rw [hx, Proc.pcb.injEq] at hxi
    rw [← hxi] at hi
    exact absurd hi (lt_irrefl j)
  have hne : ∀ y ∈ k.readyQueue, y ≠ x := by
    rintro y hy rfl
    exact hxready hy
  set priority := Function.update (Function.update k.priority x 0) x data.priority with hpriority
  have hsame : ∀ y ∈ k.readyQueue, priority y = k.priority y := by
    intro y hy
    rw [hpriority, Function.update_of_ne (hne y hy), Function.update_of_ne (hne y hy)]
  have hevolves : Evolves k.priority k.readyQueue priority
      (insertProcQ priority k.readyQueue x) :=
    Evolves.enter k.readyQueue x (List.Sublist.refl _) (SameOrder.of_eq hsame) hxready
      (insertProcQ_eq _ _ _)
  have hnodup : (insertProcQ priority k.readyQueue x).Nodup :=
    (insertProcQ_perm _ _ _).nodup_iff.mpr (List.nodup_cons.mpr ⟨hxready, h.nodup⟩)
  have hindex : ∀ y ∈ k.readyQueue, y.index < j := by
    intro y hy
    obtain ⟨i, rfl, hi⟩ := (h.ready y).mp hy
    exact hi
  refine ⟨_, by rw [Kernel.addStartingProc, allocPcb, hfree], ?_⟩
  have hclear : ∀ {β : Type} (f : Proc → β) (b : β), (∀ y, f y = b) →
      ∀ y, Function.update f x b y = b := by
    intro β f b hf y
    by_cases hy : y = x
    · rw [hy, Function.update_self]
    · rw [Function.update_of_ne hy, hf]
  constructor
  · exact h.aslOk
  · exact h.noWaiters
  · exact hclear _ none h.semkey
  · exact h.unregistered
  · exact hclear _ none h.parent
  · exact hclear _ [] h.child
  · rfl
  · intro y
    show y ∈ insertProcQ priority k.readyQueue x ↔ _
    rw [mem_insertProcQ, h.ready y]
    constructor
    · rintro (rfl | ⟨i, rfl, hi⟩)
      · exact ⟨⟨j, hj⟩, rfl, Nat.lt_succ_self j⟩
      · exact ⟨i, rfl, Nat.lt_succ_of_lt hi⟩
    · rintro ⟨i, rfl, hi⟩
      rcases Nat.lt_succ_iff_lt_or_eq.mp hi with hi | hi
      · exact Or.inr ⟨i, rfl, hi⟩
      · exact Or.inl (by rw [hx]; exact congrArg Proc.pcb (Fin.ext hi))
  · exact hnodup
  · intro y
    show priority y =
      Function.update (Function.update k.originalPriority x 0) x data.priority y
    by_cases hy : y = x
    · rw [hy, hpriority, Function.update_self, Function.update_self]
    · rw [hpriority, Function.update_of_ne hy, Function.update_of_ne hy,
        Function.update_of_ne hy, Function.update_of_ne hy, h.priority]
  · exact hevolves.nonIncreasing h.sorted
  · intro y z hyz hkey
    change Precedes (insertProcQ priority k.readyQueue x) y z at hyz
    change priority y = priority z at hkey
    have hyz' : y ≠ z := hyz.ne hnodup
    rcases mem_insertProcQ.mp hyz.right_mem with rfl | hz
    · rcases mem_insertProcQ.mp hyz.left_mem with rfl | hy
      · exact absurd rfl hyz'
      · exact hindex y hy
    · obtain ⟨hprec, hkey'⟩ := hevolves.precedes_back h.sorted hyz hkey hz
      exact h.inOrder y z hprec hkey'
  · exact hclear _ 0 h.userTimer
  · exact hclear _ 0 h.kernelTimer
  · exact hclear _ 0 h.todAtStart
  · exact hclear _ (fun _ => 0) h.specAreas
  · exact h.bus
  · exact h.slices

/-- All the starting processes. -/
theorem Booting.foldlM
    (procs : List ProcInitData) :
    ∀ {k : Kernel A} {j : Nat}, Booting k j → j + procs.length ≤ MAXPROC →
      ∃ k', procs.foldlM Kernel.addStartingProc k = .ok k' ∧ Booting k' (j + procs.length) := by
  induction procs with
  | nil =>
      intro k j h _
      exact ⟨k, rfl, h⟩
  | cons data procs ih =>
      intro k j h hj
      rw [List.length_cons] at hj
      obtain ⟨k₁, hadd, h₁⟩ := h.addStartingProc (by omega) data
      obtain ⟨k₂, hfold, h₂⟩ := ih h₁ (by omega)
      refine ⟨k₂, ?_, ?_⟩
      · rw [List.foldlM_cons, hadd]
        exact hfold
      · rw [List.length_cons, show j + (procs.length + 1) = j + 1 + procs.length by omega]
        exact h₂

/-- What holds of a booted kernel. -/
structure Fresh (k : Kernel A) : Prop where
  ok : k.Ok
  accounted : k.Accounted
  unregistered : ∀ x, k.devWList x = none
  noWaiters : ∀ key, k.waitQueue key = []
  priority : ∀ x, k.priority x = k.originalPriority x
  sorted : NonIncreasing k.priority k.readyQueue
  top : ∀ x ∈ k.readyQueue, k.priority x ≤ k.priority k.runningProc
  busy : k.runningProc ≠ .idle
  inOrder : ∀ x y, Precedes k.readyQueue x y → k.priority x = k.priority y → x.index < y.index
  wForCmdSem : ∀ d, k.wForCmdSem d = 1
  wForRes : ∀ d, k.wForRes d = none
  parent : ∀ x, k.pParent x = none
  child : ∀ x, k.pChild x = []
  userTimer : ∀ x, k.userTimer x = 0
  kernelTimer : ∀ x, k.kernelTimer x = 0
  specAreas : ∀ x, k.specAreas x = fun _ => 0
  bus : k.bus = []
  slices : k.slices = 0

/-- The lists of a kernel that is ready for its launch are separated. -/
theorem Booting.residence
    {j : Nat} (h : Booting k j) :
    Residence k.asl k.pcbFreeH k.readyQueue k.pSemkey where
  aslOk := h.aslOk
  separated := by
    have hfree : ∀ x, x ∈ k.pcbFreeH → x ∉ k.readyQueue := by
      intro x hx hready
      obtain ⟨i, rfl, hi⟩ := (h.ready x).mp hready
      rw [h.free] at hx
      obtain ⟨i', hi', hii⟩ := List.mem_map.mp hx
      obtain rfl := Proc.pcb.inj hii
      obtain ⟨n, hn, hget⟩ := List.mem_iff_getElem.mp hi'
      rw [List.getElem_drop, List.getElem_finRange] at hget
      rw [← hget] at hi
      change j + n < j at hi
      omega
    constructor
    · rintro (_ | _ | key)
      · show k.pcbFreeH.Nodup
        rw [h.free]
        refine List.Nodup.map (fun i i' hi => Proc.pcb.inj hi) ?_
        exact (List.nodup_finRange _).sublist (List.drop_sublist _ _)
      · exact h.nodup
      · show (k.waitQueue key).Nodup
        rw [h.noWaiters]
        exact List.nodup_nil
    · rintro (_ | _ | key) (_ | _ | key') x hx hx'
      · rfl
      · exact absurd hx' (hfree x hx)
      · change x ∈ k.waitQueue key' at hx'
        rw [h.noWaiters] at hx'
        exact absurd hx' List.not_mem_nil
      · exact absurd hx (hfree x hx')
      · rfl
      · change x ∈ k.waitQueue key' at hx'
        rw [h.noWaiters] at hx'
        exact absurd hx' List.not_mem_nil
      all_goals
        change x ∈ k.waitQueue key at hx
        rw [h.noWaiters] at hx
        exact absurd hx List.not_mem_nil
  semkey := by
    intro x key
    show _ ↔ x ∈ k.waitQueue key
    rw [h.semkey, h.noWaiters]
    simp

theorem Booting.tree
    {j : Nat} (h : Booting k j) :
    TreeOk k.pParent k.pChild k.pcbFreeH where
  forest :=
    { nodup := fun a => by rw [h.child]; exact List.nodup_nil
      unique := fun b a _ hb => by rw [h.child] at hb; exact absurd hb List.not_mem_nil
      wellFounded := ⟨fun a => ⟨a, fun b hb => by
        rw [OrderedForest.ChildOf, h.child] at hb
        exact absurd hb List.not_mem_nil⟩⟩ }
  childParent := fun a b hb => by rw [h.child] at hb; exact absurd hb List.not_mem_nil
  parentChild := fun b a _ hp => by rw [h.parent] at hp; exact absurd hp (by simp)
  freeChildless := fun a _ => h.child a
  idleParent := h.parent _
  idleChildless := h.child _

/-- The starting processes are entries of the table. -/
theorem Booting.ne_idle
    {j : Nat} (h : Booting k j) {x : Proc} (hx : x ∈ k.readyQueue) :
    x ≠ .idle := by
  obtain ⟨i, rfl, -⟩ := (h.ready x).mp hx
  simp

theorem Booting.absent_idle
    {j : Nat} (h : Booting k j) :
    Residence.Absent k.asl k.pcbFreeH k.readyQueue .idle := by
  refine Residence.absent_iff.mpr ⟨?_, fun hx => h.ne_idle hx rfl, fun key => ?_⟩
  · rw [h.free]
    intro hmem
    obtain ⟨i, -, hi⟩ := List.mem_map.mp hmem
    exact Proc.noConfusion hi
  · show Proc.idle ∉ k.waitQueue key
    rw [h.noWaiters]
    exact List.not_mem_nil

/-- An entry of the table that is not used by a starting process is free. -/
theorem Booting.ready_or_free
    {j : Nat} (h : Booting k j) {x : Proc} (hx : x ≠ .idle) :
    x ∈ k.readyQueue ∨ x ∈ k.pcbFreeH := by
  cases x with
  | idle =>
      exact absurd rfl hx
  | pcb i =>
      by_cases hi : (i : Nat) < j
      · exact Or.inl ((h.ready _).mpr ⟨i, rfl, hi⟩)
      · refine Or.inr ?_
        rw [h.free]
        refine List.mem_map.mpr ⟨i, ?_, rfl⟩
        refine List.mem_iff_getElem.mpr ⟨i - j, ?_, ?_⟩
        · rw [List.length_drop, List.length_finRange]
          have := i.isLt
          omega
        · rw [List.getElem_drop, List.getElem_finRange]
          exact Fin.ext (by simp; omega)

/-- The boot succeeds, and leaves a fresh kernel. -/
theorem boot_spec
    (sem : SemAddr → Int) (startingProcs : List ProcInitData) (tod : Word × Word)
    (hpos : 1 ≤ startingProcs.length) (hmax : startingProcs.length ≤ MAXPROC) :
    ∃ k : Kernel A, boot sem startingProcs tod = .ok k ∧ k.Fresh ∧
      k.todCache k.runningProc = tod.2 ∧
      k.todAtStart = Function.update (fun _ => 0) k.runningProc tod.1 := by
  obtain ⟨k₁, hfold, h₁⟩ :=
    Booting.foldlM startingProcs (Booting.start (A := A) sem) (by omega)
  rw [Nat.zero_add] at h₁
  cases hq : k₁.readyQueue with
  | nil =>
      have : (Proc.pcb 0) ∈ k₁.readyQueue := (h₁.ready _).mpr ⟨0, rfl, hpos⟩
      rw [hq] at this
      exact absurd this List.not_mem_nil
  | cons r q =>
      refine ⟨_, by
        simp only [boot, initScheduler, hfold, bind, Except.bind, launch, populatePcb, hq]
        rfl, ?_, Function.update_self _ _ _, ?_⟩
      swap
      · show Function.update k₁.todAtStart r tod.1 = _
        rw [show k₁.todAtStart = fun _ => 0 from funext h₁.todAtStart]
        rfl
      have hready : ∀ x ∈ r :: q, x ≠ .idle := fun x hx => h₁.ne_idle (hq ▸ hx)
      have hidle := h₁.absent_idle
      have hres := h₁.residence
      have hsorted := h₁.sorted
      have hinOrder := h₁.inOrder
      rw [hq] at hidle hres hsorted hinOrder
      have htail : q ⊆ r :: q := List.subset_cons_self r q
      -- the idle process is set up last, which leaves the other priorities alone
      have hprio : ∀ x ∈ r :: q,
          Function.update k₁.priority .idle (idleProcData A).priority x = k₁.priority x :=
        fun x hx => Function.update_of_ne (hready x hx) _ _
      have hsame : SameOrder k₁.priority
          (Function.update k₁.priority .idle (idleProcData A).priority) (r :: q) :=
        SameOrder.of_eq hprio
      constructor
      · exact
          { residence := hres.leaveReady (List.sublist_cons_self r q)
            tree := h₁.tree
            idle := Residence.absent_leaveReady hidle htail
            running := Residence.absent_readyHead hres }
      · intro x hxidle hx
        obtain ⟨hfree, hready', -⟩ := Residence.absent_iff.mp hx
        show x = r
        change x ∉ q at hready'
        rcases h₁.ready_or_free hxidle with hmem | hmem
        · rw [hq] at hmem
          exact (List.mem_cons.mp hmem).resolve_right hready'
        · exact absurd hmem hfree
      · exact h₁.unregistered
      · exact h₁.noWaiters
      · intro x
        show Function.update k₁.priority .idle _ x = Function.update k₁.originalPriority .idle _ x
        by_cases hx : x = .idle
        · rw [hx, Function.update_self, Function.update_self]
        · rw [Function.update_of_ne hx, Function.update_of_ne hx, h₁.priority]
      · exact (hsame.nonIncreasing hsorted).sublist (List.sublist_cons_self r q)
      · intro x hx
        exact (hsame.nonIncreasing hsorted).le_head (htail hx)
      · exact hready r List.mem_cons_self
      · intro x y hxy hkey
        have hxy' : Precedes (r :: q) x y :=
          List.Sublist.trans hxy (List.sublist_cons_self r q)
        refine hinOrder x y hxy' ?_
        rw [← hprio x hxy'.left_mem, ← hprio y hxy'.right_mem]
        exact hkey
      · exact fun d => rfl
      · exact fun d => rfl
      · exact h₁.parent
      · exact h₁.child
      · exact h₁.userTimer
      · exact h₁.kernelTimer
      · exact h₁.specAreas
      · exact h₁.bus
      · exact h₁.slices

/-- A booted kernel is fresh. -/
theorem Booted.fresh (h : k.Booted) : k.Fresh := by
  obtain ⟨sem, startingProcs, tod, hpos, hmax, hboot⟩ := h
  obtain ⟨k', hboot', hfresh, -⟩ := boot_spec (A := A) sem startingProcs tod hpos hmax
  obtain rfl : k = k' := Except.ok.inj (hboot.symm.trans hboot')
  exact hfresh

/-- A starting process of the given priority, with interrupts on. -/
def plainProc (priority : Int) : ProcInitData :=
  { method := 0, priority := priority, vmOn := 0, kmOn := 1, timerIntOn := 1, otherIntsOn := 1 }

/--
The kernel booted on uMPS with plain processes of the given priorities and the
given semaphores.
-/
def bootMpsWith (sem : SemAddr → Int) (priorities : List Int) : Kernel umps :=
  ((boot sem (priorities.map plainProc) (0, 0)).toOption).getD (bss sem)

/-- The same with all semaphores at 0. -/
abbrev bootMps (priorities : List Int) : Kernel umps :=
  bootMpsWith (fun _ => 0) priorities

/-- A semaphore in user memory. -/
abbrev mutexMps : SemAddr := ⟨4, by decide⟩

theorem bootMpsWith_booted
    (sem : SemAddr → Int) {priorities : List Int}
    (hpos : 1 ≤ priorities.length) (hmax : priorities.length ≤ MAXPROC) :
    (bootMpsWith sem priorities).Booted := by
  obtain ⟨k, hboot, -⟩ := boot_spec (A := umps) sem (priorities.map plainProc) (0, 0)
    (by simpa using hpos) (by simpa using hmax)
  refine ⟨sem, priorities.map plainProc, (0, 0), by simpa using hpos, by simpa using hmax, ?_⟩
  rw [bootMpsWith, hboot]
  rfl

theorem bootMps_booted
    {priorities : List Int}
    (hpos : 1 ≤ priorities.length) (hmax : priorities.length ≤ MAXPROC) :
    (bootMps priorities).Booted :=
  bootMpsWith_booted _ hpos hmax

theorem boot_bootMps
    {priorities : List Int} (hpos : 1 ≤ priorities.length) (hmax : priorities.length ≤ MAXPROC) :
    boot (fun _ => 0) (priorities.map plainProc) (0, 0) = .ok (bootMps priorities) := by
  obtain ⟨k, hboot, -⟩ := boot_spec (A := umps) (fun _ => 0) (priorities.map plainProc) (0, 0)
    (by simpa using hpos) (by simpa using hmax)
  rw [bootMps, bootMpsWith, hboot]
  rfl

end Kernel

end Bikaya
