import Bikaya.Proofs.Effects
import Bikaya.Proofs.SemaphoreRepresentation

/-!
# Bikaya: the scheduler on the links

The routines of `scheduler.c` that change who runs, and the loops that age a queue, do on a
linked kernel what they do on the kernel it represents.

**Plan.**  A routine takes processes out of the rings and puts them into others by the
functions whose agreement `Representation.lean` has; between them it writes plain fields,
which both kernels have.  The ageing loop is the one exception: it walks the ring itself,
and is an induction on the walk.

**Results.**
* `raisePriorities_represents`, `ageBlocked_represents`: the loops.
* `runNextReady_represents`, `stopRunningProc_represents`, `scheduleProc_represents`: the
  changes of the running process.
-/

namespace Bikaya

open LinkRing StableInsert

namespace Memory

variable {P S K : Type}

/-- The queue of a sentinel, walked from its first link. -/
theorem IsQueue.walk
    {m : Memory P S K} {head : Link P S} {q : List P} (h : m.IsQueue head q) :
    m.next head = some ((q.map .pNext).headD head) ∧ m.Follows (q.map .pNext ++ [head]) :=
  (follows_of_isRing h).next

end Memory

namespace Kernel

variable {A : Arch} {k : Kernel A} {x : Proc}

/-- A process in none of the lists is in none of the rings. -/
theorem Absent.unthreaded
    (hx : k.Absent x) (hasl : k.asl.Ok) (hspare : k.asl.Spare) :
    k.lists.Unthreaded x := by
  obtain ⟨hfree, hready, hwait⟩ := Residence.absent_iff.mp hx
  intro i
  cases i with
  | readyQueue =>
      exact hready
  | pcbFreeH =>
      exact hfree
  | sProcQ s =>
      intro hmem
      have hmem : x ∈ k.asl.sProcQ s := hmem
      by_cases hs : s ∈ k.asl.semdH
      · obtain ⟨key, hkey⟩ := hasl.hasKey s hs
        exact hwait key (by rwa [hasl.waitQueue_of_mem hs hkey])
      · rw [hspare s hs] at hmem
        exact absurd hmem List.not_mem_nil

end Kernel

namespace LinkedKernel

variable {A : Arch} {l : LinkedKernel A} {k : Kernel A} {p x : Proc}

section Ageing

/-- The rounds of the loop behind a place of the queue age the rest of the queue. -/
theorem raiseFrom_eq
    (i : IntModel) {head : Link Proc Semd} (hhead : ∀ x, head ≠ .pNext x) {rest : List Proc}
    {l : LinkedKernel A} (hpath : l.toMemory.Follows (rest.map .pNext ++ [head]))
    {fuel : ℕ} (hfuel : rest.length < fuel) :
    raiseFrom i head fuel l ((rest.map .pNext).headD head) =
      .ok { l with priority := Bikaya.raisePriorities i l.priority rest } := by
  induction rest generalizing l fuel with
  | nil =>
      obtain ⟨fuel, rfl⟩ := Nat.exists_eq_succ_of_ne_zero (Nat.ne_of_gt hfuel)
      simp only [raiseFrom, List.map_nil, List.headD_nil, if_true]
      rfl
  | cons y rest ih =>
      obtain ⟨fuel, rfl⟩ := Nat.exists_eq_succ_of_ne_zero (Nat.ne_zero_of_lt hfuel)
      obtain ⟨hnext, hpath⟩ := Memory.Follows.next hpath
      have hne : Link.pNext y ≠ head := fun heq => hhead y heq.symm
      have hrest := ih
        (l := { l with
          priority := Function.update l.priority y
            (i.add (l.priority y) PRIORITY_INC_PER_TIME_SLICE) })
        hpath (Nat.lt_of_succ_lt_succ hfuel)
      simp only [raiseFrom, List.map_cons, List.headD_cons, hne, if_false, Link.containerPNext,
        hnext, deref_some, ok_bind, hrest, Bikaya.raisePriorities, List.foldl_cons]

/-- The ageing of the processes of a list. -/
theorem raisePriorities_represents
    (i : IntModel) (h : l.Represents k) (j : ProcList Semd) :
    ∃ l', l.raisePriorities i (sentinel (.inl j)) = .ok l' ∧
      l'.Represents
        { k with priority := Bikaya.raisePriorities i k.priority (k.lists.procs j) } := by
  obtain ⟨hnext, hpath⟩ := (h.isQueue j).walk
  obtain ⟨next, prev, rfl, h⟩ := h
  refine ⟨_, ?_, ⟨next, prev, rfl, h⟩⟩
  simp only [raisePriorities, hnext, deref_some, ok_bind]
  exact raiseFrom_eq i (sentinel_ne_pNext _) hpath (h.procs_length_lt j)

/-- The loop of `v`. -/
theorem ageBlocked_represents (i : IntModel) (h : l.Represents k) (key : SemKey) :
    ∃ l', l.ageBlocked i key = .ok l' ∧ l'.Represents (k.ageBlocked i key) := by
  simp only [ageBlocked, getSemd_represents h, ok_bind, Kernel.ageBlocked]
  cases k.asl.getSemd (some key) with
  | none =>
      exact ⟨l, rfl, h⟩
  | some s =>
      exact raisePriorities_represents i h (.sProcQ s)

end Ageing

section Scheduling

/-- `set_running_proc`. -/
theorem setRunningProc_represents (h : l.Represents k) (p : Option Proc) :
    (l.setRunningProc p).Represents (k.setRunningProc p) := by
  obtain ⟨next, prev, rfl, h⟩ := h
  cases p <;> exact ⟨next, prev, rfl, h⟩

/-- `set_running_proc(removeProcQ(&ready_queue))`. -/
theorem runNextReady_represents (h : l.Represents k) :
    ∃ l', l.runNextReady = .ok l' ∧ l'.Represents k.runNextReady := by
  obtain ⟨l', heq, hl', -⟩ := removeReady_represents h
  refine ⟨l'.setRunningProc (removeProcQ k.readyQueue).1, ?_, setRunningProc_represents hl' _⟩
  simp only [runNextReady, heq, ok_bind, pure_eq_ok]

/-- `stop_running_proc`, when the running process is in no list. -/
theorem stopRunningProc_represents
    (h : l.Represents k) (hrun : k.runningProc ≠ .idle → k.lists.Unthreaded k.runningProc) :
    ∃ l', l.stopRunningProc = .ok l' ∧ l'.Represents k.stopRunningProc := by
  obtain ⟨next, prev, rfl, h⟩ := h
  by_cases hidle : k.runningProc = .idle
  · refine ⟨k.linked next prev, ?_, next, prev, ?_, ?_⟩
    · have hidle' : (k.linked next prev).runningProc = .idle := hidle
      simp [stopRunningProc, hidle']
    · simp [Kernel.stopRunningProc, hidle]
    · simpa [Kernel.stopRunningProc, hidle] using h
  · have hreset : LinkedKernel.Represents
        { k.linked next prev with
          priority := Function.update k.priority k.runningProc
            (k.originalPriority k.runningProc) }
        { k with
          priority := Function.update k.priority k.runningProc
            (k.originalPriority k.runningProc) } :=
      ⟨next, prev, rfl, h⟩
    obtain ⟨l', heq, hl'⟩ := insertReady_represents hreset (hrun hidle)
    have hidle' : (k.linked next prev).runningProc ≠ .idle := hidle
    refine ⟨l', ?_, ?_⟩
    · simp only [stopRunningProc, hidle', if_true, not_false_eq_true, ne_eq]
      exact heq
    · simpa only [Kernel.stopRunningProc, hidle, if_true, not_false_eq_true, ne_eq] using hl'

/-- The preemption of the running process. -/
theorem preempt_represents
    (h : l.Represents k) (hrun : k.runningProc ≠ .idle → k.lists.Unthreaded k.runningProc)
    (x : Proc) :
    ∃ l', (do
        let l ← l.stopRunningProc
        return l.setRunningProc (some x)) = .ok l' ∧ l'.Represents (k.preempt x) := by
  obtain ⟨l', heq, hl'⟩ := stopRunningProc_represents h hrun
  refine ⟨l'.setRunningProc (some x), ?_, setRunningProc_represents hl' _⟩
  simp only [heq, ok_bind, pure_eq_ok]

/-- `schedule_proc`, when neither process is in a list. -/
theorem scheduleProc_represents
    (h : l.Represents k) (hx : k.lists.Unthreaded x)
    (hrun : k.runningProc ≠ .idle → k.lists.Unthreaded k.runningProc) :
    ∃ l', l.scheduleProc x = .ok l' ∧ l'.Represents (k.scheduleProc x) := by
  have hfields : l.priority = k.priority ∧ l.runningProc = k.runningProc := by
    obtain ⟨next, prev, rfl, -⟩ := h
    exact ⟨rfl, rfl⟩
  simp only [scheduleProc, Kernel.scheduleProc, hfields.1, hfields.2]
  split_ifs with hswap
  · exact preempt_represents h hrun x
  · exact insertReady_represents h hx

end Scheduling

end LinkedKernel

end Bikaya
