import Bikaya.Library.SliceRotation
import Bikaya.Proofs.Dispatch

/-!
# Bikaya: no starvation in the ready queue

While nothing but the callback of the time slices runs, every ready process is dispatched
after a bounded number of slices.  The states are those of any run that damages no queue,
whatever the devices do; only the ready queue has to be ordered.

**Plan.**  Without other operations the kernel is the rotation of `SliceRotation.lean`
(`Rotating.step`), and the bound is the library's.  With unbounded integers the ready queue
of every state that a run has reached is ordered, and no priority is below the original
one, which is all that the rotation needs.

**Results.**
* `Rotating.sched_iterate`: the slices of the kernel are those of the abstract scheduler.
* `no_starvation`: the bound, from every reachable state.
-/

namespace Bikaya

open PriorityScheduler TransitionSystem StableInsert

namespace Kernel

variable {A : Arch} {k k' : Kernel A} {m : IntModel}

/-- What the rotation of the ready processes needs of the kernel. -/
structure Rotating (k : Kernel A) : Prop where
  ok : k.Ok
  orderly : k.sched.Orderly

theorem Rotating.idle (h : k.Rotating) : k.runningProc = .idle → k.readyQueue = [] :=
  fun hidle => h.orderly.idle (if_pos hidle)

/-- WAITIO makes the next ready process run, and leaves the ready queue alone. -/
theorem Rotating.waitDev
    (h : k.Rotating) (hidle : k.runningProc ≠ .idle) (m : IntModel) (d : Dev)
    (command devReg tod : Word) :
    (k.waitDev m command devReg d tod).sched.Orderly := by
  have hdispatch : ∀ k₁ : Kernel A, k₁.readyQueue = k.readyQueue →
      k₁.runningProc = k.runningProc → k₁.priority = k.priority →
      k₁.originalPriority = k.originalPriority → k₁.runNextReady.sched.Orderly := by
    intro k₁ hready hrun hprio horig
    rw [sched_runNextReady (hready ▸ h.ok.idle_not_ready)]
    refine Sched.Orderly.dispatch ⟨?_, ?_, ?_⟩
    · show ∀ x, k₁.originalPriority x ≤ k₁.priority x
      rw [hprio, horig]
      exact h.orderly.aged
    · show NonIncreasing k₁.priority k₁.readyQueue
      rw [hprio, hready]
      exact h.orderly.sorted
    · intro hnone
      show k₁.readyQueue = []
      refine hready.trans (h.orderly.idle ?_)
      rw [← hnone]
      simp only [sched, hrun]
  rcases waitDev_spec m d h.ok hidle command devReg tod with
    ⟨-, asl, heq, -, -⟩ | ⟨-, asl, heq, -, -⟩ <;> rw [heq]
  · exact hdispatch _ rfl rfl rfl rfl
  · exact hdispatch _ rfl rfl rfl rfl

/--
Every operation that damages no queue and overflows no priority keeps the ready
processes orderly.
-/
theorem Rotating.step
    {op : Operation A} (h : k.Rotating) (hsound : k.Undamaging op) (hexact : k.Exact m op)
    (hstep : Step m k op k') :
    k'.Rotating := by
  refine ⟨h.ok.step_of_undamaging hsound hstep, ?_⟩
  have hother := h.ok.move h.idle hsound hexact hstep
  obtain ⟨hadm, hexec⟩ := hstep
  cases op with
  | waitIo command devReg subdev tod =>
      obtain ⟨d, -, rfl⟩ := exec_waitIo hexec
      exact h.waitDev hadm m d command devReg tod
  | _ =>
      exact h.orderly.move (hother (by simp)) h.ok.wf

theorem Fresh.rotating (h : k.Fresh) : k.Rotating where
  ok := h.scheduled.sparing.ok
  orderly := ⟨h.scheduled.dispatched.aged, h.scheduled.dispatched.sorted none,
    h.scheduled.dispatched.idle⟩

theorem Rotating.timeSlice (h : k.Rotating) : (k.timeSliceCallback .unbounded).Rotating where
  ok := h.ok.timeSlice
  orderly := h.orderly.move (h.ok.move_timeSlice h.idle (exact_unbounded k _).1) h.ok.wf

/-- The callbacks alone are the slices of the scheduler. -/
theorem Rotating.sched_iterate
    (h : k.Rotating) (T : ℕ) :
    ((timeSliceCallback .unbounded)^[T] k).sched = Sched.slice^[T] k.sched := by
  induction T generalizing k with
  | zero =>
      rfl
  | succ T ih =>
      rw [Function.iterate_succ_apply, Function.iterate_succ_apply, ih h.timeSlice,
        h.ok.sched_timeSlice h.idle (exact_unbounded k _).1]

/-- A ready process is dispatched after a bounded number of callbacks. -/
theorem Rotating.dispatched
    (h : k.Rotating) {x : Proc} (hx : x ∈ k.readyQueue) {M : ℤ}
    (hM : ∀ y, y = k.runningProc ∨ y ∈ k.readyQueue → k.priority y ≤ M) :
    ∃ T : ℕ, (T : ℤ) ≤ (k.readyQueue.length + 1) * (M - k.priority x + 1) ∧
      ((timeSliceCallback .unbounded)^[T] k).runningProc = x := by
  have hcontest : k.sched.Contest x (k.priority x) M 0 k.readyQueue.length :=
    h.orderly.contest h.ok.wf hx (fun y hy => hM y (Or.inr hy))
      (fun r hr => hM r (Or.inl (mem_running hr)))
  obtain ⟨T, hT, hrun⟩ := hcontest.dispatched
  refine ⟨T, hT, ?_⟩
  rw [← h.sched_iterate T] at hrun
  exact (mem_running hrun).symm

section Runs

variable {s : ℕ → Kernel A} {e : ℕ → Operation A} {n : ℕ}

/--
In every state that a run reaches, no process is below its original priority and the
ready queue is ordered; from there each of the ready processes is running after at
most `(n + 1) * (M - q + 1)` callbacks, where `n` is the length of the ready queue, `q`
the priority of the process and `M` the maximum of the running and the ready ones.
-/
theorem no_starvation
    (hboot : (s 0).Booted) (hrun : IsRun (Step .unbounded) s e n)
    (hsound : ∀ i < n, (s i).Undamaging (e i)) :
    ∀ i ≤ n,
      (∀ x, (s i).originalPriority x ≤ (s i).priority x) ∧
      NonIncreasing (s i).priority (s i).readyQueue ∧
      ∀ x ∈ (s i).readyQueue, ∀ M : ℤ,
        IsGreatest ((s i).priority '' {y | y = (s i).runningProc ∨ y ∈ (s i).readyQueue}) M →
        ∃ T : ℕ,
          (T : ℤ) ≤ ((s i).readyQueue.length + 1) * (M - (s i).priority x + 1) ∧
            ((timeSliceCallback .unbounded)^[T] (s i)).runningProc = x := by
  intro i hi
  have h : (s i).Rotating :=
    hrun.invariant_of hsound hboot.fresh.rotating
      (fun _ _ _ h hs hstep => h.step hs (exact_unbounded _ _) hstep) i hi
  refine ⟨h.orderly.aged, h.orderly.sorted, fun x hx M hM => ?_⟩
  exact h.dispatched hx (fun y hy => hM.2 ⟨y, hy, rfl⟩)

end Runs

section Example

theorem printerHistory_undamaging :
    ∀ i < 6, (states (next .unbounded) (bootMps [2, 3, 1]) printerHistory i).Undamaging
      (printerHistory.getD i .timeSlice) := by
  intro i hi
  interval_cases i <;> exact trivial

/-- After the operations of `printerHistory` three processes compete. -/
theorem no_starvation_printerHistory :
    ∃ T : ℕ, (T : ℤ) ≤ (2 + 1) * (3 - 1 + 1) ∧
      ((timeSliceCallback .unbounded)^[T]
        (states (next .unbounded) (bootMps [2, 3, 1]) printerHistory 6)).runningProc = .pcb 2 := by
  have hready : ∀ y ∈ (states (next .unbounded) (bootMps [2, 3, 1]) printerHistory 6).runningProc ::
      (states (next .unbounded) (bootMps [2, 3, 1]) printerHistory 6).readyQueue,
      (states (next .unbounded) (bootMps [2, 3, 1]) printerHistory 6).priority y ≤ 3 := by
    decide +kernel
  have hlength :
      (states (next .unbounded) (bootMps [2, 3, 1]) printerHistory 6).readyQueue.length = 2 := by
    decide +kernel
  have hpriority :
      (states (next .unbounded) (bootMps [2, 3, 1]) printerHistory 6).priority (.pcb 2) = 1 := by
    decide +kernel
  have h := (no_starvation (bootMps_booted (by decide) (by decide)) printerHistory_isRun
    printerHistory_undamaging 6 le_rfl).2.2
    (.pcb 2) (by decide +kernel) 3 ⟨⟨_, Or.inl rfl, by decide +kernel⟩, ?_⟩
  · rw [hlength, hpriority] at h
    exact h
  · rintro _ ⟨y, hy, rfl⟩
    exact hready y (List.mem_cons.mpr hy)

end Example

end Kernel

end Bikaya
