import Bikaya.Proofs.Responses
import Bikaya.Proofs.SemaphoreStarvation

/-!
# Bikaya: the overflow of the ageing priorities

The priorities as 32-bit integers.  The ageing loops do not look for an overflow: a process
of the greatest priority that waits at the end of a time slice, or that a V leaves waiting,
gets the least priority.  As long as there is none, the queues stay ordered.

**Plan.**  `Ages` says which queue an operation ages, and `NoneGreatest` that nobody in it
has the greatest priority.  The operations of the kernel on 32-bit integers are compared
with those on unbounded ones: below the greatest priority both do the same, so that the
order of the queues, which is known for the latter, is kept.

**Results.**
* `Ordered.agesSafely_iff`: a step from ordered queues raises every priority that it ages
  and keeps the queues ordered if and only if none of the aged is the greatest.
* `ageing_safe_iff`: the same along every run.
* `ageing_overflows`: the run in which a starved process is moved behind all the others.
-/

namespace Bikaya

open TransitionSystem StableInsert AgingQueue

/-- The value is one of the machine's `int`. -/
def InRange (z : Int) : Prop :=
  -2147483648 ≤ z ∧ z ≤ INT_MAX

instance (z : Int) : Decidable (InRange z) :=
  inferInstanceAs (Decidable (_ ∧ _))

theorem inRange_add (a b : Int) : InRange (IntModel.int32.add a b) := by
  have hlo : -(2 ^ 32 / 2 : Int) ≤ (a + b).bmod (2 ^ 32) := Int.le_bmod (by decide)
  have hhi : (a + b).bmod (2 ^ 32) < (2 ^ 32 + 1) / 2 := Int.bmod_lt (by decide)
  have hadd : IntModel.int32.add a b = (a + b).bmod (2 ^ 32) := rfl
  rw [hadd]
  unfold InRange INT_MAX
  omega

/-- In range only the greatest priority overflows. -/
theorem inRange_succ_iff {z : Int} (hz : InRange z) : InRange (z + 1) ↔ z ≠ INT_MAX := by
  unfold InRange INT_MAX at *
  omega

theorem add_one_of_ne {z : Int} (hz : InRange z) (hne : z ≠ INT_MAX) :
    IntModel.int32.add z 1 = z + 1 := by
  obtain ⟨hlo, hhi⟩ := (inRange_succ_iff hz).mpr hne
  exact IntModel.add_eq (fun _ => hlo) (fun _ => hhi)

/-- A change of the priority of one process to another value in range. -/
theorem inRange_update
    {priority : Proc → Int} (h : ∀ y, InRange (priority y)) {c : Int} (hc : InRange c) (x : Proc) :
    ∀ y, InRange (Function.update priority x c y) := by
  intro y
  by_cases hy : y = x
  · rw [hy, Function.update_self]
    exact hc
  · rw [Function.update_of_ne hy]
    exact h y

/-- The ageing loop leaves integers of the machine. -/
theorem inRange_raisePriorities
    {priority : Proc → Int} (h : ∀ x, InRange (priority x)) (q : List Proc) :
    ∀ x, InRange (raisePriorities .int32 priority q x) := by
  unfold raisePriorities
  induction q generalizing priority with
  | nil =>
      exact h
  | cons y q ih =>
      exact ih (inRange_update h (inRange_add _ _) y)

namespace Operation

variable {A : Arch}

/-- The priority of a new process is an `int`. -/
def Typed : Operation A → Prop
  | .createProcess _ priority => InRange priority
  | _ => True

/-- The operations with an ageing loop. -/
def Ages : Operation A → Prop
  | .timeSlice => True
  | .verhogen _ => True
  | _ => False

end Operation

namespace Kernel

variable {A : Arch} {k k' : Kernel A} {op : Operation A}

/-- The processes whose priorities the operation increments. -/
def aged (k : Kernel A) : Operation A → List Proc
  | .timeSlice => k.readyQueue
  | .verhogen a => (k.waiters a).tail
  | _ => []

/-- None of the processes that the operation ages has the greatest priority. -/
def NoneGreatest (k : Kernel A) (op : Operation A) : Prop :=
  ∀ x ∈ k.aged op, k.priority x ≠ INT_MAX

instance (k : Kernel A) (op : Operation A) : Decidable (k.NoneGreatest op) :=
  inferInstanceAs (Decidable (∀ x ∈ k.aged op, _))

/-- The ready queue and the queues of the semaphores are ordered. -/
structure Sorted (k : Kernel A) : Prop where
  ready : NonIncreasing k.priority k.readyQueue
  waiters : ∀ a, NonIncreasing k.priority (k.waiters a)

/--
The increments of the operation stay in the range of an `int`, and the queues are
ordered after it.  The queue of a device, which is ordered for other reasons, is not
disturbed by the ageing.
-/
structure AgesSafely (k : Kernel A) (op : Operation A) (k' : Kernel A) : Prop where
  inRange : ∀ x ∈ k.aged op, InRange (k.priority x + 1)
  sorted : k'.Sorted
  device : op.Ages → ∀ d, NonIncreasing k.priority (k.waitQueue (.dev d)) →
    NonIncreasing k'.priority (k'.waitQueue (.dev d))

/-- The priorities are integers of the machine. -/
def Ranged (k : Kernel A) : Prop :=
  ∀ x, InRange (k.priority x) ∧ InRange (k.originalPriority x)

section Steps

theorem Ranged.scheduleProc (h : k.Ranged) (x : Proc) : (k.scheduleProc x).Ranged := by
  intro y
  obtain ⟨horig, hprio⟩ := priority_scheduleProc k x y
  rw [horig]
  rcases hprio with heq | heq
  · rw [heq]
    exact h y
  · rw [heq]
    exact ⟨(h y).2, (h y).2⟩

theorem Ranged.raise
    (h : k.Ranged) {k₁ : Kernel A} {priority : Proc → Int} {q : List Proc}
    (hpriority : ∀ x, InRange (priority x))
    (hprio : k₁.priority = raisePriorities .int32 priority q)
    (horig : k₁.originalPriority = k.originalPriority) :
    k₁.Ranged := by
  intro x
  rw [hprio, horig]
  exact ⟨inRange_raisePriorities hpriority q x, (h x).2⟩

theorem Ranged.timeSlice (h : k.Ranged) : (k.timeSliceCallback .int32).Ranged := by
  have hraise : ∀ k₁ : Kernel A, k₁.priority = raisePriorities .int32 k.priority k.readyQueue →
      k₁.originalPriority = k.originalPriority → k₁.Ranged :=
    fun k₁ hprio horig => h.raise (fun x => (h x).1) hprio horig
  rcases timeSlice_spec (k := k) .int32 with ⟨heq, -⟩ | ⟨y, q, -, -, heq⟩
  · rw [heq]
    exact hraise _ rfl rfl
  · rw [heq]
    generalize hk₁ : ({ k with
      slices := k.slices + 1
      priority := raisePriorities .int32 k.priority k.readyQueue
      readyQueue := q } : Kernel A) = k₁
    have h₁ : k₁.Ranged := hk₁ ▸ hraise _ rfl rfl
    by_cases hidle : k₁.runningProc = .idle
    · rw [preempt_idle hidle]
      exact h₁
    · rw [preempt_of_ne hidle]
      exact fun x => ⟨inRange_update (fun x => (h₁ x).1) (h₁ _).2 _ x, (h₁ x).2⟩

/-- Every operation leaves integers of the machine. -/
theorem Ranged.step
    (h : k.Ranged) (hok : k.Ok) (htyped : op.Typed) (hsound : k.Undamaging op)
    (hstep : Step .int32 k op k') :
    k'.Ranged := by
  have hnext : ∀ (k₁ : Kernel A) (d : Dev) (next : Option Proc), k₁.Ranged →
      (k₁.nextCommand .int32 d next).Ranged := by
    intro k₁ d next h₁
    cases next <;> exact h₁
  obtain ⟨hadm, hexec⟩ := hstep
  cases op with
  | createProcess s priority =>
      cases hnil : k.pcbFreeH with
      | nil =>
          simp only [exec, createProcess_nil hnil] at hexec
          obtain rfl := Except.ok.inj hexec
          exact h
      | cons z free =>
          obtain ⟨-, -, -, hzrun⟩ := hok.adopt hnil hadm s priority
          simp only [exec, createProcess_cons hnil hzrun] at hexec
          obtain rfl := Except.ok.inj hexec
          refine Ranged.scheduleProc (fun x => ?_) z
          exact ⟨inRange_update (fun x => (h x).1) htyped z x,
            inRange_update (fun x => (h x).2) htyped z x⟩
  | terminateProcess p =>
      obtain ⟨l, k₁, hdone, -, rfl⟩ := Step.vacated ⟨hadm, hexec⟩ hok hsound
      obtain ⟨asl, pParent, rfl, -, -⟩ := hdone.result
      exact h
  | passeren a tod =>
      simp only [exec] at hexec
      rcases p_spec .int32 a hok hadm tod with ⟨-, heq⟩ | ⟨-, asl, heq, -, -⟩
      · obtain rfl := Except.ok.inj (heq.symm.trans hexec)
        exact h
      · obtain rfl := Except.ok.inj (heq.symm.trans hexec)
        rw [runNextReady_eq]
        exact h
  | verhogen a =>
      obtain rfl := Except.ok.inj hexec
      rcases v_spec .int32 a hok.residence.aslOk with ⟨-, heq⟩ | ⟨x, q, asl, -, heq, -, -⟩
      · rw [heq]
        exact h
      · rw [heq]
        refine Ranged.scheduleProc ?_ x
        exact h.raise (inRange_update (fun y => (h y).1) (h x).2 x) rfl rfl
  | waitIo command devReg subdev tod =>
      obtain ⟨d, -, rfl⟩ := exec_waitIo hexec
      rcases waitDev_spec .int32 d hok hadm command devReg tod with
        ⟨-, asl, heq, -, -⟩ | ⟨-, asl, heq, -, -⟩
      all_goals
        rw [heq, runNextReady_eq]
        exact h
  | doneIo d status =>
      obtain rfl := Except.ok.inj hexec
      cases hr : k.wForRes d with
      | none =>
          rw [doneIo_none .int32 d hr]
          exact h
      | some r =>
          cases hq : k.waitQueue (.dev d) with
          | nil =>
              rw [doneIo_nil .int32 d hok.residence.aslOk hr hq]
              exact hnext k d none h
          | cons y q =>
              obtain ⟨asl, heq, -, -⟩ := doneIo_cons .int32 d hok.residence.aslOk hr hq status
              rw [heq]
              refine hnext _ d _ ?_
              split_ifs
              · exact Ranged.scheduleProc (k := { k with
                  asl := asl
                  pSemkey := Function.update k.pSemkey y none
                  devWList := Function.update k.devWList r none }) h r
              · exact h
  | timeSlice =>
      obtain rfl := Except.ok.inj hexec
      exact h.timeSlice
  | write a value =>
      obtain rfl := Except.ok.inj hexec
      exact h

/-- In range the condition excludes every overflow. -/
theorem NoneGreatest.exact
    (h : k.NoneGreatest op) (hrange : k.Ranged) : k.Exact .int32 op := by
  cases op with
  | timeSlice =>
      exact ⟨fun x hx => add_one_of_ne (hrange x).1 (h x hx), trivial⟩
  | verhogen a =>
      exact ⟨trivial, fun x hx => add_one_of_ne (hrange x).1 (h x hx)⟩
  | _ =>
      exact ⟨trivial, trivial⟩

/-- What holds in a run up to the first overflow. -/
structure Ordered (k : Kernel A) : Prop where
  rotating : k.Rotating
  waiters : ∀ a, NonIncreasing k.priority (k.waiters a)
  ranged : k.Ranged

/-- One operation whose arguments are machine integers, and that damages no queue. -/
def IntStep (k : Kernel A) (op : Operation A) (k' : Kernel A) : Prop :=
  op.Typed ∧ SoundStep .int32 k op k'

theorem Ordered.step
    (h : k.Ordered) (hnone : k.NoneGreatest op) (hstep : IntStep k op k') :
    k'.Ordered := by
  obtain ⟨htyped, hsound, hstep⟩ := hstep
  have hexact := hnone.exact h.ranged
  refine ⟨h.rotating.step hsound hexact hstep, fun a => ?_,
    h.ranged.step h.rotating.ok htyped hsound hstep⟩
  have hserves := hstep.serves (a := a) h.rotating.ok hsound hexact.2
  exact hserves.evolves.nonIncreasing (h.waiters a)

/-- A step is safe exactly if none of the processes that it ages has the greatest priority. -/
theorem Ordered.agesSafely_iff
    (h : k.Ordered) (hstep : IntStep k op k') :
    k.AgesSafely op k' ↔ k.NoneGreatest op := by
  constructor
  · intro hsafe x hx
    exact (inRange_succ_iff (h.ranged x).1).mp (hsafe.inRange x hx)
  · intro hnone
    have h' := h.step hnone hstep
    refine ⟨fun x hx => (inRange_succ_iff (h.ranged x).1).mpr (hnone x hx),
      ⟨h'.rotating.orderly.sorted, h'.waiters⟩, fun hages d hsorted => ?_⟩
    obtain ⟨-, hsound, hstep⟩ := hstep
    have hwait : ∀ command devReg subdev tod, op ≠ .waitIo command devReg subdev tod := by
      rintro command devReg subdev tod rfl
      exact hages
    have hmove := h.rotating.ok.move h.rotating.idle hsound (hnone.exact h.ranged) hstep hwait
    exact (hmove.evolves h.rotating.ok.wf (some (.dev d))).nonIncreasing hsorted

end Steps

section Runs

variable {s : ℕ → Kernel A} {e : ℕ → Operation A} {n : ℕ}

theorem Booted.ordered
    (hboot : k.Booted) (hstart : ∀ x, InRange (k.priority x)) :
    k.Ordered where
  rotating := hboot.fresh.rotating
  waiters := by
    intro a
    have hnone : k.waiters a = [] := hboot.fresh.noWaiters _
    rw [hnone]
    exact List.Pairwise.nil
  ranged := fun x => ⟨hstart x, hboot.fresh.priority x ▸ hstart x⟩

/--
In a run the increments of the priorities stay in the range of an `int`, and the queues
stay ordered, exactly if no time slice ends with a ready process of the greatest
priority and no V leaves one waiting.
-/
theorem ageing_safe_iff
    (hboot : (s 0).Booted) (hstart : ∀ x, InRange ((s 0).priority x))
    (hrun : IsRun IntStep s e n) :
    (∀ i < n, (s i).AgesSafely (e i) (s (i + 1))) ↔ ∀ i < n, (s i).NoneGreatest (e i) :=
  hrun.steps_iff (hboot.ordered hstart) (fun _ _ _ h hnone hstep => h.step hnone hstep)
    (fun _ _ _ h hstep => h.agesSafely_iff hstep)

end Runs

section Example

/-- The greatest priority is created twice, with another process behind it, and ages. -/
def greatestHistory : List (Operation umps) :=
  [.createProcess State.reset INT_MAX, .createProcess State.reset 1, .timeSlice]

theorem greatestHistory_isRun :
    IsRun IntStep (states (next .int32) (bootMps [INT_MAX]) greatestHistory)
      (fun i => greatestHistory.getD i .timeSlice) 3 := by
  have hrun : IsRun (Step .int32) (states (next .int32) (bootMps [INT_MAX]) greatestHistory)
      (fun i => greatestHistory.getD i .timeSlice) 3 :=
    isRun_of_accepts (by decide +kernel)
  intro i hi
  refine ⟨?_, ?_, hrun i hi⟩
  · interval_cases i
    · exact (by decide : InRange INT_MAX)
    · exact (by decide : InRange 1)
    · exact trivial
  · interval_cases i <;> exact trivial

/-- The first ready process gets the least priority, and stays in front of the other. -/
theorem ageing_overflows :
    (bootMps [INT_MAX]).Booted ∧
      (∀ x, InRange ((bootMps [INT_MAX]).priority x)) ∧
      IsRun IntStep (states (next .int32) (bootMps [INT_MAX]) greatestHistory)
        (fun i => greatestHistory.getD i .timeSlice) 3 ∧
      (states (next .int32) (bootMps [INT_MAX]) greatestHistory 2).readyQueue = [.pcb 1, .pcb 2] ∧
      ¬ InRange
        ((states (next .int32) (bootMps [INT_MAX]) greatestHistory 2).priority (.pcb 1) + 1) ∧
      ¬ NonIncreasing (states (next .int32) (bootMps [INT_MAX]) greatestHistory 3).priority
        (states (next .int32) (bootMps [INT_MAX]) greatestHistory 3).readyQueue :=
  ⟨bootMps_booted (by decide) (by decide), by decide +kernel, greatestHistory_isRun,
    by decide +kernel, by decide +kernel, by decide +kernel⟩

/-- Every V of `overtakingHistory` ages a waiting process within the range. -/
theorem ageing_safe_overtakingHistory :
    (states (next .int32) (bootMps [1, 3]) overtakingHistory 9).Sorted := by
  have hrun : IsRun (Step .int32) (states (next .int32) (bootMps [1, 3]) overtakingHistory)
      (fun i => overtakingHistory.getD i .timeSlice) 9 :=
    isRun_of_accepts (by decide +kernel)
  have hsteps : IsRun IntStep (states (next .int32) (bootMps [1, 3]) overtakingHistory)
      (fun i => overtakingHistory.getD i .timeSlice) 9 := by
    intro i hi
    refine ⟨?_, ?_, hrun i hi⟩
    · interval_cases i
      · exact (by decide : InRange 0)
      all_goals exact trivial
    · interval_cases i <;> exact trivial
  refine ((ageing_safe_iff (bootMps_booted (by decide) (by decide)) (by decide +kernel)
    hsteps).mpr (fun i hi => ?_) 8 (by decide)).sorted
  interval_cases i <;> decide +kernel

end Example

end Kernel

end Bikaya
