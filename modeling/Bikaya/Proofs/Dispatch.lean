import Mathlib.Tactic.IntervalCases
import Bikaya.Library.PriorityScheduler
import Bikaya.Proofs.Ageing
import Bikaya.Proofs.DeviceQueues

/-!
# Bikaya: the kernel is a preemptive priority scheduler

Every operation of the kernel is a move of the abstract scheduler.  The dispatch discipline
and the order of the queues are the scheduler's, carried over to the runs of the kernel.

**Plan.**  `sched` forgets everything but the queues, the priorities and the running
process.  Each operation, as an update followed by a routine that changes who runs, is a
move of the abstract scheduler (`Ok.move`), so that its dispatch discipline and its ageing
queues are those of the kernel.  The integers are unbounded, as 32-bit ones may overflow.

**Results.**
* `Sparing.move`: the operations refine the moves.
* `evolves_of_run`, `precedes_of_run`: the queues along a run.
* `dispatch_invariant`: the running process has the greatest priority among the ready ones,
  and the idle process runs only when none is ready.
* `queue_order`: every queue is in the order of the priorities, and of the arrivals where
  these are equal.
-/

namespace Bikaya

open TransitionSystem StableInsert AgingQueue PriorityScheduler

/-- Without an overflow the ageing loop of the kernel is one tick of aging. -/
theorem raisePriorities_eq_age
    {m : IntModel} {priority : Proc → Int} {q : List Proc} (hq : q.Nodup)
    (hexact : ∀ x ∈ q, m.add (priority x) 1 = priority x + 1) :
    raisePriorities m priority q = Sched.age priority q := by
  funext x
  by_cases hx : x ∈ q
  · rw [raisePriorities_of_mem _ _ hq hx, Sched.age_of_mem hx]
    exact hexact x hx
  · rw [raisePriorities_of_notMem _ _ hx, Sched.age_of_notMem hx]

namespace Kernel

variable {A : Arch} {k k' : Kernel A} {m : IntModel}

/-- At a V the priorities of the processes that wait on do not overflow. -/
def WakesExactly (m : IntModel) (k : Kernel A) : Operation A → Prop
  | .verhogen a => ∀ x ∈ (k.waitQueue (.user a)).tail, m.add (k.priority x) 1 = k.priority x + 1
  | _ => True

/-- No priority overflows. -/
def Exact (m : IntModel) (k : Kernel A) (op : Operation A) : Prop :=
  k.AgesExactly m op ∧ k.WakesExactly m op

theorem exact_unbounded (k : Kernel A) (op : Operation A) : k.Exact .unbounded op := by
  cases op with
  | timeSlice =>
      exact ⟨fun _ _ => rfl, trivial⟩
  | verhogen a =>
      exact ⟨trivial, fun _ _ => rfl⟩
  | _ =>
      exact ⟨trivial, trivial⟩

/-- The kernel as a scheduler; when the idle process runs, nothing does. -/
def sched (k : Kernel A) : Sched Proc SemKey where
  ready := k.readyQueue
  wait := k.asl.waitQueue
  running := if k.runningProc = .idle then none else some k.runningProc
  priority := k.priority
  original := k.originalPriority

section Refinement

theorem running_of_ne (hidle : k.runningProc ≠ .idle) : k.sched.running = some k.runningProc :=
  if_neg hidle

theorem mem_running {r : Proc} (hr : r ∈ k.sched.running) : r = k.runningProc := by
  unfold sched at hr
  simp only at hr
  split_ifs at hr with hidle
  · exact absurd hr (by simp)
  · exact (Option.some.inj hr).symm

/-- A change of the queue of one key. -/
theorem sched_setWait
    (k₁ : Kernel A) {key : SemKey} {q : List Proc}
    (hready : k₁.readyQueue = k.readyQueue) (hrun : k₁.runningProc = k.runningProc)
    (hprio : k₁.priority = k.priority) (horig : k₁.originalPriority = k.originalPriority)
    (hwait : k₁.asl.waitQueue = Function.update k.waitQueue key q) :
    k₁.sched = k.sched.setWait key q := by
  simp only [sched, Sched.setWait, hready, hrun, hprio, horig, hwait]
  rfl

theorem sched_preempt
    {x : Proc} (hx : x ≠ .idle) :
    (k.preempt x).sched = k.sched.preempt x := by
  by_cases hidle : k.runningProc = .idle
  · simp [preempt_idle hidle, sched, Sched.preempt, hidle, hx]
  · rw [preempt_of_ne hidle, Sched.preempt_of_some (running_of_ne hidle)]
    simp only [sched, hx, if_false, insertProcQ_eq]

theorem sched_scheduleProc
    {x : Proc} (hx : x ≠ .idle) :
    (k.scheduleProc x).sched = k.sched.schedule x := by
  rcases scheduleProc_cases k x with ⟨hswap, heq⟩ | ⟨hidle, hle, heq⟩
  · rw [heq, sched_preempt hx]
    by_cases hidle : k.runningProc = .idle
    · have hnone : k.sched.running = none := if_pos hidle
      simp only [Sched.schedule, hnone]
    · have hlt : k.sched.priority k.runningProc < k.sched.priority x :=
        hswap.resolve_left hidle
      simp only [Sched.schedule, running_of_ne hidle, hlt, if_true]
  · have hlt : ¬ k.sched.priority k.runningProc < k.sched.priority x := not_lt.mpr hle
    rw [heq]
    simp only [Sched.schedule, running_of_ne hidle, hlt, if_false, insertProcQ_eq]
    simp only [sched, hidle, if_false]

theorem sched_runNextReady
    (hidle : Proc.idle ∉ k.readyQueue) :
    k.runNextReady.sched = k.sched.dispatch := by
  rw [runNextReady_eq]
  cases hq : k.readyQueue with
  | nil =>
      simp [sched, Sched.dispatch, hq]
  | cons x q =>
      have hx : x ≠ .idle := by
        rintro rfl
        exact hidle (hq ▸ List.mem_cons_self)
      simp [sched, Sched.dispatch, hq, hx]

theorem sched_nextCommand (m : IntModel) (d : Dev) (next : Option Proc) :
    (k.nextCommand m d next).sched = k.sched := by
  cases next <;> rfl

theorem sched_respond
    {x : Proc} (hx : x ≠ .idle) (status : Word) :
    (k.respond x status).sched = k.sched.schedule x :=
  sched_scheduleProc (k := { k with devWList := Function.update k.devWList x none }) hx

/-- The lists of the kernel are those of a well-formed scheduler. -/
theorem Ok.wf (h : k.Ok) : k.sched.Wf where
  separated := by
    constructor
    · rintro (_ | key)
      · exact h.residence.ready_nodup
      · exact h.residence.wait_nodup key
    · rintro (_ | key) (_ | key') x hx hx'
      · rfl
      · have := h.residence.separated.unique .ready (.blocked key') x hx hx'
        simp at this
      · have := h.residence.separated.unique (.blocked key) .ready x hx hx'
        simp at this
      · have := h.residence.separated.unique (.blocked key) (.blocked key') x hx hx'
        simpa using this
  running := by
    intro r hr
    obtain ⟨-, hready, hwait⟩ := Residence.absent_iff.mp h.running
    rw [mem_running hr]
    rintro (_ | key)
    · exact hready
    · exact hwait key

/-- A process put into a waiting queue, when the next one runs. -/
theorem Ok.move_block
    (h : k.Ok) (hidle : k.runningProc ≠ .idle) {k₁ : Kernel A} (key : SemKey)
    (hready : k₁.readyQueue = k.readyQueue) (hrun : k₁.runningProc = k.runningProc)
    (hprio : k₁.priority = k.priority) (horig : k₁.originalPriority = k.originalPriority)
    (hwait : k₁.asl.waitQueue = Function.update k.waitQueue key
      (insertProcQ k.priority (k.waitQueue key) k.runningProc)) :
    Move k.sched k₁.runNextReady.sched := by
  rw [sched_runNextReady (hready ▸ h.idle_not_ready),
    sched_setWait k₁ hready hrun hprio horig hwait, insertProcQ_eq]
  exact Move.block key k.runningProc (running_of_ne hidle)

/-- A WAITIO is a move of the scheduler. -/
theorem Sparing.move_waitDev
    (h : k.Sparing) (hidle : k.runningProc ≠ .idle) (m : IntModel) (d : Dev)
    (command devReg tod : Word) :
    Move k.sched (k.waitDev m command devReg d tod).sched := by
  rcases waitDev_spec m d h.ok hidle command devReg tod with
    ⟨-, asl, heq, -, hwait⟩ | ⟨hneg, asl, heq, -, hwait⟩
  · rw [heq]
    exact h.ok.move_block hidle (.dev d) rfl rfl rfl rfl hwait
  · -- the device is free, so its queue is empty and the order of insertion is idle
    have hres : k.wForRes d = none := by
      by_contra hr
      rw [h.devicesOk.sem d, if_neg hr, add_zero_sub_one] at hneg
      exact absurd (by decide) hneg
    rw [h.devicesOk.vacant d hres, List.nil_append] at hwait
    rw [heq]
    refine h.ok.move_block hidle (.dev d) rfl rfl rfl rfl ?_
    rw [h.devicesOk.vacant d hres]
    exact hwait

/-- A completion interrupt is a move of the scheduler. -/
theorem Ok.move_doneIo
    (h : k.Ok) (m : IntModel) (d : Dev) (status : Word) :
    Move k.sched (k.doneIo m d status).sched := by
  cases hr : k.wForRes d with
  | none =>
      rw [doneIo_none m d hr]
      exact Move.stay
  | some r =>
      cases hq : k.waitQueue (.dev d) with
      | nil =>
          rw [doneIo_nil m d h.residence.aslOk hr hq, sched_nextCommand]
          exact Move.stay
      | cons x q =>
          obtain ⟨asl, heq, hOk, hwait⟩ := doneIo_cons m d h.residence.aslOk hr hq status
          obtain ⟨-, -, hx, -⟩ := h.unblock hOk hq hwait
          have hset := sched_setWait (k := k)
            { k with asl := asl, pSemkey := Function.update k.pSemkey x none }
            rfl rfl rfl rfl hwait
          rw [heq, sched_nextCommand]
          split_ifs with hxr
          · subst hxr
            rw [sched_respond hx, hset]
            exact Move.release (SemKey.dev d) x q hq
          · rw [hset]
            exact Move.drop (SemKey.dev d) x q hq

/-- A V is a move of the scheduler. -/
theorem Ok.move_v
    (h : k.Ok) (a : SemAddr) (hexact : k.WakesExactly m (.verhogen a)) :
    Move k.sched (k.v m a).sched := by
  rcases v_spec m a h.residence.aslOk with ⟨-, heq⟩ | ⟨x, q, asl, hq, heq, hOk, hwait⟩
  · rw [heq]
    exact Move.stay
  · obtain ⟨-, -, hx, -⟩ := h.unblock hOk hq hwait
    obtain ⟨hxq, hndq⟩ := h.queue_nodup hq
    have hexact' : ∀ y ∈ q,
        m.add (Function.update k.priority x (k.originalPriority x) y) 1 =
          Function.update k.priority x (k.originalPriority x) y + 1 := by
      intro y hy
      have hyx : y ≠ x := fun heq => hxq (heq ▸ hy)
      rw [Function.update_of_ne hyx]
      exact hexact y (by rw [hq]; exact hy)
    have hset := sched_setWait (k := k)
      { k with asl := asl, pSemkey := Function.update k.pSemkey x none }
      rfl rfl rfl rfl hwait
    rw [heq, sched_scheduleProc hx, raisePriorities_eq_age hndq hexact']
    have hmove := Move.wake (s := k.sched) (.user a) x q hq
    rw [← hset] at hmove
    exact hmove

/-- The callback is the end of a slice, unless the idle process resists. -/
theorem Ok.sched_timeSlice
    (h : k.Ok) (hidle : k.runningProc = .idle → k.readyQueue = [])
    (hexact : k.AgesExactly m .timeSlice) :
    (k.timeSliceCallback m).sched = k.sched.slice := by
  have hage := raisePriorities_eq_age h.residence.ready_nodup hexact
  rcases timeSlice_spec (k := k) m with ⟨heq, hless⟩ | ⟨x, q, hq, hle, heq⟩
  · rw [heq]
    cases hq : k.readyQueue with
    | nil =>
        have hready : k.sched.ready = [] := hq
        simp only [Sched.slice, hready, Sched.ageReady]
        rw [hq] at hage
        simp only [sched, hage, hq]
    | cons x q =>
        have hready : k.sched.ready = x :: q := hq
        have hrun : k.runningProc ≠ .idle := by
          intro hidle'
          rw [hidle hidle'] at hq
          exact absurd hq (by simp)
        have hlt := hless x (by rw [hq]; rfl)
        rw [hage] at hlt
        have hnle : ¬ k.sched.ageReady.priority k.runningProc ≤ k.sched.ageReady.priority x :=
          not_le.mpr hlt
        simp only [Sched.slice, hready, running_of_ne hrun, hnle, if_false]
        rw [hq] at hage
        simp only [sched, Sched.ageReady, hage, hq]
  · have hready : k.sched.ready = x :: q := hq
    have hrun : k.runningProc ≠ .idle := by
      intro hidle'
      rw [hidle hidle'] at hq
      exact absurd hq (by simp)
    have hx : x ≠ .idle := by
      rintro rfl
      exact h.idle_not_ready (hq ▸ List.mem_cons_self)
    rw [hage] at hle
    have hle' : k.sched.ageReady.priority k.runningProc ≤ k.sched.ageReady.priority x := hle
    rw [heq, sched_preempt hx]
    simp only [Sched.slice, hready, running_of_ne hrun, hle', if_true]
    simp only [sched, Sched.ageReady, hage]

/-- A time slice is a move of the scheduler, unless the idle process resists. -/
theorem Ok.move_timeSlice
    (h : k.Ok) (hidle : k.runningProc = .idle → k.readyQueue = [])
    (hexact : k.AgesExactly m .timeSlice) :
    Move k.sched (k.timeSliceCallback m).sched := by
  rw [h.sched_timeSlice hidle hexact]
  exact Move.slice

/-- A termination is a move of the scheduler. -/
theorem Terminated.move
    {t : Proc} {l : List Proc} (hterm : k.Terminated t l k') (h : k.Ok)
    (hidle : k.runningProc ≠ .idle) :
    Move k.sched k'.sched := by
  obtain ⟨asl, pParent, rfl, hwait, -⟩ := hterm.result
  have hkill : (k.afterTermination t l asl pParent).sched =
      k.sched.kill (fun x => x ∉ l) := by
    have hwait' : (k.afterTermination t l asl pParent).asl.waitQueue =
        fun key => survivors l (k.waitQueue key) := funext hwait
    by_cases hrun : k.runningProc ∈ l
    · have hdead : k.sched.running.all (fun x => x ∉ l) = false := by
        simp [running_of_ne hidle, hrun]
      have hnext : ∀ q : List Proc, q ⊆ k.readyQueue →
          (if q.head?.getD .idle = .idle then none else some (q.head?.getD .idle)) = q.head? := by
        intro q hq
        cases q with
        | nil =>
            rfl
        | cons x q =>
            have hx : x ≠ .idle := by
              rintro rfl
              exact h.idle_not_ready (hq List.mem_cons_self)
            simp [hx]
      simp only [Sched.kill, hdead, Bool.false_eq_true, if_false, Sched.dispatch]
      simp only [sched, hwait']
      simp only [afterTermination, readyAfter, runningAfter, hrun, if_true]
      rw [hnext _ List.filter_sublist.subset]
      rfl
    · have hkeep : k.sched.running.all (fun x => x ∉ l) = true := by
        simp [running_of_ne hidle, hrun]
      simp only [Sched.kill, hkeep, if_true]
      simp only [sched, hwait']
      simp only [afterTermination, readyAfter, runningAfter, hrun, if_false]
      rfl
  rw [hkill]
  exact Move.kill _

/-- Every operation but WAITIO is a move of the scheduler, whatever the devices do. -/
theorem Ok.move
    {op : Operation A} (h : k.Ok) (hidle : k.runningProc = .idle → k.readyQueue = [])
    (hsound : k.Undamaging op) (hexact : k.Exact m op) (hstep : Step m k op k')
    (hwait : ∀ command devReg subdev tod, op ≠ .waitIo command devReg subdev tod) :
    Move k.sched k'.sched := by
  obtain ⟨hadm, hexec⟩ := hstep
  cases op with
  | createProcess s priority =>
      cases hnil : k.pcbFreeH with
      | nil =>
          simp only [exec, createProcess_nil hnil] at hexec
          obtain rfl : k = k' := Except.ok.inj hexec
          exact Move.stay
      | cons x free =>
          obtain ⟨-, habsent, hx, hxrun⟩ := h.adopt hnil hadm s priority
          simp only [exec, createProcess_cons hnil hxrun] at hexec
          rw [← Except.ok.inj hexec]
          show Move k.sched ((k.adopt x free s priority).scheduleProc x).sched
          rw [sched_scheduleProc hx]
          refine Move.enroll x priority ?_ ?_
          · obtain ⟨-, hready, hwait⟩ := Residence.absent_iff.mp habsent
            rintro (_ | key)
            · exact hready
            · exact hwait key
          · exact fun hrun => hxrun (mem_running hrun)
  | terminateProcess p =>
      obtain ⟨l, k₁, hdone, -, rfl⟩ := Step.vacated ⟨hadm, hexec⟩ h hsound
      exact hdone.move h hadm.1
  | passeren a tod =>
      simp only [exec] at hexec
      rcases p_spec m a h hadm tod with ⟨-, heq⟩ | ⟨-, asl, heq, -, hq⟩
      · rw [← Except.ok.inj (heq.symm.trans hexec)]
        exact Move.stay
      · rw [← Except.ok.inj (heq.symm.trans hexec)]
        exact h.move_block hadm (.user _) rfl rfl rfl rfl hq
  | verhogen a =>
      rw [← Except.ok.inj hexec]
      exact h.move_v a hexact.2
  | waitIo command devReg subdev tod =>
      exact absurd rfl (hwait command devReg subdev tod)
  | doneIo d status =>
      rw [← Except.ok.inj hexec]
      exact h.move_doneIo m d status
  | timeSlice =>
      rw [← Except.ok.inj hexec]
      exact h.move_timeSlice hidle hexact.1
  | write a value =>
      rw [← Except.ok.inj hexec]
      exact Move.stay

/-- Every operation of the kernel is a move of the scheduler. -/
theorem Sparing.move
    {op : Operation A} (h : k.Sparing) (hidle : k.runningProc = .idle → k.readyQueue = [])
    (hstep : Step .unbounded k op k') :
    Move k.sched k'.sched := by
  have hother := h.ok.move hidle ((h.safe op).undamaging h.ok) (exact_unbounded k op) hstep
  obtain ⟨hadm, hexec⟩ := hstep
  cases op with
  | waitIo command devReg subdev tod =>
      obtain ⟨d, -, rfl⟩ := exec_waitIo hexec
      exact h.move_waitDev hadm .unbounded d command devReg tod
  | _ =>
      exact hother (by simp)

end Refinement

/-- What holds in a run of a scheduling kernel that spares the waiting processes. -/
structure Scheduled (k : Kernel A) : Prop where
  sparing : k.Sparing
  dispatched : k.sched.Dispatched

theorem Fresh.scheduled (h : k.Fresh) : k.Scheduled where
  sparing := h.sparing
  dispatched := by
    refine ⟨fun x => (h.priority x).ge, ?_, fun hnone => ?_, ?_⟩
    · intro r hr x hx
      rw [mem_running hr]
      exact h.top x hx
    · rw [running_of_ne h.busy] at hnone
      exact absurd hnone (by simp)
    · rintro (_ | key)
      · exact h.sorted
      · show NonIncreasing _ (k.waitQueue key)
        rw [h.noWaiters key]
        exact List.Pairwise.nil

theorem Scheduled.idle (h : k.Scheduled) : k.runningProc = .idle → k.readyQueue = [] :=
  fun hidle => h.dispatched.idle (if_pos hidle)

theorem Scheduled.move
    {op : Operation A} (h : k.Scheduled) (hstep : Step .unbounded k op k') :
    Move k.sched k'.sched :=
  h.sparing.move h.idle hstep

theorem Scheduled.step
    {op : Operation A} (h : k.Scheduled) (hspare : k.SparesDevices op)
    (hstep : Step .unbounded k op k') :
    k'.Scheduled :=
  ⟨h.sparing.step hspare hstep, (h.move hstep).dispatched h.sparing.ok.wf h.dispatched⟩

section Runs

variable {s : ℕ → Kernel A} {e : ℕ → Operation A} {n : ℕ}
variable (hboot : (s 0).Booted) (hrun : IsRun (Step .unbounded) s e n)
variable (hspare : ∀ i < n, (s i).SparesDevices (e i))
include hboot hrun hspare

theorem scheduled_of_run : ∀ i ≤ n, (s i).Scheduled :=
  hrun.invariant_of hspare hboot.fresh.scheduled
    (fun _ _ _ h hspare hstep => h.step hspare hstep)

/-- Every queue evolves as an aging queue. -/
theorem evolves_of_run (i : Option SemKey) :
    ∀ j < n, Evolves (s j).priority ((s j).sched.queue i)
      (s (j + 1)).priority ((s (j + 1)).sched.queue i) := by
  intro j hj
  have h := scheduled_of_run hboot hrun hspare j (by omega)
  exact (h.move (hrun j hj)).evolves h.sparing.ok.wf i

/-- A process in front of another one outranks it, or has the same rank and came first. -/
theorem precedes_of_run
    {i : Option SemKey} {j : ℕ} (hj : j ≤ n) {x y : Proc}
    (hxy : Precedes ((s j).sched.queue i) x y) :
    (s j).priority y ≤ (s j).priority x ∧
      ((s j).priority x = (s j).priority y →
        EnteredBefore (fun j => (s j).sched.queue i) j x y) := by
  have hsched := scheduled_of_run hboot hrun hspare
  have hsorted := hboot.fresh.scheduled.dispatched.sorted i
  refine ⟨hxy.key_le ((hsched j hj).dispatched.sorted i), fun hkey => ?_⟩
  exact enteredBefore_of_precedes (fun j => (s j).priority)
    (fun j' hj' => evolves_of_run hboot hrun hspare i j' (by omega)) hsorted
    (fun j' hj' => (hsched j' (by omega)).sparing.ok.wf.separated.nodup i) hxy hkey

end Runs

variable {s : ℕ → Kernel A} {e : ℕ → Operation A} {n : ℕ}

/--
The dispatch invariant: nobody falls below the original priority, the running
process is of maximal priority, and the processor idles only when nothing is ready.
-/
theorem dispatch_invariant
    (hboot : (s 0).Booted) (hrun : IsRun (Step .unbounded) s e n)
    (hspare : ∀ i < n, (s i).SparesDevices (e i)) :
    ∀ i ≤ n,
      (∀ x, (s i).originalPriority x ≤ (s i).priority x) ∧
      (∀ x ∈ (s i).readyQueue, (s i).priority x ≤ (s i).priority (s i).runningProc) ∧
      ((s i).runningProc = .idle → (s i).readyQueue = []) := by
  intro i hi
  have h := scheduled_of_run hboot hrun hspare i hi
  refine ⟨h.dispatched.aged, fun x hx => ?_, h.idle⟩
  by_cases hidle : (s i).runningProc = .idle
  · rw [h.idle hidle] at hx
    exact absurd hx List.not_mem_nil
  · exact h.dispatched.top _ (running_of_ne hidle) x hx

/--
The order of the queues: by current priority, and among equals by arrival.  A V
wakes, and a dispatch picks, a process of maximal priority that has been there
longest.
-/
theorem queue_order
    (hboot : (s 0).Booted) (hrun : IsRun (Step .unbounded) s e n)
    (hspare : ∀ i < n, (s i).SparesDevices (e i)) :
    -- the starting processes entered the ready queue in the order of their PCBs
    (∀ x y, Precedes (s 0).readyQueue x y → (s 0).priority x = (s 0).priority y →
      x.index < y.index) ∧
    (∀ i ≤ n, ∀ place : Option SemKey,
      NonIncreasing (s i).priority ((s i).sched.queue place) ∧
      ∀ x y, Precedes ((s i).sched.queue place) x y → (s i).priority x = (s i).priority y →
        EnteredBefore (fun j => (s j).sched.queue place) i x y) ∧
    (∀ i < n, ∀ a, e i = .verhogen a → (s i).waitQueue (.user a) ≠ [] →
      ∃ x q, (s i).waitQueue (.user a) = x :: q ∧
        (s (i + 1)).waitQueue (.user a) = q ∧
        (x ∈ (s (i + 1)).readyQueue ∨ x = (s (i + 1)).runningProc) ∧
        ∀ y ∈ q, (s i).priority y ≤ (s i).priority x ∧
          ((s i).priority x = (s i).priority y →
            EnteredBefore (fun j => (s j).waitQueue (.user a)) i x y)) ∧
    (∀ i < n, ∀ x ∈ (s i).readyQueue, x = (s (i + 1)).runningProc →
      ∀ y ∈ (s i).readyQueue, y ∈ (s (i + 1)).readyQueue →
        (s i).priority y ≤ (s i).priority x ∧
          ((s i).priority x = (s i).priority y →
            EnteredBefore (fun j => (s j).readyQueue) i x y)) := by
  have hsched := scheduled_of_run hboot hrun hspare
  refine ⟨hboot.fresh.inOrder, ?_, ?_, ?_⟩
  · intro i hi place
    exact ⟨(hsched i hi).dispatched.sorted place,
      fun x y hxy => (precedes_of_run hboot hrun hspare hi hxy).2⟩
  · intro i hi a hop hne
    have hok := (hsched i (by omega)).sparing.ok
    have hexec := (hrun i hi).2
    rw [hop] at hexec
    have hk' : (s i).v .unbounded a = s (i + 1) := Except.ok.inj hexec
    rcases v_spec .unbounded a hok.residence.aslOk with ⟨hnil, -⟩ | ⟨x, q, asl, hq, heq, -, hwait⟩
    · exact absurd hnil hne
    · refine ⟨x, q, hq, ?_, ?_, fun y hy => ?_⟩
      · rw [← hk', heq]
        obtain ⟨priority, ready, running, hframe⟩ := scheduleProc_frame
          { s i with
            sem := Function.update (s i).sem a
              (IntModel.add .unbounded (IntModel.add .unbounded ((s i).sem a) 1) (-1))
            asl := asl
            pSemkey := Function.update (s i).pSemkey x none
            priority := raisePriorities .unbounded
              (Function.update (s i).priority x ((s i).originalPriority x)) q } x
        rw [hframe]
        show asl.waitQueue (.user a) = q
        rw [hwait, Function.update_self]
      · rw [← hk', heq]
        exact scheduleProc_places _ x
      · have hxy : Precedes ((s i).sched.queue (some (.user a))) x y := by
          show Precedes ((s i).waitQueue (.user a)) x y
          rw [hq]
          exact precedes_of_head hy
        exact precedes_of_run hboot hrun hspare (by omega) hxy
  · intro i hi x hx hxrun y hy hy'
    have h := hsched i (by omega)
    have hidle : x ≠ .idle := by
      rintro rfl
      exact h.sparing.ok.idle_not_ready hx
    have hrunning : (s (i + 1)).sched.running = some x := by
      rw [running_of_ne (hxrun ▸ hidle), ← hxrun]
    have hxy := (h.move (hrun i hi)).dispatch_precedes h.sparing.ok.wf hx hrunning hy hy'
    exact precedes_of_run (i := none) hboot hrun hspare (by omega) hxy

section Example

/-- Two processes use the same printer, the second one behind the first. -/
def printerHistory : List (Operation umps) :=
  [.waitIo 2 0x100001d0 0 0, .waitIo 2 0x100001d0 0 0, .timeSlice,
    .doneIo ⟨.PRIN, 0⟩ 1, .createProcess State.reset 1, .verhogen mutexMps]

theorem printerHistory_spares :
    ∀ i < 6, (states (next .unbounded) (bootMps [2, 3, 1]) printerHistory i).SparesDevices
      (printerHistory.getD i .timeSlice) := by
  intro i hi
  interval_cases i <;> exact trivial

theorem printerHistory_isRun :
    IsRun (Step .unbounded) (states (next .unbounded) (bootMps [2, 3, 1]) printerHistory)
      (fun i => printerHistory.getD i .timeSlice) 6 :=
  isRun_of_accepts (by decide +kernel)

theorem dispatch_invariant_printerHistory :
    (states (next .unbounded) (bootMps [2, 3, 1]) printerHistory 6).priority (.pcb 2) ≤
      (states (next .unbounded) (bootMps [2, 3, 1]) printerHistory 6).priority
        (states (next .unbounded) (bootMps [2, 3, 1]) printerHistory 6).runningProc :=
  (dispatch_invariant (bootMps_booted (by decide) (by decide))
    printerHistory_isRun printerHistory_spares 6 le_rfl).2.1 (.pcb 2) (by decide +kernel)

theorem queue_order_printerHistory :
    NonIncreasing (states (next .unbounded) (bootMps [2, 3, 1]) printerHistory 6).priority
      ((states (next .unbounded) (bootMps [2, 3, 1]) printerHistory 6).sched.queue none) :=
  ((queue_order (bootMps_booted (by decide) (by decide))
    printerHistory_isRun printerHistory_spares).2.1 6 le_rfl none).1

end Example

end Kernel

end Bikaya
