import Bikaya.Library.WakingQueue
import Bikaya.Proofs.Semaphores
import Bikaya.Proofs.Starvation

/-!
# Bikaya: no starvation on a semaphore

The queue of a semaphore ages on wake-ups: a V takes the first process out and raises the
others by one, a P lets the running process enter by priority, and no other operation
changes the priority of a waiting process.

**Plan.**  `Step.serves` reads every operation as a step of the library's waking queue: a V
of the semaphore wakes its first process, and all the others let processes enter by
priority, or leave by death.  The bound is the library's.  The integers are unbounded;
`AgeingOverflow.lean` has the overflow.

**Results.**
* `Step.serves`: the operations on the queue of one semaphore.
* `no_starvation_semaphore`: a waiting process that is not killed is woken after a bounded
  number of wake-ups, in every run and whoever else arrives.
-/

namespace Bikaya

open TransitionSystem StableInsert AgingQueue OrderedForest

/-- The operation is a V on the semaphore. -/
def Operation.wakes {A : Arch} (a : SemAddr) : Operation A → Bool
  | .verhogen b => b = a
  | _ => false

namespace Kernel

variable {A : Arch} {k k' : Kernel A} {m : IntModel}

/-- The operation terminates the process. -/
def Kills (k : Kernel A) : Operation A → Proc → Prop
  | .terminateProcess p, x => Below k.pChild x (p.getD k.runningProc)
  | _, _ => False

section Steps

variable {a : SemAddr} {dead : Proc → Prop} {x y z : Proc}

theorem wakes_iff {op : Operation A} : op.wakes a = true ↔ op = .verhogen a := by
  cases op <;> simp [Operation.wakes]

theorem priority_preempt_of_ne (hy : y ≠ k.runningProc) :
    (k.preempt x).priority y = k.priority y := by
  by_cases hidle : k.runningProc = .idle
  · rw [preempt_idle hidle]
  · rw [preempt_of_ne hidle]
    exact Function.update_of_ne hy _ _

/-- Scheduling a process changes the priority of the preempted process only. -/
theorem priority_scheduleProc_of_ne
    (hy : y ≠ k.runningProc) :
    (k.scheduleProc x).priority y = k.priority y := by
  rcases scheduleProc_cases k x with ⟨-, heq⟩ | ⟨-, -, heq⟩
  · rw [heq, priority_preempt_of_ne hy]
  · rw [heq]

/-- Nothing happens to the queue. -/
theorem serves_of_frame
    {k₁ : Kernel A} (hwait : k₁.waiters a = k.waiters a)
    (hprio : ∀ y ∈ k.waiters a, k₁.priority y = k.priority y) :
    Serves dead k.priority (k.waiters a) k₁.priority false (k₁.waiters a) := by
  rw [hwait]
  exact Serves.leave _ (List.Sublist.refl _) (fun _ hy _ => hy) hprio

/-- A process is scheduled that is not in the queue. -/
theorem serves_scheduleProc
    (h : k.Ok) (k₁ : Kernel A) (hrun : k₁.runningProc = k.runningProc)
    (hwait : k₁.waiters a = k.waiters a)
    (hprio : ∀ y ∈ k.waiters a, k₁.priority y = k.priority y) :
    Serves dead k.priority (k.waiters a) (k₁.scheduleProc z).priority false
      ((k₁.scheduleProc z).waiters a) := by
  have hqueue := (scheduleProc_sem k₁ z).2
  refine serves_of_frame ((congrFun hqueue (.user a)).trans hwait) (fun y hy => ?_)
  rw [priority_scheduleProc_of_ne (hrun ▸ h.ne_running_of_queued hy), hprio y hy]

/-- A V on the semaphore wakes the first process, and a V on another one does nothing. -/
theorem Ok.serves_v
    (h : k.Ok) (b : SemAddr) (hexact : k.WakesExactly m (.verhogen b)) :
    Serves dead k.priority (k.waiters a) (k.v m b).priority
      ((Operation.verhogen b : Operation A).wakes a)
      ((k.v m b).waiters a) := by
  rcases v_spec m b h.residence.aslOk with ⟨hempty, heq⟩ | ⟨x, q, asl, hq, heq, -, hwait⟩
  · rw [heq]
    by_cases hba : b = a
    · subst hba
      have hnone : k.waiters b = [] := hempty
      have hserves : Serves dead k.priority (k.waiters b) k.priority true (k.waiters b).tail :=
        Serves.wake (by simp [hnone])
      rw [show (Operation.verhogen b : Operation A).wakes b = true from wakes_iff.mpr rfl]
      rw [show (k.waiters b).tail = k.waiters b by rw [hnone]; rfl] at hserves
      exact hserves
    · rw [show (Operation.verhogen b : Operation A).wakes a = false by simp [Operation.wakes, hba]]
      exact serves_of_frame rfl (fun _ _ => rfl)
  · obtain ⟨hxq, hndq⟩ := h.queue_nodup hq
    have hqueue := (scheduleProc_sem { k with
      sem := Function.update k.sem b (m.add (m.add (k.sem b) 1) (-1))
      asl := asl
      pSemkey := Function.update k.pSemkey x none
      priority := raisePriorities m
        (Function.update k.priority x (k.originalPriority x)) q } x).2
    rw [← heq] at hqueue
    by_cases hba : b = a
    · subst hba
      have hwaiters : k.waiters b = x :: q := hq
      have hrest : (k.v m b).waiters b = (k.waiters b).tail := by
        rw [hwaiters, List.tail_cons]
        show (k.v m b).waitQueue (.user b) = q
        rw [hqueue]
        show asl.waitQueue (.user b) = q
        rw [hwait, Function.update_self]
      rw [show (Operation.verhogen b : Operation A).wakes b = true from wakes_iff.mpr rfl, hrest]
      refine Serves.wake (fun y hy => ?_)
      have hexact' := hexact y hy
      rw [hwaiters, List.tail_cons] at hy
      have hyx : y ≠ x := fun heq => hxq (heq ▸ hy)
      have hyrun : y ≠ k.runningProc :=
        h.ne_running_of_queued (hq ▸ List.mem_cons_of_mem x hy)
      rw [heq, priority_scheduleProc_of_ne]
      · show raisePriorities m _ q y = k.priority y + 1
        rw [raisePriorities_of_mem m _ hndq hy, Function.update_of_ne hyx]
        exact hexact'
      · exact hyrun
    · have hkey : SemKey.user a ≠ .user b := fun hk => hba (SemKey.user.inj hk).symm
      rw [show (Operation.verhogen b : Operation A).wakes a = false by simp [Operation.wakes, hba]]
      rw [heq]
      refine serves_scheduleProc h _ rfl ?_ (fun y hy => ?_)
      · show asl.waitQueue (.user a) = _
        rw [hwait, Function.update_of_ne hkey]
      · -- a process waits on one semaphore only
        have hyb : y ∉ x :: q := by
          intro hmem
          have hb : y ∈ k.waitQueue (.user b) := hq ▸ hmem
          have := h.residence.separated.unique (.blocked (.user a)) (.blocked (.user b)) y hy hb
          exact hkey (by simpa using this)
        obtain ⟨hyx, hyq⟩ := not_or.mp (fun hor => hyb (List.mem_cons.mpr hor))
        show raisePriorities m _ q y = k.priority y
        rw [raisePriorities_of_notMem m _ hyq, Function.update_of_ne hyx]

/-- The completion of a device operation does nothing to the queue of a semaphore. -/
theorem Ok.serves_doneIo
    (h : k.Ok) (d : Dev) (status : Word) :
    Serves dead k.priority (k.waiters a) (k.doneIo m d status).priority false
      ((k.doneIo m d status).waiters a) := by
  have hnext : ∀ (k₁ : Kernel A) (next : Option Proc),
      (k₁.nextCommand m d next).priority = k₁.priority ∧
        (k₁.nextCommand m d next).waiters a = k₁.waiters a := by
    intro k₁ next
    cases next <;> exact ⟨rfl, rfl⟩
  cases hr : k.wForRes d with
  | none =>
      rw [doneIo_none m d hr]
      exact serves_of_frame rfl (fun _ _ => rfl)
  | some r =>
      cases hq : k.waitQueue (.dev d) with
      | nil =>
          rw [doneIo_nil m d h.residence.aslOk hr hq]
          obtain ⟨hprio, hwait⟩ := hnext k none
          exact serves_of_frame hwait (fun y _ => congrFun hprio y)
      | cons y q =>
          obtain ⟨asl, heq, -, hwait⟩ := doneIo_cons m d h.residence.aslOk hr hq status
          have hqueue : asl.waitQueue (.user a) = k.waiters a := by
            rw [hwait]
            exact Function.update_of_ne (by simp) _ _
          rw [heq]
          split_ifs with hyr
          · obtain ⟨hprio, hwait⟩ := hnext
              ({ k with asl := asl, pSemkey := Function.update k.pSemkey y none }.respond r status)
              q.head?
            rw [hprio, hwait]
            exact serves_scheduleProc h
              { k with
                asl := asl
                pSemkey := Function.update k.pSemkey y none
                devWList := Function.update k.devWList r none } rfl hqueue (fun _ _ => rfl)
          · obtain ⟨hprio, hwait⟩ := hnext
              { k with asl := asl, pSemkey := Function.update k.pSemkey y none } q.head?
            rw [hprio, hwait]
            exact serves_of_frame hqueue (fun _ _ => rfl)

/-- Every operation is a step of the queue. -/
theorem Step.serves
    {op : Operation A} (h : k.Ok) (hsound : k.Undamaging op) (hexact : k.WakesExactly m op)
    (hstep : Step m k op k') :
    Serves (k.Kills op) k.priority (k.waiters a) k'.priority (op.wakes a) (k'.waiters a) := by
  obtain ⟨hadm, hexec⟩ := hstep
  cases op with
  | createProcess s priority =>
      cases hnil : k.pcbFreeH with
      | nil =>
          simp only [exec, createProcess_nil hnil] at hexec
          obtain rfl := Except.ok.inj hexec
          exact serves_of_frame rfl (fun _ _ => rfl)
      | cons z free =>
          obtain ⟨-, habsent, -, hzrun⟩ := h.adopt hnil hadm s priority
          simp only [exec, createProcess_cons hnil hzrun] at hexec
          obtain rfl := Except.ok.inj hexec
          refine serves_scheduleProc h _ rfl rfl (fun y hy => ?_)
          have hyz : y ≠ z := by
            rintro rfl
            exact (Residence.absent_iff.mp habsent).2.2 _ hy
          exact Function.update_of_ne hyz _ _
  | terminateProcess p =>
      obtain ⟨l, k₁, hdone, -, rfl⟩ := Step.vacated ⟨hadm, hexec⟩ h hsound
      obtain ⟨asl, pParent, rfl, hwait, -⟩ := hdone.result
      refine Serves.leave _ ?_ (fun y hy hlive => ?_) (fun _ _ => rfl)
      · show (asl.waitQueue (.user a)).Sublist _
        rw [hwait]
        exact List.filter_sublist
      · have hyl : y ∉ l := fun hmem => hlive ((hdone.mem y).mp hmem)
        show y ∈ asl.waitQueue (.user a)
        rw [hwait]
        exact List.mem_filter.mpr ⟨hy, by simpa using hyl⟩
  | passeren b tod =>
      simp only [exec] at hexec
      rcases p_spec m b h hadm tod with ⟨-, heq⟩ | ⟨-, asl, heq, -, hwait⟩
      · obtain rfl := Except.ok.inj (heq.symm.trans hexec)
        exact serves_of_frame rfl (fun _ _ => rfl)
      · obtain rfl := Except.ok.inj (heq.symm.trans hexec)
        rw [runNextReady_eq]
        by_cases hba : b = a
        · subst hba
          have henter : Serves (k.Kills (.passeren b tod)) k.priority (k.waiters b) k.priority false
              (stableInsert k.priority k.runningProc (k.waiters b)) :=
            Serves.enter _ (h.running_not_queued _) (fun _ _ => rfl)
          rw [← insertProcQ_eq] at henter
          have hqueue : asl.waitQueue (.user b) =
              insertProcQ k.priority (k.waiters b) k.runningProc := by
            rw [hwait, Function.update_self]
          rw [← hqueue] at henter
          exact henter
        · have hkey : SemKey.user a ≠ .user b := fun hk => hba (SemKey.user.inj hk).symm
          refine serves_of_frame ?_ (fun _ _ => rfl)
          show asl.waitQueue (.user a) = _
          rw [hwait, Function.update_of_ne hkey]
  | verhogen b =>
      obtain rfl := Except.ok.inj hexec
      exact h.serves_v b hexact
  | waitIo command devReg subdev tod =>
      obtain ⟨d, -, rfl⟩ := exec_waitIo hexec
      rcases waitDev_spec m d h hadm command devReg tod with
        ⟨-, asl, heq, -, hwait⟩ | ⟨-, asl, heq, -, hwait⟩
      all_goals
        rw [heq, runNextReady_eq]
        refine serves_of_frame ?_ (fun _ _ => rfl)
        show asl.waitQueue (.user a) = _
        rw [hwait, Function.update_of_ne (by simp)]
  | doneIo d status =>
      obtain rfl := Except.ok.inj hexec
      exact h.serves_doneIo d status
  | timeSlice =>
      obtain rfl := Except.ok.inj hexec
      have hage : ∀ y ∈ k.waiters a,
          raisePriorities m k.priority k.readyQueue y = k.priority y :=
        fun y hy => raisePriorities_of_notMem m _ (h.residence.not_ready_of_wait hy)
      refine serves_of_frame ?_ (fun y hy => ?_)
      · obtain ⟨priority, ready, running, heq⟩ := timeSlice_frame m k
        rw [heq]
        rfl
      · rcases timeSlice_spec (k := k) m with ⟨heq, -⟩ | ⟨x, q, -, -, heq⟩
        · rw [heq]
          exact hage y hy
        · rw [heq, priority_preempt_of_ne]
          · exact hage y hy
          · exact h.ne_running_of_queued hy
  | write b value =>
      obtain rfl := Except.ok.inj hexec
      exact serves_of_frame rfl (fun _ _ => rfl)

end Steps

section Runs

variable {s : ℕ → Kernel A} {e : ℕ → Operation A} {n : ℕ}

/-- One operation that damages no queue. -/
def SoundStep (m : IntModel) (k : Kernel A) (op : Operation A) (k' : Kernel A) : Prop :=
  k.Undamaging op ∧ Step m k op k'

/-- What the bound on the wake-ups needs of the kernel. -/
structure Serving (k : Kernel A) (a : SemAddr) : Prop where
  ok : k.Ok
  sorted : NonIncreasing k.priority (k.waiters a)

theorem Serving.step
    {op : Operation A} {a : SemAddr} (h : k.Serving a) (hstep : SoundStep .unbounded k op k') :
    k'.Serving a := by
  obtain ⟨hsound, hstep⟩ := hstep
  have hserves := hstep.serves (a := a) h.ok hsound (exact_unbounded k op).2
  exact ⟨h.ok.step_of_undamaging hsound hstep, hserves.evolves.nonIncreasing h.sorted⟩

theorem serving_of_reachable
    (h : Reachable Booted (SoundStep .unbounded) k) (a : SemAddr) :
    k.Serving a := by
  induction h with
  | @start k₀ hboot =>
      have hnone : k₀.waiters a = [] := hboot.fresh.noWaiters _
      exact ⟨hboot.fresh.ok, by rw [hnone]; exact List.Pairwise.nil⟩
  | step _ hstep ih =>
      exact ih.step hstep

/--
A process that waits on a semaphore with priority `q` is dequeued by the V number
`(M - q).toNat + N` at the latest, if the processes that come to wait on it have
priorities of at most `M`, at most `N` processes wait on it, and the process itself is
not terminated.
-/
theorem no_starvation_semaphore
    {a : SemAddr} {x : Proc} {M : ℤ} {N : ℕ}
    (hreach : Reachable Booted (SoundStep .unbounded) (s 0))
    (hrun : IsRun (SoundStep .unbounded) s e n)
    (hx : x ∈ (s 0).waiters a)
    (hlive : ∀ i < n, x ∈ (s i).waiters a → ¬ (s i).Kills (e i) x)
    (hM : ∀ i < n, ∀ z ∈ (s (i + 1)).waiters a, z ∉ (s i).waiters a → (s (i + 1)).priority z ≤ M)
    (hN : ∀ i ≤ n, ((s i).waiters a).length ≤ N)
    (hcount : (M - (s 0).priority x).toNat + N ≤ Nat.count (fun i => (e i).wakes a = true) n) :
    ∃ i < n, e i = .verhogen a ∧ (s i).waiters a = x :: (s (i + 1)).waiters a ∧
      Nat.count (fun j => (e j).wakes a = true) (i + 1) ≤ (M - (s 0).priority x).toNat + N := by
  have hserving : ∀ i ≤ n, (s i).Serving a :=
    fun i hi => serving_of_reachable (hrun.reachable hreach i hi) a
  have hserves : ∀ i < n, Serves ((s i).Kills (e i)) (s i).priority ((s i).waiters a)
      (s (i + 1)).priority ((e i).wakes a) ((s (i + 1)).waiters a) := by
    intro i hi
    obtain ⟨hsound, hstep⟩ := hrun i hi
    exact hstep.serves (hserving i (by omega)).ok hsound (exact_unbounded _ _).2
  obtain ⟨i, hi, hwakes, hhead, hbound⟩ := woken_of_run
    (fun i => (s i).priority) (fun i => (s i).waiters a) hserves
    (hserving 0 (Nat.zero_le n)).sorted (fun i hi => (hserving i hi).ok.residence.wait_nodup _) hx
    hlive hM hN hcount
  refine ⟨i, hi, wakes_iff.mp hwakes, ?_, hbound⟩
  obtain ⟨q, hq⟩ := List.head?_eq_some_iff.mp hhead
  have hserve := hserves i hi
  rw [hwakes] at hserve
  generalize hnext : (s (i + 1)).waiters a = q' at hserve ⊢
  cases hserve with
  | wake _ =>
      rw [hq, List.tail_cons]

end Runs

section Example

/--
The process 0 waits behind the process 1, which has priority 3 and comes back twice:
the first time it overtakes, the second time it does not.
-/
def overtakingHistory : List (Operation umps) :=
  [.createProcess State.reset 0, .passeren mutexMps 0, .passeren mutexMps 0, .verhogen mutexMps,
    .passeren mutexMps 0, .verhogen mutexMps, .passeren mutexMps 0, .verhogen mutexMps,
    .verhogen mutexMps]

theorem overtakingHistory_isRun :
    IsRun (SoundStep .unbounded) (states (next .unbounded) (bootMps [1, 3]) overtakingHistory)
      (fun i => overtakingHistory.getD i .timeSlice) 9 := by
  have hrun : IsRun (Step .unbounded) (states (next .unbounded) (bootMps [1, 3]) overtakingHistory)
      (fun i => overtakingHistory.getD i .timeSlice) 9 :=
    isRun_of_accepts (by decide +kernel)
  intro i hi
  refine ⟨?_, hrun i hi⟩
  interval_cases i <;> exact trivial

theorem no_starvation_semaphore_overtakingHistory :
    ∃ i < 6, overtakingHistory.getD (i + 3) .timeSlice = .verhogen mutexMps ∧
      (states (next .unbounded) (bootMps [1, 3]) overtakingHistory (i + 3)).waiters mutexMps =
        .pcb 0 :: (states (next .unbounded) (bootMps [1, 3]) overtakingHistory (i + 1 + 3)).waiters
          mutexMps ∧
      Nat.count (fun j => (overtakingHistory.getD (j + 3) .timeSlice).wakes mutexMps = true)
        (i + 1) ≤ 4 := by
  have hpriority : (3 - (states (next .unbounded) (bootMps [1, 3]) overtakingHistory
      (0 + 3)).priority (.pcb 0)).toNat + 2 = 4 := by
    decide +kernel
  have h := no_starvation_semaphore (a := mutexMps) (x := .pcb 0) (M := 3) (N := 2) (n := 6)
    (s := fun i => states (next .unbounded) (bootMps [1, 3]) overtakingHistory (i + 3))
    (e := fun i => overtakingHistory.getD (i + 3) .timeSlice)
    (overtakingHistory_isRun.reachable (Reachable.start (bootMps_booted (by decide) (by decide))) 3
      (by decide))
    (fun i hi => overtakingHistory_isRun (i + 3) (by omega)) (by decide +kernel) ?_ ?_ ?_ ?_
  · rw [hpriority] at h
    exact h
  · intro i hi _
    interval_cases i <;> exact id
  · intro i hi
    interval_cases i <;> decide +kernel
  · intro i hi
    interval_cases i <;> decide +kernel
  · rw [hpriority]
    decide

end Example

end Kernel

end Bikaya
