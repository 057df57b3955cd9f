import Mathlib.Tactic.IntervalCases
import Bikaya.Proofs.SemaphoreStarvation

/-!
# Bikaya: how a process gets lost

With device I/O a process can leave all the lists without running: a completion interrupt
takes the first process out of the device's queue, and drops it if another one is
registered for the response.  Nothing else loses a process, and only a termination of its
subtree ends its state.

**Plan.**  `Lost` says that a live process is in no queue and does not run.  The operations
move one process from a place to another and so lose nobody, except for the completion that
drops the process it has taken (`Misdelivered`).  `Step.lost_iff` says what one step does
to the lost processes, and the run lemma is the history of that.

**Results.**
* `lost_of_run`: who is lost, by what has happened before.
* `conservation_with_devices`: every PCB is in one place at most, and in none exactly if a
  completion dropped it and no termination has reached it since.
-/

namespace Bikaya

open OrderedForest TransitionSystem

namespace Kernel

variable {A : Arch} {k k' : Kernel A} {m : IntModel} {x y : Proc}

/-- Neither free, nor ready, nor blocked, nor running. -/
def Lost (k : Kernel A) (x : Proc) : Prop :=
  x ≠ .idle ∧ k.Absent x ∧ x ≠ k.runningProc

/--
A completion interrupt finds `x` at the head of the device's queue, and another process
registered for the response.
-/
def Misdelivered (k : Kernel A) (op : Operation A) (x : Proc) : Prop :=
  ∃ d status r, op = .doneIo d status ∧ k.wForRes d = some r ∧
    (k.waitQueue (.dev d)).head? = some x ∧ x ≠ r

section Scheduler

theorem absent_mem_iff (k : Kernel A) (y : Proc) :
    k.Absent y ↔
      y ∉ k.pcbFreeH ∧ y ∉ k.readyQueue ∧ ∀ key, y ∉ k.waitQueue key :=
  Residence.absent_iff

/-- Whoever is on no list when the next process is run, is lost. -/
theorem lost_runNextReady : k.runNextReady.Lost y ↔ y ≠ .idle ∧ k.Absent y := by
  unfold Lost
  rw [runNextReady_eq, absent_mem_iff, absent_mem_iff]
  cases hq : k.readyQueue with
  | nil =>
      simp
      tauto
  | cons x q =>
      simp
      tauto

theorem lost_preempt : (k.preempt x).Lost y ↔ k.Lost y ∧ y ≠ x := by
  by_cases hidle : k.runningProc = .idle
  · rw [preempt_idle hidle]
    unfold Lost
    rw [hidle]
    exact ⟨fun ⟨hy, habsent, hne⟩ => ⟨⟨hy, habsent, hy⟩, hne⟩,
      fun ⟨⟨hy, habsent, _⟩, hne⟩ => ⟨hy, habsent, hne⟩⟩
  · rw [preempt_of_ne hidle]
    unfold Lost
    rw [absent_mem_iff, absent_mem_iff]
    simp only [mem_insertProcQ]
    tauto

/-- The process that is scheduled is not lost, and the others are as before. -/
theorem lost_scheduleProc : (k.scheduleProc x).Lost y ↔ k.Lost y ∧ y ≠ x := by
  rcases scheduleProc_cases k x with ⟨-, heq⟩ | ⟨-, -, heq⟩
  · rw [heq, lost_preempt]
  · rw [heq]
    unfold Lost
    rw [absent_mem_iff, absent_mem_iff]
    simp only [mem_insertProcQ]
    tauto

end Scheduler

section Queues

/-- The running process is put into a waiting queue. -/
theorem absent_block_iff
    {key : SemKey} {asl : Asl} {q : List Proc}
    (hwait : asl.waitQueue = Function.update k.waitQueue key q)
    (hq : q.Perm (x :: k.waitQueue key)) :
    Residence.Absent asl k.pcbFreeH k.readyQueue y ↔ k.Absent y ∧ y ≠ x := by
  constructor
  · intro hy
    obtain ⟨hfree, hready, hblocked⟩ := Residence.absent_iff.mp hy
    have hyq := hblocked key
    rw [hwait, Function.update_self, hq.mem_iff, List.mem_cons, not_or] at hyq
    refine ⟨Residence.absent_iff.mpr ⟨hfree, hready, fun key' hmem => ?_⟩, hyq.1⟩
    by_cases hkey : key' = key
    · subst hkey
      exact hyq.2 hmem
    · have := hblocked key'
      rw [hwait, Function.update_of_ne hkey] at this
      exact this hmem
  · rintro ⟨hy, hne⟩
    exact Residence.absent_block hy hne hwait hq

/-- The first process, taken out of a waiting queue, is lost until it is scheduled. -/
theorem Ok.lost_unblock
    (h : k.Ok) {key : SemKey} {asl : Asl} {q : List Proc}
    (hOk : asl.Ok) (hq : k.waitQueue key = x :: q)
    (hwait : asl.waitQueue = Function.update k.waitQueue key q) :
    { k with asl := asl, pSemkey := Function.update k.pSemkey x none }.Lost y ↔
      k.Lost y ∨ y = x := by
  obtain ⟨-, habsent, hidle, hne⟩ := h.unblock hOk hq hwait
  have hperm : (k.waitQueue key).Perm (x :: asl.waitQueue key) := by
    rw [hwait, Function.update_self, hq]
  have hback : k.waitQueue = Function.update asl.waitQueue key (k.waitQueue key) := by
    rw [hwait, Function.update_idem, Function.update_eq_self]
  have hiff : k.Absent y ↔ Residence.Absent asl k.pcbFreeH k.readyQueue y ∧ y ≠ x :=
    absent_block_iff (k := { k with asl := asl }) hback hperm
  constructor
  · rintro ⟨hy, habs, hyrun⟩
    by_cases hyx : y = x
    · exact Or.inr hyx
    · exact Or.inl ⟨hy, hiff.mpr ⟨habs, hyx⟩, hyrun⟩
  · rintro (⟨hy, habs, hyrun⟩ | rfl)
    · exact ⟨hy, (hiff.mp habs).1, hyrun⟩
    · exact ⟨hidle, habsent, hne⟩

/-- What is not lost is not the process that was taken out of its list. -/
theorem Lost.ne_of_queued
    (h : k.Lost y) {key : SemKey} {q : List Proc} (hq : k.waitQueue key = x :: q) :
    y ≠ x := by
  rintro rfl
  exact ((absent_mem_iff k y).mp h.2.1).2.2 key (hq ▸ List.mem_cons_self)

end Queues

section Operations

theorem lost_createProcess
    (h : k.Ok) (hidle : k.runningProc ≠ .idle) {s : State A} {priority : Int}
    (hexec : k.exec m (.createProcess s priority) = .ok k') :
    k'.Lost y ↔ k.Lost y := by
  cases hfree : k.pcbFreeH with
  | nil =>
      simp only [exec, createProcess_nil hfree] at hexec
      rw [← show k = k' from Except.ok.inj hexec]
  | cons x free =>
      obtain ⟨-, -, -, hxrun⟩ := h.adopt hfree hidle s priority
      simp only [exec, createProcess_cons hfree hxrun] at hexec
      rw [← show (k.adopt x free s priority).scheduleProc x = k' from Except.ok.inj hexec,
        lost_scheduleProc]
      unfold Lost
      rw [absent_mem_iff, absent_mem_iff, hfree]
      simp only [adopt, waitQueue, List.mem_cons]
      tauto

/-- Blocking the running process loses nobody. -/
theorem lost_block
    {key : SemKey} {asl : Asl} {q : List Proc}
    (hwait : asl.waitQueue = Function.update k.waitQueue key q)
    (hq : q.Perm (k.runningProc :: k.waitQueue key))
    (hlists : k'.Absent y ↔ Residence.Absent asl k.pcbFreeH k.readyQueue y) :
    k'.runNextReady.Lost y ↔ k.Lost y := by
  rw [lost_runNextReady, hlists, absent_block_iff hwait hq]
  exact Iff.rfl

theorem lost_p
    (h : k.Ok) (hidle : k.runningProc ≠ .idle) {a : SemAddr} {tod : Word}
    (hp : k.p m a tod = .ok k') :
    k'.Lost y ↔ k.Lost y := by
  rcases p_spec m a h hidle tod with ⟨-, heq⟩ | ⟨-, asl, heq, -, hwait⟩
  · rw [Except.ok.inj (hp.symm.trans heq)]
    exact Iff.rfl
  · rw [Except.ok.inj (hp.symm.trans heq)]
    exact lost_block hwait (insertProcQ_perm _ _ _) Iff.rfl

theorem lost_v (h : k.Ok) (a : SemAddr) : (k.v m a).Lost y ↔ k.Lost y := by
  rcases v_spec m a h.residence.aslOk with ⟨-, heq⟩ | ⟨x, q, asl, hq, heq, hOk, hwait⟩
  · rw [heq]
    exact Iff.rfl
  · rw [heq, lost_scheduleProc]
    refine (and_congr (h.lost_unblock hOk hq hwait) Iff.rfl).trans ?_
    exact ⟨fun ⟨hy, hne⟩ => hy.resolve_right hne,
      fun hy => ⟨Or.inl hy, hy.ne_of_queued hq⟩⟩

theorem lost_waitDev
    (h : k.Ok) (hidle : k.runningProc ≠ .idle) (d : Dev) (command devReg tod : Word) :
    (k.waitDev m command devReg d tod).Lost y ↔ k.Lost y := by
  rcases waitDev_spec m d h hidle command devReg tod with
    ⟨-, asl, heq, -, hwait⟩ | ⟨-, asl, heq, -, hwait⟩
  · rw [heq]
    exact lost_block hwait (insertProcQ_perm _ _ _) Iff.rfl
  · rw [heq]
    exact lost_block hwait (List.perm_append_singleton _ _) Iff.rfl

theorem lost_timeSlice : (k.timeSliceCallback m).Lost y ↔ k.Lost y := by
  rcases timeSlice_spec (k := k) m with ⟨heq, -⟩ | ⟨x, q, hq, -, heq⟩
  · rw [heq]
    exact Iff.rfl
  · rw [heq, lost_preempt]
    unfold Lost
    rw [absent_mem_iff, absent_mem_iff, hq]
    simp only [waitQueue, List.mem_cons]
    tauto

theorem lost_nextCommand (d : Dev) (next : Option Proc) :
    (k.nextCommand m d next).Lost y ↔ k.Lost y := by
  cases next <;> exact Iff.rfl

theorem lost_respond (status : Word) : (k.respond x status).Lost y ↔ k.Lost y ∧ y ≠ x :=
  lost_scheduleProc (k := { k with devWList := Function.update k.devWList x none })

/-- A completion loses the process it takes out for another one. -/
theorem lost_doneIo (h : k.Ok) (d : Dev) (status : Word) :
    (k.doneIo m d status).Lost y ↔ k.Lost y ∨ k.Misdelivered (.doneIo d status) y := by
  have hmis : k.Misdelivered (.doneIo d status) y ↔
      ∃ r, k.wForRes d = some r ∧ (k.waitQueue (.dev d)).head? = some y ∧ y ≠ r := by
    constructor
    · rintro ⟨d', status', r, heq, hr, hhead, hne⟩
      obtain ⟨rfl, rfl⟩ := Operation.doneIo.inj heq
      exact ⟨r, hr, hhead, hne⟩
    · rintro ⟨r, hr, hhead, hne⟩
      exact ⟨d, status, r, rfl, hr, hhead, hne⟩
  rw [hmis]
  cases hr : k.wForRes d with
  | none =>
      rw [doneIo_none m d hr]
      simp only [reduceCtorEq, false_and, exists_false, or_false]
      exact Iff.rfl
  | some r =>
      cases hq : k.waitQueue (.dev d) with
      | nil =>
          rw [doneIo_nil m d h.residence.aslOk hr hq, lost_nextCommand]
          simp
      | cons x q =>
          obtain ⟨asl, hdone, hOk, hwait⟩ := doneIo_cons m d h.residence.aslOk hr hq status
          rw [hdone, lost_nextCommand]
          by_cases hx : x = r
          · subst hx
            rw [if_pos rfl, lost_respond, h.lost_unblock hOk hq hwait]
            constructor
            · exact fun ⟨hy, hne⟩ => Or.inl (hy.resolve_right hne)
            · rintro (hy | ⟨r, hr, hhead, hne⟩)
              · exact ⟨Or.inl hy, hy.ne_of_queued hq⟩
              · obtain rfl := Option.some.inj hr
                obtain rfl := Option.some.inj hhead
                exact absurd rfl hne
          · rw [if_neg hx, h.lost_unblock hOk hq hwait]
            constructor
            · rintro (hy | rfl)
              · exact Or.inl hy
              · exact Or.inr ⟨r, rfl, rfl, hx⟩
            · rintro (hy | ⟨-, -, hhead, -⟩)
              · exact Or.inl hy
              · exact Or.inr (Option.some.inj hhead).symm

/-- A termination frees what was lost below its target, and loses nobody. -/
theorem Terminated.lost_iff
    {t : Proc} {l : List Proc} (hterm : k.Terminated t l k') :
    k'.Lost y ↔ k.Lost y ∧ y ∉ l := by
  obtain ⟨asl, pParent, rfl, hwait, -⟩ := hterm.result
  have hlists : Residence.Absent asl (l.reverse ++ k.pcbFreeH) (survivors l k.readyQueue) y ↔
      y ∉ l ∧ k.Absent y := by
    rw [absent_mem_iff, Residence.absent_iff]
    simp only [hwait, survivors, List.mem_filter, List.mem_append, List.mem_reverse]
    grind
  by_cases hrun : k.runningProc ∈ l
  · have hnext := lost_runNextReady (y := y)
      (k := { k with
        asl := asl
        pParent := pParent
        pChild := k.childrenAfter t l
        pSemkey := unblocked k.pSemkey l
        readyQueue := survivors l k.readyQueue
        pcbFreeH := l.reverse ++ k.pcbFreeH })
    rw [runNextReady_eq] at hnext
    simp only [Kernel.afterTermination, readyAfter, runningAfter, hrun, if_true]
    refine hnext.trans ((and_congr Iff.rfl hlists).trans ?_)
    constructor
    · rintro ⟨hy, hyl, habsent⟩
      exact ⟨⟨hy, habsent, fun heq => hyl (heq ▸ hrun)⟩, hyl⟩
    · rintro ⟨⟨hy, habsent, -⟩, hyl⟩
      exact ⟨hy, hyl, habsent⟩
  · simp only [Kernel.afterTermination, readyAfter, runningAfter, hrun, if_false]
    refine (and_congr Iff.rfl (and_congr hlists Iff.rfl)).trans ?_
    unfold Lost
    tauto

theorem misdelivered_of_ne
    {op : Operation A} (hop : ∀ d status, op ≠ .doneIo d status) :
    ¬ k.Misdelivered op y := by
  rintro ⟨d, status, -, rfl, -⟩
  exact hop d status rfl

theorem kills_of_not_terminates
    {op : Operation A} (hop : ¬ op.Terminates) :
    ¬ k.Kills op y := by
  cases op with
  | terminateProcess p =>
      exact absurd trivial hop
  | _ =>
      exact id

/-- One operation: who is lost afterwards. -/
theorem Step.lost_iff
    {op : Operation A} (hstep : Step m k op k') (h : k.Ok) (hsound : k.Undamaging op) :
    k'.Lost y ↔ (k.Lost y ∧ ¬ k.Kills op y) ∨ k.Misdelivered op y := by
  have hkeep : ¬ op.Terminates → (∀ d status, op ≠ .doneIo d status) →
      (k'.Lost y ↔ k.Lost y) →
      (k'.Lost y ↔ (k.Lost y ∧ ¬ k.Kills op y) ∨ k.Misdelivered op y) := by
    intro hterm hdone hlost
    simp only [hlost, kills_of_not_terminates hterm, misdelivered_of_ne hdone, not_false_iff,
      and_true, or_false]
  cases op with
  | createProcess s priority =>
      exact hkeep id (by simp) (lost_createProcess h hstep.1 hstep.2)
  | terminateProcess p =>
      obtain ⟨l, k₁, hterm, -, rfl⟩ := hstep.vacated h hsound
      have hkills : k.Kills (.terminateProcess p) y ↔ y ∈ l := (hterm.mem y).symm
      rw [hkills]
      refine hterm.lost_iff.trans ?_
      simp only [misdelivered_of_ne (k := k) (y := y)
        (show ∀ d status, (.terminateProcess p : Operation A) ≠ .doneIo d status by simp),
        or_false]
  | passeren a tod =>
      exact hkeep id (by simp) (lost_p h hstep.1 hstep.2)
  | verhogen a =>
      rw [← show k.v m a = k' from Except.ok.inj hstep.2] at hkeep ⊢
      exact hkeep id (by simp) (lost_v h a)
  | waitIo command devReg subdev tod =>
      obtain ⟨d, -, rfl⟩ := exec_waitIo hstep.2
      exact hkeep id (by simp) (lost_waitDev h hstep.1 d command devReg tod)
  | doneIo d status =>
      rw [← show k.doneIo m d status = k' from Except.ok.inj hstep.2, lost_doneIo h]
      simp only [kills_of_not_terminates (k := k) (y := y)
        (show ¬ (.doneIo d status : Operation A).Terminates from id), not_false_iff, and_true]
  | timeSlice =>
      rw [← show k.timeSliceCallback m = k' from Except.ok.inj hstep.2] at hkeep ⊢
      exact hkeep id (by simp) lost_timeSlice
  | write a value =>
      rw [← show { k with sem := Function.update k.sem a value } = k' from
        Except.ok.inj hstep.2] at hkeep ⊢
      exact hkeep id (by simp) Iff.rfl

end Operations

/-- A process is in exactly one place, or lost. -/
theorem Ok.occurrences_eq
    (h : k.Ok) (hidle : x ≠ .idle) [Decidable (k.Lost x)] :
    k.occurrences x = if k.Lost x then 0 else 1 := by
  split_ifs with hlost
  · obtain ⟨-, habsent, hrun⟩ := hlost
    obtain ⟨hfree, hready, -⟩ := Residence.absent_iff.mp habsent
    rw [occurrences, h.blocked_count, h.residence.semkey_of_absent habsent,
      List.count_eq_zero.mpr hfree, List.count_eq_zero.mpr hready, if_neg (Ne.symm hrun)]
    simp
  · refine h.occurrences_of_placed (fun habsent => ?_)
    by_contra hrun
    exact hlost ⟨hidle, habsent, hrun⟩

section Runs

variable {s : ℕ → Kernel A} {e : ℕ → Operation A} {n : ℕ}

theorem ok_of_undamaging
    (hboot : (s 0).Booted) (hrun : IsRun (Step m) s e n)
    (hsound : ∀ i < n, (s i).Undamaging (e i)) :
    ∀ i ≤ n, (s i).Ok :=
  hrun.invariant_of hsound hboot.fresh.ok
    (fun _ _ _ h hC hstep => h.step_of_undamaging hC hstep)

/-- Who is lost, over a run. -/
theorem lost_of_run
    (hboot : (s 0).Booted) (hrun : IsRun (Step m) s e n)
    (hsound : ∀ i < n, (s i).Undamaging (e i)) (x : Proc) :
    ∀ i ≤ n, (s i).Lost x ↔
      ∃ j < i, (s j).Misdelivered (e j) x ∧ ∀ l, j < l → l < i → ¬ (s l).Kills (e l) x := by
  have hok := ok_of_undamaging hboot hrun hsound
  refine since_iff (P := fun i => (s i).Lost x) ?_ (fun i hi =>
    (hrun i hi).lost_iff (hok i hi.le) (hsound i hi))
  exact fun ⟨hidle, habsent, hne⟩ => hne (hboot.fresh.accounted x hidle habsent)

/--
Conservation with device I/O.  In every run whose terminations meet no stale registration,
each PCB is in one place at most, and it is in no place exactly when a completion
interrupt has found it at the head of the device's queue while another process was
registered, and no termination has reached it since.
-/
theorem conservation_with_devices
    (hboot : (s 0).Booted) (hrun : IsRun (Step m) s e n)
    (hsound : ∀ i < n, (s i).Undamaging (e i)) :
    ∀ i ≤ n, ∀ j : Fin MAXPROC,
      ((s i).occurrences (.pcb j) = 0 ∨ (s i).occurrences (.pcb j) = 1) ∧
      ((s i).occurrences (.pcb j) = 0 ↔
        ∃ l < i, (s l).Misdelivered (e l) (.pcb j) ∧
          ∀ l', l < l' → l' < i → ¬ (s l').Kills (e l') (.pcb j)) := by
  intro i hi j
  classical
  have hocc := (ok_of_undamaging hboot hrun hsound i hi).occurrences_eq
    (x := .pcb j) (by simp)
  rw [← lost_of_run hboot hrun hsound (.pcb j) i hi, hocc]
  by_cases hlost : (s i).Lost (.pcb j) <;> simp [hlost]

/-- A process uses the printer again while one of lower priority waits for its response. -/
def misdeliveryHistory : List (Operation umps) :=
  [.waitIo 2 0x100001d0 0 0, .waitIo 3 0x100001d0 0 0, .doneIo ⟨.PRIN, 0⟩ 1,
    .waitIo 4 0x100001d0 0 0, .doneIo ⟨.PRIN, 0⟩ 1]

theorem misdeliveryHistory_isRun :
    IsRun (Step .int32) (states (next .int32) (bootMps [2, 1]) misdeliveryHistory)
      (fun i => misdeliveryHistory.getD i .timeSlice) 5 :=
  isRun_of_accepts (by decide +kernel)

theorem misdeliveryHistory_undamaging :
    ∀ i < 5, (states (next .int32) (bootMps [2, 1]) misdeliveryHistory i).Undamaging
      (misdeliveryHistory.getD i .timeSlice) := by
  intro i hi
  interval_cases i <;> exact trivial

/-- At the second completion it is lost. -/
theorem conservation_with_devices_misdeliveryHistory :
    ∃ l < 5, (states (next .int32) (bootMps [2, 1]) misdeliveryHistory l).Misdelivered
      (misdeliveryHistory.getD l .timeSlice) (.pcb 0) := by
  obtain ⟨l, hl, hmis, -⟩ :=
    (conservation_with_devices (bootMps_booted (by decide) (by decide))
      misdeliveryHistory_isRun misdeliveryHistory_undamaging 5 le_rfl 0).2.mp (by decide +kernel)
  exact ⟨l, hl, hmis⟩

end Runs

end Kernel

end Bikaya
