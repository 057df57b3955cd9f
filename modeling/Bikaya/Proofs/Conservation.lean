import Mathlib.Algebra.BigOperators.Group.List.Basic
import Mathlib.Algebra.Order.BigOperators.Group.List
import Bikaya.Proofs.Boot
import Bikaya.Proofs.Preservation

/-!
# Bikaya: conservation of processes

Without device I/O no process is lost or duplicated: in every state of every run each PCB
stands in exactly one place.  A termination then always finds its subtree, and moves
exactly the subtree to the free list.

**Plan.**  Without devices no process is registered with one, so that a termination always
finds its victims in the lists (`Conserving.removable`).  `Conserving` adds to the
invariant of the lists that every live process is accounted for, in a queue or as the
running one.  The operations move one process each, or one subtree.

**Results.**
* `conserving_of_run`: the invariant in every state of a run without devices.
* `process_conservation`: each PCB occurs exactly once among the free list, the ready
  queue, the queues of the semaphores and the processor, and the fields agree with that.
* `deviceFree_progress`: no operation of such a run panics.
* `terminateProc_kills_subtree`: a termination frees exactly the subtree of its target.
-/

namespace Bikaya

open OrderedForest TransitionSystem

namespace Kernel

variable {A : Arch} {k k' : Kernel A} {m : IntModel}

/-- No process is registered with a device. -/
def Unregistered (k : Kernel A) : Prop :=
  ∀ x, k.devWList x = none

theorem preempt_frame (k : Kernel A) (x : Proc) :
    ∃ priority ready,
      k.preempt x = { k with priority := priority, readyQueue := ready, runningProc := x } := by
  by_cases hidle : k.runningProc = .idle
  · exact ⟨_, _, preempt_idle hidle⟩
  · exact ⟨_, _, preempt_of_ne hidle⟩

/-- Scheduling changes the priorities, the ready queue and the running process only. -/
theorem scheduleProc_frame (k : Kernel A) (x : Proc) :
    ∃ priority ready running,
      k.scheduleProc x =
        { k with priority := priority, readyQueue := ready, runningProc := running } := by
  rcases scheduleProc_cases k x with ⟨-, heq⟩ | ⟨-, -, heq⟩
  · obtain ⟨priority, ready, hframe⟩ := preempt_frame k x
    exact ⟨priority, ready, x, heq.trans hframe⟩
  · exact ⟨_, _, _, heq⟩

/-- So does the end of a time slice, which is counted. -/
theorem timeSlice_frame (m : IntModel) (k : Kernel A) :
    ∃ priority ready running,
      k.timeSliceCallback m =
        { k with
          slices := k.slices + 1
          priority := priority
          readyQueue := ready
          runningProc := running } := by
  rcases timeSlice_spec (k := k) m with ⟨heq, -⟩ | ⟨x, q, -, -, heq⟩
  · exact ⟨_, _, _, heq⟩
  · obtain ⟨priority, ready, hframe⟩ := preempt_frame
      { k with
        slices := k.slices + 1
        priority := raisePriorities m k.priority k.readyQueue
        readyQueue := q } x
    exact ⟨priority, ready, x, heq.trans hframe⟩

section Accounting

/-- Blocking the running process leaves nobody outside the lists. -/
theorem Accounted.block
    (h : k.Accounted) {key : SemKey} {asl : Asl} {q : List Proc}
    (hwait : asl.waitQueue = Function.update k.waitQueue key q)
    (hq : q.Perm (k.runningProc :: k.waitQueue key)) :
    ∀ y, y ≠ .idle → ¬ Residence.Absent asl k.pcbFreeH k.readyQueue y := by
  intro y hyidle hy
  obtain ⟨hfree, hready, hblocked⟩ := Residence.absent_iff.mp hy
  rw [hwait] at hblocked
  have hyq := hblocked key
  rw [Function.update_self, hq.mem_iff, List.mem_cons, not_or] at hyq
  refine hyq.1 (h y hyidle (Residence.absent_iff.mpr ⟨hfree, hready, ?_⟩))
  intro key' hy'
  by_cases hk : key' = key
  · subst hk
    exact hyq.2 hy'
  · have := hblocked key'
    rw [Function.update_of_ne hk] at this
    exact this hy'

/-- Taking a process out of a waiting queue leaves nobody else outside the lists. -/
theorem Accounted.unblock
    (h : k.Accounted) {key : SemKey} {asl : Asl} {x : Proc} {q : List Proc}
    (hq : k.waitQueue key = x :: q)
    (hwait : asl.waitQueue = Function.update k.waitQueue key q) :
    ∀ y, y ≠ .idle → Residence.Absent asl k.pcbFreeH k.readyQueue y →
      y = k.runningProc ∨ y = x := by
  intro y hyidle hy
  obtain ⟨hfree, hready, hblocked⟩ := Residence.absent_iff.mp hy
  rw [hwait] at hblocked
  by_cases hyx : y = x
  · exact Or.inr hyx
  · refine Or.inl (h y hyidle (Residence.absent_iff.mpr ⟨hfree, hready, ?_⟩))
    intro key' hy'
    have hnot := hblocked key'
    by_cases hk : key' = key
    · subst hk
      rw [Function.update_self] at hnot
      change y ∈ k.waitQueue key' at hy'
      rw [hq] at hy'
      exact (List.mem_cons.mp hy').elim hyx hnot
    · rw [Function.update_of_ne hk] at hnot
      exact hnot hy'

/-- A termination keeps every survivor accounted for. -/
theorem Accounted.terminated
    (h : k.Accounted) {t : Proc} {l : List Proc} (hterm : k.Terminated t l k') :
    k'.Accounted := by
  obtain ⟨asl, pParent, rfl, hwait, -⟩ := hterm.result
  have hback : ∀ y, Residence.Absent asl (l.reverse ++ k.pcbFreeH) (survivors l k.readyQueue) y →
      y ∉ l ∧ k.Absent y := by
    intro y hy
    obtain ⟨hfree, hready, hblocked⟩ := Residence.absent_iff.mp hy
    have hyl : y ∉ l := fun hmem => hfree (by simp [hmem])
    have hin : ∀ q : List Proc, y ∉ survivors l q → y ∉ q :=
      fun q hq hmem => hq (List.mem_filter.mpr ⟨hmem, by simpa using hyl⟩)
    refine ⟨hyl, Residence.absent_iff.mpr ⟨fun hmem => hfree (by simp [hmem]), hin _ hready, ?_⟩⟩
    intro key
    refine hin _ ?_
    have := hblocked key
    rwa [hwait] at this
  by_cases hrun : k.runningProc ∈ l
  · have hnext := Accounted.runNextReady
      (k := { k with
        asl := asl
        pParent := pParent
        pChild := k.childrenAfter t l
        pSemkey := unblocked k.pSemkey l
        readyQueue := survivors l k.readyQueue
        pcbFreeH := l.reverse ++ k.pcbFreeH })
      (fun y hyidle hy => by
        obtain ⟨hyl, hyabsent⟩ := hback y hy
        exact hyl (h y hyidle hyabsent ▸ hrun))
    rw [runNextReady_eq] at hnext
    simpa only [Kernel.afterTermination, readyAfter, runningAfter, hrun, if_true] using hnext
  · intro y hyidle hy
    simp only [Kernel.afterTermination, readyAfter, runningAfter, hrun, if_false] at hy ⊢
    exact h y hyidle (hback y hy).2

end Accounting

/-- What the operations without devices keep, and what they start from. -/
structure Conserving (k : Kernel A) : Prop where
  ok : k.Ok
  accounted : k.Accounted
  unregistered : k.Unregistered

theorem Fresh.conserving (h : k.Fresh) : k.Conserving :=
  ⟨h.ok, h.accounted, h.unregistered⟩

/-- Without registrations, everything below a live process can be removed. -/
theorem Conserving.removable
    (h : k.Conserving) {t : Proc} (ht : k.Live t) :
    ∀ x, Below k.pChild x t → k.Removable x := by
  intro x hx
  obtain ⟨hidle, hfree⟩ := h.ok.tree.below_live ht hx
  by_cases hkey : k.pSemkey x = none
  · refine Or.inr ⟨h.unregistered x, ?_⟩
    by_cases hready : x ∈ k.readyQueue
    · exact Or.inr hready
    · exact Or.inl (h.accounted x hidle (h.ok.residence.absent_of_semkey hfree hready hkey))
  · exact Or.inl hkey

/-- A termination of a live process returns 0, and has killed the subtree. -/
theorem Conserving.terminate
    (h : k.Conserving) {p : Option Proc} (ht : k.Live (p.getD k.runningProc)) :
    ∃ l k', k.terminateProc p = .ok (0, k') ∧
      k.Terminated (p.getD k.runningProc) l k' ∧ k'.Conserving := by
  obtain ⟨l, k', hterm, hdone, hok⟩ := terminate_of_removable h.ok ht (h.removable ht)
  refine ⟨l, k', hterm, hdone, hok, h.accounted.terminated hdone, ?_⟩
  obtain ⟨asl, pParent, rfl, -, -⟩ := hdone.result
  exact h.unregistered

/-- An operation without devices returns, and keeps every process in its place. -/
theorem Conserving.exec
    (h : k.Conserving) {op : Operation A} (hadm : k.Admissible op) (hfree : op.DeviceFree) :
    ∃ k', k.exec m op = .ok k' ∧ k'.Conserving := by
  have hkeep : ∀ k', k.exec m op = .ok k' → k'.Accounted → k'.devWList = k.devWList →
      ∃ k', k.exec m op = .ok k' ∧ k'.Conserving := by
    intro k' hexec haccounted hdev
    refine ⟨k', hexec, h.ok.step ?_ ⟨hadm, hexec⟩, haccounted, fun x => ?_⟩
    · cases op with
      | terminateProcess p =>
          exact fun x _ _ => h.unregistered x
      | _ => exact trivial
    · rw [hdev]
      exact h.unregistered x
  have hsched : ∀ (k₁ : Kernel A) (x : Proc), (k₁.scheduleProc x).devWList = k₁.devWList := by
    intro k₁ x
    obtain ⟨priority, ready, running, heq⟩ := scheduleProc_frame k₁ x
    rw [heq]
  cases op with
  | createProcess s priority =>
      cases hnil : k.pcbFreeH with
      | nil =>
          refine hkeep k ?_ h.accounted rfl
          simp only [Kernel.exec, createProcess_nil hnil]
          rfl
      | cons x free =>
          obtain ⟨-, -, -, hxrun⟩ := h.ok.adopt hnil hadm s priority
          refine hkeep ((k.adopt x free s priority).scheduleProc x) ?_ ?_ ?_
          · simp only [Kernel.exec, createProcess_cons hnil hxrun]
            rfl
          · refine Accounted.scheduleProc (fun y hyidle hy => ?_)
            by_cases hyx : y = x
            · exact Or.inr hyx
            · refine Or.inl (h.accounted y hyidle ?_)
              obtain ⟨hfree', hready, hblocked⟩ := Residence.absent_iff.mp hy
              refine Residence.absent_iff.mpr ⟨?_, hready, hblocked⟩
              rw [hnil]
              exact fun hmem => (List.mem_cons.mp hmem).elim hyx hfree'
          · rw [hsched]
            rfl
  | terminateProcess p =>
      obtain ⟨l, k', hterm, -, hcons⟩ :=
        h.terminate (h.ok.target_live (fun _ => hadm.1) hadm.2)
      exact ⟨k', by simp only [Kernel.exec, hterm]; rfl, hcons⟩
  | passeren semaddr tod =>
      rcases p_spec m semaddr h.ok hadm tod with ⟨-, heq⟩ | ⟨-, asl, heq, -, hwait⟩
      · exact hkeep _ heq h.accounted rfl
      · refine hkeep _ heq (Accounted.runNextReady ?_) ?_
        · exact h.accounted.block hwait (insertProcQ_perm _ _ _)
        · rw [runNextReady_eq]
  | verhogen semaddr =>
      rcases v_spec m semaddr h.ok.residence.aslOk with
        ⟨-, heq⟩ | ⟨x, q, asl, hq, heq, -, hwait⟩
      · exact hkeep _ (congrArg Except.ok heq) h.accounted rfl
      · refine hkeep _ (congrArg Except.ok heq) (Accounted.scheduleProc ?_) ?_
        · exact h.accounted.unblock hq hwait
        · rw [hsched]
  | timeSlice =>
      rcases timeSlice_spec (k := k) m with ⟨heq, -⟩ | ⟨x, q, hq, -, heq⟩
      · exact hkeep _ (congrArg Except.ok heq) h.accounted rfl
      · refine hkeep _ (congrArg Except.ok heq) (Accounted.preempt ?_) ?_
        · intro y hyidle hy
          by_cases hyx : y = x
          · exact Or.inr hyx
          · refine Or.inl (h.accounted y hyidle ?_)
            obtain ⟨hfree', hready, hblocked⟩ := Residence.absent_iff.mp hy
            refine Residence.absent_iff.mpr ⟨hfree', ?_, hblocked⟩
            rw [hq]
            exact fun hmem => (List.mem_cons.mp hmem).elim hyx hready
        · obtain ⟨priority, ready, hframe⟩ := preempt_frame
            { k with
              slices := k.slices + 1
              priority := raisePriorities m k.priority k.readyQueue
              readyQueue := q } x
          rw [hframe]
  | write a value =>
      exact hkeep _ rfl h.accounted rfl
  | waitIo _ _ _ _ =>
      exact absurd hfree id
  | doneIo _ _ =>
      exact absurd hfree id

/-- Every state of a run without devices keeps all processes in their places. -/
theorem conserving_of_run
    {s : ℕ → Kernel A} {e : ℕ → Operation A} {n : ℕ}
    (hboot : (s 0).Booted) (hrun : IsRun (Step m) s e n)
    (hfree : ∀ i < n, (e i).DeviceFree) :
    ∀ i ≤ n, (s i).Conserving := by
  refine hrun.invariant_of (C := fun _ op => op.DeviceFree) hfree hboot.fresh.conserving ?_
  intro k op k' h hop hstep
  obtain ⟨k₁, hexec, hcons⟩ := h.exec (m := m) hstep.1 hop
  rw [hstep.2] at hexec
  exact Except.ok.inj hexec ▸ hcons

section Occurrences

/--
How many times `x` occurs: in the free list, in the ready queue, in the queues of
the active descriptors, and as the running process.
-/
def occurrences (k : Kernel A) (x : Proc) : Nat :=
  k.pcbFreeH.count x + k.readyQueue.count x +
    (k.asl.semdH.map (fun s => (k.asl.sProcQ s).count x)).sum +
    (if k.runningProc = x then 1 else 0)

/-- How many processes are alive. -/
def alive (k : Kernel A) : Nat :=
  (Finset.univ.filter (fun x => k.Live x)).card

variable (h : k.Ok)
include h

/-- The queues of the active descriptors are the waiting queues. -/
theorem Ok.mem_sProcQ
    {x : Proc} {key : SemKey} :
    x ∈ k.waitQueue key ↔
      ∃ d ∈ k.asl.semdH, k.asl.sKey d = some key ∧ x ∈ k.asl.sProcQ d := by
  have hOk := h.residence.aslOk
  constructor
  · intro hx
    cases hget : k.asl.getSemd (some key) with
    | none =>
        rw [waitQueue, Asl.Ok.waitQueue_of_none hget] at hx
        exact absurd hx List.not_mem_nil
    | some d =>
        obtain ⟨hd, hkey⟩ := Asl.getSemd_mem hget
        rw [waitQueue, hOk.waitQueue_of_mem hd hkey] at hx
        exact ⟨d, hd, hkey, hx⟩
  · rintro ⟨d, hd, hkey, hx⟩
    rw [waitQueue, hOk.waitQueue_of_mem hd hkey]
    exact hx

/-- A process occurs in the queue of one active descriptor, if it is blocked. -/
theorem Ok.blocked_count (x : Proc) :
    (k.asl.semdH.map (fun s => (k.asl.sProcQ s).count x)).sum =
      if k.pSemkey x = none then 0 else 1 := by
  have hOk := h.residence.aslOk
  have hkeyOf : ∀ d ∈ k.asl.semdH, x ∈ k.asl.sProcQ d → k.pSemkey x = k.asl.sKey d := by
    intro d hd hx
    obtain ⟨key, hkey⟩ := hOk.hasKey d hd
    rw [hkey]
    exact (h.residence.semkey x key).mpr (h.mem_sProcQ.mpr ⟨d, hd, hkey, hx⟩)
  by_cases hnone : k.pSemkey x = none
  · rw [if_pos hnone]
    refine List.sum_eq_zero (fun n hn => ?_)
    obtain ⟨d, hd, rfl⟩ := List.mem_map.mp hn
    refine List.count_eq_zero.mpr (fun hx => ?_)
    obtain ⟨key, hkey⟩ := hOk.hasKey d hd
    rw [← hkeyOf d hd hx, hnone] at hkey
    exact Option.some_ne_none key hkey.symm
  · obtain ⟨key, hkey⟩ := Option.ne_none_iff_exists'.mp hnone
    obtain ⟨d, hd, hdkey, hx⟩ := h.mem_sProcQ.mp ((h.residence.semkey x key).mp hkey)
    have hqueue : k.waitQueue key = k.asl.sProcQ d := hOk.waitQueue_of_mem hd hdkey
    have hcount : (k.waitQueue key).count x = 1 :=
      List.count_eq_one_of_mem (h.residence.wait_nodup key) (hqueue ▸ hx)
    rw [if_neg hnone, List.sum_map_eq_nsmul_single d, List.count_eq_one_of_mem hOk.activeNodup hd,
      ← hqueue, hcount, one_nsmul]
    intro d' hne hd'
    refine List.count_eq_zero.mpr (fun hx' => hne ?_)
    exact hOk.keyInj d' hd' d hd ((hkeyOf d' hd' hx').symm.trans (hkeyOf d hd hx))

/-- A process occurs once, unless it is in no list and does not run. -/
theorem Ok.occurrences_of_placed
    {x : Proc} (hplaced : k.Absent x → x = k.runningProc) :
    k.occurrences x = 1 := by
  have hfree := h.residence.free_nodup
  have hready := h.residence.ready_nodup
  obtain ⟨hrunFree, hrunReady, hrunWait⟩ := Residence.absent_iff.mp h.running
  have hrunKey : k.pSemkey k.runningProc = none := h.residence.semkey_of_absent h.running
  rw [occurrences, h.blocked_count]
  by_cases hxrun : k.runningProc = x
  · rw [← hxrun, hrunKey, List.count_eq_zero.mpr hrunFree, List.count_eq_zero.mpr hrunReady]
    simp
  · rw [if_neg hxrun]
    by_cases hxfree : x ∈ k.pcbFreeH
    · rw [List.count_eq_one_of_mem hfree hxfree, h.residence.semkey_of_free hxfree,
        List.count_eq_zero.mpr (h.residence.not_ready_of_free hxfree)]
      simp
    · by_cases hxready : x ∈ k.readyQueue
      · rw [List.count_eq_zero.mpr hxfree, List.count_eq_one_of_mem hready hxready,
          h.residence.semkey_of_ready hxready]
        simp
      · have hxkey : k.pSemkey x ≠ none := by
          intro hnone
          have hx := h.residence.absent_of_semkey hxfree hxready hnone
          exact hxrun (hplaced hx).symm
        rw [List.count_eq_zero.mpr hxfree, List.count_eq_zero.mpr hxready, if_neg hxkey]

/-- Nobody occurs twice, and nobody is lost. -/
theorem Ok.occurrences_eq_one
    (haccounted : k.Accounted) {x : Proc} (hidle : x ≠ .idle) :
    k.occurrences x = 1 :=
  h.occurrences_of_placed (haccounted x hidle)

/-- All the PCBs are in use exactly when the free list is empty. -/
theorem Ok.alive_eq_iff : k.alive = MAXPROC ↔ k.pcbFreeH = [] := by
  have hidle : Proc.idle ∉ k.pcbFreeH := h.idle_not_free
  have hlive : Finset.univ.filter (fun x => k.Live x) =
      Finset.univ \ insert .idle k.pcbFreeH.toFinset := by
    ext x
    simp only [Finset.mem_filter, Finset.mem_univ, true_and, Finset.mem_sdiff,
      Finset.mem_insert, List.mem_toFinset, not_or]
    rfl
  have hcard : k.alive + (k.pcbFreeH.length + 1) = MAXPROC + 1 := by
    rw [alive, hlive, Finset.card_sdiff_of_subset (Finset.subset_univ _), Finset.card_univ,
      Proc.card, Finset.card_insert_of_notMem (by simpa using hidle),
      List.toFinset_card_of_nodup h.residence.free_nodup]
    have : (insert Proc.idle k.pcbFreeH.toFinset).card ≤ Fintype.card Proc :=
      Finset.card_le_univ _
    rw [Finset.card_insert_of_notMem (by simpa using hidle),
      List.toFinset_card_of_nodup h.residence.free_nodup, Proc.card] at this
    omega
  rw [← List.length_eq_zero_iff]
  omega

/-- CREATEPROCESS fails exactly when all the PCBs are in use, and then changes nothing. -/
theorem Ok.createProcess_ret (s : State A) (priority : Int) :
    ∃ created k',
      k.createProcess s priority = .ok (created, k') ∧
      (created.ret = -1 ↔ k.alive = MAXPROC) ∧
      (created.ret = -1 → k' = k) := by
  rw [h.alive_eq_iff]
  cases hfree : k.pcbFreeH with
  | nil =>
      exact ⟨_, _, createProcess_nil hfree s priority, by simp, fun _ => rfl⟩
  | cons x free =>
      have hne : x ≠ k.runningProc := by
        intro hx
        exact h.running_not_free (hx ▸ hfree ▸ List.mem_cons_self)
      exact ⟨_, _, createProcess_cons hfree hne s priority, by simp, fun hret => by simp at hret⟩

end Occurrences

section Claims

variable {s : ℕ → Kernel A} {e : ℕ → Operation A} {n : ℕ}

/--
Process conservation: in every state of a run without device I/O each PCB is in
exactly one place, exactly once, and the idle process is in no list.
-/
theorem process_conservation
    (hboot : (s 0).Booted) (hrun : IsRun (Step m) s e n)
    (hfree : ∀ i < n, (e i).DeviceFree) :
    ∀ i ≤ n,
      (∀ j : Fin MAXPROC, (s i).occurrences (.pcb j) = 1) ∧
      (Proc.idle ∉ (s i).pcbFreeH ∧ Proc.idle ∉ (s i).readyQueue ∧
        ∀ d ∈ (s i).asl.semdH, Proc.idle ∉ (s i).asl.sProcQ d) ∧
      (∀ x key, (s i).pSemkey x = some key ↔
        ∃ d ∈ (s i).asl.semdH, (s i).asl.sKey d = some key ∧ x ∈ (s i).asl.sProcQ d) ∧
      (∀ (st : State A) (priority : Int), ∃ created k',
        (s i).createProcess st priority = .ok (created, k') ∧
        (created.ret = -1 ↔ (s i).alive = MAXPROC) ∧
        (created.ret = -1 → k' = s i)) := by
  intro i hi
  have h := conserving_of_run hboot hrun hfree i hi
  obtain ⟨hidleFree, hidleReady, hidleWait⟩ := Residence.absent_iff.mp h.ok.idle
  refine ⟨fun j => h.ok.occurrences_eq_one h.accounted (by simp),
    ⟨hidleFree, hidleReady, ?_⟩, ?_, fun st priority => h.ok.createProcess_ret st priority⟩
  · intro d hd hidle
    obtain ⟨key, hkey⟩ := h.ok.residence.aslOk.hasKey d hd
    exact hidleWait key (h.ok.mem_sProcQ.mpr ⟨d, hd, hkey, hidle⟩)
  · intro x key
    exact (h.ok.residence.semkey x key).trans h.ok.mem_sProcQ

/-- A short history of two starting processes. -/
def creationHistory : List (Operation umps) :=
  [.createProcess State.reset 5, .passeren mutexMps 0, .timeSlice,
    .verhogen mutexMps, .terminateProcess none]

theorem creationHistory_isRun :
    IsRun (Step .int32) (states (next .int32) (bootMps [1, 2]) creationHistory)
      (fun i => creationHistory.getD i .timeSlice) 5 :=
  isRun_of_accepts (by decide +kernel)

theorem process_conservation_creationHistory :
    (states (next .int32) (bootMps [1, 2]) creationHistory 5).occurrences (.pcb 1) = 1 :=
  (process_conservation (bootMps_booted (by decide) (by decide))
    (isRun_of_accepts (by decide +kernel)) (by decide) 5 le_rfl).1 1

/-- Without device I/O no operation panics, runs out of fuel or faults. -/
theorem deviceFree_progress
    (hboot : (s 0).Booted) (hrun : IsRun (Step m) s e n)
    (hfree : ∀ i < n, (e i).DeviceFree)
    {op : Operation A} (hadm : (s n).Admissible op) (hop : op.DeviceFree) :
    ∃ k', Step m (s n) op k' := by
  obtain ⟨k', hexec, -⟩ :=
    (conserving_of_run hboot hrun hfree n le_rfl).exec (m := m) hadm hop
  exact ⟨k', hadm, hexec⟩

/--
`terminate_proc` kills exactly the subtree of its target, and every other process
keeps its place, its order and its links.
-/
theorem terminateProc_kills_subtree
    (hboot : (s 0).Booted) (hrun : IsRun (Step m) s e n)
    (hfree : ∀ i < n, (e i).DeviceFree)
    {p : Option Proc} (hp : (s n).Live (p.getD (s n).runningProc)) :
    ∃ (dead : List Proc) (k' : Kernel A),
      (s n).terminateProc p = .ok (0, k') ∧
      -- the dead are the target and its descendants, each moved to the free list once
      (∀ x, x ∈ dead ↔ Below (s n).pChild x (p.getD (s n).runningProc)) ∧
      k'.pcbFreeH = dead.reverse ++ (s n).pcbFreeH ∧ k'.pcbFreeH.Nodup ∧
      (∀ x ∈ dead, x ∉ k'.readyQueue ∧ ∀ d ∈ k'.asl.semdH, x ∉ k'.asl.sProcQ d) ∧
      -- the descriptors without waiters are free
      (∀ d, (d ∈ k'.asl.semdFreeH ↔ d ∉ k'.asl.semdH) ∧
        (d ∈ k'.asl.semdH → k'.asl.sProcQ d ≠ [])) ∧
      -- the others keep their places, in order
      (∀ key, k'.waitQueue key = ((s n).waitQueue key).filter (fun x => x ∉ dead)) ∧
      ((s n).runningProc ∉ dead →
        k'.readyQueue = (s n).readyQueue.filter (fun x => x ∉ dead) ∧
        k'.runningProc = (s n).runningProc) ∧
      ((s n).runningProc ∈ dead →
        k'.readyQueue = ((s n).readyQueue.filter (fun x => x ∉ dead)).tail ∧
        k'.runningProc =
          (((s n).readyQueue.filter (fun x => x ∉ dead)).head?).getD .idle) ∧
      -- and their fields
      (∀ x ∉ dead,
        k'.priority x = (s n).priority x ∧
        k'.originalPriority x = (s n).originalPriority x ∧
        k'.pSemkey x = (s n).pSemkey x ∧
        k'.pParent x = (s n).pParent x ∧
        k'.pChild x =
          if (s n).pParent (p.getD (s n).runningProc) = some x
          then ((s n).pChild x).erase (p.getD (s n).runningProc)
          else (s n).pChild x) := by
  have h := conserving_of_run hboot hrun hfree n le_rfl
  obtain ⟨dead, k', hterm, hdone, hok, -, -⟩ := h.terminate hp
  refine ⟨dead, k', hterm, hdone.mem, ?_, hok.residence.free_nodup, ?_, ?_, ?_⟩
  · obtain ⟨asl, pParent, rfl, -, -⟩ := hdone.result
    rfl
  · intro x hx
    have hxfree : x ∈ k'.pcbFreeH := by
      obtain ⟨asl, pParent, rfl, -, -⟩ := hdone.result
      simp [afterTermination, hx]
    refine ⟨hok.residence.not_ready_of_free hxfree, fun d hd hxd => ?_⟩
    obtain ⟨key, hkey⟩ := hok.residence.aslOk.hasKey d hd
    have hxkey := (hok.residence.semkey x key).mpr (hok.mem_sProcQ.mpr ⟨d, hd, hkey, hxd⟩)
    rw [hok.residence.semkey_of_free hxfree] at hxkey
    exact Option.some_ne_none key hxkey.symm
  · intro d
    have hOk := hok.residence.aslOk
    exact ⟨⟨fun hd hd' => hOk.notBoth d hd' hd, (hOk.activeOrFree d).resolve_left⟩,
      hOk.nonempty d⟩
  · obtain ⟨asl, pParent, rfl, hwait, hparent⟩ := hdone.result
    refine ⟨hwait, ?_, ?_, ?_⟩
    · intro hrun
      simp only [afterTermination, readyAfter, runningAfter, hrun, if_false, and_self]
    · intro hrun
      simp only [afterTermination, readyAfter, runningAfter, hrun, if_true, and_self]
    · intro x hx
      refine ⟨rfl, rfl, by simp [afterTermination, unblocked, hx], hparent x hx, ?_⟩
      simp [afterTermination, childrenAfter, hx]

/-- After the history the parent is terminated together with the child it created. -/
theorem terminateProc_kills_subtree_creationHistory :
    ∃ (dead : List Proc) (k' : Kernel umps),
      (states (next .int32) (bootMps [1, 2]) creationHistory 4).terminateProc
        (some (.pcb 1)) = .ok (0, k') ∧
      (∀ x, x ∈ dead ↔
        Below (states (next .int32) (bootMps [1, 2]) creationHistory 4).pChild x (.pcb 1)) ∧
      k'.pcbFreeH = dead.reverse ++
        (states (next .int32) (bootMps [1, 2]) creationHistory 4).pcbFreeH := by
  obtain ⟨dead, k', hterm, hmem, hfree, -⟩ :=
    terminateProc_kills_subtree (p := some (.pcb 1))
      (bootMps_booted (by decide) (by decide))
      (creationHistory_isRun.initial (m := 4) (by decide))
      (by decide) (by decide +kernel)
  exact ⟨dead, k', hterm, hmem, hfree⟩

end Claims

end Kernel

end Bikaya
