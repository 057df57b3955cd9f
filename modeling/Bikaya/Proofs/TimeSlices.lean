import Bikaya.Proofs.Ageing
import Bikaya.Proofs.Entries
import Mathlib.Tactic.IntervalCases

/-!
# Bikaya: the end of a time slice

The interval timer can underflow before an exception that is not its own interrupt.  Only
the interrupt handler looks at the pending line, while every handler that resumes the
interrupted process writes the register.  The module tells when the end of the slice is
still attended to.

**Plan.**  The slices are counted by the kernel's callback.  An entry is `Expired` if the
timer has underflowed when it starts, and it `Swallows` the end of the slice if it resumes
the same process and the callback has not run.  The register is written whenever the
interrupted process is resumed, except after a passed up exception.

**Results.**
* `Step.yields`: which operations take the processor from the running process.
* `not_swallows_iff`: one entry in a state of the kernel with sound lists.
* `slice_expiry_iff`: every entry of a run.
* `slice_expiry_sliceEntries`: a system call that swallows the end of its slice.
-/

namespace Bikaya

open Kernel OrderedForest TransitionSystem

namespace Kernel

variable {A : Arch} {k k' : Kernel A} {m : IntModel}

/-- The operation takes the processor from the running process. -/
def Yields (m : IntModel) (k : Kernel A) : Operation A → Prop
  | .createProcess _ priority => k.pcbFreeH ≠ [] ∧ k.priority k.runningProc < priority
  | .terminateProcess p => Below k.pChild k.runningProc (p.getD k.runningProc)
  | .passeren semaddr _ => m.add (k.sem semaddr) (-1) < 0
  | .verhogen semaddr =>
      ∃ x ∈ (k.waitQueue (.user semaddr)).head?, k.priority k.runningProc < k.originalPriority x
  | .waitIo _ _ _ _ => True
  | _ => False

section Slices

theorem slices_removeBlocked (k : Kernel A) (key : SemKey) :
    (k.removeBlocked key).2.slices = k.slices := by
  unfold removeBlocked
  split
  · rfl
  · split <;> rfl

theorem slices_respond (k : Kernel A) (x : Proc) (status : Word) :
    (k.respond x status).slices = k.slices :=
  slices_scheduleProc _ x

theorem slices_doneIo (k : Kernel A) (d : Dev) (status : Word) :
    (k.doneIo m d status).slices = k.slices := by
  unfold doneIo
  cases k.wForRes d with
  | none =>
      rfl
  | some r =>
      refine (bonus_nextCommand _ d _).2.2.trans ?_
      split_ifs
      · rw [slices_respond, slices_removeBlocked]
      · rw [slices_removeBlocked]

theorem slices_timeSlice (k : Kernel A) :
    (k.timeSliceCallback m).slices = k.slices + 1 := by
  obtain ⟨_, _, _, heq⟩ := timeSlice_frame m k
  rw [heq]

/-- An interrupt whose timer line is pending ends a slice. -/
theorem slices_consumeInterrupts (irq : Irq) (k : Kernel A) (hline : irq.pending IL_TIMER = true) :
    (k.consumeInterrupts m irq).slices = k.slices + 1 := by
  have hdone : ∀ (ds : List Dev) (k : Kernel A),
      (ds.foldl (fun k d => k.doneIo m d (irq.status d)) k).slices = k.slices := by
    intro ds
    induction ds with
    | nil =>
        exact fun k => rfl
    | cons d ds ih =>
        intro k
        rw [List.foldl_cons, ih, slices_doneIo]
  have hexec := execAll_interruptOps (m := m) irq k
  unfold execAll interruptOps at hexec
  rw [if_pos hline, List.singleton_append, List.foldlM_cons] at hexec
  have hrest := execAll_completions (m := m) irq irq.completions (k.timeSliceCallback m)
  rw [← Except.ok.inj (hrest.symm.trans hexec), hdone, slices_timeSlice]

end Slices

section Processor

theorem running_runNextReady
    {k₁ : Kernel A} (h : k.Ok) (hidle : k.runningProc ≠ .idle)
    (hready : k₁.readyQueue = k.readyQueue) :
    k₁.runNextReady.runningProc ≠ k.runningProc := by
  have hnot : k.runningProc ∉ k.readyQueue := h.running_not_ready
  rw [runNextReady_eq, hready]
  cases hq : k.readyQueue with
  | nil =>
      exact Ne.symm hidle
  | cons x q =>
      rw [hq] at hnot
      exact fun heq => hnot (heq ▸ List.mem_cons_self)

theorem running_scheduleProc
    {x : Proc} (hidle : k.runningProc ≠ .idle) (hx : x ≠ k.runningProc) :
    (k.scheduleProc x).runningProc ≠ k.runningProc ↔ k.priority k.runningProc < k.priority x := by
  rcases scheduleProc_cases k x with ⟨hrun, heq⟩ | ⟨-, hle, heq⟩
  · rw [heq]
    refine iff_of_true ?_ (hrun.resolve_left hidle)
    rw [preempt_of_ne hidle]
    exact hx
  · rw [heq]
    exact iff_of_false (not_not_intro rfl) (not_lt.mpr hle)

/-- A termination takes the processor from the running process exactly if it kills it. -/
theorem runningAfter_ne_iff
    (h : k.Ok) (hidle : k.runningProc ≠ .idle) (l : List Proc) :
    k.runningAfter l ≠ k.runningProc ↔ k.runningProc ∈ l := by
  by_cases hdead : k.runningProc ∈ l
  · refine iff_of_true ?_ hdead
    simp only [runningAfter, if_pos hdead]
    cases hq : survivors l k.readyQueue with
    | nil =>
        exact Ne.symm hidle
    | cons x q =>
        have hx : x ∈ survivors l k.readyQueue := hq ▸ List.mem_cons_self
        exact fun heq => h.running_not_ready (heq ▸ List.mem_of_mem_filter hx)
  · refine iff_of_false (not_not_intro ?_) hdead
    simp only [runningAfter, if_neg hdead]

/-- The woken process takes the processor exactly if its own priority is higher. -/
theorem yields_v
    (h : k.Ok) (hidle : k.runningProc ≠ .idle) {a : SemAddr} {x : Proc} {q : List Proc}
    {asl : Asl} (hq : k.waitQueue (.user a) = x :: q) :
    (({ k with
      sem := Function.update k.sem a (m.add (m.add (k.sem a) 1) (-1))
      asl := asl
      pSemkey := Function.update k.pSemkey x none
      priority := raisePriorities m
        (Function.update k.priority x (k.originalPriority x)) q } : Kernel A).scheduleProc
          x).runningProc ≠ k.runningProc ↔ k.Yields m (.verhogen a) := by
  have hblocked : ∀ y ∈ x :: q, y ≠ k.runningProc := by
    rintro y hy rfl
    rw [← hq] at hy
    exact h.running_not_queued (.user a) hy
  have hxrun : x ≠ k.runningProc := hblocked x List.mem_cons_self
  have hrunq : k.runningProc ∉ q :=
    fun hmem => hblocked _ (List.mem_cons_of_mem _ hmem) rfl
  have hxq : x ∉ q := h.head_notMem hq
  refine (running_scheduleProc (k := { k with
    sem := Function.update k.sem a (m.add (m.add (k.sem a) 1) (-1))
    asl := asl
    pSemkey := Function.update k.pSemkey x none
    priority := raisePriorities m
      (Function.update k.priority x (k.originalPriority x)) q }) hidle hxrun).trans ?_
  simp only [Yields, hq, raisePriorities_of_notMem m _ hxq,
    raisePriorities_of_notMem m _ hrunq, Function.update_self,
    Function.update_of_ne (Ne.symm hxrun), List.head?_cons, Option.mem_some_iff,
    exists_eq_left']

/-- The running process changes exactly when the operation takes the processor from it. -/
theorem Step.yields
    {op : Operation A} (h : k.Ok) (hidle : k.runningProc ≠ .idle) (hsafe : k.Safe op)
    (hop : ¬ op.Interrupt) (hstep : Step m k op k') :
    k'.slices = k.slices ∧ (k'.runningProc ≠ k.runningProc ↔ k.Yields m op) := by
  have hkeep : ∀ k₁ : Kernel A, k₁.slices = k.slices → k₁.runningProc = k.runningProc →
      ¬ k.Yields m op →
      k₁.slices = k.slices ∧ (k₁.runningProc ≠ k.runningProc ↔ k.Yields m op) :=
    fun k₁ hslices hrun hno => ⟨hslices, iff_of_false (not_not_intro hrun) hno⟩
  have hblock : ∀ k₁ : Kernel A, k₁.slices = k.slices → k₁.readyQueue = k.readyQueue →
      k.Yields m op →
      k₁.runNextReady.slices = k.slices ∧
        (k₁.runNextReady.runningProc ≠ k.runningProc ↔ k.Yields m op) := by
    intro k₁ hslices hready hyes
    refine ⟨?_, iff_of_true (running_runNextReady h hidle hready) hyes⟩
    rw [runNextReady_eq]
    exact hslices
  obtain ⟨hadm, hexec⟩ := hstep
  cases op with
  | createProcess s priority =>
      cases hnil : k.pcbFreeH with
      | nil =>
          simp only [exec, createProcess_nil hnil] at hexec
          obtain rfl := Except.ok.inj hexec
          exact hkeep k rfl rfl (fun hyes => hyes.1 hnil)
      | cons x free =>
          obtain ⟨-, -, -, hxrun⟩ := h.adopt hnil hadm s priority
          simp only [exec, createProcess_cons hnil hxrun] at hexec
          obtain rfl := Except.ok.inj hexec
          refine ⟨slices_scheduleProc _ x, ?_⟩
          have hiff := running_scheduleProc (k := k.adopt x free s priority) hidle hxrun
          refine hiff.trans ?_
          simp only [adopt, Yields, Function.update_self, Function.update_of_ne (Ne.symm hxrun),
            hnil, ne_eq, reduceCtorEq, not_false_eq_true, true_and]
  | terminateProcess p =>
      obtain ⟨⟨l, hdone⟩, -⟩ := Step.terminated ⟨hadm, hexec⟩ h hsafe
      have hmem := hdone.mem k.runningProc
      obtain ⟨asl, pParent, rfl, -, -⟩ := hdone.result
      refine ⟨rfl, ?_⟩
      rw [Yields, ← hmem]
      exact runningAfter_ne_iff h hidle l
  | passeren a tod =>
      simp only [exec] at hexec
      rcases p_spec m a h hadm tod with ⟨hneg, heq⟩ | ⟨hneg, asl, heq, -, -⟩
      · obtain rfl := Except.ok.inj (heq.symm.trans hexec)
        exact hkeep _ rfl rfl hneg
      · obtain rfl := Except.ok.inj (heq.symm.trans hexec)
        exact hblock _ rfl rfl hneg
  | verhogen a =>
      obtain rfl := Except.ok.inj hexec
      rcases v_spec m a h.residence.aslOk with ⟨hq, heq⟩ | ⟨x, q, asl, hq, heq, -, -⟩
      · rw [heq]
        refine hkeep _ rfl rfl ?_
        rintro ⟨x, hx, -⟩
        rw [hq] at hx
        exact absurd hx (by simp)
      · rw [heq]
        exact ⟨slices_scheduleProc _ x, yields_v h hidle hq⟩
  | waitIo command devReg subdev tod =>
      obtain ⟨d, -, rfl⟩ := exec_waitIo hexec
      rcases waitDev_spec m d h hadm command devReg tod with
        ⟨-, asl, heq, -, -⟩ | ⟨-, asl, heq, -, -⟩ <;> rw [heq]
      · exact hblock _ rfl rfl trivial
      · exact hblock _ rfl rfl trivial
  | doneIo d status =>
      exact absurd trivial hop
  | timeSlice =>
      exact absurd trivial hop
  | write a value =>
      obtain rfl := Except.ok.inj hexec
      exact hkeep _ rfl rfl id

end Processor

end Kernel

namespace Machine

variable {A : Arch} {m : IntModel}

section Slices

/-- The interval timer has underflowed when `start_handler` reads it. -/
def Expired (M : Machine A) (e : Entry A) : Prop :=
  e.timer > M.clockTicksPerTimeSlice

/-- The slice has ended, and its process is resumed without a call of the callback. -/
def Swallows (m : IntModel) (M : Machine A) (e : Entry A) : Prop :=
  M.Expired e ∧
    ∃ M' reply st, M.enter m e = .ok (M', reply, .proc M.kernel.runningProc st) ∧
      M'.kernel.slices = M.kernel.slices

/--
The slice has not ended, or the handler is the one that looks at the timer line, or
`conclude_handler` is not reached.
-/
def Attended (M : Machine A) (e : Entry A) : Prop :=
  ¬ M.Expired e ∨ e.type = .INT ∨ M.PassedUp e.toException

variable {M M' : Machine A} {e : Entry A} {k : Kernel A} {reply : Reply} {r : Resumed A}

/-- When the exception is handled, the end of the slice is lost if nothing has changed. -/
theorem swallows_iff_of_concluded
    (henter : M.enter m e = .ok (M', reply, r)) {st : State A}
    (hM' : (M.userWrites e.memory).concluded e.toException k st = (M', r)) :
    M.Swallows m e ↔
      M.Expired e ∧ k.runningProc = M.kernel.runningProc ∧ k.slices = M.kernel.slices := by
  have hcore := concluded_core (M := M.userWrites e.memory) (e := e.toException) k st
  obtain ⟨st', hr⟩ := concluded_resumes (M := M.userWrites e.memory) (e := e.toException) k st
  rw [hM'] at hcore hr
  have hslices : M'.kernel.slices = k.slices := by
    rw [core_frame hcore]
  refine and_congr_right (fun _ => ⟨?_, ?_⟩)
  · rintro ⟨M₁, reply₁, st₁, henter₁, hsame⟩
    have hout := Except.ok.inj (henter.symm.trans henter₁)
    obtain rfl := congrArg Prod.fst hout
    have hproc : Resumed.proc k.runningProc st' = .proc M.kernel.runningProc st₁ :=
      hr.symm.trans (congrArg (fun y => y.2.2) hout)
    injection hproc with hproc
    exact ⟨hproc, hslices.symm.trans hsame⟩
  · rintro ⟨hrun, hsame⟩
    refine ⟨M', reply, st', ?_, hslices.trans hsame⟩
    rw [henter, ← hrun]
    exact congrArg (fun y => Except.ok (M', reply, y)) hr

/-- An exception that is passed up does not reach `conclude_handler`. -/
theorem not_swallows_of_passed
    {t : ExcType} (henter : M.enter m e = .ok (M', reply, r))
    (hM' : (M.userWrites e.memory).passed e.toException k t = (M', r)) :
    ¬ M.Swallows m e := by
  rintro ⟨-, M₁, reply₁, st₁, henter₁, -⟩
  have hout := Except.ok.inj (henter.symm.trans henter₁)
  have hr : r = .proc M.kernel.runningProc st₁ := congrArg (fun y => y.2.2) hout
  obtain rfl := congrArg Prod.snd hM'
  exact absurd hr (by simp [passed])

/-- A pending timer interrupt ends the slice. -/
theorem not_swallows_of_interrupt
    (htype : e.type = .INT) (hline : M.Expired e → e.irq.pending IL_TIMER = true)
    (henter : M.enter m e = .ok (M', reply, r)) :
    ¬ M.Swallows m e := by
  intro hswallows
  have hhandle := (handle_interrupt (m := m) (M := M.userWrites e.memory)
    (e := e.toException) htype).symm.trans henter
  obtain ⟨-, hM'⟩ := outcome_inj hhandle
  obtain ⟨hexpired, -, hsame⟩ := (swallows_iff_of_concluded henter hM').mp hswallows
  rw [slices_consumeInterrupts _ _ (hline hexpired)] at hsame
  exact absurd hsame (Nat.succ_ne_self _)

theorem not_swallows_of_attended
    (hatt : M.Attended e) (hline : M.Expired e → e.type = .INT → e.irq.pending IL_TIMER = true)
    (henter : M.enter m e = .ok (M', reply, r)) :
    ¬ M.Swallows m e := by
  rcases hatt with hexpired | htype | hup
  · exact fun h => hexpired h.1
  · exact not_swallows_of_interrupt htype (fun h => hline h htype) henter
  · rcases handle_cases henter with ⟨k, st, hhandling, -⟩ | ⟨k, t, -, -, hM'⟩
    · exact absurd hup hhandling.not_passedUp
    · exact not_swallows_of_passed henter hM'

/-- Otherwise the process that makes the request must lose the processor. -/
theorem not_swallows_iff
    (hok : M.kernel.Ok) (hidle : M.kernel.runningProc = .idle → e.type = .INT)
    (hsafe : ∀ op ∈ M.operations e.toException, M.kernel.Safe op)
    (hline : M.Expired e → e.type = .INT → e.irq.pending IL_TIMER = true)
    (henter : M.enter m e = .ok (M', reply, r)) :
    ¬ M.Swallows m e ↔
      M.Attended e ∨ ∃ op ∈ M.operations e.toException, (M.started e).Yields m op := by
  rcases handle_cases henter with ⟨k, st, hhandling, hM'⟩ | ⟨k, t, hup, -, hM'⟩
  · obtain ⟨k₁, areas, hops, rfl, -⟩ := hhandling.ops
    have hswallows := swallows_iff_of_concluded henter hM'
    have hatt : e.type ≠ .INT → (M.Attended e ↔ ¬ M.Expired e) := by
      intro htype
      have hnot : ¬ M.PassedUp e.toException := hhandling.not_passedUp
      simp only [Attended, htype, hnot, or_false]
    cases executes_of_execAll hops with
    | interrupt htype hexec =>
        refine iff_of_true ?_ (Or.inl (Or.inr (Or.inl htype)))
        exact not_swallows_of_interrupt htype (fun h => hline h htype) henter
    | nothing htype hnil _ _ =>
        rw [hswallows, hnil, hatt htype]
        simp [started, startKernel, userWrites, flushUserTime]
    | operation htype hop hreq hexec =>
        rename_i op
        have hbusy : M.kernel.runningProc ≠ .idle := fun hrun => htype (hidle hrun)
        have hmem : op ∈ M.operations e.toException := hop ▸ List.mem_singleton_self op
        have hsafe' : (M.started e).Safe op := Safe.of_started (hsafe op hmem)
        have hnot : ¬ op.Interrupt := by
          cases op <;> first | exact id | exact absurd hreq id
        obtain ⟨hslices, hyields⟩ := Step.yields (started_ok hok) hbusy hsafe' hnot
          ((started_ok hok).step_of_exec hbusy hsafe' hexec)
        rw [hswallows, hatt htype, hop]
        have hslices' : k₁.slices = M.kernel.slices := hslices
        have hyields' : k₁.runningProc ≠ M.kernel.runningProc ↔ (M.started e).Yields m op := hyields
        simp only [List.mem_singleton, exists_eq_left, ← hyields', hslices', and_true]
        exact not_and_or
  · refine iff_of_true (not_swallows_of_passed henter hM') (Or.inl (Or.inr (Or.inr ?_)))
    exact hup.passedUp

end Slices

section Claims

variable {M : ℕ → Machine A} {e : ℕ → Entry A} {n : ℕ} {r₀ : Resumed A}

/--
Which ends of a time slice are not lost.  In every run those that are attended to; and
in the runs whose terminations meet no stale registration no others but those where the
request of the process takes the processor from it.
-/
theorem slice_expiry_iff
    (hlaunch : (M 0).Launched r₀) (hrun : IsRun (Step m) M e n)
    (hline : ∀ i < n, (M i).Expired (e i) → (e i).type = .INT →
      (e i).irq.pending IL_TIMER = true) :
    (∀ i < n, (M i).Attended (e i) → ¬ (M i).Swallows m (e i)) ∧
    ((∀ i < n, ∀ op ∈ (M i).operations (e i).toException, (M i).kernel.Safe op) →
      ∀ i < n, ¬ (M i).Swallows m (e i) ↔
        (M i).Attended (e i) ∨
          ∃ op ∈ (M i).operations (e i).toException, ((M i).started (e i)).Yields m op) := by
  refine ⟨fun i hi hatt => ?_, fun hsafe i hi => ?_⟩
  · obtain ⟨-, reply, r, henter⟩ := hrun i hi
    exact not_swallows_of_attended hatt (hline i hi) henter
  · obtain ⟨hidle, reply, r, henter⟩ := hrun i hi
    have hok := ok_of_run hlaunch hrun hsafe i hi.le
    exact not_swallows_iff hok hidle (hsafe i hi) (hline i hi) henter

/-- At the end of its slice a process asks for its pid, and later it blocks. -/
def sliceEntries : List (Entry umps) :=
  [syscallMps 8 0 0 0 2000, syscallMps 5 4 0 0 2000]

abbrev sliceRun (i : ℕ) : Machine umps :=
  states (next .int32) (launchMps [2, 1] 1000) sliceEntries i

abbrev sliceEntry (i : ℕ) : Entry umps :=
  sliceEntries.getD i (syscallMps 8 0 0 0 0)

theorem sliceEntries_isRun : IsRun (Step .int32) sliceRun sliceEntry 2 :=
  isRun_of_accepts _ (by decide +kernel)

theorem sliceEntries_safe :
    ∀ i < 2, ∀ op ∈ (sliceRun i).operations (sliceEntry i).toException,
      (sliceRun i).kernel.Safe op := by
  intro i hi
  refine safe_of_not_terminates ?_
  interval_cases i <;> decide +kernel

/-- The first call gives the process a fresh slice, with another process ready. -/
theorem slice_expiry_sliceEntries :
    (∃ r, (sliceRun 0).Launched r) ∧ IsRun (Step .int32) sliceRun sliceEntry 2 ∧
      (∀ i < 2, (sliceEntry i).type ≠ .INT) ∧
      (sliceRun 0).Swallows .int32 (sliceEntry 0) ∧
      (sliceRun 1).intervalTimer = (sliceRun 1).clockTicksPerTimeSlice ∧
      (sliceRun 1).kernel.readyQueue = [.pcb 1] := by
  have hlaunch : (launchMps [2, 1] 1000).Launched _ :=
    launchMps_launched 1000 (by decide) (by decide)
  refine ⟨⟨_, hlaunch⟩, sliceEntries_isRun, by decide +kernel, ?_, by decide +kernel,
    by decide +kernel⟩
  obtain ⟨hidle, reply, r, henter⟩ := sliceEntries_isRun 0 (by decide)
  have hok : (sliceRun 0).kernel.Ok := hlaunch.booted.1.fresh.ok
  by_contra hkept
  rcases (not_swallows_iff hok hidle (sliceEntries_safe 0 (by decide))
    (fun _ htype => absurd htype (by decide +kernel)) henter).mp hkept with
    (hexpired | htype | hup) | ⟨op, hop, -⟩
  · exact hexpired (show (2000 : Word) > 1000 by decide)
  · exact absurd htype (by decide +kernel)
  · exact absurd hup.1 (by decide +kernel)
  · exact absurd hop List.not_mem_nil

/-- The second call takes the processor from it. -/
theorem slice_expiry_iff_sliceEntries : ¬ (sliceRun 1).Swallows .int32 (sliceEntry 1) := by
  have hlaunch : (launchMps [2, 1] 1000).Launched _ :=
    launchMps_launched 1000 (by decide) (by decide)
  refine (((slice_expiry_iff hlaunch sliceEntries_isRun fun i hi _ htype => ?_).2
    sliceEntries_safe) 1 (by decide)).mpr
      (Or.inr ⟨.passeren mutexMps 0, List.mem_singleton.mpr rfl, ?_⟩)
  · interval_cases i <;> exact absurd htype (by decide +kernel)
  · show IntModel.int32.add 0 (-1) < 0
    decide

end Claims

end Machine

end Bikaya
