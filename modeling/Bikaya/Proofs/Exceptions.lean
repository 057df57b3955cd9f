import Bikaya.Core.Handler
import Bikaya.Proofs.DeviceQueues

/-!
# Bikaya: exceptions as sequences of operations

An exception handler is the bookkeeping of `start_handler`, a list of kernel operations
that is known when the exception is raised, and `conclude_handler`.  The invariants of the
operations carry over to the handlers, since the bookkeeping touches processor states and
timers only.

**Plan.**  The operations of an exception are computed from the state of the kernel when it
is raised: an interrupt ends the time slice and completes the devices that the scan finds,
in its order, and a system call is one operation at most.  Then the handlers are shown to
execute them.

**Results.**
* `execAll_interruptOps`: the scan of an interrupt executes the completions one by one.
* `consumeSyscall_spec`: what a system call answers, and the operation it executes.
* `Handled`: what is known of the kernel at the end of a handler.
* `specPassup_spec`: the registration of areas.
-/

namespace Bikaya

open TransitionSystem

/-- The devices of one line whose completion is pending, in the order of the scan. -/
def Irq.line (irq : Irq) (line : Nat) : List Dev :=
  if irq.pending line then
    match Kernel.lineType line with
    | none => []
    | some t => (Kernel.pendingDevs (irq.bitmap line)).map (fun n => ⟨t, n⟩)
  else []

/-- The terminal sub-devices whose status says that they are done. -/
def Irq.terminals (irq : Irq) : List Dev :=
  if irq.pending IL_TERMINAL then
    ((Kernel.pendingDevs (irq.bitmap IL_TERMINAL)).flatMap
      (fun n => [⟨.TERM_RX, n⟩, ⟨.TERM_TX, n⟩])).filter
      (fun d => irq.status d &&& DEV_STATUS_MASK = TERM_ST_DONE)
  else []

/-- All the completions of one interrupt. -/
def Irq.completions (irq : Irq) : List Dev :=
  [3, 4, 5, 6].flatMap irq.line ++ irq.terminals

namespace Kernel

variable {A : Arch}

/-- Several operations, one after the other. -/
def execAll (m : IntModel) (k : Kernel A) (ops : List (Operation A)) : Except Halt (Kernel A) :=
  ops.foldlM (exec m) k

/-- The operations of one interrupt. -/
def interruptOps (irq : Irq) : List (Operation A) :=
  (if irq.pending IL_TIMER then [.timeSlice] else []) ++
    irq.completions.map (fun d => .doneIo d (irq.status d))

/-- SPECPASSUP finds the areas of the running process set already. -/
def SpecTaken (k : Kernel A) (arg1 : Word) : Prop :=
  match specIndex (specTypeCode arg1 * 2 + OLD), specIndex (specTypeCode arg1 * 2 + NEW) with
  | .ok old, .ok new =>
      ¬ (k.specAreas k.runningProc new = 0 ∧ k.specAreas k.runningProc old = 0)
  | _, _ => False

instance (k : Kernel A) (arg1 : Word) : Decidable (k.SpecTaken arg1) := by
  unfold SpecTaken
  split <;> infer_instance

/-- The operation of a system call of the process that is running. -/
def syscallOps (k : Kernel A) (st : State A) (stateAt : Word → State A) (tod : Word) :
    List (Operation A) :=
  match (st A.sysN).toNat with
  | 2 => [.createProcess (stateAt (st A.arg1)) (st A.arg2).toInt]
  | 3 =>
      match A.procArg (st A.arg1) with
      | .ok target => [.terminateProcess target]
      | .error _ => []
  | 4 =>
      match semArg (st A.arg1) with
      | .ok semaddr => [.verhogen semaddr]
      | .error _ => []
  | 5 =>
      match semArg (st A.arg1) with
      | .ok semaddr => [.passeren semaddr tod]
      | .error _ => []
  | 6 => [.waitIo (st A.arg1) (st A.arg2) (st A.arg3) tod]
  | 7 => if k.SpecTaken (st A.arg1) then [.terminateProcess (some k.runningProc)] else []
  | _ => []

section Interrupts

variable {m : IntModel} {k : Kernel A}

/-- Completions are operations that always return. -/
theorem execAll_completions (irq : Irq) (ds : List Dev) (k : Kernel A) :
    k.execAll m (ds.map (fun d => .doneIo d (irq.status d))) =
      .ok (ds.foldl (fun k d => k.doneIo m d (irq.status d)) k) := by
  induction ds generalizing k with
  | nil =>
      rfl
  | cons d ds ih =>
      exact ih (k.doneIo m d (irq.status d))

theorem consumeLine_eq (irq : Irq) (line : Nat) (k : Kernel A) :
    k.consumeLine m irq line =
      (irq.line line).foldl (fun k d => k.doneIo m d (irq.status d)) k := by
  unfold consumeLine Irq.line
  split_ifs
  · cases lineType line with
    | none =>
        rfl
    | some t =>
        rw [List.foldl_map]
  · rfl

theorem consumeLines_eq (irq : Irq) (lines : List Nat) (k : Kernel A) :
    lines.foldl (consumeLine m irq) k =
      (lines.flatMap irq.line).foldl (fun k d => k.doneIo m d (irq.status d)) k := by
  induction lines generalizing k with
  | nil =>
      rfl
  | cons line lines ih =>
      rw [List.foldl_cons, ih, List.flatMap_cons, List.foldl_append, consumeLine_eq]

/-- The scan of the terminals calls `done_io` for the sub-devices that are done. -/
theorem consumeTerminals_eq (irq : Irq) (ns : List (Fin 8)) (k : Kernel A) :
    ns.foldl (fun k n => consumeSubdev m irq (consumeSubdev m irq k ⟨.TERM_RX, n⟩) ⟨.TERM_TX, n⟩)
        k =
      ((ns.flatMap (fun n => [(⟨.TERM_RX, n⟩ : Dev), ⟨.TERM_TX, n⟩])).filter
        (fun d => irq.status d &&& DEV_STATUS_MASK = TERM_ST_DONE)).foldl
        (fun k d => k.doneIo m d (irq.status d)) k := by
  have hsub : ∀ (k : Kernel A) (d : Dev) (ds : List Dev),
      ((d :: ds).filter (fun d => irq.status d &&& DEV_STATUS_MASK = TERM_ST_DONE)).foldl
          (fun k d => k.doneIo m d (irq.status d)) k =
        (ds.filter (fun d => irq.status d &&& DEV_STATUS_MASK = TERM_ST_DONE)).foldl
          (fun k d => k.doneIo m d (irq.status d)) (consumeSubdev m irq k d) := by
    intro k d ds
    by_cases hdone : irq.status d &&& DEV_STATUS_MASK = TERM_ST_DONE
    · rw [List.filter_cons_of_pos (by simpa using hdone), List.foldl_cons, consumeSubdev,
        if_pos hdone]
    · rw [List.filter_cons_of_neg (by simpa using hdone), consumeSubdev, if_neg hdone]
  induction ns generalizing k with
  | nil =>
      rfl
  | cons n ns ih =>
      rw [List.foldl_cons, ih, List.flatMap_cons, List.cons_append, List.cons_append,
        List.nil_append, hsub, hsub]

/-- The interrupt handler executes the operations of the interrupt. -/
theorem execAll_interruptOps (irq : Irq) (k : Kernel A) :
    k.execAll m (interruptOps irq) = .ok (k.consumeInterrupts m irq) := by
  have hcompletions : ∀ k : Kernel A,
      irq.completions.foldl (fun k d => k.doneIo m d (irq.status d)) k =
        if irq.pending IL_TERMINAL then
          (pendingDevs (irq.bitmap IL_TERMINAL)).foldl
            (fun k n => consumeSubdev m irq (consumeSubdev m irq k ⟨.TERM_RX, n⟩) ⟨.TERM_TX, n⟩)
            ([3, 4, 5, 6].foldl (consumeLine m irq) k)
        else [3, 4, 5, 6].foldl (consumeLine m irq) k := by
    intro k
    rw [Irq.completions, List.foldl_append, ← consumeLines_eq, Irq.terminals]
    split_ifs
    · rw [consumeTerminals_eq]
    · rfl
  rw [execAll, interruptOps, List.foldlM_append]
  by_cases htimer : irq.pending IL_TIMER = true
  · rw [if_pos htimer]
    show execAll m (k.timeSliceCallback m) _ = _
    rw [execAll_completions, hcompletions, consumeInterrupts, if_pos htimer]
  · rw [if_neg htimer]
    show execAll m k _ = _
    rw [execAll_completions, hcompletions, consumeInterrupts, if_neg htimer]

end Interrupts

/--
The kernel without the processor states, the timers and the passup areas, which is
all that the bookkeeping of the handlers touches.
-/
def core (k : Kernel A) : Kernel A :=
  { k with
    pS := fun _ => State.reset
    kernelTimer := fun _ => 0
    userTimer := fun _ => 0
    todCache := fun _ => 0
    todAtStart := fun _ => 0
    specAreas := fun _ _ => 0 }

end Kernel

namespace Exception

variable {A : Arch}

/-- The state in the old area after the handler's program counter adjustment. -/
def adjusted (e : Exception A) : State A :=
  match e.type with
  | .SYS => e.state.afterSysbreak
  | .INT => e.state.afterInterrupt
  | _ => e.state

/-- The number of the system call, if the exception is one. -/
def syscall (e : Exception A) : Option Nat :=
  match e.type with
  | .SYS => if A.getExccode e.adjusted = .E_SYS then some (e.adjusted A.sysN).toNat else none
  | _ => none

end Exception

namespace Machine

variable {A : Arch} {m : IntModel} {M M' : Machine A} {e : Exception A}

/-- The exception is passed up to a handler of the running process. -/
def PassedUp (M : Machine A) (e : Exception A) : Prop :=
  match e.type with
  | .INT => False
  | .SYS =>
      M.kernel.isPassupSet .SYS M.kernel.runningProc = true ∧
        (A.getExccode e.adjusted = .E_BP ∨
          A.getExccode e.adjusted = .E_SYS ∧ (e.adjusted A.sysN).toNat > SYSTEM_SYSCALL_MAX)
  | t => M.kernel.isPassupSet t M.kernel.runningProc = true

/-- The operations that the handler of an exception executes. -/
def operations (M : Machine A) (e : Exception A) : List (Operation A) :=
  match e.type with
  | .INT => Kernel.interruptOps e.irq
  | .SYS =>
      match e.syscall with
      | none => []
      | some number =>
          if number > SYSTEM_SYSCALL_MAX then
            if M.kernel.isPassupSet .SYS M.kernel.runningProc then []
            else [.terminateProcess (some M.kernel.runningProc)]
          else M.kernel.syscallOps e.adjusted e.stateAt e.todMid
  | t =>
      if M.kernel.isPassupSet t M.kernel.runningProc then []
      else [.terminateProcess (some M.kernel.runningProc)]

/-- What `start_handler` reads from the interval timer, clamped to a full slice. -/
def timerCache (M : Machine A) (e : Exception A) : Word :=
  if e.timer > M.clockTicksPerTimeSlice then M.clockTicksPerTimeSlice else e.timer

/-- The machine when `conclude_handler` is reached. -/
def concluding (M : Machine A) (e : Exception A) (k : Kernel A) (st : State A) : Machine A :=
  { M with
    kernel := k
    interruptedProc := M.kernel.runningProc
    intTimerCache := M.timerCache e
    oldArea := Function.update M.oldArea e.type st }

/-- The kernel after `start_handler`. -/
def startKernel (M : Machine A) (e : Exception A) : Kernel A :=
  M.kernel.flushUserTime e.todStart M.kernel.runningProc

/--
What a handler leaves: the interrupted process goes on with the old area, or another
process runs with its own state, and the old area is saved.
-/
inductive Resumes (M : Machine A) (e : Exception A) (k : Kernel A) (M' : Machine A) :
    Resumed A → Prop
  | same (st : State A) :
      st = e.adjusted ∨
        (∃ w, st = e.adjusted.setRet w) ∧ (e.syscall = some 2 ∨ e.syscall = some 3) →
      k.runningProc = M.kernel.runningProc →
      M'.kernel.pS = k.pS →
      M'.intervalTimer = M.timerCache e →
      Resumes M e k M' (.proc k.runningProc st)
  | other (st : State A) :
      st = e.adjusted ∨
        (∃ w, st = e.adjusted.setRet w) ∧ (e.syscall = some 2 ∨ e.syscall = some 3) →
      k.runningProc ≠ M.kernel.runningProc →
      M'.kernel.pS =
        (if M.kernel.runningProc = .idle then k.pS
        else Function.update k.pS M.kernel.runningProc st) →
      M'.intervalTimer = M.clockTicksPerTimeSlice →
      Resumes M e k M' (.proc k.runningProc (k.pS k.runningProc))
  | passup (old new : Word) (st : State A) :
      M.PassedUp e →
      M'.kernel.pS = k.pS →
      Resumes M e k M' (.passup old new st)

/-- What a handler does: its operations, and then one of the three conclusions. -/
structure Handled (m : IntModel) (M : Machine A) (e : Exception A) (M' : Machine A)
    (r : Resumed A) (k : Kernel A) : Prop where
  ops : (M.startKernel e).execAll m (M.operations e) = .ok k
  core : M'.kernel.core = k.core
  ticks : M'.clockTicksPerTimeSlice = M.clockTicksPerTimeSlice
  resumes : Resumes M e k M' r

section Handlers

/-- An exception that is passed up executes no operation. -/
theorem operations_of_passedUp (hup : M.PassedUp e) : M.operations e = [] := by
  unfold PassedUp at hup
  unfold operations
  cases htype : e.type with
  | INT =>
      rw [htype] at hup
      exact absurd hup id
  | SYS =>
      rw [htype] at hup
      obtain ⟨hset, hcode | ⟨hcode, hnum⟩⟩ := hup
      · simp only [Exception.syscall, htype, hcode]
        rfl
      · simp only [Exception.syscall, htype, hcode, if_true, hnum, hset]
  | PRG =>
      rw [htype] at hup
      exact if_pos hup
  | TLB =>
      rw [htype] at hup
      exact if_pos hup

/-- SPECPASSUP sets free areas, or terminates the caller. -/
theorem specPassup_spec
    {k k' : Kernel A} {arg1 arg2 arg3 : Word} (h : k.specPassup arg1 arg2 arg3 = .ok k') :
    (¬ k.SpecTaken arg1 ∧ ∃ areas, k' = { k with specAreas := areas }) ∨
    (k.SpecTaken arg1 ∧ k.exec m (.terminateProcess (some k.runningProc)) = .ok k') := by
  unfold Kernel.specPassup at h
  unfold Kernel.SpecTaken
  obtain ⟨old, hold, h⟩ := ok_of_bind h
  obtain ⟨new, hnew, h⟩ := ok_of_bind h
  simp only [hold, hnew]
  split_ifs at h with hfree
  · exact Or.inl ⟨not_not_intro hfree, _, (Except.ok.inj h).symm⟩
  · exact Or.inr ⟨hfree, h⟩

/-- The system calls, as operations. -/
theorem consumeSyscall_spec
    {k : Kernel A} {st : State A} {interrupted : Proc} {stateAt : Word → State A} {tod : Word}
    {served : Served A} (h : k.consumeSyscall m st interrupted stateAt tod = .ok served) :
    ∃ k₁ areas,
      k.execAll m (k.syscallOps st stateAt tod) = .ok k₁ ∧
      served.kernel = { k₁ with specAreas := areas } ∧
      ((st A.sysN).toNat ≠ 7 → areas = k₁.specAreas) ∧
      (served.state = st ∨
        (∃ w, served.state = st.setRet w) ∧
          ((st A.sysN).toNat = 2 ∨ (st A.sysN).toNat = 3)) := by
  unfold Kernel.consumeSyscall at h
  simp only at h
  have hops : ∀ (k₁ : Kernel A) (op : Operation A), k.exec m op = .ok k₁ →
      k.syscallOps st stateAt tod = [op] →
      k.execAll m (k.syscallOps st stateAt tod) = .ok k₁ := by
    intro k₁ op hexec hsys
    rw [hsys, Kernel.execAll, List.foldlM_cons, hexec]
    rfl
  split at h
  · -- GETCPUTIME
    next heq =>
    obtain rfl := Except.ok.inj h
    exact ⟨k, k.specAreas, by simp only [Kernel.syscallOps, heq]; rfl, rfl, fun _ => rfl,
      Or.inl rfl⟩
  · -- CREATEPROCESS
    next heq =>
    obtain ⟨res, hcreate, h⟩ := ok_of_bind h
    obtain rfl := Except.ok.inj h
    refine ⟨res.2, res.2.specAreas,
      hops _ (.createProcess (stateAt (st A.arg1)) (st A.arg2).toInt) ?_ ?_, rfl,
      fun _ => rfl, Or.inr ⟨⟨_, rfl⟩, Or.inl heq⟩⟩
    · simp only [Kernel.exec, hcreate]
      rfl
    · simp only [Kernel.syscallOps, heq]
  · -- TERMINATEPROCESS
    next heq =>
    obtain ⟨target, harg, h⟩ := ok_of_bind h
    obtain ⟨res, hterm, h⟩ := ok_of_bind h
    obtain rfl := Except.ok.inj h
    refine ⟨res.2, res.2.specAreas, hops _ (.terminateProcess target) ?_ ?_, rfl,
      fun _ => rfl, Or.inr ⟨⟨_, rfl⟩, Or.inr heq⟩⟩
    · simp only [Kernel.exec, hterm]
      rfl
    · simp only [Kernel.syscallOps, heq, harg]
  · -- VERHOGEN
    next heq =>
    obtain ⟨semaddr, harg, h⟩ := ok_of_bind h
    obtain rfl := Except.ok.inj h
    refine ⟨k.v m semaddr, (k.v m semaddr).specAreas, hops _ (.verhogen semaddr) rfl ?_, rfl,
      fun _ => rfl, Or.inl rfl⟩
    simp only [Kernel.syscallOps, heq, harg]
  · -- PASSEREN
    next heq =>
    obtain ⟨semaddr, harg, h⟩ := ok_of_bind h
    obtain ⟨k₁, hp, h⟩ := ok_of_bind h
    obtain rfl := Except.ok.inj h
    refine ⟨k₁, k₁.specAreas, hops _ (.passeren semaddr tod) hp ?_, rfl, fun _ => rfl, Or.inl rfl⟩
    simp only [Kernel.syscallOps, heq, harg]
  · -- WAITIO
    next heq =>
    obtain ⟨k₁, hwait, h⟩ := ok_of_bind h
    obtain rfl := Except.ok.inj h
    refine ⟨k₁, k₁.specAreas, hops _ (.waitIo (st A.arg1) (st A.arg2) (st A.arg3) tod) hwait ?_,
      rfl, fun _ => rfl, Or.inl rfl⟩
    simp only [Kernel.syscallOps, heq]
  · -- SPECPASSUP
    next heq =>
    obtain ⟨k₁, hspec, h⟩ := ok_of_bind h
    obtain rfl := Except.ok.inj h
    rcases specPassup_spec (m := m) hspec with ⟨hfree, areas, rfl⟩ | ⟨htaken, hexec⟩
    · refine ⟨k, areas, ?_, rfl, fun hne => absurd heq hne, Or.inl rfl⟩
      simp only [Kernel.syscallOps, heq, if_neg hfree]
      rfl
    · refine ⟨k₁, k₁.specAreas, hops _ _ hexec ?_, rfl, fun _ => rfl, Or.inl rfl⟩
      simp only [Kernel.syscallOps, heq, if_pos htaken]
  · -- GETPID
    next heq =>
    obtain rfl := Except.ok.inj h
    exact ⟨k, k.specAreas, by simp only [Kernel.syscallOps, heq]; rfl, rfl, fun _ => rfl,
      Or.inl rfl⟩
  · exact absurd h (by simp)

/-- The machine with the state of the exception stored, after `start_handler`. -/
theorem started_eq :
    (M.setArea e.type e.state).startHandler e.timer e.todStart =
      M.concluding e (M.startKernel e) e.state :=
  rfl

/-- The old area and the kernel are replaced while a handler runs. -/
theorem concluding_set (k : Kernel A) (st st' : State A) :
    { (M.concluding e (M.startKernel e) st).setArea e.type st' with kernel := k } =
      M.concluding e k st' := by
  simp only [concluding, setArea, Function.update_idem]

theorem concluding_area (k : Kernel A) (st : State A) :
    (M.concluding e k st).oldArea e.type = st :=
  Function.update_self _ _ _

end Handlers

end Machine

end Bikaya
