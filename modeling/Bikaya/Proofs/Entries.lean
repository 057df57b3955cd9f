import Bikaya.Core.Entries
import Bikaya.Proofs.Handlers

/-!
# Bikaya: one entry into the kernel

What one entry does to the kernel: an interrupt executes its list of operations, any other
exception executes one operation at most, and the operation is a step of the kernel.  The
bookkeeping around the operations leaves the core of the kernel alone.

**Plan.**  An entry is a list of operations between the bookkeeping of `start_handler` and
the end of the handler.  `Executes` says which operations an entry executes and in which
states, so that a property of the operations is a property of the entries
(`Executes.rule`).  A termination in a handler is aimed at whatever address user code
passed, hence its three outcomes (`terminateProc_cases`).

**Results.**
* `executes_of_execAll`: what an entry executes is a run of the kernel.
* `Ok.enter`, `Sparing.enter`: the invariants of the kernel over an entry.
* `ok_of_run`: and over a run of the machine from its launch on.
-/

namespace Bikaya

open TransitionSystem

namespace Operation

variable {A : Arch}

/-- The operations of an interrupt. -/
def Interrupt : Operation A → Prop
  | .doneIo _ _ => True
  | .timeSlice => True
  | _ => False

end Operation

namespace Kernel

variable {A : Arch} {k k' : Kernel A} {m : IntModel}

section Core

/-- Kernels with the same core agree on everything but the fields that are left out. -/
theorem core_frame
    (h : k'.core = k.core) :
    k' =
      { k with
        pS := k'.pS
        kernelTimer := k'.kernelTimer
        userTimer := k'.userTimer
        todCache := k'.todCache
        todAtStart := k'.todAtStart
        specAreas := k'.specAreas } := by
  cases k
  cases k'
  simp only [core, Kernel.mk.injEq] at h ⊢
  simp only [h, and_self]

theorem Ok.of_core
    (hok : k.Ok) (h : k'.core = k.core) :
    k'.Ok := by
  rw [core_frame h]
  exact ⟨hok.residence, hok.tree, hok.idle, hok.running⟩

theorem DevicesOk.of_core
    (hdev : k.DevicesOk) (h : k'.core = k.core) :
    k'.DevicesOk := by
  rw [core_frame h]
  exact ⟨hdev.sem, hdev.vacant⟩

theorem runningProc_of_core (h : k'.core = k.core) : k'.runningProc = k.runningProc := by
  rw [core_frame h]

theorem live_of_core (h : k'.core = k.core) (x : Proc) : k'.Live x ↔ k.Live x := by
  rw [core_frame h]
  exact Iff.rfl

theorem waitQueue_of_core (h : k'.core = k.core) : k'.waitQueue = k.waitQueue := by
  rw [core_frame h]
  rfl

theorem devices_of_core
    (h : k'.core = k.core) :
    k'.devices = k.devices := by
  rw [core_frame h]
  rfl

theorem Sparing.of_core
    (hspare : k.Sparing) (h : k'.core = k.core) :
    k'.Sparing :=
  ⟨hspare.ok.of_core h, hspare.devicesOk.of_core h, devices_of_core h ▸ hspare.registered⟩

end Core

section Execution

theorem execAll_cons
    {op : Operation A} {ops : List (Operation A)} (hexec : k.execAll m (op :: ops) = .ok k') :
    ∃ k₁, k.exec m op = .ok k₁ ∧ k₁.execAll m ops = .ok k' := by
  rw [execAll, List.foldlM_cons] at hexec
  exact ok_of_bind hexec

theorem execAll_append
    {ops ops' : List (Operation A)} (hexec : k.execAll m (ops ++ ops') = .ok k') :
    ∃ k₁, k.execAll m ops = .ok k₁ ∧ k₁.execAll m ops' = .ok k' := by
  rw [execAll, List.foldlM_append] at hexec
  exact ok_of_bind hexec

theorem execAll_singleton
    {op : Operation A} (hexec : k.execAll m [op] = .ok k') :
    k.exec m op = .ok k' := by
  obtain ⟨k₁, hop, hnil⟩ := execAll_cons hexec
  obtain rfl : k₁ = k' := Except.ok.inj hnil
  exact hop

/-- An invariant of the operations of a list is an invariant of the list. -/
theorem execAll_invariant
    {Inv : Kernel A → Prop} {ops : List (Operation A)}
    (hstep : ∀ k op k', op ∈ ops → Inv k → k.exec m op = .ok k' → Inv k')
    (h : Inv k) (hexec : k.execAll m ops = .ok k') :
    Inv k' := by
  induction ops generalizing k with
  | nil =>
      exact Except.ok.inj hexec ▸ h
  | cons op ops ih =>
      obtain ⟨k₁, hop, hrest⟩ := execAll_cons hexec
      exact ih (fun k op' k' hmem => hstep k op' k' (List.mem_cons_of_mem _ hmem))
        (hstep k op k₁ List.mem_cons_self h hop) hrest

theorem Safe.of_not_terminates {op : Operation A} (h : ¬ op.Terminates) : k.Safe op := by
  cases op with
  | terminateProcess p =>
      exact absurd trivial h
  | _ => exact trivial

/-- An interrupt terminates nobody. -/
theorem not_terminates_of_interrupt {op : Operation A} (hop : op.Interrupt) :
    ¬ op.Terminates := by
  cases op with
  | terminateProcess p =>
      exact absurd hop id
  | _ => exact id

/-- The operations of an interrupt are steps. -/
theorem step_of_interrupt
    {op : Operation A} (hop : op.Interrupt) (hexec : k.exec m op = .ok k') :
    Step m k op k' := by
  refine ⟨?_, hexec⟩
  cases op <;> first | exact trivial | exact absurd hop id

/-- `outChild` changes the links of the tree only. -/
theorem outChild_frame
    {q : Proc} {r : Option Proc × Kernel A} (hout : k.outChild q = .ok r) :
    ∃ pParent pChild, r.2 = k.withTree pParent pChild := by
  unfold outChild at hout
  split at hout
  · rw [← Except.ok.inj hout]
    exact ⟨k.pParent, k.pChild, rfl⟩
  · split at hout
    · exact absurd hout (by simp)
    · split_ifs at hout
      · rw [← Except.ok.inj hout]
        unfold removeChild
        split
        · exact ⟨k.pParent, k.pChild, rfl⟩
        · exact ⟨_, _, rfl⟩
      · rw [← Except.ok.inj hout]
        exact ⟨_, _, rfl⟩

/-- A process that is neither blocked, nor registered, nor ready is not removed. -/
theorem recursiveRemoveProc_lost
    {q : Proc} (hkey : k.pSemkey q = none) (hlist : k.devWList q = none)
    (hready : q ∉ k.readyQueue) (n : ℕ) :
    recursiveRemoveProc (n + 1) k q = .error removalPanic := by
  have hunlink : (k.unlinkProc q).1 = none := by
    simp only [unlinkProc, hkey, hlist, outProcQ_eq, hready, if_false]
  rw [recursiveRemoveProc]
  cases hres : k.unlinkProc q with
  | mk found k₂ =>
      rw [hres] at hunlink
      obtain rfl : found = none := hunlink
      rfl

/-- The running process is taken back from the ready queue, or the next process runs. -/
def unparked (k : Kernel A) : Kernel A :=
  let q := k.readyQueue.erase k.runningProc
  if k.runningProc ∈ k.readyQueue then { k with readyQueue := q }
  else { k with readyQueue := q }.runNextReady

/-- The steps of a termination that returns. -/
theorem terminateProc_cases
    {p : Option Proc} {r : Int × Kernel A} (hterm : k.terminateProc p = .ok r) :
    ∃ pParent pChild r₁,
      recursiveRemoveProc removalFuel (k.parked.withTree pParent pChild)
        (p.getD k.runningProc) = .ok r₁ ∧
      r = (r₁.1, r₁.2.unparked) := by
  have hsteps : ∀ (pParent : Proc → Option Proc) (pChild : Proc → List Proc)
      (f : Int × Kernel A → Except Halt (Int × Kernel A)),
      (∀ r₁, f r₁ = .ok (r₁.1, r₁.2.unparked)) →
      (recursiveRemoveProc removalFuel (k.parked.withTree pParent pChild)
        (p.getD k.runningProc) >>= f) = .ok r →
      ∃ r₁, recursiveRemoveProc removalFuel (k.parked.withTree pParent pChild)
          (p.getD k.runningProc) = .ok r₁ ∧
        r = (r₁.1, r₁.2.unparked) := by
    intro pParent pChild f hf h
    obtain ⟨r₁, hrec, hfinish⟩ := ok_of_bind h
    exact ⟨r₁, hrec, (Except.ok.inj ((hf r₁).symm.trans hfinish)).symm⟩
  by_cases hs : (k.pParent (p.getD k.runningProc)).isSome
  · cases hout : k.outChild (p.getD k.runningProc) with
    | error err =>
        simp only [terminateProc, hs, if_true, hout] at hterm
        exact absurd hterm (by simp [Except.map, bind, Except.bind])
    | ok r₀ =>
        obtain ⟨pParent, pChild, heq⟩ := outChild_frame hout
        simp only [terminateProc, hs, if_true, hout, Except.map, heq] at hterm
        refine ⟨pParent, pChild, hsteps pParent pChild _ (fun r₁ => ?_) hterm⟩
        simp only [outProcQ_eq, unparked]
        split_ifs <;> rfl
  · simp only [terminateProc, hs, if_false, Bool.false_eq_true] at hterm
    refine ⟨k.pParent, k.pChild, hsteps k.pParent k.pChild _ (fun r₁ => ?_) hterm⟩
    simp only [outProcQ_eq, unparked]
    split_ifs <;> rfl

/-- A termination that returns has found its target, which was live. -/
theorem terminateProc_live
    (h : k.Ok) (hidle : k.runningProc ≠ .idle) {p : Option Proc} (hkill : k.Killable p)
    {r : Int × Kernel A} (hterm : k.terminateProc p = .ok r) :
    ∀ q ∈ p, k.Live q := by
  rintro q rfl
  by_contra hlive
  obtain ⟨hready, hkey⟩ : q ∉ insertProcQ k.priority k.readyQueue k.runningProc ∧
      k.pSemkey q = none := by
    rw [mem_insertProcQ, not_or]
    by_cases hq : q = .idle
    · subst hq
      exact ⟨⟨Ne.symm hidle, h.idle_not_ready⟩,
        h.residence.semkey_of_absent h.idle⟩
    · have hfree : q ∈ k.pcbFreeH := by
        by_contra hfree
        exact hlive ⟨hq, hfree⟩
      refine ⟨⟨?_, h.residence.not_ready_of_free hfree⟩, h.residence.semkey_of_free hfree⟩
      rintro rfl
      exact h.running_not_free hfree
  have hlist : k.devWList q = none := hkill q (OrderedForest.Below.refl q) hkey
  obtain ⟨pParent, pChild, r₁, hrec, -⟩ := terminateProc_cases hterm
  have hlost := recursiveRemoveProc_lost (k := k.parked.withTree pParent pChild)
    hkey hlist hready 41
  exact absurd (hlost.symm.trans hrec) (by simp)

/-- An operation of a process that returns is a step. -/
theorem Ok.step_of_exec
    {op : Operation A} (h : k.Ok) (hidle : k.runningProc ≠ .idle) (hsafe : k.Safe op)
    (hexec : k.exec m op = .ok k') :
    Step m k op k' := by
  refine ⟨?_, hexec⟩
  cases op with
  | terminateProcess p =>
      refine ⟨hidle, ?_⟩
      simp only [exec] at hexec
      cases hterm : k.terminateProc p with
      | error err =>
          rw [hterm] at hexec
          exact absurd hexec (by simp [Except.map])
      | ok r =>
          exact terminateProc_live h hidle hsafe hterm
  | doneIo d status =>
      exact trivial
  | timeSlice =>
      exact trivial
  | write a value =>
      exact trivial
  | _ => exact hidle

end Execution

end Kernel

namespace Machine

variable {A : Arch} {m : IntModel} {M M' : Machine A} {e : Entry A} {k : Kernel A}

/-- The kernel when the handler of the exception begins. -/
def started (M : Machine A) (e : Entry A) : Kernel A :=
  (M.userWrites e.memory).startKernel e.toException

/-- The operation is what the exception asks for, with its arguments. -/
def Requested (e : Exception A) : Operation A → Prop
  | .createProcess s priority =>
      e.syscall = some 2 ∧ s = e.stateAt (e.adjusted A.arg1) ∧
        priority = (e.adjusted A.arg2).toInt
  | .terminateProcess _ => e.syscall ≠ some 2 ∧ e.syscall ≠ some 6
  | .verhogen _ => e.syscall = some 4
  | .passeren _ _ => e.syscall = some 5
  | .waitIo command devReg subdev _ =>
      e.syscall = some 6 ∧ command = e.adjusted A.arg1 ∧ devReg = e.adjusted A.arg2 ∧
        subdev = e.adjusted A.arg3
  | _ => False

/-- An exception that is no interrupt executes one operation at most. -/
theorem operations_cases (htype : e.type ≠ .INT) :
    (M.operations e.toException = [] ∧ e.syscall ≠ some 2 ∧ e.syscall ≠ some 6) ∨
      ∃ op, M.operations e.toException = [op] ∧ Requested e.toException op := by
  have hfault : (e.type = .PRG ∨ e.type = .TLB) →
      (M.operations e.toException = [] ∧ e.syscall ≠ some 2 ∧ e.syscall ≠ some 6) ∨
      ∃ op, M.operations e.toException = [op] ∧ Requested e.toException op := by
    intro h
    have hcall : e.syscall = none := by
      rcases h with h | h <;> simp only [Exception.syscall, h]
    have hops : M.operations e.toException =
        if M.kernel.isPassupSet e.type M.kernel.runningProc then []
        else [.terminateProcess (some M.kernel.runningProc)] := by
      rcases h with h | h <;> simp only [operations, h]
    rw [hops, hcall]
    split_ifs
    · exact Or.inl ⟨rfl, by simp, by simp⟩
    · exact Or.inr ⟨_, rfl, by simp [Requested, hcall]⟩
  cases ht : e.type with
  | INT =>
      exact absurd ht htype
  | PRG =>
      exact hfault (Or.inl ht)
  | TLB =>
      exact hfault (Or.inr ht)
  | SYS =>
      simp only [operations, ht]
      cases hcall : e.syscall with
      | none =>
          exact Or.inl ⟨rfl, by simp, by simp⟩
      | some number =>
          have hnumber : (e.adjusted A.sysN).toNat = number := by
            simp only [Exception.syscall, ht] at hcall
            split_ifs at hcall
            exact Option.some.inj hcall
          simp only
          split_ifs with hmax hset
          · have hmax : number > 8 := hmax
            refine Or.inl ⟨rfl, ?_, ?_⟩ <;> simp only [ne_eq, Option.some.injEq] <;> omega
          · have hmax : number > 8 := hmax
            refine Or.inr ⟨_, rfl, ?_, ?_⟩ <;> rw [hcall] <;>
              simp only [ne_eq, Option.some.injEq] <;> omega
          · unfold Kernel.syscallOps
            rw [hnumber]
            split
            · exact Or.inr ⟨_, rfl, hcall, rfl, rfl⟩
            · split
              · exact Or.inr ⟨_, rfl, by simp [hcall], by simp [hcall]⟩
              · exact Or.inl ⟨rfl, by simp, by simp⟩
            · split
              · exact Or.inr ⟨_, rfl, hcall⟩
              · exact Or.inl ⟨rfl, by simp, by simp⟩
            · split
              · exact Or.inr ⟨_, rfl, hcall⟩
              · exact Or.inl ⟨rfl, by simp, by simp⟩
            · exact Or.inr ⟨_, rfl, hcall, rfl, rfl, rfl⟩
            · split_ifs
              · exact Or.inr ⟨_, rfl, by simp [hcall], by simp [hcall]⟩
              · exact Or.inl ⟨rfl, by simp, by simp⟩
            · next h2 _ _ _ h6 _ =>
                refine Or.inl ⟨rfl, ?_, ?_⟩
                · simpa using h2
                · simpa using h6

/-- What happens to the kernel between `start_handler` and `conclude_handler`. -/
inductive Executes (m : IntModel) (M : Machine A) (e : Entry A) : Kernel A → Prop
  | interrupt {k : Kernel A} :
      e.type = .INT →
      (M.started e).execAll m (Kernel.interruptOps e.irq) = .ok k →
      Executes m M e k
  | nothing :
      e.type ≠ .INT →
      M.operations e.toException = [] →
      e.syscall ≠ some 2 →
      e.syscall ≠ some 6 →
      Executes m M e (M.started e)
  | operation {op : Operation A} {k : Kernel A} :
      e.type ≠ .INT →
      M.operations e.toException = [op] →
      Requested e.toException op →
      (M.started e).exec m op = .ok k →
      Executes m M e k

theorem mem_interruptOps
    {irq : Irq} {op : Operation A} (hop : op ∈ Kernel.interruptOps irq) :
    op = .timeSlice ∨ ∃ d ∈ irq.completions, op = .doneIo d (irq.status d) := by
  rcases List.mem_append.mp hop with hop | hop
  · split_ifs at hop
    · exact Or.inl (List.mem_singleton.mp hop)
    · exact absurd hop List.not_mem_nil
  · obtain ⟨d, hd, rfl⟩ := List.mem_map.mp hop
    exact Or.inr ⟨d, hd, rfl⟩

theorem interrupt_of_mem
    {irq : Irq} {op : Operation A} (hop : op ∈ Kernel.interruptOps irq) :
    op.Interrupt := by
  rcases mem_interruptOps hop with rfl | ⟨d, -, rfl⟩ <;> exact trivial

theorem mem_operations
    (htype : e.type = .INT) {op : Operation A} (hop : op ∈ Kernel.interruptOps e.irq) :
    op ∈ M.operations e.toException := by
  simp only [operations, htype]
  exact hop

theorem started_ok (h : M.kernel.Ok) : (M.started e).Ok :=
  ⟨h.residence, h.tree, h.idle, h.running⟩

theorem started_devicesOk (h : M.kernel.DevicesOk) : (M.started e).DevicesOk :=
  ⟨h.sem, h.vacant⟩

theorem started_sparing (h : M.kernel.Sparing) : (M.started e).Sparing :=
  ⟨started_ok h.ok, started_devicesOk h.devicesOk, h.registered⟩

/--
The rule for one entry: what holds when the handler begins, and is preserved by the
operations the handler can execute, holds when it concludes.
-/
theorem Executes.rule
    (Inv : Kernel A → Prop) (hexec : Executes m M e k)
    (hok : M.kernel.Ok) (hidle : M.kernel.runningProc = .idle → e.type = .INT)
    (hsafe : ∀ op ∈ M.operations e.toException, M.kernel.Safe op)
    (h : Inv (M.started e))
    (hstep : ∀ k₁ op k₂, Inv k₁ → Kernel.Step m k₁ op k₂ →
      op ∈ M.operations e.toException →
      (e.type = .INT ∧ op.Interrupt) ∨
        (e.type ≠ .INT ∧ k₁ = M.started e ∧ k₂ = k ∧ Requested e.toException op) →
      Inv k₂) :
    Inv k := by
  cases hexec with
  | interrupt htype hops =>
      refine Kernel.execAll_invariant (fun k op k' hmem hk hop => ?_) h hops
      have hint : op.Interrupt := interrupt_of_mem hmem
      exact hstep k op k' hk (Kernel.step_of_interrupt hint hop)
        (mem_operations htype hmem) (Or.inl ⟨htype, hint⟩)
  | nothing _ _ _ _ =>
      exact h
  | operation htype hops hreq hop =>
      rename_i op
      have hmem : op ∈ M.operations e.toException := by
        rw [hops]
        exact List.mem_singleton_self op
      have hrun : M.kernel.runningProc ≠ .idle := fun hrun => htype (hidle hrun)
      have hsafe' : (M.started e).Safe op := hsafe op hmem
      exact hstep _ op k h ((started_ok hok).step_of_exec hrun hsafe' hop) hmem
        (Or.inr ⟨htype, rfl, rfl, hreq⟩)

/-- What an entry does. -/
structure Entered (m : IntModel) (M : Machine A) (e : Entry A) (M' : Machine A)
    (r : Resumed A) (k : Kernel A) : Prop where
  executes : Executes m M e k
  core : M'.kernel.core = k.core
  ticks : M'.clockTicksPerTimeSlice = M.clockTicksPerTimeSlice
  resumes : Resumes M e.toException k M' r

/-- The operations do not depend on the semaphores in user memory. -/
theorem operations_userWrites (M : Machine A) (memory : SemAddr → Int) (e : Exception A) :
    (M.userWrites memory).operations e = M.operations e := by
  unfold operations
  rfl

/-- The operations of an exception, executed on the kernel that `start_handler` leaves. -/
theorem executes_of_execAll
    (hops : (M.started e).execAll m ((M.userWrites e.memory).operations e.toException) = .ok k) :
    Executes m M e k := by
  rw [operations_userWrites] at hops
  by_cases htype : e.type = .INT
  · refine Executes.interrupt htype ?_
    have hint : M.operations e.toException = Kernel.interruptOps e.irq := by
      simp only [operations, htype]
    rw [hint] at hops
    exact hops
  · rcases operations_cases (M := M) htype with ⟨hnil, h2, h6⟩ | ⟨op, hop, hreq⟩
    · rw [hnil] at hops
      obtain rfl : M.started e = k := Except.ok.inj hops
      exact Executes.nothing htype hnil h2 h6
    · rw [hop] at hops
      exact Executes.operation htype hop hreq (Kernel.execAll_singleton hops)

theorem enter_spec
    {reply : Reply} {r : Resumed A} (h : M.enter m e = .ok (M', reply, r)) :
    ∃ k, Entered m M e M' r k := by
  obtain ⟨k, hops, hcore, hticks, hresumes⟩ := handle_spec h
  refine ⟨k, executes_of_execAll hops, hcore, hticks, ?_⟩
  · cases hresumes with
    | same st hst hrun hpS htimer =>
        exact Resumes.same st hst hrun hpS htimer
    | other st hst hrun hpS htimer =>
        exact Resumes.other st hst hrun hpS htimer
    | passup old new st hup hpS =>
        exact Resumes.passup old new st hup hpS

theorem Safe.of_started
    {op : Operation A} (h : M.kernel.Safe op) :
    (M.started e).Safe op := by
  cases op with
  | terminateProcess p =>
      exact h
  | _ => exact trivial

/-- An exception keeps the invariant of the kernel. -/
theorem Ok.enter
    {reply : Reply} {r : Resumed A} (h : M.kernel.Ok)
    (hidle : M.kernel.runningProc = .idle → e.type = .INT)
    (hsafe : ∀ op ∈ M.operations e.toException, M.kernel.Safe op)
    (henter : M.enter m e = .ok (M', reply, r)) :
    M'.kernel.Ok := by
  obtain ⟨k, hentered⟩ := enter_spec henter
  refine Kernel.Ok.of_core ?_ hentered.core
  refine hentered.executes.rule Kernel.Ok h hidle hsafe (started_ok h) ?_
  intro k₁ op k₂ hk hstep hmem hwhich
  refine hk.step ?_ hstep
  rcases hwhich with ⟨-, hint⟩ | ⟨-, rfl, -, -⟩
  · exact Kernel.Safe.of_not_terminates (Kernel.not_terminates_of_interrupt hint)
  · exact Safe.of_started (hsafe op hmem)

/-- An exception that spares the waiting processes keeps the devices in order. -/
theorem Sparing.enter
    {reply : Reply} {r : Resumed A} (h : M.kernel.Sparing)
    (hidle : M.kernel.runningProc = .idle → e.type = .INT)
    (hspare : ∀ op ∈ M.operations e.toException, M.kernel.SparesDevices op)
    (henter : M.enter m e = .ok (M', reply, r)) :
    M'.kernel.Sparing := by
  obtain ⟨k, hentered⟩ := enter_spec henter
  refine Kernel.Sparing.of_core ?_ hentered.core
  refine hentered.executes.rule Kernel.Sparing h.ok hidle (fun op _ => h.safe op)
    (started_sparing h) ?_
  intro k₁ op k₂ hk hstep hmem hwhich
  refine hk.step ?_ hstep
  rcases hwhich with ⟨-, hint⟩ | ⟨-, rfl, -, -⟩
  · exact Kernel.SparesDevices.of_not_terminates (Kernel.not_terminates_of_interrupt hint)
  · have hspare' := hspare op hmem
    cases op with
    | terminateProcess p =>
        exact hspare'
    | _ => exact trivial

/-- An entry without a termination meets no stale device registration. -/
theorem safe_of_not_terminates
    {M : Machine A} {e : Entry A}
    (h : ∀ op ∈ M.operations e.toException, ¬ op.Terminates) :
    ∀ op ∈ M.operations e.toException, M.kernel.Safe op :=
  fun op hop => Kernel.Safe.of_not_terminates (h op hop)

/-- An entry without a termination spares the processes that wait for devices. -/
theorem sparesDevices_of_not_terminates
    {M : Machine A} {e : Entry A}
    (h : ∀ op ∈ M.operations e.toException, ¬ op.Terminates) :
    ∀ op ∈ M.operations e.toException, M.kernel.SparesDevices op :=
  fun op hop => Kernel.SparesDevices.of_not_terminates (h op hop)

/-- The launch is the boot of the kernel. -/
theorem bikayaLaunch_eq
    (sem : SemAddr → Int) (startingProcs : List ProcInitData) (clockTicks : Word)
    (tod : Word × Word) (areas : ExcType → State A) :
    bikayaLaunch sem startingProcs clockTicks tod areas =
      (Kernel.boot sem startingProcs tod).map (fun k =>
        (⟨k, .idle, 0, clockTicks, clockTicks, areas⟩,
          .proc k.runningProc (k.pS k.runningProc))) := by
  simp only [Kernel.boot, bikayaLaunch, bind, Except.bind]
  cases (Kernel.bss sem : Kernel A).initScheduler startingProcs with
  | error err =>
      rfl
  | ok k₁ =>
      simp only
      cases k₁.launch tod <;> rfl

/-- The machine after a launch with the given readings of the time of day. -/
def LaunchedAt (M : Machine A) (r : Resumed A) (tod : Word × Word) : Prop :=
  ∃ (sem : SemAddr → Int) (startingProcs : List ProcInitData) (clockTicks : Word)
    (areas : ExcType → State A),
    1 ≤ startingProcs.length ∧ startingProcs.length ≤ MAXPROC ∧
      bikayaLaunch sem startingProcs clockTicks tod areas = .ok (M, r)

theorem LaunchedAt.launched {r : Resumed A} {tod : Word × Word} (h : M.LaunchedAt r tod) :
    M.Launched r := by
  obtain ⟨sem, startingProcs, clockTicks, areas, h⟩ := h
  exact ⟨sem, startingProcs, clockTicks, tod, areas, h⟩

/-- The process that is launched has the stamps, and no other one has. -/
theorem LaunchedAt.stamps {r : Resumed A} {tod : Word × Word} (h : M.LaunchedAt r tod) :
    M.kernel.todCache M.kernel.runningProc = tod.2 ∧
      M.kernel.todAtStart = Function.update (fun _ => 0) M.kernel.runningProc tod.1 := by
  obtain ⟨sem, startingProcs, clockTicks, areas, hpos, hmax, hlaunch⟩ := h
  obtain ⟨k, hboot, -, hcache, hstart⟩ :=
    Kernel.boot_spec (A := A) sem startingProcs tod hpos hmax
  rw [bikayaLaunch_eq, hboot] at hlaunch
  obtain rfl := congrArg Prod.fst (Except.ok.inj hlaunch)
  exact ⟨hcache, hstart⟩

/-- A launched machine has booted, and loads the state of the first process. -/
theorem Launched.booted
    {r : Resumed A} (h : M.Launched r) :
    M.kernel.Booted ∧ r = .proc M.kernel.runningProc (M.kernel.pS M.kernel.runningProc) := by
  obtain ⟨sem, startingProcs, clockTicks, tod, areas, hmin, hmax, hlaunch⟩ := h
  rw [bikayaLaunch_eq] at hlaunch
  cases hk : (Kernel.boot sem startingProcs tod : Except Halt (Kernel A)) with
  | error err =>
      rw [hk] at hlaunch
      exact absurd hlaunch (by simp [Except.map])
  | ok k =>
      rw [hk] at hlaunch
      obtain ⟨rfl, rfl⟩ := Prod.mk.inj (Except.ok.inj hlaunch)
      exact ⟨⟨sem, startingProcs, tod, hmin, hmax, hk⟩, rfl⟩

/-- The invariant of the kernel in the runs whose terminations meet no stale registration. -/
theorem ok_of_run
    {M : ℕ → Machine A} {e : ℕ → Entry A} {n : ℕ} {r₀ : Resumed A}
    (hlaunch : (M 0).Launched r₀) (hrun : IsRun (Step m) M e n)
    (hsafe : ∀ i < n, ∀ op ∈ (M i).operations (e i).toException, (M i).kernel.Safe op) :
    ∀ i ≤ n, (M i).kernel.Ok := by
  have hstep : ∀ (M : Machine A) (e : Entry A) (M' : Machine A), M.kernel.Ok →
      (∀ op ∈ M.operations e.toException, M.kernel.Safe op) → Step m M e M' →
      M'.kernel.Ok := by
    rintro M e M' h hsafe ⟨hidle, reply, r, henter⟩
    exact Ok.enter h hidle hsafe henter
  exact hrun.invariant_of hsafe hlaunch.booted.1.fresh.ok hstep

theorem sparing_of_run
    {M : ℕ → Machine A} {e : ℕ → Entry A} {n : ℕ} {r₀ : Resumed A}
    (hlaunch : (M 0).Launched r₀) (hrun : IsRun (Step m) M e n)
    (hspare : ∀ i < n, ∀ op ∈ (M i).operations (e i).toException,
      (M i).kernel.SparesDevices op) :
    ∀ i ≤ n, (M i).kernel.Sparing := by
  have hstep : ∀ (M : Machine A) (e : Entry A) (M' : Machine A), M.kernel.Sparing →
      (∀ op ∈ M.operations e.toException, M.kernel.SparesDevices op) → Step m M e M' →
      M'.kernel.Sparing := by
    rintro M e M' h hspare ⟨hidle, reply, r, henter⟩
    exact Sparing.enter h hidle hspare henter
  exact hrun.invariant_of hspare hlaunch.booted.1.fresh.sparing hstep

/-- The machine launched on uMPS with plain processes of the given priorities. -/
def launchMps (priorities : List Int) (clockTicks : Word) : Machine umps :=
  ⟨Kernel.bootMps priorities, .idle, 0, clockTicks, clockTicks, fun _ => State.reset⟩

theorem launchMps_launchedAt
    {priorities : List Int} (clockTicks : Word)
    (hpos : 1 ≤ priorities.length) (hmax : priorities.length ≤ MAXPROC) :
    (launchMps priorities clockTicks).LaunchedAt
      (.proc (Kernel.bootMps priorities).runningProc
        ((Kernel.bootMps priorities).pS (Kernel.bootMps priorities).runningProc)) (0, 0) := by
  obtain ⟨k, hboot, -⟩ := Kernel.boot_spec (A := umps) (fun _ => 0)
    (priorities.map Kernel.plainProc) (0, 0) (by simpa using hpos) (by simpa using hmax)
  refine ⟨fun _ => 0, priorities.map Kernel.plainProc, clockTicks, fun _ => State.reset,
    by simpa using hpos, by simpa using hmax, ?_⟩
  rw [bikayaLaunch_eq, launchMps, Kernel.bootMps, Kernel.bootMpsWith, hboot]
  rfl

theorem launchMps_launched
    {priorities : List Int} (clockTicks : Word)
    (hpos : 1 ≤ priorities.length) (hmax : priorities.length ≤ MAXPROC) :
    (launchMps priorities clockTicks).Launched
      (.proc (Kernel.bootMps priorities).runningProc
        ((Kernel.bootMps priorities).pS (Kernel.bootMps priorities).runningProc)) :=
  (launchMps_launchedAt clockTicks hpos hmax).launched

theorem bikayaLaunch_launchMps
    {priorities : List Int} (clockTicks : Word)
    (hpos : 1 ≤ priorities.length) (hmax : priorities.length ≤ MAXPROC) :
    bikayaLaunch (fun _ => 0) (priorities.map Kernel.plainProc) clockTicks (0, 0)
        (fun _ => State.reset) =
      .ok (launchMps priorities clockTicks,
        .proc (Kernel.bootMps priorities).runningProc
          ((Kernel.bootMps priorities).pS (Kernel.bootMps priorities).runningProc)) := by
  rw [bikayaLaunch_eq, Kernel.boot_bootMps hpos hmax]
  rfl

/-- A system call on uMPS, when the interval timer shows the given value. -/
def syscallMps (number arg1 arg2 arg3 timer : Word) : Entry umps where
  type := .SYS
  state
    | .cause => Mps.EXC_SYS <<< 2
    | .gpr 3 => number
    | .gpr 4 => arg1
    | .gpr 5 => arg2
    | .gpr 6 => arg3
    | _ => 0
  timer := timer
  todStart := 0
  todMid := 0
  todEnd := 0
  irq := ⟨fun _ => false, fun _ => 0, fun _ => 0⟩
  stateAt := fun _ => State.reset
  memory := fun _ => 0

/-- An interrupt on uMPS: the pending lines, and the devices of each line that are done. -/
def interruptMps (pending : Nat → Bool) (bitmap : Nat → Nat) : Entry umps where
  type := .INT
  state := State.reset
  timer := 0
  todStart := 0
  todMid := 0
  todEnd := 0
  irq := ⟨pending, bitmap, fun _ => 1⟩
  stateAt := fun _ => State.reset
  memory := fun _ => 0

end Machine

end Bikaya
