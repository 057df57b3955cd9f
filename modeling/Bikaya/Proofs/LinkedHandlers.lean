import Bikaya.Core.LinkedHandler
import Bikaya.Proofs.Contexts
import Bikaya.Proofs.LinkedRuns

/-!
# Bikaya: exceptions on the links

The handlers of the kernel on its links and of the kernel on lists leave the same processor
running: the same process, with the same state, or the same passup areas, and the same
reply to a syscall.  So nothing that user code can see tells a run on the links from the
run on lists.

**Plan.**  `Represents` is carried from the kernels to the machines around them, whose
other fields are equal.  `Alike` is the agreement of two outcomes: related machines, and
the same reply and resumed state.  A handler is put together from routines that agree, so
that most of the proofs follow the text of the handlers.

**Results.**
* `consumeSyscall_agrees`: the system calls.
* `handle_agrees`, `enter_agrees`: one exception, and one entry with the writes of user
  code before it.
* `links_unobservable`: every run of the machine on lists is one of the machine on links,
  with the same replies and the same resumed states.
-/

namespace Bikaya

open Lockstep TransitionSystem

namespace Kernel

variable {A : Arch}

/-- The operation can occur, and removes no process with a stale device registration. -/
def Proper (k : Kernel A) (op : Operation A) : Prop :=
  k.Admissible op ∧ k.Undamaging op

end Kernel

namespace LinkedKernel

variable {A : Arch} {i : IntModel} {l : LinkedKernel A} {k : Kernel A}

section Interrupts

/-- The links represent lists that have the invariant. -/
def Follows (l : LinkedKernel A) (k : Kernel A) : Prop :=
  l.Represents k ∧ k.Ok

theorem Follows.doneIo (h : l.Follows k) (d : Dev) (status : Word) :
    Agree Follows (l.doneIo i d status) (.ok (k.doneIo i d status)) := by
  obtain ⟨l₁, heq, hl₁⟩ := (doneIo_agrees (i := i) h.1 h.2 d status).of_ok
  rw [heq]
  exact Agree.ok ⟨hl₁, h.2.doneIo d status⟩

theorem Follows.consumeLine (h : l.Follows k) (irq : Irq) (line : ℕ) :
    Agree Follows (l.consumeLine i irq line) (.ok (k.consumeLine i irq line)) := by
  unfold LinkedKernel.consumeLine Kernel.consumeLine
  by_cases hpending : irq.pending line = true
  · rw [if_pos hpending, if_pos hpending]
    cases Kernel.lineType line with
    | none =>
        exact Agree.ok h
    | some t =>
        exact Agree.foldl (fun _ _ n hab => hab.doneIo ⟨t, n⟩ (irq.status ⟨t, n⟩)) _ h
  · rw [if_neg hpending, if_neg hpending]
    exact Agree.ok h

theorem Follows.consumeSubdev (h : l.Follows k) (irq : Irq) (d : Dev) :
    Agree Follows (l.consumeSubdev i irq d) (.ok (k.consumeSubdev i irq d)) := by
  unfold LinkedKernel.consumeSubdev Kernel.consumeSubdev
  split_ifs
  · exact h.doneIo d (irq.status d)
  · exact Agree.ok h

theorem Follows.consumeTerminal (h : l.Follows k) (irq : Irq) (n : Fin 8) :
    Agree Follows (l.consumeTerminal i irq n)
      (.ok ((k.consumeSubdev i irq ⟨.TERM_RX, n⟩).consumeSubdev i irq ⟨.TERM_TX, n⟩)) :=
  (h.consumeSubdev irq ⟨.TERM_RX, n⟩).bind_left
    (fun _ hrx => hrx.consumeSubdev irq ⟨.TERM_TX, n⟩)

theorem Follows.consumeTimer (h : l.Follows k) (irq : Irq) :
    Agree Follows (l.consumeTimer i irq)
      (.ok (if irq.pending IL_TIMER then k.timeSliceCallback i else k)) := by
  unfold LinkedKernel.consumeTimer
  split_ifs
  · obtain ⟨l₁, heq, hl₁⟩ := (timeSlice_agrees (i := i) h.1 h.2).of_ok
    rw [heq]
    exact Agree.ok ⟨hl₁, h.2.timeSlice⟩
  · exact Agree.ok h

/-- The interrupts of one entry. -/
theorem Follows.consumeInterrupts (h : l.Follows k) (irq : Irq) :
    Agree Follows (l.consumeInterrupts i irq) (.ok (k.consumeInterrupts i irq)) := by
  unfold LinkedKernel.consumeInterrupts Kernel.consumeInterrupts
  refine (h.consumeTimer irq).bind_left (fun l₁ hl₁ => ?_)
  refine (Agree.foldl (fun _ _ line hab => hab.consumeLine irq line) [3, 4, 5, 6] hl₁).bind_left
    (fun l₂ hl₂ => ?_)
  by_cases hterminal : irq.pending IL_TERMINAL = true
  · simp only [if_pos hterminal]
    exact Agree.foldl (fun _ _ n hab => hab.consumeTerminal irq n) _ hl₂
  · simp only [if_neg hterminal]
    exact Agree.ok hl₂

end Interrupts

section Syscalls

theorem flushUserTime_represents (h : l.Represents k) (tod : Word) (p : Proc) :
    (l.flushUserTime tod p).Represents (k.flushUserTime tod p) := by
  obtain ⟨next, prev, rfl, h⟩ := h
  exact ⟨next, prev, rfl, h⟩

theorem isPassupSet_represents (h : l.Represents k) (t : ExcType) (p : Proc) :
    l.isPassupSet t p = k.isPassupSet t p := by
  obtain ⟨next, prev, rfl, -⟩ := h
  rfl

/-- A termination that a handler asks for. -/
theorem terminate_agrees
    {p : Option Proc} (h : l.Represents k) (hok : k.Ok)
    (hproper : k.Proper (.terminateProcess p)) :
    Agree (fun a b => a.1 = b.1 ∧ a.2.Represents b.2) (l.terminateProc p)
      (k.terminateProc p) :=
  terminateProc_agrees h hok (hok.target_live (fun _ => hproper.1.1) hproper.1.2) hproper.2

/-- SPECPASSUP: the areas are set, or the caller is terminated. -/
theorem specPassup_agrees
    {arg1 : Word} (h : l.Represents k) (hok : k.Ok)
    (hproper : k.SpecTaken arg1 → k.Proper (.terminateProcess (some k.runningProc)))
    (arg2 arg3 : Word) :
    Agree Represents (l.specPassup arg1 arg2 arg3) (k.specPassup arg1 arg2 arg3) := by
  have hareas : l.specAreas = k.specAreas := by
    obtain ⟨next, prev, rfl, -⟩ := h
    rfl
  unfold specPassup Kernel.specPassup
  unfold Kernel.SpecTaken at hproper
  simp only [hareas, h.runningProc_eq]
  cases hold : specIndex (specTypeCode arg1 * 2 + OLD) with
  | error err =>
      exact Agree.error err
  | ok old =>
      cases hnew : specIndex (specTypeCode arg1 * 2 + NEW) with
      | error err =>
          exact Agree.error err
      | ok new =>
          simp only [hold, hnew] at hproper
          simp only [ok_bind]
          by_cases hfree : k.specAreas k.runningProc new = 0 ∧ k.specAreas k.runningProc old = 0
          · rw [if_pos hfree, if_pos hfree]
            obtain ⟨next, prev, rfl, hlinks⟩ := h
            exact Agree.ok ⟨next, prev, rfl, hlinks⟩
          · rw [if_neg hfree, if_neg hfree]
            exact (terminate_agrees h hok (hproper hfree)).map (fun _ _ hab => hab.2)

/-- The same is served: the kernel, the old area and the reply. -/
def ServedAlike (a : LinkedServed A) (b : Served A) : Prop :=
  a.kernel.Represents b.kernel ∧ a.state = b.state ∧ a.reply = b.reply

/-- Every syscall serves the same, or stops for the same reason. -/
theorem consumeSyscall_agrees
    {st : State A} {stateAt : Word → State A} {tod : Word} (h : l.Represents k) (hok : k.Ok)
    (hproper : ∀ op ∈ k.syscallOps st stateAt tod, k.Proper op) (interrupted : Proc) :
    Agree ServedAlike (l.consumeSyscall i st interrupted stateAt tod)
      (k.consumeSyscall i st interrupted stateAt tod) := by
  unfold consumeSyscall Kernel.consumeSyscall
  unfold Kernel.syscallOps at hproper
  simp only
  generalize (st A.sysN).toNat = number at hproper ⊢
  rcases number with _ | _ | _ | _ | _ | _ | _ | _ | _ | number
  · exact Agree.error _
  · -- GETCPUTIME
    obtain ⟨next, prev, rfl, hlinks⟩ := h
    exact Agree.ok ⟨⟨next, prev, rfl, hlinks⟩, rfl, rfl⟩
  · -- CREATEPROCESS
    refine (createProcess_agrees h hok _ _).bind ?_
    rintro ⟨created, l₁⟩ ⟨created', k₁⟩ ⟨rfl, hl₁⟩
    exact Agree.ok ⟨hl₁, rfl, rfl⟩
  · -- TERMINATEPROCESS
    cases harg : A.procArg (st A.arg1) with
    | error err =>
        exact Agree.error err
    | ok target =>
        rw [harg] at hproper
        refine (terminate_agrees h hok (hproper _ (List.mem_singleton_self _))).bind ?_
        rintro ⟨ret, l₁⟩ ⟨ret', k₁⟩ ⟨rfl, hl₁⟩
        exact Agree.ok ⟨hl₁, rfl, rfl⟩
  · -- VERHOGEN
    cases semArg (st A.arg1) with
    | error err =>
        exact Agree.error err
    | ok semaddr =>
        exact (v_agrees h hok semaddr).bind_left (fun _ hl₁ => Agree.ok ⟨hl₁, rfl, rfl⟩)
  · -- PASSEREN
    cases semArg (st A.arg1) with
    | error err =>
        exact Agree.error err
    | ok semaddr =>
        exact (p_agrees h hok semaddr tod).bind (fun _ _ hl₁ => Agree.ok ⟨hl₁, rfl, rfl⟩)
  · -- WAITIO
    exact (waitIo_agrees h hok _ _ _ tod).bind (fun _ _ hl₁ => Agree.ok ⟨hl₁, rfl, rfl⟩)
  · -- SPECPASSUP
    refine (specPassup_agrees h hok (fun htaken => ?_) _ _).bind
      (fun _ _ hl₁ => Agree.ok ⟨hl₁, rfl, rfl⟩)
    rw [if_pos htaken] at hproper
    exact hproper _ (List.mem_singleton_self _)
  · -- GETPID
    obtain ⟨next, prev, rfl, hlinks⟩ := h
    exact Agree.ok ⟨⟨next, prev, rfl, hlinks⟩, rfl, rfl⟩
  · exact Agree.error _

end Syscalls

end LinkedKernel

namespace LinkedMachine

variable {A : Arch} {i : IntModel} {N : LinkedMachine A} {M : Machine A}
variable {l : LinkedKernel A} {k : Kernel A}

/-- The static storage of `handler.c` and the hardware of `M`, around another kernel. -/
def around (M : Machine A) (l : LinkedKernel A) : LinkedMachine A where
  kernel := l
  interruptedProc := M.interruptedProc
  intTimerCache := M.intTimerCache
  intervalTimer := M.intervalTimer
  clockTicksPerTimeSlice := M.clockTicksPerTimeSlice
  oldArea := M.oldArea

/-- The kernel represents that of `M`, and everything else is the same. -/
def Represents (N : LinkedMachine A) (M : Machine A) : Prop :=
  ∃ l, l.Represents M.kernel ∧ N = around M l

/-- The machines represent each other, and what they put out is the same. -/
def Alike {O : Type} (a : LinkedMachine A × O) (b : Machine A × O) : Prop :=
  a.1.Represents b.1 ∧ a.2 = b.2

section Handlers

theorem withKernel_represents (h : N.Represents M) (hl : l.Represents k) :
    { N with kernel := l }.Represents { M with kernel := k } := by
  obtain ⟨l₀, -, rfl⟩ := h
  exact ⟨l, hl, rfl⟩

theorem setArea_represents (h : N.Represents M) (t : ExcType) (s : State A) :
    (N.setArea t s).Represents (M.setArea t s) := by
  obtain ⟨l₀, hl₀, rfl⟩ := h
  exact ⟨l₀, hl₀, rfl⟩

theorem startHandler_represents (h : N.Represents M) (timer tod : Word) :
    (N.startHandler timer tod).Represents (M.startHandler timer tod) := by
  obtain ⟨l₀, hl₀, rfl⟩ := h
  have hrun := hl₀.runningProc_eq
  refine ⟨l₀.flushUserTime tod l₀.runningProc, ?_, ?_⟩
  · rw [hrun]
    exact LinkedKernel.flushUserTime_represents hl₀ tod _
  · simp only [startHandler, around, Machine.startHandler, hrun]
    rfl

theorem userWrites_represents (h : N.Represents M) (memory : SemAddr → Int) :
    (N.userWrites memory).Represents (M.userWrites memory) := by
  obtain ⟨l₀, ⟨next, prev, rfl, hlinks⟩, rfl⟩ := h
  exact ⟨_, ⟨next, prev, rfl, hlinks⟩, rfl⟩

theorem kernel_represents (h : N.Represents M) : N.kernel.Represents M.kernel := by
  obtain ⟨l₀, hl₀, rfl⟩ := h
  exact hl₀

/-- A machine without its kernel. -/
theorem Represents.storage (h : N.Represents M) :
    N.interruptedProc = M.interruptedProc ∧ N.oldArea = M.oldArea ∧
      N.kernel.runningProc = M.kernel.runningProc := by
  obtain ⟨l₀, hl₀, rfl⟩ := h
  exact ⟨rfl, rfl, hl₀.runningProc_eq⟩

/-- `conclude_handler` resumes the same process, with the same state. -/
theorem concludeHandler_alike (h : N.Represents M) (t : ExcType) (tod : Word) :
    Alike (N.concludeHandler t tod) (M.concludeHandler t tod) := by
  obtain ⟨hinterrupted, -, hrun⟩ := h.storage
  unfold concludeHandler Machine.concludeHandler
  by_cases hother : M.interruptedProc ≠ M.kernel.runningProc
  · have hother' : N.interruptedProc ≠ N.kernel.runningProc := by
      rwa [hinterrupted, hrun]
    by_cases hidle : M.interruptedProc ≠ .idle
    · have hidle' : N.interruptedProc ≠ .idle := by
        rwa [hinterrupted]
      simp only [if_pos hother, if_pos hother', if_pos hidle, if_pos hidle']
      obtain ⟨l₀, ⟨next, prev, rfl, hlinks⟩, rfl⟩ := h
      exact ⟨⟨_, ⟨next, prev, rfl, hlinks⟩, rfl⟩, rfl⟩
    · have hidle' : ¬ N.interruptedProc ≠ .idle := by
        rwa [hinterrupted]
      simp only [if_pos hother, if_pos hother', if_neg hidle, if_neg hidle']
      obtain ⟨l₀, ⟨next, prev, rfl, hlinks⟩, rfl⟩ := h
      exact ⟨⟨_, ⟨next, prev, rfl, hlinks⟩, rfl⟩, rfl⟩
  · have hother' : ¬ N.interruptedProc ≠ N.kernel.runningProc := by
      rwa [hinterrupted, hrun]
    simp only [if_neg hother, if_neg hother']
    obtain ⟨l₀, ⟨next, prev, rfl, hlinks⟩, rfl⟩ := h
    exact ⟨⟨_, ⟨next, prev, rfl, hlinks⟩, rfl⟩, rfl⟩

/-- `launch_spec_area` loads the same area. -/
theorem launchSpecArea_alike (h : N.Represents M) (t : ExcType) :
    Alike (N.launchSpecArea t) (M.launchSpecArea t) := by
  obtain ⟨l₀, ⟨next, prev, rfl, hlinks⟩, rfl⟩ := h
  exact ⟨⟨_, ⟨next, prev, rfl, hlinks⟩, rfl⟩, rfl⟩

/-- A reply is added to what a handler leaves running. -/
theorem Alike.reply
    {a : LinkedMachine A × Resumed A} {b : Machine A × Resumed A} (h : Alike a b)
    {reply reply' : Reply} (hreply : reply = reply') :
    Alike (a.1, reply, a.2) (b.1, reply', b.2) :=
  ⟨h.1, Prod.ext hreply h.2⟩

/-- `handle_interrupt`. -/
theorem handleInterrupt_agrees (h : N.Represents M) (hok : M.kernel.Ok) (e : Exception A) :
    Agree Alike (N.handleInterrupt i e) (.ok (M.handleInterrupt i e)) := by
  have hsame := h.storage.2.1
  unfold handleInterrupt Machine.handleInterrupt
  have hset := setArea_represents h .INT (M.oldArea .INT).afterInterrupt
  simp only [hsame]
  refine (LinkedKernel.Follows.consumeInterrupts ⟨kernel_represents hset, hok⟩ e.irq).bind_left
    (fun l₁ hl₁ => Agree.ok ?_)
  exact concludeHandler_alike (withKernel_represents hset hl₁.1) .INT e.todEnd

/-- `handle_TLB` and `handle_trap`. -/
theorem handleFault_agrees
    {t : ExcType} (h : N.Represents M) (hok : M.kernel.Ok)
    (hproper : M.kernel.isPassupSet t M.kernel.runningProc = false →
      M.kernel.Proper (.terminateProcess (some M.kernel.runningProc)))
    (e : Exception A) :
    Agree Alike (N.handleFault t e) (M.handleFault t e) := by
  obtain ⟨-, -, hrun⟩ := h.storage
  unfold handleFault Machine.handleFault
  rw [hrun, LinkedKernel.isPassupSet_represents (kernel_represents h)]
  cases hset : M.kernel.isPassupSet t M.kernel.runningProc with
  | true =>
      exact Agree.ok (launchSpecArea_alike h t)
  | false =>
      simp only [Bool.false_eq_true, if_false]
      refine (LinkedKernel.terminate_agrees (kernel_represents h) hok (hproper hset)).bind ?_
      rintro ⟨ret, l₁⟩ ⟨ret', k₁⟩ ⟨-, hl₁⟩
      exact Agree.ok (concludeHandler_alike (withKernel_represents h hl₁) t e.todEnd)

/-- `handle_sysbreak`, once the program counter is adjusted. -/
theorem handleSysbreak_agrees
    {e : Exception A} (h : N.Represents M) (hok : M.kernel.Ok)
    (hrun : M.interruptedProc = M.kernel.runningProc)
    (hkill : A.getExccode (M.oldArea .SYS).afterSysbreak = .E_SYS →
      ((M.oldArea .SYS).afterSysbreak A.sysN).toNat > SYSTEM_SYSCALL_MAX →
      M.kernel.isPassupSet .SYS M.kernel.runningProc = false →
      M.kernel.Proper (.terminateProcess (some M.kernel.runningProc)))
    (hserve : A.getExccode (M.oldArea .SYS).afterSysbreak = .E_SYS →
      ¬ ((M.oldArea .SYS).afterSysbreak A.sysN).toNat > SYSTEM_SYSCALL_MAX →
      ∀ op ∈ M.kernel.syscallOps (M.oldArea .SYS).afterSysbreak e.stateAt e.todMid,
        M.kernel.Proper op) :
    Agree Alike (N.handleSysbreak i e) (M.handleSysbreak i e) := by
  obtain ⟨l₀, hl₀, rfl⟩ := h
  have hset : ((around M l₀).setArea .SYS (M.oldArea .SYS).afterSysbreak).Represents
      (M.setArea .SYS (M.oldArea .SYS).afterSysbreak) := ⟨l₀, hl₀, rfl⟩
  have hst : (M.setArea .SYS (M.oldArea .SYS).afterSysbreak).oldArea .SYS =
      (M.oldArea .SYS).afterSysbreak := by
    simp only [Machine.setArea, Function.update_self]
  have hst' : ((around M l₀).setArea .SYS ((around M l₀).oldArea .SYS).afterSysbreak).oldArea
      .SYS = (M.oldArea .SYS).afterSysbreak := by
    simp only [setArea, around, Function.update_self]
  have hpassup := LinkedKernel.isPassupSet_represents hl₀ .SYS M.interruptedProc
  rw [← hrun] at hkill
  unfold handleSysbreak Machine.handleSysbreak
  simp only [hst, hst']
  cases hcode : A.getExccode (M.oldArea .SYS).afterSysbreak with
  | E_OTHER =>
      exact Agree.error _
  | E_BP =>
      change Agree Alike (if l₀.isPassupSet .SYS M.interruptedProc = true then _ else _)
        (if M.kernel.isPassupSet .SYS M.interruptedProc = true then _ else _)
      rw [hpassup]
      split_ifs
      · exact Agree.ok ((launchSpecArea_alike hset .SYS).reply rfl)
      · exact Agree.error _
  | E_SYS =>
      by_cases hnum : ((M.oldArea .SYS).afterSysbreak A.sysN).toNat > SYSTEM_SYSCALL_MAX
      · simp only [if_pos hnum]
        change Agree Alike (if l₀.isPassupSet .SYS M.interruptedProc = true then _ else _)
          (if M.kernel.isPassupSet .SYS M.interruptedProc = true then _ else _)
        rw [hpassup]
        cases hup : M.kernel.isPassupSet .SYS M.interruptedProc with
        | true =>
            have hflush := LinkedKernel.flushKernelTime_represents hl₀ e.todMid M.interruptedProc
            exact Agree.ok ((launchSpecArea_alike (withKernel_represents hset hflush) .SYS).reply
              rfl)
        | false =>
            refine (LinkedKernel.terminate_agrees hl₀ hok (hkill hcode hnum hup)).bind ?_
            rintro ⟨ret, l₁⟩ ⟨ret', k₁⟩ ⟨-, hl₁⟩
            exact Agree.ok ((concludeHandler_alike (withKernel_represents hset hl₁) .SYS
              e.todEnd).reply rfl)
      · simp only [if_neg hnum]
        refine (LinkedKernel.consumeSyscall_agrees hl₀ hok (hserve hcode hnum)
          M.interruptedProc).bind ?_
        rintro ⟨l₁, st, reply⟩ ⟨k₁, st', reply'⟩ ⟨hl₁, rfl, rfl⟩
        have hdone := setArea_represents (withKernel_represents hset hl₁) .SYS st
        exact Agree.ok ((concludeHandler_alike hdone .SYS e.todEnd).reply rfl)

/-- Every exception: the same processor state is loaded, and the same is replied. -/
theorem handle_agrees
    {e : Exception A} (h : N.Represents M) (hok : M.kernel.Ok)
    (hproper : ∀ op ∈ M.operations e, (M.startKernel e).Proper op) :
    Agree Alike (N.handle i e) (M.handle i e) := by
  have hstart : ((N.setArea e.type e.state).startHandler e.timer e.todStart).Represents
      (M.concluding e (M.startKernel e) e.state) := by
    rw [← Machine.started_eq]
    exact startHandler_represents (setArea_represents h e.type e.state) e.timer e.todStart
  have harea : (M.concluding e (M.startKernel e) e.state).oldArea e.type = e.state :=
    Machine.concluding_area _ _
  have hok' : (M.startKernel e).Ok := ⟨hok.residence, hok.tree, hok.idle, hok.running⟩
  unfold handle Machine.handle
  rw [Machine.started_eq]
  generalize (N.setArea e.type e.state).startHandler e.timer e.todStart = N₁ at hstart ⊢
  generalize hM₁ : M.concluding e (M.startKernel e) e.state = M₁ at hstart harea ⊢
  have hkernel : M₁.kernel = M.startKernel e := by
    rw [← hM₁]
    rfl
  have hrun : M₁.interruptedProc = M₁.kernel.runningProc := by
    rw [← hM₁]
    rfl
  have hkill : ∀ t, e.unserved = some t →
      M₁.kernel.isPassupSet t M₁.kernel.runningProc = false →
      M₁.kernel.Proper (.terminateProcess (some M₁.kernel.runningProc)) := by
    intro t ht hup
    rw [hkernel] at hup ⊢
    have hup : M.kernel.isPassupSet t M.kernel.runningProc = false := hup
    refine hproper _ ?_
    rw [Machine.operations_unserved ht, hup, if_neg Bool.false_ne_true]
    exact List.mem_singleton_self _
  rw [← hkernel] at hok' hproper
  cases htype : e.type with
  | INT =>
      exact (handleInterrupt_agrees hstart hok' e).map (fun _ _ hab => hab.reply rfl)
  | PRG =>
      have hunserved : e.unserved = some .PRG := by simp only [Exception.unserved, htype]
      exact (handleFault_agrees hstart hok' (hkill .PRG hunserved) e).map
        (fun _ _ hab => hab.reply rfl)
  | TLB =>
      have hunserved : e.unserved = some .TLB := by simp only [Exception.unserved, htype]
      exact (handleFault_agrees hstart hok' (hkill .TLB hunserved) e).map
        (fun _ _ hab => hab.reply rfl)
  | SYS =>
      have hadjusted : (M₁.oldArea .SYS).afterSysbreak = e.adjusted := by
        simp only [Exception.adjusted, htype, ← harea]
      have hsyscall : A.getExccode e.adjusted = .E_SYS →
          e.syscall = some (e.adjusted A.sysN).toNat := by
        intro hcode
        simp only [Exception.syscall, htype, hcode, if_true]
      refine handleSysbreak_agrees hstart hok' hrun ?_ ?_
      · rw [hadjusted]
        intro hcode hnum
        refine hkill .SYS ?_
        simp only [Exception.unserved, htype, hsyscall hcode, if_pos hnum]
      · rw [hadjusted]
        intro hcode hnum op hop
        refine hproper op ?_
        simp only [Machine.operations, htype, hsyscall hcode, if_neg hnum]
        rw [hkernel] at hop
        exact hop

/-- User code runs, and then an exception is raised. -/
theorem enter_agrees
    {e : Entry A} (h : N.Represents M) (hok : M.kernel.Ok)
    (hproper : ∀ op ∈ M.operations e.toException, (M.started e).Proper op) :
    Agree Alike (N.enter i e) (M.enter i e) := by
  refine handle_agrees (userWrites_represents h e.memory) ?_ ?_
  · exact ⟨hok.residence, hok.tree, hok.idle, hok.running⟩
  · rw [Machine.operations_userWrites]
    exact hproper

end Handlers

section Runs

open Machine

/-- The step relation of the machine on its links. -/
def Step (i : IntModel) (N : LinkedMachine A) (e : Entry A) (N' : LinkedMachine A) : Prop :=
  ∃ reply r, N.enter i e = .ok (N', reply, r)

variable {sem : SemAddr → Int} {startingProcs : List ProcInitData}
variable {clockTicks : Word} {tod : Word × Word}
variable {areas : ExcType → State A}

/-- The launch: the same processor state is loaded first, or both stop alike. -/
theorem bikayaLaunch_agrees
    (sem : SemAddr → Int) (startingProcs : List ProcInitData) (clockTicks : Word)
    (tod : Word × Word) (areas : ExcType → State A) :
    Agree Alike (bikayaLaunch sem startingProcs clockTicks tod areas)
      (Machine.bikayaLaunch sem startingProcs clockTicks tod areas) := by
  refine (LinkedKernel.initScheduler_agrees sem startingProcs).bind (fun l₁ k₁ hl₁ => ?_)
  refine (LinkedKernel.launch_agrees hl₁ tod).bind (fun l₂ k₂ hl₂ => ?_)
  obtain ⟨next, prev, rfl, hlinks⟩ := hl₂
  exact Agree.ok ⟨⟨_, ⟨next, prev, rfl, hlinks⟩, rfl⟩, rfl⟩

/-- The operations of an entry that returns were possible. -/
theorem proper_of_enter
    {M' : Machine A} {e : Entry A} {reply : Reply} {r : Resumed A} (hok : M.kernel.Ok)
    (hidle : M.kernel.runningProc = .idle → e.type = .INT)
    (hsafe : ∀ op ∈ M.operations e.toException, M.kernel.Safe op)
    (henter : M.enter i e = .ok (M', reply, r)) :
    ∀ op ∈ M.operations e.toException, (M.started e).Proper op := by
  intro op hop
  have hsound : (M.started e).Undamaging op :=
    (Safe.of_started (hsafe op hop)).undamaging (started_ok hok)
  obtain ⟨k, hentered⟩ := enter_spec henter
  cases hentered.executes with
  | interrupt htype _ =>
      simp only [operations, htype] at hop
      have hint := interrupt_of_mem hop
      refine ⟨?_, hsound⟩
      cases op <;> first | exact trivial | exact absurd hint id
  | nothing _ hnil _ _ =>
      rw [hnil] at hop
      exact absurd hop List.not_mem_nil
  | operation htype hops _ hexec =>
      rename_i op'
      rw [hops] at hop
      obtain rfl := List.mem_singleton.mp hop
      have hrun : M.kernel.runningProc ≠ .idle := fun hrun => htype (hidle hrun)
      have hstep := (started_ok hok).step_of_exec hrun
        (Safe.of_started (hsafe op (hops ▸ List.mem_singleton_self op))) hexec
      exact ⟨hstep.1, hsound⟩

/--
User code cannot tell the links from the lists.  From the launch on, the machine on its
links loads the same processor state and gives the same reply at every entry, and at the
next entry, if nothing stale is removed, it does again or stops for the same reason.
-/
theorem links_unobservable
    {M : ℕ → Machine A} {e : ℕ → Entry A} {n : ℕ} {r₀ : Resumed A}
    (hlaunch : Machine.bikayaLaunch sem startingProcs clockTicks tod areas = .ok (M 0, r₀))
    (hrun : IsRun (Machine.Step i) M e n)
    (hsafe : ∀ j < n, ∀ op ∈ (M j).operations (e j).toException, (M j).kernel.Safe op) :
    ∃ N : ℕ → LinkedMachine A,
      bikayaLaunch sem startingProcs clockTicks tod areas = .ok (N 0, r₀) ∧
      (∀ j < n, ∃ reply r, (M j).enter i (e j) = .ok (M (j + 1), reply, r) ∧
        (N j).enter i (e j) = .ok (N (j + 1), reply, r)) ∧
      (∀ j ≤ n, (N j).Represents (M j)) ∧
      ∀ e', (∀ op ∈ (M n).operations e'.toException, ((M n).started e').Proper op) →
        Agree Alike ((N n).enter i e') ((M n).enter i e') := by
  have hbooted : (M 0).kernel.Booted := by
    rw [bikayaLaunch_eq] at hlaunch
    cases hboot : (Kernel.boot sem startingProcs tod : Except Halt (Kernel A)) with
    | error err =>
        rw [hboot] at hlaunch
        exact absurd hlaunch (by simp [Except.map])
    | ok k =>
        rw [hboot] at hlaunch
        obtain ⟨hM, -⟩ := Prod.mk.inj (Except.ok.inj hlaunch)
        rw [← hM]
        exact Kernel.booted_of_boot hboot
  have hkeep : ∀ (M : Machine A) (e : Entry A) (M' : Machine A), M.kernel.Ok →
      (∀ op ∈ M.operations e.toException, M.kernel.Safe op) → Machine.Step i M e M' →
      M'.kernel.Ok := by
    rintro M e M' hok hsafe ⟨hidle, reply, r, henter⟩
    exact Ok.enter hok hidle hsafe henter
  have hOk : ∀ j ≤ n, (M j).kernel.Ok := hrun.invariant_of hsafe hbooted.fresh.ok hkeep
  have hfollow : ∀ (N : LinkedMachine A) (M : Machine A) (e : Entry A) (M' : Machine A),
      N.Represents M → M.kernel.Ok →
      (∀ op ∈ M.operations e.toException, M.kernel.Safe op) → Machine.Step i M e M' →
      ∃ N', Step i N e N' ∧ N'.Represents M' := by
    rintro N M e M' hN hok hsafe ⟨hidle, reply, r, henter⟩
    have hagree := enter_agrees (i := i) hN hok (proper_of_enter hok hidle hsafe henter)
    rw [henter] at hagree
    obtain ⟨⟨N', out⟩, heq, hN', -⟩ := hagree.of_ok
    exact ⟨N', ⟨out.1, out.2, heq⟩, hN'⟩
  have hfirst := bikayaLaunch_agrees (A := A) sem startingProcs clockTicks tod areas
  rw [hlaunch] at hfirst
  obtain ⟨⟨N₀, r⟩, hlaunch', hN₀, hr⟩ := hfirst.of_ok
  obtain rfl : r = r₀ := hr
  obtain ⟨N, rfl, hrun', hN⟩ := follows_run hrun hsafe hbooted.fresh.ok hkeep hfollow hN₀
  refine ⟨N, hlaunch', fun j hj => ?_, hN, fun e' hproper =>
    enter_agrees (hN n le_rfl) (hOk n le_rfl) hproper⟩
  obtain ⟨hidle, reply, r, henter⟩ := hrun j hj
  refine ⟨reply, r, henter, ?_⟩
  -- the linked machine has one outcome only, and it is the same one
  have hagree := enter_agrees (i := i) (hN j hj.le) (hOk j hj.le)
    (proper_of_enter (hOk j hj.le) hidle (hsafe j hj) henter)
  rw [henter] at hagree
  obtain ⟨reply', r', henter'⟩ := hrun' j hj
  rw [henter'] at hagree
  have hout : (reply', r') = (reply, r) := (Agree.ok_iff.mp hagree).2
  rw [henter', hout]

/-- Two processes use the printer, and the first one is done. -/
theorem links_unobservable_printerEntries :
    ∃ N : ℕ → LinkedMachine umps, ∀ j < 3, ∃ reply r,
      (printerRun j).enter .int32 (printerEntry j) = .ok (printerRun (j + 1), reply, r) ∧
      (N j).enter .int32 (printerEntry j) = .ok (N (j + 1), reply, r) := by
  obtain ⟨N, -, hsame, -⟩ :=
    links_unobservable (bikayaLaunch_launchMps 1000 (by decide) (by decide))
      printerEntries_isRun (fun j hj => safe_of_not_terminates (by
        interval_cases j <;> decide +kernel))
  exact ⟨N, hsame⟩

end Runs

end LinkedMachine

end Bikaya
