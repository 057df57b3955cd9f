import Bikaya.Library.Lockstep
import Bikaya.Proofs.Handlers
import Bikaya.Proofs.MemoryStates

/-!
# Bikaya: exceptions on the memory

Each handler does on the bytes of the memory what it does on the machine: the states that
it copies, clears and adjusts through their addresses are those of the machine, the state
given to `LDST` is the one the process is resumed with, and user memory changes only where
the handler was told to write.

**Plan.**  The handlers on the memory are those of the machine whose states are read from
it (`reading`), so that what is left to prove is that a write through an address is the
assignment of one state.  `Shows` is kept by every such write.  A pointer of user code is
taken as it comes; `Proper` says that it does not point into the states of the kernel.

**Results.**
* `Shows.consumeInterrupts`, `Shows.consumeSyscall`: the work of the handlers.
* `Shows.concludeHandler`, `Shows.launchSpecArea`: their ends, with the address for `LDST`.
* `enter_agrees`: one entry, with the frame of user memory.
-/

namespace Bikaya

open ByteMemory Lockstep

namespace MemoryMachine

open Mps

variable {L : Linkage} {order : ByteOrder} {i : IntModel}
variable {X : MemoryMachine L order} {M : Machine L.arch} {user : Ram}

section Interrupts

theorem Shows.respond (h : X.Shows M user) (done : Proc) (status : Word) :
    (X.respond done status).Shows { M with kernel := M.kernel.respond done status } user := by
  have h₁ := h.onKernel (f := fun k =>
    { k with devWList := Function.update k.devWList done none }) rfl
  have h₂ := h₁.onKernel (f := fun k => k.scheduleProc done) (Kernel.scheduleProc_pS _ done)
  exact h₂.set_pcb (implements_storeReg (.gpr 1) status)

theorem Shows.doneIo (h : X.Shows M user) (d : Dev) (status : Word) :
    (X.doneIo i d status).Shows { M with kernel := M.kernel.doneIo i d status } user := by
  have hmachine := h.machine
  unfold MemoryMachine.doneIo Kernel.doneIo
  rw [hmachine]
  cases M.kernel.wForRes d with
  | none =>
      exact h.onKernel (f := fun k => { k with okbuf := k.okbuf ++ [Kernel.unexpectedInterrupt] })
        rfl
  | some res =>
      have h₁ := h.onKernel (f := fun k => (k.removeBlocked (.dev d)).2)
        (Kernel.removeBlocked_pS _ _)
      simp only
      by_cases hdone : (M.kernel.removeBlocked (.dev d)).1 = some res
      · rw [if_pos hdone, if_pos hdone]
        exact (h₁.respond res status).onKernel
          (f := fun k => k.nextCommand i d (k.headBlocked (.dev d))) (Kernel.nextCommand_pS _ _ _)
      · rw [if_neg hdone, if_neg hdone]
        exact h₁.onKernel (f := fun k => k.nextCommand i d (k.headBlocked (.dev d)))
          (Kernel.nextCommand_pS _ _ _)

/-- A scan that handles its devices one after the other. -/
theorem Shows.foldl
    {ι : Type} {f : MemoryMachine L order → ι → MemoryMachine L order}
    {g : Kernel L.arch → ι → Kernel L.arch}
    (hfg : ∀ X M j, X.Shows M user → (f X j).Shows { M with kernel := g M.kernel j } user)
    (l : List ι) (h : X.Shows M user) :
    (l.foldl f X).Shows { M with kernel := l.foldl g M.kernel } user := by
  induction l generalizing X M with
  | nil =>
      exact h
  | cons j l ih =>
      exact ih (hfg X M j h)

theorem Shows.consumeLine (h : X.Shows M user) (irq : Irq) (line : ℕ) :
    (X.consumeLine i irq line).Shows { M with kernel := M.kernel.consumeLine i irq line } user := by
  unfold MemoryMachine.consumeLine Kernel.consumeLine
  by_cases hpending : irq.pending line = true
  · rw [if_pos hpending, if_pos hpending]
    cases Kernel.lineType line with
    | none =>
        exact h
    | some t =>
        exact Shows.foldl (fun _ _ n hX => hX.doneIo ⟨t, n⟩ (irq.status ⟨t, n⟩)) _ h
  · rw [if_neg hpending, if_neg hpending]
    exact h

theorem Shows.consumeSubdev (h : X.Shows M user) (irq : Irq) (d : Dev) :
    (X.consumeSubdev i irq d).Shows { M with kernel := M.kernel.consumeSubdev i irq d } user := by
  unfold MemoryMachine.consumeSubdev Kernel.consumeSubdev
  split_ifs
  · exact h.doneIo d (irq.status d)
  · exact h

/-- The interrupts of one entry. -/
theorem Shows.consumeInterrupts (h : X.Shows M user) (irq : Irq) :
    (X.consumeInterrupts i irq).Shows
      { M with kernel := M.kernel.consumeInterrupts i irq } user := by
  have htimer : (if irq.pending IL_TIMER then X.onKernel (Kernel.timeSliceCallback i) else X).Shows
      { M with kernel := if irq.pending IL_TIMER then M.kernel.timeSliceCallback i
        else M.kernel } user := by
    split_ifs
    · exact h.onKernel (Kernel.timeSliceCallback_pS _)
    · exact h
  have hlines := Shows.foldl (fun X M line hX => hX.consumeLine (i := i) irq line)
    [3, 4, 5, 6] htimer
  unfold MemoryMachine.consumeInterrupts Kernel.consumeInterrupts
  by_cases hterminal : irq.pending IL_TERMINAL = true
  · simp only [if_pos hterminal]
    exact Shows.foldl (fun X M n hX =>
      (hX.consumeSubdev (i := i) irq ⟨.TERM_RX, n⟩).consumeSubdev irq ⟨.TERM_TX, n⟩) _ hlines
  · simp only [if_neg hterminal]
    exact hlines

end Interrupts

section Creation

/-- `allocPcb`: the state is cleared in memory. -/
theorem Shows.allocPcb (h : X.Shows M user) :
    (X.allocPcb).1 = M.kernel.allocPcb.1 ∧
      (X.allocPcb).2.Shows { M with kernel := M.kernel.allocPcb.2 } user := by
  have hmachine := h.machine
  unfold MemoryMachine.allocPcb
  rw [hmachine]
  unfold Kernel.allocPcb
  cases hfree : M.kernel.pcbFreeH with
  | nil =>
      exact ⟨rfl, h⟩
  | cons p free =>
      exact ⟨rfl, (h.onKernel_reading _).set_pcb implements_resetState⟩

/-- `create_process`: the state is copied out of user memory. -/
theorem Shows.createProcess
    {s cpid : Word} (h : X.Shows M user)
    (hsource : M.kernel.pcbFreeH ≠ [] → s ≠ 0 ∧ L.OutsideKernel s 140)
    (hcpid : cpid ≠ 0 → L.OutsideKernel cpid 4) (priority : Int) (arg1 arg2 : Word) :
    Agree (fun a b => a.1 = b.1 ∧
        a.2.Shows { M with kernel := b.2 }
          (storeReply order L user arg1 arg2 cpid
            (.created (if cpid = 0 then none else b.1.cpid))))
      (X.createProcess s priority cpid)
      (M.kernel.createProcess (loadState order user s) priority) := by
  obtain ⟨hproc, halloc⟩ := h.allocPcb
  unfold MemoryMachine.createProcess Kernel.createProcess
  cases hX : X.allocPcb with
  | mk r X₁ =>
      cases hM : M.kernel.allocPcb with
      | mk r' k₁ =>
          rw [hX, hM] at hproc halloc
          obtain rfl : r = r' := hproc
          have halloc : X₁.Shows { M with kernel := k₁ } user := halloc
          cases r with
          | none =>
              refine Agree.ok ⟨rfl, ?_⟩
              simp only [ite_self]
              exact halloc
          | some p =>
              have hfree : M.kernel.pcbFreeH ≠ [] := by
                intro hnil
                rw [Kernel.allocPcb, hnil] at hM
                exact absurd (congrArg Prod.fst hM) (by simp)
              obtain ⟨hnull, hs⟩ := hsource hfree
              obtain ⟨mem, hcopy, hassign⟩ := memcpy_assigns order X₁.mem
                (pcbState_ne_zero p) hnull (fun x hx hx' => hs x hx' (inKernel_pcbState hx))
              rw [halloc.userState hs] at hassign
              have hcopied := (halloc.store_pcb hassign).onKernel
                (f := fun k =>
                  { k with
                    priority := Function.update k.priority p priority
                    originalPriority := Function.update k.originalPriority p priority }) rfl
              simp only [hcopy, ok_bind, hcopied.machine]
              refine (Agree.self (fun _ hins => Kernel.insertChild_pS hins)).bind ?_
              rintro k _ ⟨rfl, hpS⟩
              have hchild := hcopied.onKernel (f := fun _ => k) hpS
              by_cases hnil : cpid = 0
              · simp only [hnil, ne_eq, not_true_eq_false, if_false, if_true]
                exact Agree.ok ⟨rfl, hchild.onKernel (f := fun k => k.scheduleProc p)
                  (Kernel.scheduleProc_pS k p)⟩
              · simp only [ne_eq, hnil, not_false_eq_true, if_true, if_false]
                exact Agree.ok ⟨rfl, (hchild.store_word (hcpid hnil) (L.pcbAddr p)).onKernel
                  (f := fun k => k.scheduleProc p) (Kernel.scheduleProc_pS k p)⟩

end Creation

section Syscalls

/-- The words that a reply is written to. -/
def replyWords (arg1 arg2 arg3 : Word) : Reply → List Word
  | .none => []
  | .cpuTime _ _ _ => [arg1, arg2, arg3]
  | .created none => []
  | .created (some _) => [arg3]
  | .pids pid ppid => pid.elim [] (fun _ => [arg1]) ++ ppid.elim [] (fun _ => [arg2])

/-- A reply is written through the pointers given. -/
theorem Shows.store_reply
    {arg1 arg2 arg3 : Word} {reply : Reply} (h : X.Shows M user)
    (hout : ∀ a ∈ replyWords arg1 arg2 arg3 reply, L.OutsideKernel a 4) :
    (X.withMem (storeReply order L X.mem arg1 arg2 arg3 reply)).Shows M
      (storeReply order L user arg1 arg2 arg3 reply) := by
  have hself : (X.withMem X.mem).Shows M user :=
    h.store_user (fun _ _ => rfl) h.user
  cases reply with
  | none =>
      exact hself
  | cpuTime user kernel wallclock =>
      exact ((h.store_word (hout arg1 (by simp [replyWords])) user).store_word
        (hout arg2 (by simp [replyWords])) kernel).store_word
        (hout arg3 (by simp [replyWords])) wallclock
  | created cpid =>
      cases cpid with
      | none =>
          exact hself
      | some p =>
          exact h.store_word (hout arg3 (by simp [replyWords])) (L.pcbAddr p)
  | pids pid ppid =>
      cases pid with
      | none =>
          cases ppid with
          | none =>
              exact hself
          | some parent =>
              exact h.store_word (hout arg2 (by simp [replyWords])) (L.pcbPointer parent)
      | some p =>
          have hfirst := h.store_word (hout arg1 (by simp [replyWords])) (L.pcbAddr p)
          cases ppid with
          | none =>
              exact hfirst
          | some parent =>
              exact hfirst.store_word (hout arg2 (by simp [replyWords])) (L.pcbPointer parent)

/-- The words that a system call may write, by its number and arguments. -/
def pointers (st : MpsState) : List Word :=
  match (st (.gpr 3)).toNat with
  | 1 => [st (.gpr 4), st (.gpr 5), st (.gpr 6)]
  | 2 => [st (.gpr 6)]
  | 8 => [st (.gpr 4), st (.gpr 5)]
  | _ => []

theorem replyWords_pointers
    {k : Kernel L.arch} {st : MpsState} {interrupted : Proc} {stateAt : Word → State L.arch}
    {tod : Word} {served : Served L.arch} (h2 : (st (.gpr 3)).toNat ≠ 2)
    (h : k.consumeSyscall i st interrupted stateAt tod = .ok served) :
    ∀ a ∈ replyWords (st (.gpr 4)) (st (.gpr 5)) (st (.gpr 6)) served.reply, a ∈ pointers st := by
  have hnone : ∀ {k' : Kernel L.arch} {st' : State L.arch},
      (.ok ⟨k', st', Reply.none⟩ : Except Halt (Served L.arch)) = .ok served →
      ∀ a ∈ replyWords (st (.gpr 4)) (st (.gpr 5)) (st (.gpr 6)) served.reply, a ∈ pointers st := by
    rintro k' st' h a ha
    rw [← Except.ok.inj h] at ha
    exact absurd ha List.not_mem_nil
  unfold Kernel.consumeSyscall at h
  simp only at h
  split at h
  · -- GETCPUTIME
    rename_i heq
    have hn : (st (.gpr 3)).toNat = 1 := heq
    rw [← Except.ok.inj h]
    intro a ha
    simp only [pointers, hn]
    exact ha
  · exact absurd ‹_› h2
  · obtain ⟨target, -, h⟩ := ok_of_bind h
    obtain ⟨r, -, h⟩ := ok_of_bind h
    exact hnone h
  · obtain ⟨semaddr, -, h⟩ := ok_of_bind h
    exact hnone h
  · obtain ⟨semaddr, -, h⟩ := ok_of_bind h
    obtain ⟨k₁, -, h⟩ := ok_of_bind h
    exact hnone h
  · obtain ⟨k₁, -, h⟩ := ok_of_bind h
    exact hnone h
  · obtain ⟨k₁, -, h⟩ := ok_of_bind h
    exact hnone h
  · -- GETPID
    rename_i heq
    have hn : (st (.gpr 3)).toNat = 8 := heq
    rw [← Except.ok.inj h]
    intro a ha
    simp only [pointers, hn]
    have hsub : ∀ {o : Option Proc} {o' : Option (Option Proc)},
        a ∈ replyWords (st (.gpr 4)) (st (.gpr 5)) (st (.gpr 6)) (.pids o o') →
        a ∈ [st (.gpr 4), st (.gpr 5)] := by
      intro o o' hmem
      cases o <;> cases o' <;> simp_all [replyWords]
    exact hsub ha
  · exact absurd h (by simp)

/-- `consume_syscall`: the arguments are read from, and the result is written to, the memory. -/
theorem Shows.consumeSyscall
    (h : X.Shows M user)
    (hsource : ((M.oldArea .SYS : MpsState) (.gpr 3)).toNat = 2 → M.kernel.pcbFreeH ≠ [] →
      (M.oldArea .SYS : MpsState) (.gpr 4) ≠ 0 ∧
        L.OutsideKernel ((M.oldArea .SYS : MpsState) (.gpr 4)) 140)
    (hwords : ∀ a ∈ pointers (M.oldArea .SYS), L.OutsideKernel a 4) (tod : Word) :
    Agree (fun a b => a.2 = b.reply ∧
        a.1.Shows ({ M with kernel := b.kernel }.setArea .SYS b.state)
          (storeReply order L user ((M.oldArea .SYS : MpsState) (.gpr 4))
            ((M.oldArea .SYS : MpsState) (.gpr 5)) ((M.oldArea .SYS : MpsState) (.gpr 6)) b.reply))
      (X.consumeSyscall i tod)
      (M.kernel.consumeSyscall i (M.oldArea .SYS) M.interruptedProc
        (loadState order user) tod) := by
  have hold := h.oldArea .SYS
  unfold MemoryMachine.consumeSyscall
  rw [hold]
  simp only
  split
  · -- CREATEPROCESS
    rename_i heq
    have hn : (M.oldArea .SYS L.arch.sysN).toNat = 2 := heq
    unfold Kernel.consumeSyscall
    simp only [hn]
    have hcpid : L.OutsideKernel ((M.oldArea .SYS : MpsState) (.gpr 6)) 4 := by
      refine hwords _ ?_
      simp only [pointers, heq]
      exact List.mem_singleton_self _
    refine (h.createProcess (hsource heq) (fun _ => hcpid) _
      ((M.oldArea .SYS : MpsState) (.gpr 4)) ((M.oldArea .SYS : MpsState) (.gpr 5))).bind ?_
    rintro ⟨created, X₁⟩ ⟨created', k₁⟩ ⟨rfl, hX₁⟩
    exact Agree.ok ⟨rfl, hX₁.set_old (implements_storeReg (.gpr 1) _)⟩
  · -- TERMINATEPROCESS
    rename_i heq
    have hn : (M.oldArea .SYS L.arch.sysN).toNat = 3 := heq
    unfold Kernel.consumeSyscall
    simp only [hn, h.machine]
    refine (Agree.self (P := fun _ => True) (fun _ _ => trivial)).bind ?_
    rintro target _ ⟨rfl, -⟩
    refine (Agree.self (fun _ hterm => Kernel.terminateProc_pS hterm)).bind ?_
    rintro ⟨ret, k₁⟩ _ ⟨rfl, hpS⟩
    exact Agree.ok ⟨rfl, (h.onKernel (f := fun _ => k₁) hpS).set_old
      (implements_storeReg (.gpr 1) _)⟩
  · rename_i h2 h3
    have hn2 : (M.oldArea .SYS L.arch.sysN).toNat ≠ 2 := h2
    have hn3 : (M.oldArea .SYS L.arch.sysN).toNat ≠ 3 := h3
    rw [h.machine, Kernel.consumeSyscall_congr hn2 M.interruptedProc (loadState order X.mem)
      (loadState order user) tod]
    cases hserved : M.kernel.consumeSyscall i (M.oldArea .SYS) M.interruptedProc
        (loadState order user) tod with
    | error err =>
        exact Agree.error err
    | ok served =>
        obtain ⟨hpS, hstate⟩ := Kernel.consumeSyscall_pS hn2 hn3 hserved
        have hkernel := h.onKernel (f := fun _ => served.kernel) hpS
        have hdone := hkernel.store_reply
          (fun a ha => hwords a (replyWords_pointers h2 hserved a ha))
        have hsame : { M with kernel := served.kernel }.setArea .SYS served.state =
            { M with kernel := served.kernel } := by
          rw [hstate, Machine.setArea, Function.update_eq_self]
        refine Agree.ok ⟨rfl, ?_⟩
        rw [hsame]
        exact hdone

end Syscalls

section Conclusions

/-- What `LDST` finds at an address: the state of the process, or its new area. -/
def Loads (order : ByteOrder) (mem : Ram) (s : Word) : Resumed L.arch → Prop
  | .proc _ st => loadState order mem s = st
  | .passup old new stored => s = new ∧ loadState order mem old = stored

/-- The addresses to which the state of a process is passed up. -/
def InPassup (x : Word) : Resumed L.arch → Prop
  | .proc _ _ => False
  | .passup old _ _ => InState old x

/-- A handler ends with the load of the state that it resumes. -/
structure Concludes (user : Ram) (a : MemoryMachine L order × Word)
    (b : Machine L.arch × Resumed L.arch) : Prop where
  machine : a.1.machine = b.1
  loads : Loads order a.1.mem a.2 b.2
  user : ∀ x, ¬ L.InKernel x → ¬ InPassup x b.2 → a.1.mem x = user x

theorem Shows.concludes
    {s : Word} {r : Resumed L.arch} (h : X.Shows M user) (hloads : Loads order X.mem s r) :
    Concludes user (X, s) (M, r) :=
  ⟨h.machine, hloads, fun x hx _ => h.user x hx⟩

/-- `conclude_handler`: the state of the interrupted process is copied into its PCB. -/
theorem Shows.concludeHandler (h : X.Shows M user) (t : ExcType) (tod : Word) :
    Agree (Concludes user) (X.concludeHandler t tod) (.ok (M.concludeHandler t tod)) := by
  unfold MemoryMachine.concludeHandler Machine.concludeHandler
  rw [h.machine]
  by_cases hother : M.interruptedProc ≠ M.kernel.runningProc
  · have hflush := h.onKernel (f := fun k => k.flushResetTime tod M.kernel.runningProc) rfl
    have hreset := hflush.onMachine
      (f := fun M => { M with intervalTimer := M.clockTicksPerTimeSlice }) rfl rfl
    simp only [if_pos hother]
    by_cases hidle : M.interruptedProc ≠ .idle
    · simp only [if_pos hidle]
      obtain ⟨mem, hcopy, hassign⟩ := memcpy_assigns order X.mem
        (pcbState_ne_zero M.interruptedProc) (area_ne_zero t)
        (oldArea_apart t M.interruptedProc).symm
      rw [h.oldArea] at hassign
      have hsaved := hreset.store_pcb hassign
      have hloads := hsaved.pS M.kernel.runningProc
      change Agree _ (memcpy X.mem _ _ _ >>= _) _
      rw [hcopy]
      exact Agree.ok (hsaved.concludes hloads)
    · simp only [if_neg hidle]
      exact Agree.ok (hreset.concludes (hreset.pS _))
  · simp only [if_neg hother]
    have hflush := (h.onMachine (f := fun M => { M with intervalTimer := M.intTimerCache })
      rfl rfl).onKernel (f := fun k => k.flushKernelTime tod M.interruptedProc) rfl
    exact Agree.ok (hflush.concludes (hflush.oldArea t))

/-- `launch_spec_area`: the state in the old area is copied to the user's old area. -/
theorem Shows.launchSpecArea
    {t : ExcType} (h : X.Shows M user)
    (hset : M.kernel.isPassupSet t M.kernel.runningProc = true)
    (hout : L.OutsideKernel (M.kernel.getPassupArea OLD t M.kernel.runningProc) 140) :
    Agree (Concludes user) (X.launchSpecArea t) (.ok (M.launchSpecArea t)) := by
  have hnull : M.kernel.getPassupArea OLD t M.kernel.runningProc ≠ 0 := by
    intro hzero
    rw [Kernel.isPassupSet, hzero] at hset
    simp at hset
  obtain ⟨mem, hcopy, hassign⟩ := memcpy_assigns order X.mem hnull
    (area_ne_zero t) (fun x hx hx' => hout x hx (inKernel_area hx'))
  have hkeep : ∀ x, L.InKernel x → mem x = X.mem x :=
    fun x hx => hassign.outside x (fun hin => hout x hin hx)
  have hshows : (X.withMem mem).Shows M mem := h.store_user hkeep (fun _ _ => rfl)
  unfold MemoryMachine.launchSpecArea Machine.launchSpecArea
  simp only [h.machine, hcopy, ok_bind]
  refine Agree.ok ⟨hshows.machine, ⟨rfl, ?_⟩, fun x hx hpass => ?_⟩
  · rw [← h.oldArea]
    exact hassign.inside
  · exact (hassign.outside x hpass).trans (h.user x hx)

end Conclusions

section Handlers

/-- What a handler leaves, with its reply written to user memory. -/
structure Outcome (user : Ram) (arg1 arg2 arg3 : Word)
    (a : MemoryMachine L order × Reply × Word) (b : Machine L.arch × Reply × Resumed L.arch) :
    Prop where
  reply : a.2.1 = b.2.1
  concludes : Concludes (storeReply order L user arg1 arg2 arg3 b.2.1) (a.1, a.2.2) (b.1, b.2.2)

/-- A handler without a reply. -/
theorem Concludes.outcome
    {a : MemoryMachine L order × Word} {b : Machine L.arch × Resumed L.arch}
    (h : Concludes user a b) (arg1 arg2 arg3 : Word) :
    Outcome user arg1 arg2 arg3 (a.1, .none, a.2) (b.1, .none, b.2) :=
  ⟨rfl, h⟩

theorem arch_afterInterrupt (st : State L.arch) : st.afterInterrupt = st := by
  have hzero : st L.arch.pc + L.arch.interruptPcStep = st L.arch.pc := BitVec.add_zero _
  rw [State.afterInterrupt, hzero]
  exact Function.update_eq_self _ _

/-- `handle_interrupt`. -/
theorem Shows.handleInterrupt (h : X.Shows M user) (e : Exception L.arch) :
    Agree (Concludes user) (X.handleInterrupt i e) (.ok (M.handleInterrupt i e)) := by
  have hsame : M.setArea .INT (M.oldArea .INT).afterInterrupt = M := by
    rw [arch_afterInterrupt, Machine.setArea, Function.update_eq_self]
  unfold MemoryMachine.handleInterrupt Machine.handleInterrupt
  simp only [hsame]
  exact (h.consumeInterrupts e.irq).concludeHandler .INT e.todEnd

/-- `handle_TLB` and `handle_trap`. -/
theorem Shows.handleFault
    {t : ExcType} (h : X.Shows M user)
    (hpassup : M.kernel.isPassupSet t M.kernel.runningProc = true →
      L.OutsideKernel (M.kernel.getPassupArea OLD t M.kernel.runningProc) 140)
    (e : Exception L.arch) :
    Agree (Concludes user) (X.handleFault t e) (M.handleFault t e) := by
  unfold MemoryMachine.handleFault Machine.handleFault
  simp only [h.machine]
  cases hset : M.kernel.isPassupSet t M.kernel.runningProc with
  | true =>
      exact h.launchSpecArea hset (hpassup hset)
  | false =>
      refine (Agree.self (fun _ hterm => Kernel.terminateProc_pS hterm)).bind ?_
      rintro ⟨ret, k⟩ _ ⟨rfl, hpS⟩
      exact (h.onKernel (f := fun _ => k) hpS).concludeHandler t e.todEnd

/-- What the handler of system calls and breakpoints is handed over is proper. -/
structure ProperCall (M : Machine L.arch) (st : MpsState) : Prop where
  /-- The state of a new process lies in user memory. -/
  source : getExccode st = .E_SYS → (st (.gpr 3)).toNat = 2 → M.kernel.pcbFreeH ≠ [] →
    st (.gpr 4) ≠ 0 ∧ L.OutsideKernel (st (.gpr 4)) 140
  /-- So do the words that are written. -/
  words : getExccode st = .E_SYS → ∀ a ∈ pointers st, L.OutsideKernel a 4
  /-- And so does the area to which the state is passed up. -/
  passup : M.kernel.isPassupSet .SYS M.kernel.runningProc = true →
    getExccode st = .E_BP ∨ getExccode st = .E_SYS ∧ (st (.gpr 3)).toNat > SYSTEM_SYSCALL_MAX →
    L.OutsideKernel (M.kernel.getPassupArea OLD .SYS M.kernel.runningProc) 140

/-- `handle_sysbreak`. -/
theorem Shows.handleSysbreak
    {e : Exception L.arch} {st : State L.arch} (h : X.Shows M user)
    (hst : (M.oldArea .SYS).afterSysbreak = st) (hrun : M.interruptedProc = M.kernel.runningProc)
    (hstate : e.stateAt = loadState order user) (hproper : ProperCall M st) :
    Agree (Outcome user (st L.arch.arg1) (st L.arch.arg2) (st L.arch.arg3)) (X.handleSysbreak i e)
      (M.handleSysbreak i e) := by
  have hadjust : (X.withMem (storeReg order X.mem (area OLD .SYS) .pc_epc
      (loadState order X.mem (area OLD .SYS) .pc_epc + WORD_SIZE))).Shows
      (M.setArea .SYS st) user := by
    rw [h.oldArea, ← hst]
    exact h.set_old (implements_storeReg .pc_epc _)
  have harea : (M.setArea .SYS st).oldArea .SYS = st := by
    simp only [Machine.setArea, Function.update_self]
  have hload := (hadjust.oldArea .SYS).trans harea
  unfold MemoryMachine.handleSysbreak Machine.handleSysbreak
  simp only [hst, hload, harea, hadjust.machine]
  have hset : (M.setArea .SYS st).kernel.isPassupSet .SYS (M.setArea .SYS st).interruptedProc =
      M.kernel.isPassupSet .SYS M.kernel.runningProc := by
    rw [← hrun]
    rfl
  have hcode' : L.arch.getExccode st = getExccode st := rfl
  have hnum : (st L.arch.sysN).toNat = ((st : MpsState) (.gpr 3)).toNat := rfl
  rw [hset, hcode', hnum]
  cases hcode : getExccode st with
  | E_OTHER =>
      exact Agree.error _
  | E_BP =>
      cases hup : M.kernel.isPassupSet .SYS M.kernel.runningProc with
      | true =>
          exact (hadjust.launchSpecArea hup (hproper.passup hup (Or.inl hcode))).bind_left
            (fun _ hdone => Agree.ok (hdone.outcome _ _ _))
      | false =>
          exact Agree.error _
  | E_SYS =>
      by_cases hbig : ((st : MpsState) (.gpr 3)).toNat > SYSTEM_SYSCALL_MAX
      · simp only [if_pos hbig]
        cases hup : M.kernel.isPassupSet .SYS M.kernel.runningProc with
        | true =>
            have hflush := hadjust.onKernel
              (f := fun k => k.flushKernelTime e.todMid M.interruptedProc) rfl
            exact (hflush.launchSpecArea (t := .SYS) hup (hproper.passup hup
              (Or.inr ⟨hcode, hbig⟩))).bind_left (fun _ hdone => Agree.ok (hdone.outcome _ _ _))
        | false =>
            refine (Agree.self (fun _ hterm => Kernel.terminateProc_pS hterm)).bind ?_
            rintro ⟨ret, k⟩ _ ⟨rfl, hpS⟩
            exact ((hadjust.onKernel (f := fun _ => k) hpS).concludeHandler .SYS
              e.todEnd).bind_left (fun _ hdone => Agree.ok (hdone.outcome _ _ _))
      · simp only [if_neg hbig]
        have hserve := hadjust.consumeSyscall (i := i) (by rw [harea]; exact hproper.source hcode)
          (by rw [harea]; exact hproper.words hcode) e.todMid
        rw [harea, ← hstate] at hserve
        refine hserve.bind ?_
        rintro ⟨X₁, reply⟩ ⟨k, st', reply'⟩ ⟨rfl, hshows⟩
        exact (hshows.concludeHandler .SYS e.todEnd).bind_left
          (fun _ hdone => Agree.ok ⟨rfl, hdone⟩)

/-- User code hands over pointers to user memory only. -/
structure Proper (M : Machine L.arch) (e : Exception L.arch) : Prop where
  /-- The state of a new process. -/
  source : e.syscall = some 2 → M.kernel.pcbFreeH ≠ [] →
    e.adjusted L.arch.arg1 ≠ 0 ∧ L.OutsideKernel (e.adjusted L.arch.arg1) 140
  /-- The words that a system call writes. -/
  words : e.syscall ≠ none → ∀ a ∈ pointers e.adjusted, L.OutsideKernel a 4
  /-- The area to which a state is passed up. -/
  passup : M.PassedUp e →
    L.OutsideKernel (M.kernel.getPassupArea OLD e.type M.kernel.runningProc) 140

/-- Every exception. -/
theorem Shows.handle
    {e : Exception L.arch} (h : X.Shows M user) (hstate : e.stateAt = loadState order user)
    (hproper : Proper M e) :
    Agree (Outcome user (e.adjusted L.arch.arg1) (e.adjusted L.arch.arg2) (e.adjusted L.arch.arg3))
      (X.handle i e) (M.handle i e) := by
  have hstored := h.set_old (t := e.type) (implements_storeState e.state)
  have hstart := hstored.onMachine (f := fun M => M.startHandler e.timer e.todStart) rfl rfl
  unfold MemoryMachine.handle Machine.handle
  simp only
  cases htype : e.type with
  | INT =>
      rw [htype] at hstart
      exact (hstart.handleInterrupt e).map (fun _ _ hdone => hdone.outcome _ _ _)
  | PRG =>
      rw [htype] at hstart
      have hpass := hproper.passup
      simp only [Machine.PassedUp, htype] at hpass
      exact (hstart.handleFault (t := .PRG) hpass e).map (fun _ _ hdone => hdone.outcome _ _ _)
  | TLB =>
      rw [htype] at hstart
      have hpass := hproper.passup
      simp only [Machine.PassedUp, htype] at hpass
      exact (hstart.handleFault (t := .TLB) hpass e).map (fun _ _ hdone => hdone.outcome _ _ _)
  | SYS =>
      rw [htype] at hstart
      have hsyscall : getExccode e.adjusted = .E_SYS →
          e.syscall = some ((e.adjusted : MpsState) (.gpr 3)).toNat := by
        intro hcode
        have hcode' : L.arch.getExccode e.adjusted = .E_SYS := hcode
        simp only [Exception.syscall, htype, hcode', if_true]
        rfl
      have hcall : ProperCall ((M.setArea .SYS e.state).startHandler e.timer e.todStart)
          e.adjusted := by
        refine ⟨fun hcode hn hfree => ?_, fun hcode => ?_, fun hup hwhy => ?_⟩
        · exact hproper.source (by rw [hsyscall hcode, hn]) hfree
        · exact hproper.words (by rw [hsyscall hcode]; simp)
        · have hpass : M.PassedUp e := by
            simp only [Machine.PassedUp, htype]
            exact ⟨hup, hwhy⟩
          have hout := hproper.passup hpass
          rw [htype] at hout
          exact hout
      have hadjusted : (((M.setArea .SYS e.state).startHandler e.timer e.todStart).oldArea
          .SYS).afterSysbreak = e.adjusted := by
        simp only [Machine.startHandler, Machine.setArea, Function.update_self,
          Exception.adjusted, htype]
      exact hstart.handleSysbreak hadjusted rfl hstate hcall

/-- User code runs in its memory, and an exception is raised and handled. -/
theorem enter_agrees
    {e : MemoryEntry L order} (hmachine : X.machine = M) (hproper : Proper M e.toException) :
    Agree
      (Outcome e.user (e.adjusted L.arch.arg1) (e.adjusted L.arch.arg2) (e.adjusted L.arch.arg3))
      (X.enter i e) (M.enter i e.toEntry) := by
  have hX : X.Shows M X.mem := ⟨hmachine, fun _ _ => rfl⟩
  have hwrites := hX.onMachine (f := fun M => M.userWrites e.memory) rfl rfl
  have huser : (X.userRuns e).Shows (M.userWrites e.memory) e.user :=
    hwrites.store_user (fun _ hx => if_pos hx) (fun _ hx => if_neg hx)
  refine huser.handle e.stateAt_eq ⟨hproper.source, hproper.words, fun hpass => ?_⟩
  exact hproper.passup hpass

end Handlers

end MemoryMachine
end Bikaya
