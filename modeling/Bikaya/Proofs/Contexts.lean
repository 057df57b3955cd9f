import Bikaya.Proofs.Entries
import Bikaya.Proofs.Responses

/-!
# Bikaya: the processor states of the processes

A processor state lives in an old area while a handler runs, in the PCB while the process
does not run, and in the processor otherwise.  The context of a process is the state it is
to be resumed with.  The module proves that the kernel resumes every process with its
context, up to the return register of a system call that has one.

**Plan.**  `nextContext` computes the context of a process from the events of the run only:
what the process was created with, what it was interrupted with, and what it is answered.
`ContextOk` says where the kernel keeps it.  An operation moves a context between these
places at most (`ContextOk.step`), and the handlers store and load it at their ends.

**Results.**
* `contextOk_enter`: an entry keeps the invariant and resumes the context of the process
  that it lets run.
* `contexts_preserved`: so does every entry of a run.
-/

namespace Bikaya

open TransitionSystem

namespace Kernel

variable {A : Arch} {k k' : Kernel A} {m : IntModel}

/-- The operations that write to a processor state. -/
theorem Step.pS_cases
    {op : Operation A} (hstep : Step m k op k') (h : k.Ok) (hsafe : k.Safe op) :
    (k'.pS = k.pS ∧ ∀ s priority, op = .createProcess s priority → k.pcbFreeH = []) ∨
      (∃ s priority x free, op = .createProcess s priority ∧ k.pcbFreeH = x :: free ∧
        k'.pS = Function.update k.pS x s) ∨
      (∃ d status r q, op = .doneIo d status ∧ k.wForRes d = some r ∧
        k.waitQueue (.dev d) = r :: q ∧
        k'.pS = Function.update k.pS r ((k.pS r).setRet status)) := by
  have hsched : ∀ (k₁ : Kernel A) (x : Proc), (k₁.scheduleProc x).pS = k₁.pS := by
    intro k₁ x
    obtain ⟨priority, ready, running, heq⟩ := scheduleProc_frame k₁ x
    rw [heq]
  have hnext : ∀ (k₁ : Kernel A) (d : Dev) (next : Option Proc),
      (k₁.nextCommand m d next).pS = k₁.pS := by
    intro k₁ d next
    cases next <;> rfl
  obtain ⟨hadm, hexec⟩ := hstep
  cases op with
  | createProcess s priority =>
      cases hnil : k.pcbFreeH with
      | nil =>
          simp only [exec, createProcess_nil hnil] at hexec
          obtain rfl : k = k' := Except.ok.inj hexec
          exact Or.inl ⟨rfl, fun _ _ _ => rfl⟩
      | cons x free =>
          obtain ⟨-, -, -, hxrun⟩ := h.adopt hnil hadm s priority
          simp only [exec, createProcess_cons hnil hxrun] at hexec
          refine Or.inr (Or.inl ⟨s, priority, x, free, rfl, rfl, ?_⟩)
          rw [← Except.ok.inj hexec]
          exact hsched _ x
  | terminateProcess p =>
      obtain ⟨⟨l, hdone⟩, -⟩ := Step.terminated ⟨hadm, hexec⟩ h hsafe
      obtain ⟨asl, pParent, rfl, -, -⟩ := hdone.result
      exact Or.inl ⟨rfl, by simp⟩
  | passeren a tod =>
      refine Or.inl ⟨?_, by simp⟩
      simp only [exec] at hexec
      rcases p_spec m a h hadm tod with ⟨-, heq⟩ | ⟨-, asl, heq, -, -⟩
      · rw [← Except.ok.inj (heq.symm.trans hexec)]
      · rw [← Except.ok.inj (heq.symm.trans hexec), runNextReady_eq]
  | verhogen a =>
      refine Or.inl ⟨?_, by simp⟩
      rw [← Except.ok.inj hexec]
      rcases v_spec m a h.residence.aslOk with ⟨-, heq⟩ | ⟨x, q, asl, -, heq, -, -⟩
      · rw [heq]
      · rw [heq, hsched]
  | waitIo command devReg subdev tod =>
      refine Or.inl ⟨?_, by simp⟩
      obtain ⟨d, -, rfl⟩ := exec_waitIo hexec
      rcases waitDev_spec m d h hadm command devReg tod with
        ⟨-, asl, heq, -, -⟩ | ⟨-, asl, heq, -, -⟩
      · rw [heq, runNextReady_eq]
      · rw [heq, runNextReady_eq]
  | doneIo d status =>
      rw [← Except.ok.inj hexec]
      cases hr : k.wForRes d with
      | none =>
          refine Or.inl ⟨?_, by simp⟩
          rw [doneIo_none m d hr]
      | some r =>
          cases hq : k.waitQueue (.dev d) with
          | nil =>
              refine Or.inl ⟨?_, by simp⟩
              rw [doneIo_nil m d h.residence.aslOk hr hq, hnext]
          | cons x q =>
              by_cases hx : x = r
              · subst hx
                exact Or.inr (Or.inr ⟨d, status, x, q, rfl, hr, hq,
                  (doneIo_serve h hr hq status).2.1⟩)
              · refine Or.inl ⟨?_, by simp⟩
                obtain ⟨asl, heq, -, -⟩ := doneIo_cons m d h.residence.aslOk hr hq status
                rw [heq, hnext, if_neg hx]
  | timeSlice =>
      refine Or.inl ⟨?_, by simp⟩
      rw [← Except.ok.inj hexec]
      obtain ⟨priority, ready, running, heq⟩ := timeSlice_frame m k
      rw [heq]
  | write a value =>
      refine Or.inl ⟨?_, by simp⟩
      rw [← Except.ok.inj hexec]

/-- Only the caller of a WAITIO enters the queue of a device. -/
theorem DeviceMove.queue_sub
    {op : Operation A} {v : DeviceView} (hmove : DeviceMove k op v)
    {d : Dev} {x : Proc} (hx : x ∈ v.queue d) :
    x ∈ k.waitQueue (.dev d) ∨
      (x = k.runningProc ∧
        ∃ command devReg subdev tod, op = .waitIo command devReg subdev tod) := by
  have hset : ∀ (d' : Dev) (q : List Proc), (∀ y ∈ q, y ∈ k.waitQueue (.dev d')) →
      x ∈ Function.update k.devices.queue d' q d → x ∈ k.waitQueue (.dev d) := by
    intro d' q hq hx
    by_cases hd : d = d'
    · subst hd
      rw [Function.update_self] at hx
      exact hq x hx
    · rw [Function.update_of_ne hd] at hx
      exact hx
  cases hmove with
  | quiet _ _ =>
      exact Or.inl hx
  | spurious _ _ _ =>
      exact Or.inl hx
  | remove p l _ =>
      exact Or.inl (List.mem_of_mem_filter hx)
  | wait command devReg subdev tod d' r _ _ =>
      by_cases hrun : x = k.runningProc
      · exact Or.inr ⟨hrun, command, devReg, subdev, tod, rfl⟩
      · left
        rw [DeviceView.queue_setQueue] at hx
        by_cases hd : d = d'
        · subst hd
          rw [Function.update_self] at hx
          exact (mem_insertProcQ.mp hx).resolve_left hrun
        · rw [Function.update_of_ne hd] at hx
          exact hx
  | submit command devReg subdev tod d' _ _ =>
      by_cases hrun : x = k.runningProc
      · exact Or.inr ⟨hrun, command, devReg, subdev, tod, rfl⟩
      · left
        have hx' : x ∈ Function.update k.devices.queue d' [k.runningProc] d := hx
        by_cases hd : d = d'
        · subst hd
          rw [Function.update_self] at hx'
          exact absurd (List.mem_singleton.mp hx') hrun
        · rw [Function.update_of_ne hd] at hx'
          exact hx'
  | abandon _ _ _ _ _ =>
      exact Or.inl hx
  | serve d' _ r q _ hq =>
      rw [DeviceView.queue_send, DeviceView.queue_promote] at hx
      exact Or.inl (hset d' q (fun y hy => hq ▸ List.mem_cons_of_mem r hy) hx)
  | lose d' _ r y q _ _ hq =>
      rw [DeviceView.queue_send, DeviceView.queue_promote] at hx
      exact Or.inl (hset d' q (fun z hz => hq ▸ List.mem_cons_of_mem y hz) hx)

/-- The commands that an operation sends for a process. -/
theorem DeviceMove.bus_cases
    {op : Operation A} {v : DeviceView} (hmove : DeviceMove k op v) :
    ∃ ws, v.bus = k.bus ++ ws ∧ ∀ w ∈ ws, ∀ y, w.owner = some y →
      (∃ devReg subdev tod, op = .waitIo w.command devReg subdev tod ∧ y = k.runningProc) ∨
      ((∃ d status, op = .doneIo d status ∧ y ∈ k.waitQueue (.dev d)) ∧
        w.command = k.pS y A.arg1) := by
  have hserve : ∀ (d : Dev) (status : Word) (x : Proc) (q : List Proc),
      k.waitQueue (.dev d) = x :: q → ∀ y, (k.nextWrite d q.head?).owner = some y →
      (∃ d' status', (.doneIo d status : Operation A) = .doneIo d' status' ∧
        y ∈ k.waitQueue (.dev d')) ∧
      (k.nextWrite d q.head?).command = k.pS y A.arg1 := by
    intro d status x q hq y hy
    have hy' : q.head? = some y := hy
    refine ⟨⟨d, status, rfl, ?_⟩, ?_⟩
    · rw [hq]
      exact List.mem_cons_of_mem x (List.mem_of_mem_head? hy')
    · rw [hy']
      rfl
  cases hmove with
  | submit command devReg subdev tod d _ _ =>
      refine ⟨[⟨d.type, devReg, command, some k.runningProc⟩], rfl, ?_⟩
      rintro w hw y hy
      obtain rfl := List.mem_singleton.mp hw
      exact Or.inl ⟨devReg, subdev, tod, rfl, (Option.some.inj hy).symm⟩
  | abandon d status r _ _ =>
      refine ⟨[k.nextWrite d none], rfl, ?_⟩
      rintro w hw y hy
      obtain rfl := List.mem_singleton.mp hw
      exact absurd hy (by simp [nextWrite])
  | serve d status r q _ hq =>
      refine ⟨[k.nextWrite d q.head?], by rw [DeviceView.bus_send, DeviceView.bus_promote]; rfl, ?_⟩
      rintro w hw y hy
      obtain rfl := List.mem_singleton.mp hw
      exact Or.inr (hserve d status r q hq y hy)
  | lose d status r x q _ _ hq =>
      refine ⟨[k.nextWrite d q.head?], by rw [DeviceView.bus_send, DeviceView.bus_promote]; rfl, ?_⟩
      rintro w hw y hy
      obtain rfl := List.mem_singleton.mp hw
      exact Or.inr (hserve d status x q hq y hy)
  | _ => exact ⟨[], (List.append_nil _).symm, by simp⟩

end Kernel

/-- What a process is to be resumed with: a state, and the system call it has made. -/
structure Context (A : Arch) where
  state : State A
  syscall : Option Nat

namespace Context

variable {A : Arch}

/-- CREATEPROCESS, TERMINATEPROCESS and WAITIO write to the return register. -/
def Returns (c : Context A) : Prop :=
  c.syscall = some 2 ∨ c.syscall = some 3 ∨ c.syscall = some 6

/-- The state is the one of the context, up to the return register. -/
def Agrees (c : Context A) (s : State A) : Prop :=
  ∀ r, s r = c.state r ∨ (c.Returns ∧ r = A.retReg)

theorem agrees_of_eq {c : Context A} {s : State A} (h : s = c.state) : c.Agrees s :=
  fun r => Or.inl (congrFun h r)

theorem agrees_setRet
    {c : Context A} {s : State A} {w : Word} (h : s = c.state) (hret : c.Returns) :
    c.Agrees (s.setRet w) := by
  intro r
  by_cases hr : r = A.retReg
  · exact Or.inr ⟨hret, hr⟩
  · refine Or.inl ?_
    rw [State.setRet, State.set, Function.update_of_ne hr]
    exact congrFun h r

end Context

namespace Machine

variable {A : Arch} {m : IntModel}

/--
The contexts after an exception.  It replaces the context of the process that raises
it; a process that it creates gets the state it is created with.
-/
def nextContext (M : Machine A) (e : Entry A) (M' : Machine A) (ctx : Proc → Context A) :
    Proc → Context A :=
  fun x =>
    if x = M.kernel.runningProc then ⟨e.adjusted, e.syscall⟩
    else if ¬ M.kernel.Live x ∧ M'.kernel.Live x then
      ⟨e.stateAt (e.adjusted A.arg1), none⟩
    else ctx x

/-- The contexts along a run. -/
def contexts (M : ℕ → Machine A) (e : ℕ → Entry A) : ℕ → Proc → Context A
  | 0 => fun x => ⟨(M 0).kernel.pS x, none⟩
  | i + 1 => nextContext (M i) (e i) (M (i + 1)) (contexts M e i)

end Machine

namespace Kernel

variable {A : Arch} {k k' : Kernel A} {m : IntModel}

/--
The saved states agree with the contexts, except for the one of the process `p` that
runs when the handler begins.
-/
structure ContextOk (ctx : Proc → Context A) (p : Proc) (k : Kernel A) : Prop where
  sparing : k.Sparing
  saved : ∀ x, k.Live x → x ≠ p → (ctx x).Agrees (k.pS x)
  queued : ∀ x d, x ∈ k.waitQueue (.dev d) →
    (ctx x).syscall = some 6 ∧ (x ≠ p → k.pS x = (ctx x).state)

/-- The arguments of an operation agree with the contexts. -/
def ContextOp (ctx : Proc → Context A) (p : Proc) (k : Kernel A) : Operation A → Prop
  | .createProcess s _ => ∀ x ∈ k.pcbFreeH.head?, ctx x = ⟨s, none⟩
  | .waitIo command _ _ _ =>
      k.runningProc = p ∧ (ctx p).syscall = some 6 ∧ command = (ctx p).state A.arg1
  | .doneIo _ _ => ∀ d, p ∉ k.waitQueue (.dev d)
  | _ => True

/-- The commands sent between two states are those of the contexts of their owners. -/
def Commands (ctx : Proc → Context A) (k k' : Kernel A) : Prop :=
  ∃ ws, k'.bus = k.bus ++ ws ∧ ∀ w ∈ ws, ∀ y, w.owner = some y →
    (ctx y).syscall = some 6 ∧ w.command = (ctx y).state A.arg1

theorem Commands.refl (ctx : Proc → Context A) (k : Kernel A) : Commands ctx k k :=
  ⟨[], (List.append_nil _).symm, by simp⟩

theorem Commands.trans
    {ctx : Proc → Context A} {k₁ k₂ k₃ : Kernel A}
    (h : Commands ctx k₁ k₂) (h' : Commands ctx k₂ k₃) :
    Commands ctx k₁ k₃ := by
  obtain ⟨ws, heq, hws⟩ := h
  obtain ⟨ws', heq', hws'⟩ := h'
  refine ⟨ws ++ ws', by rw [heq', heq, List.append_assoc], fun w hw => ?_⟩
  exact (List.mem_append.mp hw).elim (hws w) (hws' w)

/-- An operation keeps the contexts, and sends commands that are in them. -/
theorem ContextOk.step
    {ctx : Proc → Context A} {p : Proc} {op : Operation A} (h : ContextOk ctx p k)
    (hspare : k.SparesDevices op) (hctx : k.ContextOp ctx p op) (hstep : Step m k op k') :
    ContextOk ctx p k' ∧ Commands ctx k k' := by
  have hok := h.sparing.ok
  have hsafe := h.sparing.safe op
  have hmove := device_move hok h.sparing.devicesOk hsafe hstep
  have hpS := hstep.pS_cases hok hsafe
  have hok' := hok.step hsafe hstep
  refine ⟨⟨h.sparing.step hspare hstep, fun x hx hxp => ?_, fun x d hx => ?_⟩, ?_⟩
  · rcases hstep.live_back hok hsafe hx with hlive | ⟨s, priority, rfl, hhead⟩
    · rcases hpS with ⟨heq, -⟩ | ⟨s, priority, y, free, rfl, hfree, heq⟩ |
        ⟨d, status, r, q, rfl, -, hq, heq⟩
      · rw [heq]
        exact h.saved x hlive hxp
      · have hxy : x ≠ y := by
          rintro rfl
          exact hlive.2 (hfree ▸ List.mem_cons_self)
        rw [heq, Function.update_of_ne hxy]
        exact h.saved x hlive hxp
      · rw [heq]
        by_cases hxr : x = r
        · subst hxr
          obtain ⟨hcall, hstate⟩ := h.queued x d (hq ▸ List.mem_cons_self)
          rw [Function.update_self]
          exact Context.agrees_setRet (hstate hxp) (Or.inr (Or.inr hcall))
        · rw [Function.update_of_ne hxr]
          exact h.saved x hlive hxp
    · have hctx' : ctx x = ⟨s, none⟩ := hctx x hhead
      rcases hpS with ⟨-, hnil⟩ | ⟨s', priority', y, free, heq, hfree, hpS⟩ |
        ⟨d, status, r, q, heq, -, -, -⟩
      · rw [hnil s priority rfl] at hhead
        exact absurd hhead (by simp)
      · obtain ⟨rfl, rfl⟩ := Operation.createProcess.inj heq
        obtain rfl : y = x := by
          rw [hfree] at hhead
          exact Option.some.inj hhead
        refine Context.agrees_of_eq ?_
        rw [hpS, Function.update_self, hctx']
      · exact absurd heq (by simp)
  · rcases hmove.queue_sub hx with hold | ⟨rfl, command, devReg, subdev, tod, rfl⟩
    · obtain ⟨hcall, hstate⟩ := h.queued x d hold
      refine ⟨hcall, fun hxp => ?_⟩
      rw [← hstate hxp]
      rcases hpS with ⟨heq, -⟩ | ⟨s, priority, y, free, rfl, hfree, heq⟩ |
        ⟨d', status, r, q, rfl, hr, hq, heq⟩
      · rw [heq]
      · have hxy : x ≠ y := by
          rintro rfl
          exact (hok.live_of_queued hold).2 (hfree ▸ List.mem_cons_self)
        rw [heq, Function.update_of_ne hxy]
      · have hxr : x ≠ r := by
          rintro rfl
          -- the served process has left its queue
          have hxd' : x ∈ k.waitQueue (.dev d') := hq ▸ List.mem_cons_self
          obtain rfl := hok.devices_unique hxd' hold
          obtain rfl : k.doneIo m d status = k' := Except.ok.inj hstep.2
          have hqueue := (doneIo_serve (m := m) hok hr hq status).2.2
          exact hok.head_notMem hq (hqueue ▸ hx)
        rw [heq, Function.update_of_ne hxr]
    · obtain ⟨rfl, hcall, -⟩ := hctx
      exact ⟨hcall, fun hne => absurd rfl hne⟩
  · obtain ⟨ws, hbus, hws⟩ := hmove.bus_cases
    refine ⟨ws, hbus, fun w hw y hy => ?_⟩
    rcases hws w hw y hy with ⟨devReg, subdev, tod, rfl, rfl⟩ | ⟨⟨d, status, rfl, hyd⟩, hcommand⟩
    · obtain ⟨rfl, hcall, hcommand⟩ := hctx
      exact ⟨hcall, hcommand⟩
    · obtain ⟨hcall, hstate⟩ := h.queued y d hyd
      refine ⟨hcall, ?_⟩
      rw [hcommand, hstate]
      rintro rfl
      exact hctx d hyd

end Kernel

namespace Machine

variable {A : Arch} {m : IntModel} {M M' : Machine A} {e : Entry A}
variable {ctx : Proc → Context A}

open Kernel (ContextOk Commands)

theorem nextContext_self :
    M.nextContext e M' ctx M.kernel.runningProc = ⟨e.adjusted, e.syscall⟩ :=
  if_pos rfl

theorem nextContext_of_live
    {x : Proc} (hne : x ≠ M.kernel.runningProc) (hlive : M.kernel.Live x) :
    M.nextContext e M' ctx x = ctx x := by
  rw [nextContext, if_neg hne, if_neg (fun h => h.1 hlive)]

theorem nextContext_of_created
    {x : Proc} (hne : x ≠ M.kernel.runningProc) (hdead : ¬ M.kernel.Live x)
    (hlive : M'.kernel.Live x) :
    M.nextContext e M' ctx x = ⟨e.stateAt (e.adjusted A.arg1), none⟩ := by
  rw [nextContext, if_neg hne, if_pos ⟨hdead, hlive⟩]

/-- The contexts are in order when the handler begins. -/
theorem contextOk_started
    (h : ContextOk ctx M.kernel.runningProc M.kernel) :
    ContextOk (M.nextContext e M' ctx) M.kernel.runningProc (M.started e) where
  sparing := started_sparing h.sparing
  saved := by
    intro x hlive hne
    have hlive' : M.kernel.Live x := hlive
    rw [nextContext_of_live hne hlive']
    exact h.saved x hlive' hne
  queued := by
    intro x d hx
    have hx' : x ∈ M.kernel.waitQueue (.dev d) := hx
    have hne : x ≠ M.kernel.runningProc := by
      rintro rfl
      exact h.sparing.ok.running_not_queued (.dev d) hx'
    rw [nextContext_of_live hne (h.sparing.ok.live_of_queued hx')]
    exact h.queued x d hx'

/-- The operations of an entry keep the contexts. -/
theorem contextOk_executes
    {k : Kernel A} (h : ContextOk ctx M.kernel.runningProc M.kernel)
    (hidle : M.kernel.runningProc = .idle → e.type = .INT)
    (hspare : ∀ op ∈ M.operations e.toException, M.kernel.SparesDevices op)
    (hcore : M'.kernel.core = k.core) (hexec : Executes m M e k) :
    ContextOk (M.nextContext e M' ctx) M.kernel.runningProc k ∧
      Commands (M.nextContext e M' ctx) M.kernel k := by
  have hok := h.sparing.ok
  refine (hexec.rule
    (fun k₁ => (ContextOk (M.nextContext e M' ctx) M.kernel.runningProc k₁ ∧
      Commands (M.nextContext e M' ctx) M.kernel k₁) ∧
      (e.type = .INT → ∀ d, M.kernel.runningProc ∉ k₁.waitQueue (.dev d)))
    hok hidle (fun op _ => h.sparing.safe op)
    ⟨⟨contextOk_started h, Commands.refl _ _⟩, fun _ d =>
      hok.running_not_queued (.dev d)⟩ ?_).1
  rintro k₁ op k₂ ⟨⟨hctx, hcommands⟩, hout⟩ hstep hmem hop
  have hsafe := hctx.sparing.safe op
  rcases hop with ⟨htype, hint⟩ | ⟨htype, rfl, rfl, hreq⟩
  · have hspare' : k₁.SparesDevices op :=
      Kernel.SparesDevices.of_not_terminates (Kernel.not_terminates_of_interrupt hint)
    have hargs : k₁.ContextOp (M.nextContext e M' ctx) M.kernel.runningProc op := by
      cases op with
      | doneIo d status =>
          exact hout htype
      | timeSlice =>
          exact trivial
      | _ => exact absurd hint id
    obtain ⟨hctx', hcommands'⟩ := hctx.step hspare' hargs hstep
    refine ⟨⟨hctx', hcommands.trans hcommands'⟩, fun _ d hd => ?_⟩
    have hmove := Kernel.device_move hctx.sparing.ok hctx.sparing.devicesOk hsafe hstep
    rcases hmove.queue_sub hd with hold | ⟨-, _, _, _, _, rfl⟩
    · exact hout htype d hold
    · exact hint
  · have hargs : (M.started e).ContextOp (M.nextContext e M' ctx) M.kernel.runningProc op := by
      cases op with
      | createProcess s priority =>
          obtain ⟨-, rfl, -⟩ := hreq
          intro x hx
          have hfree : M'.kernel.pcbFreeH = M.kernel.pcbFreeH.tail := by
            have := congrArg Kernel.pcbFreeH hcore
            exact this.trans (hstep.free_createProcess hctx.sparing.ok)
          have hxfree : x ∈ M.kernel.pcbFreeH := List.mem_of_mem_head? hx
          refine nextContext_of_created ?_ (fun hlive => hlive.2 hxfree) ⟨?_, ?_⟩
          · rintro rfl
            exact hok.running_not_free hxfree
          · rintro rfl
            exact hok.idle_not_free hxfree
          · rw [hfree]
            have hnd := hok.residence.free_nodup
            cases hq : M.kernel.pcbFreeH with
            | nil =>
                exact List.not_mem_nil
            | cons y free =>
                rw [hq] at hnd
                rw [show (M.started e).pcbFreeH = y :: free from hq] at hx
                obtain rfl : y = x := Option.some.inj hx
                exact (List.nodup_cons.mp hnd).1
      | waitIo command devReg subdev tod =>
          obtain ⟨hcall, rfl, -, -⟩ := hreq
          rw [Kernel.ContextOp, nextContext_self]
          exact ⟨rfl, hcall, rfl⟩
      | doneIo d status =>
          exact absurd hreq id
      | _ => exact trivial
    obtain ⟨hctx', hcommands'⟩ := hctx.step (hspare op hmem) hargs hstep
    exact ⟨⟨hctx', hcommands.trans hcommands'⟩, fun htype' => absurd htype' htype⟩

/-- The state that the handler leaves for the process that raised the exception. -/
theorem agrees_adjusted
    {st : State A}
    (hst : st = e.adjusted ∨
      (∃ w, st = e.adjusted.setRet w) ∧ (e.syscall = some 2 ∨ e.syscall = some 3)) :
    (M.nextContext e M' ctx M.kernel.runningProc).Agrees st := by
  rw [nextContext_self]
  rcases hst with rfl | ⟨⟨w, rfl⟩, hcall⟩
  · exact Context.agrees_of_eq rfl
  · exact Context.agrees_setRet rfl (hcall.imp_right Or.inl)

/-- One entry keeps the contexts, and resumes a process with its context. -/
theorem contextOk_enter
    {reply : Reply} {r : Resumed A} (h : ContextOk ctx M.kernel.runningProc M.kernel)
    (hidle : M.kernel.runningProc = .idle → e.type = .INT)
    (hdirect : ¬ M.PassedUp e.toException)
    (hspare : ∀ op ∈ M.operations e.toException, M.kernel.SparesDevices op)
    (henter : M.enter m e = .ok (M', reply, r)) :
    ContextOk (M.nextContext e M' ctx) M'.kernel.runningProc M'.kernel ∧
      Commands (M.nextContext e M' ctx) M.kernel M'.kernel ∧
      ∃ x st, r = .proc x st ∧
        (x ≠ .idle → (M.nextContext e M' ctx x).Agrees st) := by
  obtain ⟨k, hentered⟩ := enter_spec henter
  have hcore := hentered.core
  obtain ⟨hctx, ws, hbus, hws⟩ := contextOk_executes h hidle hspare hcore hentered.executes
  have hcommands : Commands (M.nextContext e M' ctx) M.kernel M'.kernel :=
    ⟨ws, (congrArg Kernel.bus hcore).trans hbus, hws⟩
  have hsparing : M'.kernel.Sparing := hctx.sparing.of_core hcore
  have hrun : M'.kernel.runningProc = k.runningProc := Kernel.runningProc_of_core hcore
  have hlive : ∀ x, M'.kernel.Live x → k.Live x :=
    fun x => (Kernel.live_of_core hcore x).mp
  have hqueue : ∀ x d, x ∈ M'.kernel.waitQueue (.dev d) → x ∈ k.waitQueue (.dev d) := by
    intro x d hx
    rwa [Kernel.waitQueue_of_core hcore] at hx
  cases hentered.resumes with
  | same st hst hsame hpS _ =>
      refine ⟨⟨hsparing, fun x hx hne => ?_, fun x d hx => ?_⟩, hcommands, _, _, rfl, ?_⟩
      · rw [hpS]
        exact hctx.saved x (hlive x hx) (hsame ▸ hrun ▸ hne)
      · rw [hpS, hrun, hsame]
        exact hctx.queued x d (hqueue x d hx)
      · intro _
        rw [hsame]
        exact agrees_adjusted hst
  | other st hst hother hpS _ =>
      have hsaved : ∀ x, x ≠ .idle → M'.kernel.pS x =
          if x = M.kernel.runningProc then st else k.pS x := by
        intro x hx
        rw [hpS]
        split_ifs with hidle hrunx hrunx
        · exact absurd (hrunx.trans hidle) hx
        · rfl
        · rw [hrunx]
          exact Function.update_self _ _ _
        · exact Function.update_of_ne hrunx _ _
      refine ⟨⟨hsparing, fun x hx hne => ?_, fun x d hx => ?_⟩, hcommands, _, _, rfl, ?_⟩
      · rw [hsaved x hx.1]
        split_ifs with hrunx
        · rw [hrunx]
          exact agrees_adjusted hst
        · exact hctx.saved x (hlive x hx) hrunx
      · have hxd := hqueue x d hx
        obtain ⟨hcall, hstate⟩ := hctx.queued x d hxd
        refine ⟨hcall, fun _ => ?_⟩
        rw [hsaved x (hctx.sparing.ok.live_of_queued hxd).1]
        split_ifs with hrunx
        · -- the caller of a WAITIO keeps the return register
          subst hrunx
          rw [nextContext_self] at hcall ⊢
          have hcall' : e.syscall = some 6 := hcall
          rcases hst with rfl | ⟨-, hother | hother⟩
          · rfl
          · rw [hcall'] at hother
            exact absurd hother (by simp)
          · rw [hcall'] at hother
            exact absurd hother (by simp)
        · exact hstate hrunx
      · intro hne
        exact hctx.saved k.runningProc (hctx.sparing.ok.running_live hne) hother
  | passup _ _ _ hup _ =>
      exact absurd hup hdirect

variable {M : ℕ → Machine A} {e : ℕ → Entry A} {n : ℕ} {r₀ : Resumed A}

theorem contextOk_of_run
    (hlaunch : (M 0).Launched r₀) (hrun : IsRun (Step m) M e n)
    (hdirect : ∀ i < n, ¬ (M i).PassedUp (e i).toException)
    (hspare : ∀ i < n, ∀ op ∈ (M i).operations (e i).toException,
      (M i).kernel.SparesDevices op) :
    ∀ i ≤ n, ContextOk (contexts M e i) (M i).kernel.runningProc (M i).kernel := by
  intro i
  induction i with
  | zero =>
      intro _
      have hfresh := hlaunch.booted.1.fresh
      refine ⟨hfresh.sparing, fun x _ _ => Context.agrees_of_eq rfl, fun x d hx => ?_⟩
      rw [hfresh.noWaiters] at hx
      exact absurd hx List.not_mem_nil
  | succ i ih =>
      intro hi
      obtain ⟨hidle, reply, r, henter⟩ := hrun i hi
      exact (contextOk_enter (ih (by omega)) hidle (hdirect i hi) (hspare i hi) henter).1

/--
The kernel preserves the states of the processes: the first load is the state of the
first process, every other one is the context of the process that is resumed, up to
the return register of its own system call, and every command that is sent on behalf
of a process is the argument of the WAITIO it has made.
-/
theorem contexts_preserved
    (hlaunch : (M 0).Launched r₀) (hrun : IsRun (Step m) M e n)
    (hdirect : ∀ i < n, ¬ (M i).PassedUp (e i).toException)
    (hspare : ∀ i < n, ∀ op ∈ (M i).operations (e i).toException,
      (M i).kernel.SparesDevices op) :
    r₀ = .proc (M 0).kernel.runningProc (contexts M e 0 (M 0).kernel.runningProc).state ∧
    ∀ i < n, ∀ reply r, (M i).enter m (e i) = .ok (M (i + 1), reply, r) →
      (∃ x st, r = .proc x st ∧ (x ≠ .idle → (contexts M e (i + 1) x).Agrees st)) ∧
      ∀ w ∈ (M i).kernel.sent (M (i + 1)).kernel, ∀ y, w.owner = some y →
        (contexts M e (i + 1) y).syscall = some 6 ∧
          w.command = (contexts M e (i + 1) y).state A.arg1 := by
  refine ⟨hlaunch.booted.2, fun i hi reply r henter => ?_⟩
  have hctx := contextOk_of_run hlaunch hrun hdirect hspare i hi.le
  obtain ⟨-, ⟨ws, hbus, hws⟩, hresumed⟩ :=
    contextOk_enter hctx (hrun i hi).1 (hdirect i hi) (hspare i hi) henter
  refine ⟨hresumed, fun w hw => hws w ?_⟩
  rw [Kernel.sent, hbus, List.drop_left] at hw
  exact hw

/-- Two processes use the printer, and the first one is done. -/
def printerEntries : List (Entry umps) :=
  [syscallMps 6 2 0x100001d0 0 0, syscallMps 6 3 0x100001d0 0 0,
    interruptMps (fun line => line = 6) (fun _ => 1)]

/-- The run of the printer entries; after the last one nothing happens. -/
abbrev printerRun (i : ℕ) : Machine umps :=
  states (next .int32) (launchMps [1, 1] 1000) printerEntries i

abbrev printerEntry (i : ℕ) : Entry umps :=
  printerEntries.getD i (interruptMps (fun _ => false) (fun _ => 0))

theorem printerEntries_isRun : IsRun (Step .int32) printerRun printerEntry 3 :=
  isRun_of_accepts _ (by decide +kernel)

/-- The completion interrupt sends the command of the second process. -/
theorem contexts_preserved_printerEntries :
    (contexts printerRun printerEntry 3 (.pcb 1)).syscall = some 6 ∧
      3 = (contexts printerRun printerEntry 3 (.pcb 1)).state umps.arg1 := by
  obtain ⟨-, reply, r, henter⟩ := printerEntries_isRun 2 (by decide)
  refine ((contexts_preserved (launchMps_launched 1000 (by decide) (by decide))
    printerEntries_isRun ?_ ?_).2 2 (by decide) reply r henter).2
    ⟨.PRIN, 0x100001d0, 3, some (.pcb 1)⟩ (by decide +kernel) (.pcb 1) rfl
  · intro i hi hup
    interval_cases i
    · exact absurd hup.1 (by decide +kernel)
    · exact absurd hup.1 (by decide +kernel)
    · exact hup
  · intro i hi
    refine sparesDevices_of_not_terminates ?_
    interval_cases i <;> decide +kernel

end Machine

end Bikaya
