import Bikaya.Proofs.DeviceProtocol

/-!
# Bikaya: the delivery of the completions

One interrupt may serve several devices, and each served process may take the processor
from the one that was served before.  The module follows one process through the scan.  It
waits at the head of its queue until its own device is served, and from then on it is ready
or running, with the status.

The scan of the terminals asks for one status, the scan of the other lines for none.
`Registers.lean` has the scan on the devices.

**Plan.**  `Awaits` is the state of the process before its turn and `Served` the state
after it.  The completions of the other devices keep either (`Awaits.step`, `Served.step`),
the own one leads from the first to the second (`Awaits.serve`), and the list of the
completions of a scan has the device once.

**Results.**
* `Awaits.run`: a list of completions that has the device once.
* `Delivered.mem_completions`, `delivered_of_mem`: the interrupt delivers a completion if
  and only if the scan serves the device.
-/

namespace Bikaya

open TransitionSystem

/--
The line of the device and its bit say that it has a completion pending.  The two
sub-devices of a terminal share the bit.
-/
structure Irq.Raises (irq : Irq) (d : Dev) : Prop where
  line : irq.pending (getExtDevLine d.type) = true
  bit : (irq.bitmap (getExtDevLine d.type)).testBit d.num = true

/-- The completion is still pending after some writes: none of them went to the device. -/
structure Irq.StillRaises (irq : Irq) (A : Arch) (ws : List BusWrite) (d : Dev) : Prop where
  raised : irq.Raises d
  unanswered : ∀ w ∈ ws, w.cell A ≠ some d

namespace Irq

variable {irq : Irq} {d : Dev}

/-- The line of a type of devices other than the terminals. -/
theorem lineType_eq_some
    {l : Nat} (hl : l ∈ [3, 4, 5, 6]) (t : ExtDevType) :
    Kernel.lineType l = some t ↔ getExtDevLine t = l := by
  revert l
  cases t <;> decide

theorem mem_line
    {l : Nat} :
    d ∈ irq.line l ↔
      irq.pending l = true ∧ Kernel.lineType l = some d.type ∧
        (irq.bitmap l).testBit d.num = true := by
  unfold line
  split_ifs with hpending
  · cases htype : Kernel.lineType l with
    | none =>
        simp
    | some t =>
        obtain ⟨type, num⟩ := d
        simp [Kernel.pendingDevs, hpending, and_comm]
  · simp [hpending]

theorem mem_terminals :
    d ∈ irq.terminals ↔
      irq.pending IL_TERMINAL = true ∧ (d.type = .TERM_RX ∨ d.type = .TERM_TX) ∧
        (irq.bitmap IL_TERMINAL).testBit d.num = true ∧
        irq.status d &&& DEV_STATUS_MASK = TERM_ST_DONE := by
  obtain ⟨type, num⟩ := d
  unfold terminals
  split_ifs with hpending
  · simp only [List.mem_filter, List.mem_flatMap, Kernel.pendingDevs, List.mem_finRange, true_and,
      List.mem_cons, List.not_mem_nil, or_false, Dev.mk.injEq, decide_eq_true_eq, hpending]
    constructor
    · rintro ⟨⟨n, hbit, ⟨rfl, rfl⟩ | ⟨rfl, rfl⟩⟩, hdone⟩
      · exact ⟨Or.inl rfl, hbit, hdone⟩
      · exact ⟨Or.inr rfl, hbit, hdone⟩
    · rintro ⟨htype, hbit, hdone⟩
      exact ⟨⟨num, hbit, htype.imp (⟨·, rfl⟩) (⟨·, rfl⟩)⟩, hdone⟩
  · simp [hpending]

/-- The scan serves the pending completions, those of the terminals by their status. -/
theorem Raises.mem_completions
    (h : irq.Raises d) :
    d ∈ irq.completions ↔
      (getExtDevLine d.type = IL_TERMINAL →
        irq.status d &&& DEV_STATUS_MASK = TERM_ST_DONE) := by
  obtain ⟨hline, hbit⟩ := h
  rw [completions, List.mem_append, List.mem_flatMap, mem_terminals]
  by_cases hterm : getExtDevLine d.type = IL_TERMINAL
  · have hother : ¬ ∃ l ∈ [3, 4, 5, 6], d ∈ irq.line l := by
      rintro ⟨l, hl, hd⟩
      have hl' := (lineType_eq_some hl d.type).mp (mem_line.mp hd).2.1
      rw [hterm] at hl'
      rw [← hl'] at hl
      exact absurd hl (by decide)
    rw [hterm] at hline hbit
    have htype : d.type = .TERM_RX ∨ d.type = .TERM_TX := by
      revert hterm
      cases d.type <;> decide
    constructor
    · rintro (hd | ⟨-, -, -, hdone⟩) -
      · exact absurd hd hother
      · exact hdone
    · intro hdone
      exact Or.inr ⟨hline, htype, hbit, hdone hterm⟩
  · have hl : getExtDevLine d.type ∈ [3, 4, 5, 6] := by
      revert hterm
      cases d.type <;> decide
    constructor
    · intro _ hterm'
      exact absurd hterm' hterm
    · intro _
      exact Or.inl ⟨_, hl, mem_line.mpr ⟨hline, (lineType_eq_some hl d.type).mpr rfl, hbit⟩⟩

end Irq

namespace Kernel

variable {A : Arch} {k k₀ k' : Kernel A} {m : IntModel} {op : Operation A}

section Interrupts

theorem Ok.interrupt
    (h : k.Ok) (hop : op.Interrupt) (hstep : Step m k op k') :
    k'.Ok :=
  h.step (Safe.of_not_terminates (not_terminates_of_interrupt hop)) hstep

/-- What an operation of an interrupt does to the devices. -/
theorem device_move_interrupt
    (h : k.Ok) (hop : op.Interrupt) (hstep : Step m k op k') :
    DeviceMove k op k'.devices := by
  cases op with
  | doneIo d status =>
      rw [← Except.ok.inj hstep.2]
      exact device_move_doneIo h d status
  | timeSlice =>
      have hfree : (Operation.timeSlice : Operation A).DeviceFree := trivial
      rw [(sameDevices_step h hfree (by simp) hstep).view]
      exact DeviceMove.quiet hfree (by simp)
  | _ => exact absurd hop id

/-- A device keeps its queue and its registration until it is served. -/
theorem DeviceMove.unserved
    {v : DeviceView} (hmove : DeviceMove k op v) (hop : op.Interrupt)
    {d : Dev} (hother : ¬ op.Completes d) :
    v.queue d = k.waitQueue (.dev d) ∧ v.res d = k.wForRes d := by
  cases hmove with
  | quiet _ _ =>
      exact ⟨rfl, rfl⟩
  | spurious _ _ _ =>
      exact ⟨rfl, rfl⟩
  | abandon d' status r _ _ =>
      exact ⟨rfl, Function.update_of_ne hother _ _⟩
  | serve d' status r q _ _ =>
      rw [DeviceView.queue_send, DeviceView.queue_promote, DeviceView.res_send,
        DeviceView.res_promote]
      exact ⟨Function.update_of_ne hother _ _, Function.update_of_ne hother _ _⟩
  | lose d' status r x q _ _ _ =>
      rw [DeviceView.queue_send, DeviceView.queue_promote, DeviceView.res_send,
        DeviceView.res_promote]
      exact ⟨Function.update_of_ne hother _ _, Function.update_of_ne hother _ _⟩
  | _ => exact absurd hop id

/-- The write that follows the completion of the registered process. -/
theorem DeviceMove.bus_serve
    {v : DeviceView} {d : Dev} {status : Word} (hmove : DeviceMove k (.doneIo d status) v)
    {r : Proc} {q : List Proc} (hr : k.wForRes d = some r) (hq : k.waitQueue (.dev d) = r :: q) :
    v.bus = k.bus ++ [k.nextWrite d q.head?] := by
  cases hmove with
  | quiet hfree _ =>
      exact absurd hfree id
  | spurious _ _ hr' =>
      rw [hr] at hr'
      exact absurd hr' (by simp)
  | abandon _ _ r' _ hq' =>
      rw [hq] at hq'
      exact absurd hq' (by simp)
  | serve _ _ r' q' _ hq' =>
      rw [hq] at hq'
      obtain ⟨-, rfl⟩ := List.cons.inj hq'
      rw [DeviceView.bus_send, DeviceView.bus_promote]
      rfl
  | lose _ _ r' x q' hr' hx hq' =>
      rw [hq] at hq'
      rw [hr] at hr'
      exact absurd ((List.cons.inj hq').1.symm.trans (Option.some.inj hr')) hx

/-- An interrupt writes to the state of a process that it takes off a queue, and to no other. -/
theorem Step.pS_interrupt
    (hstep : Step m k op k') (h : k.Ok) (hop : op.Interrupt) {x : Proc}
    (hx : ∀ d, op.Completes d → x ∉ k.waitQueue (.dev d)) :
    k'.pS x = k.pS x := by
  cases op with
  | doneIo d status =>
      rcases hstep.pS_cases h trivial with
        ⟨heq, -⟩ | ⟨s, priority, y, free, hcreate, -⟩ | ⟨d', status', r, q, hdone, -, hq, heq⟩
      · rw [heq]
      · exact absurd hcreate (by simp)
      · obtain ⟨rfl, rfl⟩ := Operation.doneIo.inj hdone
        have hxr : x ≠ r := by
          rintro rfl
          exact hx d rfl (hq ▸ List.mem_cons_self)
        rw [heq, Function.update_of_ne hxr]
  | timeSlice =>
      rcases hstep.pS_cases h trivial with
        ⟨heq, -⟩ | ⟨s, priority, y, free, hcreate, -⟩ | ⟨d', status', r, q, hdone, -⟩
      · rw [heq]
      · exact absurd hcreate (by simp)
      · exact absurd hdone (by simp)
  | _ => exact absurd hop id

/-- No process is blocked by an interrupt. -/
theorem Step.schedulable_interrupt
    (hstep : Step m k op k') (h : k.Ok) (hop : op.Interrupt) {x : Proc}
    (hx : k.Schedulable x) :
    k'.Schedulable x := by
  obtain ⟨-, hexec⟩ := hstep
  cases op with
  | doneIo d status =>
      rw [← Except.ok.inj hexec]
      cases hr : k.wForRes d with
      | none =>
          rw [doneIo_none m d hr]
          exact hx
      | some r =>
          cases hq : k.waitQueue (.dev d) with
          | nil =>
              rw [doneIo_nil m d h.residence.aslOk hr hq]
              exact hx
          | cons y q =>
              by_cases hy : y = r
              · subst hy
                exact (schedulable_doneIo h hr hq status x).mpr (Or.inl hx)
              · obtain ⟨asl, heq, -, -⟩ := doneIo_cons m d h.residence.aslOk hr hq status
                rw [heq, if_neg hy]
                cases q.head? <;> exact hx
  | timeSlice =>
      rw [← Except.ok.inj hexec]
      rcases timeSlice_spec (k := k) m with ⟨heq, -⟩ | ⟨y, q, hready, -, heq⟩
      · rw [heq]
        exact hx
      · have hy : y ≠ .idle := by
          rintro rfl
          refine h.idle_not_ready ?_
          rw [hready]
          exact List.mem_cons_self
        rw [heq, schedulable_preempt hy]
        obtain ⟨hidle, hrun | hmem⟩ := hx
        · exact Or.inl ⟨hidle, Or.inl hrun⟩
        · rw [hready] at hmem
          rcases List.mem_cons.mp hmem with rfl | hmem
          · exact Or.inr rfl
          · exact Or.inl ⟨hidle, Or.inr hmem⟩
  | _ => exact absurd hop id

end Interrupts

/-- What the interrupt does for a process whose completion is delivered. -/
structure Delivered (k : Kernel A) (irq : Irq) (d : Dev) (r : Proc) (next : Option Proc)
    (k' : Kernel A) : Prop where
  resumed : k'.Schedulable r
  status : k'.pS r A.retReg = irq.status d
  /-- The device gets the command of the next process, or an acknowledgement. -/
  answered : k.nextWrite d next ∈ k.sent k'
  settled : ¬ irq.StillRaises A (k.sent k') d

section Scan

variable {irq : Irq} {d : Dev} {r : Proc} {q : List Proc} {status : Word}

/-- The process before the completion of its device; `k₀` is the state at the interrupt. -/
structure Awaits (k₀ : Kernel A) (d : Dev) (r : Proc) (q : List Proc) (k : Kernel A) :
    Prop where
  ok : k.Ok
  registered : k.wForRes d = some r
  queue : k.waitQueue (.dev d) = r :: q
  saved : ∀ x ∈ q, k.pS x = k₀.pS x
  bus : k₀.bus <+: k.bus

/-- The process after the completion of its device. -/
structure Served (k₀ : Kernel A) (d : Dev) (r : Proc) (q : List Proc) (status : Word)
    (k : Kernel A) : Prop where
  ok : k.Ok
  resumed : k.Schedulable r
  status : k.pS r A.retReg = status
  bus : ∃ ws, k.bus = k₀.bus ++ ws ∧ k₀.nextWrite d q.head? ∈ ws

theorem bus_interrupt
    (h : k.Ok) (hop : op.Interrupt) (hstep : Step m k op k') :
    k.bus <+: k'.bus := by
  obtain ⟨ws, hbus, -⟩ := (device_move_interrupt h hop hstep).bus_cases
  exact ⟨ws, hbus.symm⟩

/-- The completions of the other devices do not concern a process that waits. -/
theorem Awaits.step
    (h : Awaits k₀ d r q k) (hop : op.Interrupt) (hother : ¬ op.Completes d)
    (hstep : Step m k op k') :
    Awaits k₀ d r q k' := by
  obtain ⟨hqueue, hres⟩ := (device_move_interrupt h.ok hop hstep).unserved hop hother
  refine ⟨h.ok.interrupt hop hstep, hres.trans h.registered, hqueue.trans h.queue,
    fun x hx => ?_, h.bus.trans (bus_interrupt h.ok hop hstep)⟩
  have hmem : x ∈ k.waitQueue (.dev d) := by
    rw [h.queue]
    exact List.mem_cons_of_mem r hx
  rw [hstep.pS_interrupt h.ok hop (fun d' hd' hx' => ?_), h.saved x hx]
  obtain rfl : d' = d := h.ok.devices_unique hmem hx'
  exact hother hd'

/-- The completion of its device serves it. -/
theorem Awaits.serve
    (h : Awaits k₀ d r q k) (hstep : Step m k (.doneIo d status) k') :
    Served k₀ d r q status k' := by
  have hop : (Operation.doneIo d status : Operation A).Interrupt := trivial
  have hbus := (device_move_interrupt h.ok hop hstep).bus_serve h.registered h.queue
  have hok := h.ok.interrupt hop hstep
  obtain rfl : k.doneIo m d status = k' := Except.ok.inj hstep.2
  have hnext : k.nextWrite d q.head? = k₀.nextWrite d q.head? := by
    cases q with
    | nil =>
        rfl
    | cons y q =>
        simp only [nextWrite, List.head?_cons, Option.elim_some, h.saved y List.mem_cons_self]
  refine ⟨hok, (schedulable_doneIo h.ok h.registered h.queue status r).mpr (Or.inr rfl), ?_, ?_⟩
  · rw [(doneIo_serve h.ok h.registered h.queue status).2.1, Function.update_self]
    exact Function.update_self _ _ _
  · obtain ⟨ws, hws⟩ := h.bus
    refine ⟨ws ++ [k₀.nextWrite d q.head?], ?_, by simp⟩
    rw [← List.append_assoc, hws, ← hnext]
    exact hbus

/-- The rest of the scan leaves it the processor or the ready queue, and its status. -/
theorem Served.step
    (h : Served k₀ d r q status k) (hop : op.Interrupt) (hstep : Step m k op k') :
    Served k₀ d r q status k' := by
  obtain ⟨ws, hws, hmem⟩ := h.bus
  obtain ⟨ws', hws'⟩ := bus_interrupt h.ok hop hstep
  refine ⟨h.ok.interrupt hop hstep, hstep.schedulable_interrupt h.ok hop h.resumed, ?_,
    ws ++ ws', ?_, List.mem_append_left ws' hmem⟩
  · rw [hstep.pS_interrupt h.ok hop (fun d' _ hr => h.ok.not_schedulable hr h.resumed)]
    exact h.status
  · rw [← hws', hws, List.append_assoc]

theorem Served.delivered
    (h : Served k₀ d r q (irq.status d) k) :
    Delivered k₀ irq d r q.head? k := by
  obtain ⟨ws, hws, hmem⟩ := h.bus
  have hsent : k₀.sent k = ws := by
    rw [sent, hws, List.drop_left]
  refine ⟨h.resumed, h.status, hsent ▸ hmem, fun hraised => ?_⟩
  exact hraised.unanswered _ (hsent ▸ hmem) (cell_nextWrite d q.head?)

/-- A process that the scan does not serve waits until the end. -/
theorem Awaits.run
    (h : Awaits k₀ d r q k) {ops : List (Operation A)} (hint : ∀ op ∈ ops, op.Interrupt)
    (hother : ∀ op ∈ ops, ¬ op.Completes d) (hall : k.execAll m ops = .ok k') :
    Awaits k₀ d r q k' :=
  execAll_invariant (fun _ op _ hop h hexec => h.step (hint op hop) (hother op hop)
    (step_of_interrupt (hint op hop) hexec)) h hall

theorem Served.run
    (h : Served k₀ d r q status k) {ops : List (Operation A)} (hint : ∀ op ∈ ops, op.Interrupt)
    (hall : k.execAll m ops = .ok k') :
    Served k₀ d r q status k' :=
  execAll_invariant (fun _ op _ hop h hexec => h.step (hint op hop)
    (step_of_interrupt (hint op hop) hexec)) h hall

/-- The completions that the scan serves. -/
theorem completes_iff_of_mem (hop : op ∈ interruptOps irq) :
    op.Completes d ↔ op = .doneIo d (irq.status d) := by
  rcases Machine.mem_interruptOps hop with rfl | ⟨d', -, rfl⟩
  · exact iff_of_false id (by simp)
  · constructor
    · rintro rfl
      rfl
    · intro heq
      exact (Operation.doneIo.inj heq).1.symm

theorem doneIo_mem_interruptOps :
    Operation.doneIo d (irq.status d) ∈ interruptOps (A := A) irq ↔ d ∈ irq.completions := by
  constructor
  · intro hop
    rcases Machine.mem_interruptOps hop with heq | ⟨d', hd', heq⟩
    · exact absurd heq (by simp)
    · rw [(Operation.doneIo.inj heq).1]
      exact hd'
  · intro hd
    exact List.mem_append_right _ (List.mem_map.mpr ⟨d, hd, rfl⟩)

/-- A process that is delivered its completion has been served by the scan. -/
theorem Delivered.mem_completions
    {irq' : Irq} {next : Option Proc} (h : k.Ok) (hr : k.wForRes d = some r)
    (hq : k.waitQueue (.dev d) = r :: q)
    (hdelivered : Delivered k irq' d r next (k.consumeInterrupts m irq)) :
    d ∈ irq.completions := by
  have hawaits : Awaits k d r q k := ⟨h, hr, hq, fun _ _ => rfl, List.prefix_rfl⟩
  by_contra hd
  have hother : ∀ op ∈ interruptOps (A := A) irq, ¬ op.Completes d := by
    intro op hop hcompletes
    rw [completes_iff_of_mem hop] at hcompletes
    exact hd (doneIo_mem_interruptOps.mp (hcompletes ▸ hop))
  have hend := hawaits.run (fun _ => Machine.interrupt_of_mem) hother
    (execAll_interruptOps (m := m) irq k)
  have hmem : r ∈ (k.consumeInterrupts m irq).waitQueue (.dev d) := by
    rw [hend.queue]
    exact List.mem_cons_self
  exact hend.ok.not_schedulable hmem hdelivered.resumed

/-- The scan delivers the completions that it serves. -/
theorem delivered_of_mem
    (h : k.Ok) (hr : k.wForRes d = some r) (hq : k.waitQueue (.dev d) = r :: q)
    (hd : d ∈ irq.completions) :
    Delivered k irq d r q.head? (k.consumeInterrupts m irq) := by
  have hall := execAll_interruptOps (m := m) irq k
  have hint : ∀ op ∈ interruptOps (A := A) irq, op.Interrupt :=
    fun _ => Machine.interrupt_of_mem
  have hawaits : Awaits k d r q k := ⟨h, hr, hq, fun _ _ => rfl, List.prefix_rfl⟩
  -- the scan up to the first completion of the device, and after it
  obtain ⟨ops, ops', hops, hfirst⟩ :=
    List.eq_append_cons_of_mem (doneIo_mem_interruptOps (A := A).mpr hd)
  rw [hops, List.append_cons] at hall
  obtain ⟨k₂, hall, hrest⟩ := execAll_append hall
  obtain ⟨k₁, hbefore, hdone⟩ := execAll_append hall
  have hops_mem : ∀ op ∈ ops, op ∈ interruptOps (A := A) irq := by
    intro op hop
    rw [hops]
    exact List.mem_append_left _ hop
  have hbefore := hawaits.run (fun op hop => hint op (hops_mem op hop)) (fun op hop hd => by
    rw [completes_iff_of_mem (hops_mem op hop)] at hd
    exact hfirst (hd ▸ hop)) hbefore
  have hserved := hbefore.serve (step_of_interrupt trivial (execAll_singleton hdone))
  refine (hserved.run (fun op hop => hint op ?_) hrest).delivered
  rw [hops]
  exact List.mem_append_right _ (List.mem_cons_of_mem _ hop)

/-- What is delivered does not depend on the other devices. -/
theorem Delivered.of_status
    {irq' : Irq} {next : Option Proc} (h : Delivered k irq d r next k')
    (hstatus : irq'.status d = irq.status d) :
    Delivered k irq' d r next k' :=
  ⟨h.resumed, h.status.trans hstatus.symm, h.answered,
    fun hraised => hraised.unanswered _ h.answered (cell_nextWrite d next)⟩

end Scan

end Kernel

end Bikaya
