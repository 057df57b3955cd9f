import Bikaya.Proofs.Conservation

/-!
# Bikaya: the queues of the devices

What the operations do to the devices: the queue of each device, the process registered as
waiting for its response, and the registrations the processes carry.  One theorem lists all
the moves; the protocol invariants are case analyses over it.

**Plan.**  `DeviceView` has what the operations do to devices: the queues, the registered
processes, the registrations of the processes and the integers.  `DeviceMove` has one
constructor for each way an operation can change it, and `device_move` says that every
operation is one of them.  `Registered` is the invariant that a registration of a live
process is mutual; it holds as long as no termination meets a process that was registered
in an earlier use of its PCB (`SparesDevices`).

**Results.**
* `device_move`: the moves of an operation.
* `DevicesOk.step`: the integer of a device tells whether it is taken.
* `DeviceMove.registered`: the moves keep the registrations mutual.
* `sparing_of_run`: the invariants in every state of such a run.
-/

namespace Bikaya

open OrderedForest TransitionSystem

/-- The queues and the registrations of the devices, and the commands sent to them. -/
structure DeviceView where
  queue : Dev → List Proc
  /-- `w_for_res`. -/
  res : Dev → Option Proc
  /-- `dev_w_list`. -/
  list : Proc → Option Dev
  bus : List BusWrite

namespace DeviceView

variable (v : DeviceView)

/-- The queue of one device is replaced. -/
def setQueue (d : Dev) (q : List Proc) : DeviceView :=
  { v with queue := Function.update v.queue d q }

/-- `p` is registered with the device. -/
def register (d : Dev) (p : Proc) : DeviceView :=
  { v with
    res := Function.update v.res d (some p)
    list := Function.update v.list p (some d) }

/-- The device has no registered process any more. -/
def vacate (d : Dev) : DeviceView :=
  { v with res := Function.update v.res d none }

/-- The next process in line, if any, is registered. -/
def promote (d : Dev) : Option Proc → DeviceView
  | some p => v.register d p
  | none => v.vacate d

/-- A write to the device registers. -/
def send (w : BusWrite) : DeviceView :=
  { v with bus := v.bus ++ [w] }

/-- The process is not registered any more. -/
def release (p : Proc) : DeviceView :=
  { v with list := Function.update v.list p none }

/-- Only some processes stay in the queues. -/
def restrict (l : List Proc) : DeviceView :=
  { v with queue := fun d => Kernel.survivors l (v.queue d) }

section Fields

variable {v} {d : Dev} {p : Proc} {q : List Proc} {w : BusWrite}

@[simp] theorem queue_setQueue : (v.setQueue d q).queue = Function.update v.queue d q := rfl
@[simp] theorem res_setQueue : (v.setQueue d q).res = v.res := rfl
@[simp] theorem list_setQueue : (v.setQueue d q).list = v.list := rfl
@[simp] theorem queue_register : (v.register d p).queue = v.queue := rfl
@[simp] theorem res_register : (v.register d p).res = Function.update v.res d (some p) := rfl
@[simp] theorem list_register : (v.register d p).list = Function.update v.list p (some d) := rfl
@[simp] theorem queue_vacate : (v.vacate d).queue = v.queue := rfl
@[simp] theorem res_vacate : (v.vacate d).res = Function.update v.res d none := rfl
@[simp] theorem list_vacate : (v.vacate d).list = v.list := rfl
@[simp] theorem queue_release : (v.release p).queue = v.queue := rfl
@[simp] theorem res_release : (v.release p).res = v.res := rfl
@[simp] theorem list_release : (v.release p).list = Function.update v.list p none := rfl
@[simp] theorem queue_send : (v.send w).queue = v.queue := rfl
@[simp] theorem res_send : (v.send w).res = v.res := rfl
@[simp] theorem list_send : (v.send w).list = v.list := rfl
@[simp] theorem bus_send : (v.send w).bus = v.bus ++ [w] := rfl
@[simp] theorem promote_some : v.promote d (some p) = v.register d p := rfl
@[simp] theorem promote_none : v.promote d none = v.vacate d := rfl

@[simp] theorem queue_promote (next : Option Proc) : (v.promote d next).queue = v.queue := by
  cases next <;> rfl

@[simp] theorem res_promote (next : Option Proc) :
    (v.promote d next).res = Function.update v.res d next := by
  cases next <;> rfl

@[simp] theorem bus_promote (next : Option Proc) : (v.promote d next).bus = v.bus := by
  cases next <;> rfl

theorem list_promote_self : (v.promote d (some p)).list p = some d :=
  Function.update_self _ _ _

theorem list_promote_of_ne
    {next : Option Proc} (hp : next ≠ some p) :
    (v.promote d next).list p = v.list p := by
  cases next with
  | none =>
      rfl
  | some y =>
      refine Function.update_of_ne ?_ _ _
      rintro rfl
      exact hp rfl

end Fields

end DeviceView

namespace Kernel

variable {A : Arch} {k k' : Kernel A} {m : IntModel}

/-- The devices, as the kernel sees them. -/
def devices (k : Kernel A) : DeviceView where
  queue := fun d => k.waitQueue (.dev d)
  res := k.wForRes
  list := k.devWList
  bus := k.bus

/-- The write that follows a completed operation: a command, or an acknowledgement. -/
def nextWrite (k : Kernel A) (d : Dev) (next : Option Proc) : BusWrite where
  type := d.type
  devReg := A.devReg d
  command := next.elim DEVICE_CMD_ACK (fun p => k.pS p A.arg1)
  owner := next

/-- The cell of `dev_w_lists` that the arguments of a WAITIO select. -/
def waitCell (A : Arch) (devReg subdev : Word) : Option Dev :=
  devCell (getExtDevType (A.getDevLine devReg) subdev) (A.getDevInstance devReg)

/-- A device is free, with nobody in its queue, or one process is registered. -/
structure DevicesOk (k : Kernel A) : Prop where
  sem : ∀ d, k.wForCmdSem d = if k.wForRes d = none then 1 else 0
  vacant : ∀ d, k.wForRes d = none → k.waitQueue (.dev d) = []

theorem Fresh.devicesOk (h : k.Fresh) : k.DevicesOk :=
  ⟨fun d => by rw [h.wForCmdSem, h.wForRes, if_pos rfl], fun d _ => h.noWaiters _⟩

/-- What an operation does to the devices. -/
inductive DeviceMove (k : Kernel A) : Operation A → DeviceView → Prop
  /-- Nothing, if it has nothing to do with devices and terminates nobody. -/
  | quiet {op : Operation A} :
      op.DeviceFree →
      (∀ p, op ≠ .terminateProcess p) →
      DeviceMove k op k.devices
  /-- The terminated processes leave the queues. -/
  | remove (p : Option Proc) (l : List Proc) :
      (∀ x, x ∈ l ↔ Below k.pChild x (p.getD k.runningProc)) →
      DeviceMove k (.terminateProcess p) (k.devices.restrict l)
  /-- The device is busy: the caller waits for its turn. -/
  | wait (command devReg subdev tod : Word) (d : Dev) (r : Proc) :
      waitCell A devReg subdev = some d →
      k.wForRes d = some r →
      DeviceMove k (.waitIo command devReg subdev tod)
        (k.devices.setQueue d
          (insertProcQ k.priority (k.waitQueue (.dev d)) k.runningProc))
  /-- The device is free: the caller waits for the response. -/
  | submit (command devReg subdev tod : Word) (d : Dev) :
      waitCell A devReg subdev = some d →
      k.wForRes d = none →
      DeviceMove k (.waitIo command devReg subdev tod)
        (((k.devices.setQueue d [k.runningProc]).register d k.runningProc).send
          ⟨d.type, devReg, command, some k.runningProc⟩)
  /-- Nobody is registered. -/
  | spurious (d : Dev) (status : Word) :
      k.wForRes d = none →
      DeviceMove k (.doneIo d status) k.devices
  /-- Somebody is registered, but nobody is queued. -/
  | abandon (d : Dev) (status : Word) (r : Proc) :
      k.wForRes d = some r →
      k.waitQueue (.dev d) = [] →
      DeviceMove k (.doneIo d status) ((k.devices.vacate d).send (k.nextWrite d none))
  /-- The registered process is the first of the queue: it gets its response. -/
  | serve (d : Dev) (status : Word) (r : Proc) (q : List Proc) :
      k.wForRes d = some r →
      k.waitQueue (.dev d) = r :: q →
      DeviceMove k (.doneIo d status)
        ((((k.devices.setQueue d q).release r).promote d q.head?).send (k.nextWrite d q.head?))
  /-- The first process of the queue is another one: it is lost. -/
  | lose (d : Dev) (status : Word) (r x : Proc) (q : List Proc) :
      k.wForRes d = some r →
      x ≠ r →
      k.waitQueue (.dev d) = x :: q →
      DeviceMove k (.doneIo d status)
        (((k.devices.setQueue d q).promote d q.head?).send (k.nextWrite d q.head?))

section Step

theorem add_one_sub_one : m.add 1 (-1) = 0 := by
  cases m <;> rfl

theorem add_zero_sub_one : m.add 0 (-1) = -1 := by
  cases m <;> rfl

theorem add_neg_one_one : m.add (-1) 1 = 0 := by
  cases m <;> rfl

theorem add_zero_one : m.add 0 1 = 1 := by
  cases m <;> rfl

/-- Kernels with the same devices and the same device semaphores. -/
structure SameDevices (k k' : Kernel A) : Prop where
  view : k'.devices = k.devices
  sem : k'.wForCmdSem = k.wForCmdSem

theorem SameDevices.devicesOk
    (h : SameDevices k k') (hdev : k.DevicesOk) :
    k'.DevicesOk := by
  have hres : k'.wForRes = k.wForRes := congrArg DeviceView.res h.view
  have hqueue : ∀ d, k'.waitQueue (.dev d) = k.waitQueue (.dev d) :=
    congrFun (congrArg DeviceView.queue h.view)
  constructor
  · intro d
    rw [h.sem, hres]
    exact hdev.sem d
  · intro d hd
    rw [hqueue]
    exact hdev.vacant d (hres ▸ hd)

theorem SameDevices.scheduleProc
    (h : SameDevices k k') (x : Proc) :
    SameDevices k (k'.scheduleProc x) := by
  obtain ⟨priority, ready, running, heq⟩ := scheduleProc_frame k' x
  rw [heq]
  exact ⟨h.view, h.sem⟩

theorem SameDevices.runNextReady
    (h : SameDevices k k') :
    SameDevices k k'.runNextReady := by
  rw [runNextReady_eq]
  exact ⟨h.view, h.sem⟩

/-- The queues of the devices after a change of the queue of a user semaphore. -/
theorem devices_of_user
    {asl : Asl} {a : SemAddr} {q : List Proc}
    (hwait : asl.waitQueue = Function.update k.waitQueue (.user a) q) :
    ∀ d, asl.waitQueue (.dev d) = k.waitQueue (.dev d) := by
  intro d
  rw [hwait]
  exact Function.update_of_ne (by simp) _ _

/-- The queues of the devices after a change of the queue of one device. -/
theorem devices_of_dev
    {asl : Asl} {d : Dev} {q : List Proc}
    (hwait : asl.waitQueue = Function.update k.waitQueue (.dev d) q) :
    (fun d => asl.waitQueue (.dev d)) = Function.update k.devices.queue d q := by
  funext d'
  rw [hwait]
  by_cases hd : d' = d
  · subst hd
    rw [Function.update_self, Function.update_self]
  · rw [Function.update_of_ne (by simpa using hd), Function.update_of_ne hd]
    rfl

/-- Operations that neither wait for a device nor terminate leave the devices alone. -/
theorem sameDevices_step
    {op : Operation A} (h : k.Ok) (hfree : op.DeviceFree)
    (hterm : ∀ p, op ≠ .terminateProcess p) (hstep : Step m k op k') :
    SameDevices k k' := by
  obtain ⟨hadm, hexec⟩ := hstep
  cases op with
  | createProcess s priority =>
      cases hnil : k.pcbFreeH with
      | nil =>
          simp only [exec, createProcess_nil hnil] at hexec
          obtain rfl : k = k' := Except.ok.inj hexec
          exact ⟨rfl, rfl⟩
      | cons x free =>
          obtain ⟨-, -, -, hxrun⟩ := h.adopt hnil hadm s priority
          simp only [exec, createProcess_cons hnil hxrun] at hexec
          rw [← Except.ok.inj hexec]
          refine SameDevices.scheduleProc ?_ x
          exact ⟨rfl, rfl⟩
  | terminateProcess p =>
      exact absurd rfl (hterm p)
  | passeren a tod =>
      simp only [exec] at hexec
      rcases p_spec m a h hadm tod with ⟨-, heq⟩ | ⟨-, asl, heq, -, hwait⟩
      · rw [← Except.ok.inj (heq.symm.trans hexec)]
        exact ⟨rfl, rfl⟩
      · rw [← Except.ok.inj (heq.symm.trans hexec)]
        refine SameDevices.runNextReady ⟨?_, rfl⟩
        simp only [devices, waitQueue, DeviceView.mk.injEq, and_true]
        exact funext (devices_of_user hwait)
  | verhogen a =>
      rw [← Except.ok.inj hexec]
      rcases v_spec m a h.residence.aslOk with ⟨-, heq⟩ | ⟨x, q, asl, -, heq, -, hwait⟩
      · rw [heq]
        exact ⟨rfl, rfl⟩
      · rw [heq]
        refine SameDevices.scheduleProc ?_ x
        refine ⟨?_, rfl⟩
        simp only [devices, waitQueue, DeviceView.mk.injEq, and_true]
        exact funext (devices_of_user hwait)
  | waitIo _ _ _ _ =>
      exact absurd hfree id
  | doneIo _ _ =>
      exact absurd hfree id
  | timeSlice =>
      rw [← Except.ok.inj hexec]
      obtain ⟨priority, ready, running, heq⟩ := timeSlice_frame m k
      rw [heq]
      exact ⟨rfl, rfl⟩
  | write a value =>
      rw [← Except.ok.inj hexec]
      exact ⟨rfl, rfl⟩

/-- The second half of `done_io`, as a move. -/
theorem devices_nextCommand (k : Kernel A) (d : Dev) (next : Option Proc) :
    (k.nextCommand m d next).devices =
      (k.devices.promote d next).send (k.nextWrite d next) := by
  cases next <;> rfl

theorem devices_respond (k : Kernel A) (x : Proc) (status : Word) :
    (k.respond x status).devices = k.devices.release x :=
  (SameDevices.scheduleProc (k := { k with devWList := Function.update k.devWList x none })
    ⟨rfl, rfl⟩ x).view

theorem wForCmdSem_respond (k : Kernel A) (x : Proc) (status : Word) :
    (k.respond x status).wForCmdSem = k.wForCmdSem :=
  (SameDevices.scheduleProc (k := { k with devWList := Function.update k.devWList x none })
    ⟨rfl, rfl⟩ x).sem

/-- The response of one process does not change the commands of the others. -/
theorem nextWrite_respond
    {x : Proc} {next : Option Proc} (hnext : ∀ y ∈ next, y ≠ x) {d : Dev} {status : Word} :
    (k.respond x status).nextWrite d next = k.nextWrite d next := by
  cases next with
  | none =>
      rfl
  | some y =>
      obtain ⟨priority, ready, running, heq⟩ :=
        scheduleProc_frame { k with devWList := Function.update k.devWList x none } x
      have hy : y ≠ x := hnext y rfl
      simp only [respond, heq, nextWrite, Option.elim, Function.update_of_ne hy]

/-- A completion interrupt, as a move. -/
theorem device_move_doneIo
    (h : k.Ok) (d : Dev) (status : Word) :
    DeviceMove k (.doneIo d status) (k.doneIo m d status).devices := by
  cases hr : k.wForRes d with
  | none =>
      rw [doneIo_none m d hr]
      exact DeviceMove.spurious d status hr
  | some r =>
      cases hq : k.waitQueue (.dev d) with
      | nil =>
          rw [doneIo_nil m d h.residence.aslOk hr hq, devices_nextCommand]
          exact DeviceMove.abandon d status r hr hq
      | cons x q =>
          obtain ⟨asl, heq, -, hwait⟩ := doneIo_cons m d h.residence.aslOk hr hq status
          have hview : { k with
                asl := asl
                pSemkey := Function.update k.pSemkey x none }.devices =
              k.devices.setQueue d q := by
            simp only [devices, waitQueue, DeviceView.setQueue, DeviceView.mk.injEq, and_true]
            exact devices_of_dev hwait
          have hnext : ∀ y ∈ q.head?, y ≠ x := by
            rintro y hy rfl
            exact h.head_notMem hq (List.mem_of_mem_head? hy)
          rw [heq, devices_nextCommand]
          by_cases hx : x = r
          · subst hx
            rw [if_pos rfl, devices_respond, hview, nextWrite_respond hnext]
            exact DeviceMove.serve d status x q hr hq
          · rw [if_neg hx, hview]
            exact DeviceMove.lose d status r x q hr hx hq

/-- WAITIO, as a move. -/
theorem device_move_waitDev
    (h : k.Ok) (hdev : k.DevicesOk) (hidle : k.runningProc ≠ .idle)
    (command devReg subdev tod : Word) {d : Dev} (hcell : waitCell A devReg subdev = some d) :
    DeviceMove k (.waitIo command devReg subdev tod)
      (k.waitDev m command devReg d tod).devices := by
  have hsem := hdev.sem d
  rcases waitDev_spec m d h hidle command devReg tod with
    ⟨hneg, asl, heq, -, hwait⟩ | ⟨hneg, asl, heq, -, hwait⟩
  · cases hr : k.wForRes d with
    | none =>
        rw [hsem, if_pos hr, add_one_sub_one] at hneg
        exact absurd hneg (lt_irrefl 0)
    | some r =>
        have hview : (k.devices.setQueue d
            (insertProcQ k.priority (k.waitQueue (.dev d)) k.runningProc)) =
            ⟨fun d => asl.waitQueue (.dev d), k.wForRes, k.devWList, k.bus⟩ := by
          rw [devices_of_dev hwait]
          rfl
        rw [heq, runNextReady_eq, Kernel.devices]
        simp only [waitQueue]
        rw [← hview]
        exact DeviceMove.wait command devReg subdev tod d r hcell hr
  · cases hr : k.wForRes d with
    | none =>
        rw [hdev.vacant d hr, List.nil_append] at hwait
        have hview : ((k.devices.setQueue d [k.runningProc]).register d k.runningProc).send
              ⟨d.type, devReg, command, some k.runningProc⟩ =
            ⟨fun d => asl.waitQueue (.dev d), Function.update k.wForRes d (some k.runningProc),
              Function.update k.devWList k.runningProc (some d),
              k.bus ++ [⟨d.type, devReg, command, some k.runningProc⟩]⟩ := by
          rw [devices_of_dev hwait]
          rfl
        rw [heq, runNextReady_eq, Kernel.devices]
        simp only [waitQueue]
        rw [← hview]
        exact DeviceMove.submit command devReg subdev tod d hcell hr
    | some r =>
        rw [hsem, hr, if_neg (by simp), add_zero_sub_one] at hneg
        exact absurd (by decide) hneg

/-- What every operation does to the devices. -/
theorem device_move
    {op : Operation A} (h : k.Ok) (hdev : k.DevicesOk) (hsafe : k.Safe op)
    (hstep : Step m k op k') :
    DeviceMove k op k'.devices := by
  have hfree : op.DeviceFree → (∀ p, op ≠ .terminateProcess p) → DeviceMove k op k'.devices := by
    intro hfree hterm
    rw [(sameDevices_step h hfree hterm hstep).view]
    exact DeviceMove.quiet hfree hterm
  obtain ⟨hadm, hexec⟩ := hstep
  cases op with
  | terminateProcess p =>
      obtain ⟨⟨l, hdone⟩, -⟩ := Step.terminated ⟨hadm, hexec⟩ h hsafe
      obtain ⟨asl, pParent, heq, hwait, -⟩ := hdone.result
      have hview : k'.devices = k.devices.restrict l := by
        rw [heq]
        simp only [devices, waitQueue, afterTermination, DeviceView.restrict,
          DeviceView.mk.injEq, and_true]
        exact funext (fun d => hwait (.dev d))
      rw [hview]
      exact DeviceMove.remove p l hdone.mem
  | waitIo command devReg subdev tod =>
      obtain ⟨d, hcell, rfl⟩ := exec_waitIo hexec
      exact device_move_waitDev h hdev hadm command devReg subdev tod hcell
  | doneIo d status =>
      rw [← Except.ok.inj hexec]
      exact device_move_doneIo h d status
  | createProcess s priority =>
      exact hfree trivial (by simp)
  | passeren a tod =>
      exact hfree trivial (by simp)
  | verhogen a =>
      exact hfree trivial (by simp)
  | timeSlice =>
      exact hfree trivial (by simp)
  | write a value =>
      exact hfree trivial (by simp)

/-- After a move, a device without a registered process has an empty queue. -/
theorem DeviceMove.vacant
    {op : Operation A} {v : DeviceView} (h : DeviceMove k op v) (hdev : k.DevicesOk) :
    ∀ d, v.res d = none → v.queue d = [] := by
  have hpromote : ∀ (v : DeviceView) (d : Dev) (q : List Proc),
      (∀ d', d' ≠ d → v.res d' = none → v.queue d' = []) → v.queue d = q →
      ∀ d', (v.promote d q.head?).res d' = none → (v.promote d q.head?).queue d' = [] := by
    intro v d q hothers hq d' hres
    by_cases hd : d' = d
    · subst hd
      cases q with
      | nil =>
          exact hq
      | cons y q =>
          exact absurd hres (by simp [DeviceView.promote, DeviceView.register])
    · cases q with
      | nil =>
          exact hothers d' hd (by simpa [DeviceView.promote, DeviceView.vacate, hd] using hres)
      | cons y q =>
          exact hothers d' hd (by simpa [DeviceView.promote, DeviceView.register, hd] using hres)
  have hset : ∀ (d : Dev) (q : List Proc), ∀ d', d' ≠ d → k.wForRes d' = none →
      Function.update k.devices.queue d q d' = [] := by
    intro d q d' hd hres
    rw [Function.update_of_ne hd]
    exact hdev.vacant d' hres
  intro d' hres
  cases h with
  | quiet _ _ =>
      exact hdev.vacant d' hres
  | spurious _ _ _ =>
      exact hdev.vacant d' hres
  | remove p l _ =>
      have hempty := hdev.vacant d' hres
      show survivors l (k.waitQueue (.dev d')) = []
      rw [hempty]
      rfl
  | wait _ _ _ _ d r _ hr =>
      refine hset d _ d' ?_ hres
      rintro rfl
      rw [show k.wForRes d' = none from hres] at hr
      exact Option.some_ne_none r hr.symm
  | submit _ _ _ _ d _ _ =>
      have hd : d' ≠ d := by
        rintro rfl
        simp at hres
      refine hset d _ d' hd ?_
      have hres' : Function.update k.wForRes d (some k.runningProc) d' = none := hres
      rwa [Function.update_of_ne hd] at hres'
  | abandon d _ r _ hq =>
      exact hpromote k.devices d [] (fun d' _ => hdev.vacant d') hq d' hres
  | serve d _ r q _ _ =>
      exact hpromote _ d q (hset d q) (Function.update_self _ _ _) d' hres
  | lose d _ r x q _ _ _ =>
      exact hpromote _ d q (hset d q) (Function.update_self _ _ _) d' hres

/-- The device semaphores after the second half of `done_io`. -/
theorem sem_nextCommand
    {d : Dev} (hsem : ∀ d, k.wForCmdSem d = if k.wForRes d = none then 1 else 0)
    (hres : k.wForRes d ≠ none) (next : Option Proc) :
    ∀ d', (k.nextCommand m d next).wForCmdSem d' =
      if (k.nextCommand m d next).wForRes d' = none then 1 else 0 := by
  intro d'
  by_cases hd : d' = d
  · subst hd
    cases next with
    | none =>
        simp [nextCommand, sendCommand, hsem, hres, add_zero_one]
    | some y =>
        simp [nextCommand, sendCommand, hsem, hres]
  · cases next with
    | none =>
        simp [nextCommand, sendCommand, hsem, hd]
    | some y =>
        simp [nextCommand, sendCommand, hsem, hd]

/-- The device semaphores after a completion interrupt. -/
theorem sem_doneIo
    (h : k.Ok) (hdev : k.DevicesOk) (d : Dev) (status : Word) :
    ∀ d', (k.doneIo m d status).wForCmdSem d' =
      if (k.doneIo m d status).wForRes d' = none then 1 else 0 := by
  cases hr : k.wForRes d with
  | none =>
      rw [doneIo_none m d hr]
      exact hdev.sem
  | some r =>
      have hres : k.wForRes d ≠ none := by
        rw [hr]
        exact Option.some_ne_none r
      cases hq : k.waitQueue (.dev d) with
      | nil =>
          rw [doneIo_nil m d h.residence.aslOk hr hq]
          exact sem_nextCommand hdev.sem hres none
      | cons x q =>
          obtain ⟨asl, heq, -, -⟩ := doneIo_cons m d h.residence.aslOk hr hq status
          rw [heq]
          split_ifs with hx
          · have hview := congrArg DeviceView.res (devices_respond
              { k with asl := asl, pSemkey := Function.update k.pSemkey x none } r status)
            refine sem_nextCommand ?_ ?_ q.head?
            · intro d'
              rw [wForCmdSem_respond, show Kernel.wForRes _ = k.wForRes from hview]
              exact hdev.sem d'
            · rw [show Kernel.wForRes _ = k.wForRes from hview]
              exact hres
          · refine sem_nextCommand ?_ ?_ q.head?
            · exact hdev.sem
            · exact hres

/-- The device semaphores after a WAITIO. -/
theorem sem_waitDev
    (h : k.Ok) (hdev : k.DevicesOk) (hidle : k.runningProc ≠ .idle)
    (command devReg tod : Word) (d : Dev) :
    ∀ d', (k.waitDev m command devReg d tod).wForCmdSem d' =
      if (k.waitDev m command devReg d tod).wForRes d' = none then 1 else 0 := by
  intro d'
  have hsem := hdev.sem d
  rcases waitDev_spec m d h hidle command devReg tod with
    ⟨hneg, asl, heq, -, -⟩ | ⟨hneg, asl, heq, -, -⟩
  · have hres : k.wForRes d ≠ none := by
      intro hr
      rw [hsem, if_pos hr, add_one_sub_one] at hneg
      exact absurd hneg (lt_irrefl 0)
    rw [if_neg hres] at hsem
    rw [heq, runNextReady_eq]
    by_cases hd : d' = d
    · subst hd
      simp [hsem, hres, add_zero_sub_one, add_neg_one_one]
    · simp [hd, hdev.sem]
  · have hres : k.wForRes d = none := by
      by_contra hr
      rw [hsem, if_neg hr, add_zero_sub_one] at hneg
      exact absurd (by decide) hneg
    rw [if_pos hres] at hsem
    rw [heq, runNextReady_eq]
    by_cases hd : d' = d
    · subst hd
      simp [hsem, add_one_sub_one]
    · simp [hd, hdev.sem]

/-- Every operation keeps the devices in order. -/
theorem DevicesOk.step
    {op : Operation A} (hdev : k.DevicesOk) (h : k.Ok) (hsafe : k.Safe op)
    (hstep : Step m k op k') :
    k'.DevicesOk := by
  have hmove := device_move h hdev hsafe hstep
  refine ⟨?_, hmove.vacant hdev⟩
  have hfree : op.DeviceFree → (∀ p, op ≠ .terminateProcess p) →
      ∀ d, k'.wForCmdSem d = if k'.wForRes d = none then 1 else 0 := by
    intro hfree hterm
    exact ((sameDevices_step h hfree hterm hstep).devicesOk hdev).sem
  obtain ⟨hadm, hexec⟩ := hstep
  cases op with
  | terminateProcess p =>
      obtain ⟨⟨l, hdone⟩, -⟩ := Step.terminated ⟨hadm, hexec⟩ h hsafe
      obtain ⟨asl, pParent, heq, -, -⟩ := hdone.result
      rw [heq]
      exact hdev.sem
  | waitIo command devReg subdev tod =>
      obtain ⟨d, -, rfl⟩ := exec_waitIo hexec
      exact sem_waitDev h hdev hadm command devReg tod d
  | doneIo d status =>
      rw [← Except.ok.inj hexec]
      exact sem_doneIo h hdev d status
  | createProcess s priority =>
      exact hfree trivial (by simp)
  | passeren a tod =>
      exact hfree trivial (by simp)
  | verhogen a =>
      exact hfree trivial (by simp)
  | timeSlice =>
      exact hfree trivial (by simp)
  | write a value =>
      exact hfree trivial (by simp)

end Step

section Liveness

/-- Kernels with the same PCBs in use, in the same tree and with the same base priorities. -/
structure SameProcesses (k k' : Kernel A) : Prop where
  parent : k'.pParent = k.pParent
  child : k'.pChild = k.pChild
  free : k'.pcbFreeH = k.pcbFreeH
  original : k'.originalPriority = k.originalPriority

theorem SameProcesses.scheduleProc
    (h : SameProcesses k k') (x : Proc) :
    SameProcesses k (k'.scheduleProc x) := by
  obtain ⟨priority, ready, running, heq⟩ := scheduleProc_frame k' x
  rw [heq]
  exact ⟨h.parent, h.child, h.free, h.original⟩

theorem SameProcesses.runNextReady
    (h : SameProcesses k k') :
    SameProcesses k k'.runNextReady := by
  rw [runNextReady_eq]
  exact ⟨h.parent, h.child, h.free, h.original⟩

theorem SameProcesses.respond
    (h : SameProcesses k k') (x : Proc) (status : Word) :
    SameProcesses k (k'.respond x status) := by
  have hsched : SameProcesses k
      ({ k' with devWList := Function.update k'.devWList x none }.scheduleProc x) := by
    refine SameProcesses.scheduleProc ?_ x
    exact ⟨h.parent, h.child, h.free, h.original⟩
  exact ⟨hsched.parent, hsched.child, hsched.free, hsched.original⟩

theorem SameProcesses.nextCommand
    (h : SameProcesses k k') (d : Dev) (next : Option Proc) :
    SameProcesses k (k'.nextCommand m d next) := by
  cases next <;> exact ⟨h.parent, h.child, h.free, h.original⟩

/-- Only creations and terminations change the tree and the free list. -/
theorem sameProcesses_step
    {op : Operation A} (h : k.Ok) (hcreate : ∀ s priority, op ≠ .createProcess s priority)
    (hterm : ∀ p, op ≠ .terminateProcess p) (hstep : Step m k op k') :
    SameProcesses k k' := by
  obtain ⟨hadm, hexec⟩ := hstep
  cases op with
  | createProcess s priority =>
      exact absurd rfl (hcreate s priority)
  | terminateProcess p =>
      exact absurd rfl (hterm p)
  | passeren a tod =>
      simp only [exec] at hexec
      rcases p_spec m a h hadm tod with ⟨-, heq⟩ | ⟨-, asl, heq, -, -⟩
      · rw [← Except.ok.inj (heq.symm.trans hexec)]
        exact ⟨rfl, rfl, rfl, rfl⟩
      · rw [← Except.ok.inj (heq.symm.trans hexec)]
        exact SameProcesses.runNextReady ⟨rfl, rfl, rfl, rfl⟩
  | verhogen a =>
      rw [← Except.ok.inj hexec]
      rcases v_spec m a h.residence.aslOk with ⟨-, heq⟩ | ⟨x, q, asl, -, heq, -, -⟩
      · rw [heq]
        exact ⟨rfl, rfl, rfl, rfl⟩
      · rw [heq]
        refine SameProcesses.scheduleProc ?_ x
        exact ⟨rfl, rfl, rfl, rfl⟩
  | waitIo command devReg subdev tod =>
      obtain ⟨d, -, rfl⟩ := exec_waitIo hexec
      rcases waitDev_spec m d h hadm command devReg tod with
        ⟨-, asl, heq, -, -⟩ | ⟨-, asl, heq, -, -⟩
      · rw [heq]
        exact SameProcesses.runNextReady ⟨rfl, rfl, rfl, rfl⟩
      · rw [heq]
        exact SameProcesses.runNextReady ⟨rfl, rfl, rfl, rfl⟩
  | doneIo d status =>
      rw [← Except.ok.inj hexec]
      cases hr : k.wForRes d with
      | none =>
          rw [doneIo_none m d hr]
          exact ⟨rfl, rfl, rfl, rfl⟩
      | some r =>
          cases hq : k.waitQueue (.dev d) with
          | nil =>
              rw [doneIo_nil m d h.residence.aslOk hr hq]
              exact SameProcesses.nextCommand ⟨rfl, rfl, rfl, rfl⟩ d none
          | cons x q =>
              obtain ⟨asl, heq, -, -⟩ := doneIo_cons m d h.residence.aslOk hr hq status
              rw [heq]
              refine SameProcesses.nextCommand ?_ d q.head?
              split_ifs
              · refine SameProcesses.respond ?_ r status
                exact ⟨rfl, rfl, rfl, rfl⟩
              · exact ⟨rfl, rfl, rfl, rfl⟩
  | timeSlice =>
      rw [← Except.ok.inj hexec]
      obtain ⟨priority, ready, running, heq⟩ := timeSlice_frame m k
      rw [heq]
      exact ⟨rfl, rfl, rfl, rfl⟩
  | write a value =>
      rw [← Except.ok.inj hexec]
      exact ⟨rfl, rfl, rfl, rfl⟩

theorem Step.free_eq
    {op : Operation A} (hstep : Step m k op k') (h : k.Ok)
    (hcreate : ∀ s priority, op ≠ .createProcess s priority)
    (hterm : ∀ p, op ≠ .terminateProcess p) :
    k'.pcbFreeH = k.pcbFreeH :=
  (sameProcesses_step h hcreate hterm hstep).free

/-- A creation takes the first free PCB, if there is one. -/
theorem Step.free_createProcess
    {s : State A} {priority : Int} (hstep : Step m k (.createProcess s priority) k')
    (h : k.Ok) :
    k'.pcbFreeH = k.pcbFreeH.tail := by
  obtain ⟨hadm, hexec⟩ := hstep
  cases hnil : k.pcbFreeH with
  | nil =>
      simp only [exec, createProcess_nil hnil] at hexec
      obtain rfl : k = k' := Except.ok.inj hexec
      exact hnil
  | cons x free =>
      obtain ⟨-, -, -, hxrun⟩ := h.adopt hnil hadm s priority
      simp only [exec, createProcess_cons hnil hxrun] at hexec
      obtain ⟨_, ready, running, heq⟩ := scheduleProc_frame (k.adopt x free s priority) x
      rw [← Except.ok.inj hexec]
      show ((k.adopt x free s priority).scheduleProc x).pcbFreeH = free
      rw [heq]
      rfl

/-- Without a termination nobody dies. -/
theorem Step.live_mono
    {op : Operation A} (hstep : Step m k op k') (h : k.Ok)
    (hterm : ∀ p, op ≠ .terminateProcess p) {x : Proc} (hx : k.Live x) :
    k'.Live x := by
  refine ⟨hx.1, fun hfree => hx.2 ?_⟩
  cases op with
  | createProcess s priority =>
      rw [hstep.free_createProcess h] at hfree
      exact List.mem_of_mem_tail hfree
  | terminateProcess p =>
      exact absurd rfl (hterm p)
  | _ =>
      rw [← hstep.free_eq h (by simp) (by simp)]
      exact hfree

/-- A blocked process is live. -/
theorem Ok.live_of_queued
    (h : k.Ok) {x : Proc} {key : SemKey} (hx : x ∈ k.waitQueue key) :
    k.Live x := by
  have hkey := (h.residence.semkey x key).mpr hx
  refine ⟨?_, fun hfree => ?_⟩
  · rintro rfl
    exact h.idle_not_queued key hx
  · rw [h.residence.semkey_of_free hfree] at hkey
    exact absurd hkey (by simp)

/-- The terminated processes, and no others, die. -/
theorem Terminated.live_iff
    {t : Proc} {l : List Proc} (hterm : k.Terminated t l k') (x : Proc) :
    k'.Live x ↔ k.Live x ∧ x ∉ l := by
  obtain ⟨asl, pParent, rfl, -, -⟩ := hterm.result
  simp only [Live, afterTermination, List.mem_append, List.mem_reverse, not_or]
  constructor
  · rintro ⟨hidle, hl, hfree⟩
    exact ⟨⟨hidle, hfree⟩, hl⟩
  · rintro ⟨⟨hidle, hfree⟩, hl⟩
    exact ⟨hidle, hl, hfree⟩

/-- The processes alive after a step were alive, or have just been created. -/
theorem Step.live_back
    {op : Operation A} (hstep : Step m k op k') (h : k.Ok) (hsafe : k.Safe op)
    {x : Proc} (hx : k'.Live x) :
    k.Live x ∨ ∃ s priority, op = .createProcess s priority ∧ k.pcbFreeH.head? = some x := by
  by_cases hfree : x ∈ k.pcbFreeH
  · cases op with
    | createProcess s priority =>
        have hfree' := hstep.free_createProcess h
        cases hnil : k.pcbFreeH with
        | nil =>
            rw [hnil] at hfree
            exact absurd hfree List.not_mem_nil
        | cons y free =>
            rw [hnil] at hfree hfree'
            have hxy : x = y := by
              refine (List.mem_cons.mp hfree).resolve_right (fun hmem => hx.2 ?_)
              rw [hfree']
              exact hmem
            exact Or.inr ⟨s, priority, rfl, congrArg some hxy.symm⟩
    | terminateProcess p =>
        obtain ⟨⟨l, hdone⟩, -⟩ := hstep.terminated h hsafe
        exact Or.inl ((hdone.live_iff x).mp hx).1
    | _ =>
        refine absurd ?_ hx.2
        rw [hstep.free_eq h (by simp) (by simp)]
        exact hfree
  · exact Or.inl ⟨hx.1, hfree⟩

end Liveness

section Completion

/-- A served process leaves the queue, and is scheduled with the status. -/
theorem doneIo_serve
    (h : k.Ok) {d : Dev} {r : Proc} {q : List Proc}
    (hr : k.wForRes d = some r) (hq : k.waitQueue (.dev d) = r :: q) (status : Word) :
    (r ∈ (k.doneIo m d status).readyQueue ∨ r = (k.doneIo m d status).runningProc) ∧
      (k.doneIo m d status).pS = Function.update k.pS r ((k.pS r).setRet status) ∧
      (k.doneIo m d status).waitQueue (.dev d) = q := by
  obtain ⟨asl, heq, -, hwait⟩ := doneIo_cons m d h.residence.aslOk hr hq status
  rw [if_pos rfl] at heq
  set k₁ : Kernel A :=
    { k with
      asl := asl
      pSemkey := Function.update k.pSemkey r none
      devWList := Function.update k.devWList r none } with hk₁
  have hplaces := scheduleProc_places k₁ r
  obtain ⟨priority, ready, running, hframe⟩ := scheduleProc_frame k₁ r
  have hpS : (k₁.scheduleProc r).pS = k.pS := by
    rw [hframe]
  have hqueue : (k₁.scheduleProc r).asl.waitQueue (.dev d) = q := by
    rw [hframe]
    show asl.waitQueue (.dev d) = q
    rw [hwait, Function.update_self]
  have hrespond : ({ k with asl := asl, pSemkey := Function.update k.pSemkey r none }.respond r
      status) = { k₁.scheduleProc r with
        pS := Function.update (k₁.scheduleProc r).pS r
          (((k₁.scheduleProc r).pS r).setRet status) } := rfl
  rw [heq, hrespond, hpS]
  cases q.head? <;> exact ⟨hplaces, rfl, hqueue⟩

end Completion

section Sparing

/-- No process that waits for a device is terminated. -/
def SparesDevices (k : Kernel A) : Operation A → Prop
  | .terminateProcess p =>
      ∀ x d, Below k.pChild x (p.getD k.runningProc) → k.pSemkey x ≠ some (.dev d)
  | _ => True

theorem SparesDevices.of_not_terminates {op : Operation A} (h : ¬ op.Terminates) :
    k.SparesDevices op := by
  cases op with
  | terminateProcess p =>
      exact absurd trivial h
  | _ => exact trivial

/--
Only processes in the queue of a device are registered with it, and none of those
in front of the process whose response is awaited.
-/
structure Registered (v : DeviceView) : Prop where
  queued : ∀ x d, v.list x = some d → x ∈ v.queue d
  behind : ∀ d r, v.res d = some r →
    ∃ pre post, v.queue d = pre ++ r :: post ∧ ∀ x ∈ pre, v.list x = none

theorem Registered.send
    {v : DeviceView} (h : Registered v) (w : BusWrite) :
    Registered (v.send w) :=
  ⟨h.queued, h.behind⟩

theorem Fresh.registered (h : k.Fresh) : Registered k.devices := by
  refine ⟨fun x d hx => ?_, fun d r hr => ?_⟩
  · rw [show k.devices.list x = none from h.unregistered x] at hx
    exact absurd hx (by simp)
  · rw [show k.devices.res d = none from h.wForRes d] at hr
    exact absurd hr (by simp)

/-- A process waits for one device only. -/
theorem Ok.devices_unique
    (h : k.Ok) {d d' : Dev} {x : Proc}
    (hx : x ∈ k.devices.queue d) (hx' : x ∈ k.devices.queue d') :
    d' = d := by
  have hd := (h.residence.semkey x (.dev d)).mpr hx
  have hd' := (h.residence.semkey x (.dev d')).mpr hx'
  rw [hd] at hd'
  simpa using hd'.symm

/-- With these registrations every termination finds what it looks for. -/
theorem Registered.safe
    (hreg : Registered k.devices) (h : k.Ok) (op : Operation A) :
    k.Safe op := by
  cases op with
  | terminateProcess p =>
      intro x _ hkey
      cases hlist : k.devWList x with
      | none =>
          rfl
      | some d =>
          have := (h.residence.semkey x (.dev d)).mpr (hreg.queued x d hlist)
          rw [hkey] at this
          exact absurd this (by simp)
  | _ => exact trivial

/-- A process outside the queues is not registered. -/
theorem Registered.list_eq_none
    {v : DeviceView} (h : Registered v) {x : Proc} (hx : ∀ d, x ∉ v.queue d) :
    v.list x = none := by
  cases hlist : v.list x with
  | none =>
      rfl
  | some d =>
      exact absurd (h.queued x d hlist) (hx d)

/-- An insertion keeps an element in the queue, and adds at most the new one before it. -/
theorem insertProcQ_behind
    (priority : Proc → Int) (pre post : List Proc) (r p : Proc) :
    ∃ pre' post', insertProcQ priority (pre ++ r :: post) p = pre' ++ r :: post' ∧
      ∀ x ∈ pre', x = p ∨ x ∈ pre := by
  induction pre with
  | nil =>
      by_cases hlt : priority p > priority r
      · exact ⟨[p], post, by simp [insertProcQ, hlt], by simp⟩
      · exact ⟨[], insertProcQ priority post p, by simp [insertProcQ, hlt], by simp⟩
  | cons a pre ih =>
      by_cases hlt : priority p > priority a
      · exact ⟨p :: a :: pre, post, by simp [insertProcQ, hlt], by simp⟩
      · obtain ⟨pre', post', heq, hmem⟩ := ih
        refine ⟨a :: pre', post', by simp [insertProcQ, hlt, heq], ?_⟩
        intro x hx
        rcases List.mem_cons.mp hx with rfl | hx
        · exact Or.inr List.mem_cons_self
        · exact (hmem x hx).imp_right (List.mem_cons_of_mem _)

/-- The next process in line is registered when the first one has left the queue. -/
theorem Registered.promote
    {v : DeviceView} {d : Dev} {q : List Proc}
    (hq : v.queue d = q)
    (hqueued : ∀ x d', v.list x = some d' → x ∈ v.queue d')
    (hbehind : ∀ d' r, d' ≠ d → v.res d' = some r →
      ∃ pre post, v.queue d' = pre ++ r :: post ∧ ∀ x ∈ pre, v.list x = none)
    (hdisjoint : ∀ d' x, d' ≠ d → x ∈ q → x ∉ v.queue d') :
    Registered (v.promote d q.head?) := by
  cases q with
  | nil =>
      refine ⟨hqueued, fun d' r hr => ?_⟩
      by_cases hd : d' = d
      · subst hd
        exact absurd hr (by simp [DeviceView.promote, DeviceView.vacate])
      · refine hbehind d' r hd ?_
        simpa [DeviceView.promote, DeviceView.vacate, hd] using hr
  | cons y q =>
      have hy : y ∈ v.queue d := hq ▸ List.mem_cons_self
      refine ⟨fun x d' hx => ?_, fun d' r hr => ?_⟩
      · have hx' : Function.update v.list y (some d) x = some d' := hx
        by_cases hxy : x = y
        · subst hxy
          rw [Function.update_self] at hx'
          exact Option.some.inj hx' ▸ hy
        · rw [Function.update_of_ne hxy] at hx'
          exact hqueued x d' hx'
      · have hr' : Function.update v.res d (some y) d' = some r := hr
        by_cases hd : d' = d
        · subst hd
          rw [Function.update_self] at hr'
          obtain rfl := Option.some.inj hr'
          exact ⟨[], q, hq, by simp⟩
        · rw [Function.update_of_ne hd] at hr'
          obtain ⟨pre, post, hsplit, hpre⟩ := hbehind d' r hd hr'
          refine ⟨pre, post, hsplit, fun x hx => ?_⟩
          have hxy : x ≠ y := by
            rintro rfl
            refine hdisjoint d' x hd List.mem_cons_self ?_
            rw [hsplit]
            exact List.mem_append_left _ hx
          exact (Function.update_of_ne hxy _ _).trans (hpre x hx)

/-- The first process leaves the queue, and the next one in line is registered. -/
theorem Registered.pop
    (hreg : Registered k.devices) (h : k.Ok) {d : Dev} {x : Proc} {q : List Proc}
    (hq : k.waitQueue (.dev d) = x :: q) :
    Registered (((k.devices.setQueue d q).release x).promote d q.head?) := by
  have hx : x ∈ k.devices.queue d := by
    show x ∈ k.waitQueue (.dev d)
    rw [hq]
    exact List.mem_cons_self
  refine Registered.promote (by simp) ?_ ?_ ?_
  · intro y d' hy
    simp only [DeviceView.list_release, DeviceView.list_setQueue, DeviceView.queue_release,
      DeviceView.queue_setQueue] at hy ⊢
    have hyx : y ≠ x := by
      rintro rfl
      rw [Function.update_self] at hy
      exact absurd hy (by simp)
    rw [Function.update_of_ne hyx] at hy
    have hmem := hreg.queued y d' hy
    by_cases hd : d' = d
    · subst hd
      rw [Function.update_self]
      change y ∈ k.waitQueue (.dev d') at hmem
      rw [hq] at hmem
      exact (List.mem_cons.mp hmem).resolve_left hyx
    · rwa [Function.update_of_ne hd]
  · intro d' r hd hr
    obtain ⟨pre, post, hsplit, hpre⟩ := hreg.behind d' r hr
    refine ⟨pre, post, (Function.update_of_ne hd _ _).trans hsplit, fun y hy => ?_⟩
    simp only [DeviceView.list_release, DeviceView.list_setQueue]
    by_cases hyx : y = x
    · rw [hyx, Function.update_self]
    · rw [Function.update_of_ne hyx]
      exact hpre y hy
  · intro d' y hd hy hy'
    simp only [DeviceView.queue_release, DeviceView.queue_setQueue] at hy'
    rw [Function.update_of_ne hd] at hy'
    have hyd : y ∈ k.devices.queue d := by
      show y ∈ k.waitQueue (.dev d)
      rw [hq]
      exact List.mem_cons_of_mem _ hy
    exact hd (h.devices_unique hyd hy')

/-- The running process is put into a queue behind which it finds no registration. -/
theorem Registered.enqueue
    (hreg : Registered k.devices) (h : k.Ok) (d : Dev) :
    Registered (k.devices.setQueue d
      (insertProcQ k.priority (k.waitQueue (.dev d)) k.runningProc)) := by
  have hrun : ∀ d, k.runningProc ∉ k.devices.queue d :=
    fun d => h.running_not_queued (.dev d)
  refine ⟨fun x d' hx => ?_, fun d' r' hr' => ?_⟩
  · have hx' := hreg.queued x d' hx
    rw [DeviceView.queue_setQueue]
    by_cases hd : d' = d
    · subst hd
      rw [Function.update_self]
      exact mem_insertProcQ.mpr (Or.inr hx')
    · rwa [Function.update_of_ne hd]
  · obtain ⟨pre, post, hsplit, hpre⟩ := hreg.behind d' r' hr'
    rw [DeviceView.queue_setQueue]
    by_cases hd : d' = d
    · subst hd
      rw [Function.update_self]
      obtain ⟨pre', post', heq, hmem⟩ :=
        insertProcQ_behind k.priority pre post r' k.runningProc
      refine ⟨pre', post', ?_, fun x hx => ?_⟩
      · rw [show k.waitQueue (.dev d') = pre ++ r' :: post from hsplit, heq]
      · rcases hmem x hx with rfl | hx
        · exact hreg.list_eq_none hrun
        · exact hpre x hx
    · rw [Function.update_of_ne hd]
      exact ⟨pre, post, hsplit, hpre⟩

/-- The running process is registered with a free device. -/
theorem Registered.submit
    (hreg : Registered k.devices) (h : k.Ok) (hdev : k.DevicesOk) {d : Dev}
    (hr : k.wForRes d = none) :
    Registered ((k.devices.setQueue d [k.runningProc]).register d k.runningProc) := by
  have hempty : k.waitQueue (.dev d) = [] := hdev.vacant d hr
  have hrun : ∀ d, k.runningProc ∉ k.devices.queue d :=
    fun d => h.running_not_queued (.dev d)
  have hin := hreg.enqueue h d
  rw [hempty, insertProcQ_nil] at hin
  refine Registered.promote (d := d) (q := [k.runningProc]) (by simp) hin.queued
    (fun d' r' _ hr' => hin.behind d' r' hr') ?_
  intro d' x hd hx hx'
  obtain rfl := List.mem_singleton.mp hx
  rw [DeviceView.queue_setQueue, Function.update_of_ne hd] at hx'
  exact hrun d' hx'

/-- What a move does to the registrations. -/
theorem DeviceMove.registered
    {op : Operation A} {v : DeviceView} (hmove : DeviceMove k op v)
    (hreg : Registered k.devices) (h : k.Ok) (hdev : k.DevicesOk)
    (hspare : k.SparesDevices op) :
    Registered v := by
  cases hmove with
  | quiet _ _ =>
      exact hreg
  | spurious _ _ _ =>
      exact hreg
  | remove p l hl =>
      have hqueue : ∀ d, survivors l (k.devices.queue d) = k.devices.queue d := by
        intro d
        refine List.filter_eq_self.mpr (fun x hx => ?_)
        have hxkey := (h.residence.semkey x (.dev d)).mpr hx
        simpa using fun hmem => hspare x d ((hl x).mp hmem) hxkey
      have hsame : k.devices.restrict l = k.devices := by
        simp only [DeviceView.restrict, hqueue]
      rw [hsame]
      exact hreg
  | wait _ _ _ _ d _ _ _ =>
      exact hreg.enqueue h d
  | submit _ _ _ _ d _ hr =>
      exact (hreg.submit h hdev hr).send _
  | abandon d _ r _ hq =>
      exact (Registered.promote (v := k.devices) (q := []) hq hreg.queued
        (fun d' r _ hr => hreg.behind d' r hr) (by simp)).send _
  | serve d _ r q _ hq =>
      exact (hreg.pop h hq).send _
  | lose d _ r x q hr hx hq =>
      -- the lost process stands in front of the awaited one, so it was not registered
      have hlist : k.devices.list x = none := by
        obtain ⟨pre, post, hsplit, hpre⟩ := hreg.behind d r hr
        rw [show k.devices.queue d = x :: q from hq] at hsplit
        cases pre with
        | nil =>
            exact absurd (List.cons.inj hsplit).1 hx
        | cons a pre =>
            rw [(List.cons.inj hsplit).1]
            exact hpre a List.mem_cons_self
      have hsame : (k.devices.setQueue d q).release x = k.devices.setQueue d q := by
        unfold DeviceView.release
        rw [DeviceView.list_setQueue, ← hlist, Function.update_eq_self]
        rfl
      have := hreg.pop h hq
      rw [hsame] at this
      exact this.send _

/-- What holds in a run that terminates no process waiting for a device. -/
structure Sparing (k : Kernel A) : Prop where
  ok : k.Ok
  devicesOk : k.DevicesOk
  registered : Registered k.devices

theorem Fresh.sparing (h : k.Fresh) : k.Sparing :=
  ⟨h.ok, h.devicesOk, h.registered⟩

theorem Sparing.safe (h : k.Sparing) (op : Operation A) : k.Safe op :=
  h.registered.safe h.ok op

theorem Sparing.step
    {op : Operation A} (h : k.Sparing) (hspare : k.SparesDevices op) (hstep : Step m k op k') :
    k'.Sparing where
  ok := h.ok.step (h.safe op) hstep
  devicesOk := h.devicesOk.step h.ok (h.safe op) hstep
  registered :=
    (device_move h.ok h.devicesOk (h.safe op) hstep).registered h.registered h.ok h.devicesOk
      hspare

/-- Every state of a run that spares the processes waiting for devices. -/
theorem sparing_of_run
    {s : ℕ → Kernel A} {e : ℕ → Operation A} {n : ℕ}
    (hboot : (s 0).Booted) (hrun : IsRun (Step m) s e n)
    (hspare : ∀ i < n, (s i).SparesDevices (e i)) :
    ∀ i ≤ n, (s i).Sparing :=
  hrun.invariant_of hspare hboot.fresh.sparing
    (fun _ _ _ h hspare hstep => h.step hspare hstep)

end Sparing

end Kernel

end Bikaya
