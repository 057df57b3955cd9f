import Mathlib.Tactic.IntervalCases
import Bikaya.Library.RequestServer
import Bikaya.Proofs.Contexts
import Bikaya.Proofs.Outstanding

/-!
# Bikaya: the device wait protocol

The process whose command a device executes and the processes that wait for their turn
share the queue of the device.  The completion serves the first of them, so that the
protocol depends on the registered process staying there.  While it does, the device is a
server of the requests, and what is known of servers holds of the commands.

**Plan.**  A call is an operation with the state of its process, so that the argument of
WAITIO can be followed to the command that is sent.  `deviceServer` reads a device as a
server of requests: the registered process is the request in progress, the others wait.
The moves of the device queue are steps of the server as long as the registered process is
the first of its queue (`RegisteredFirst`); which steps keep that is `KeepsTurn`.

**Results.**
* `DeviceMove.server_step`: a move of the device is a step of its server.
* `balanced_of_calls`: along a run each request is sent once or still waiting.
* `device_protocol`: the protocol holds in every state of a run without terminations if and
  only if its steps keep the turn.
* `process_overtaken`: the run in which a completion serves the wrong process.
-/

namespace Bikaya

open TransitionSystem RequestServer

/-- An operation, and the state that is in the old area when its handler concludes. -/
structure Call (A : Arch) where
  op : Operation A
  state : State A

/-- A process that has called WAITIO, and its command. -/
structure Request where
  proc : Proc
  command : Word
deriving DecidableEq

namespace Call

variable {A : Arch}

/-- The command of a WAITIO is the first argument of the system call. -/
def Presents (c : Call A) : Prop :=
  match c.op with
  | .waitIo command _ _ _ => c.state A.arg1 = command
  | _ => True

instance (c : Call A) : Decidable c.Presents :=
  match c with
  | ⟨.waitIo command _ _ _, state⟩ => inferInstanceAs (Decidable (state A.arg1 = command))
  | ⟨.createProcess _ _, _⟩ | ⟨.terminateProcess _, _⟩ | ⟨.passeren _ _, _⟩ | ⟨.verhogen _, _⟩
  | ⟨.doneIo _ _, _⟩ | ⟨.timeSlice, _⟩ | ⟨.write _ _, _⟩ => instDecidableTrue

end Call

/-- The writes to a device that are made on behalf of processes. -/
def requestsIn (A : Arch) (ws : List BusWrite) (d : Dev) : List Request :=
  ws.filterMap (fun w =>
    if w.cell A = some d then w.owner.map (fun p => ⟨p, w.command⟩) else none)

namespace Kernel

variable {A : Arch} {k k' : Kernel A} {m : IntModel}

/-- `conclude_handler` saves the old area in the process that has lost the processor. -/
def saveState (k k' : Kernel A) (st : State A) : Kernel A :=
  if k.runningProc ≠ k'.runningProc ∧ k.runningProc ≠ .idle then
    { k' with pS := Function.update k'.pS k.runningProc st }
  else k'

/-- One operation, and what `conclude_handler` saves. -/
def CallStep (m : IntModel) (k : Kernel A) (c : Call A) (k' : Kernel A) : Prop :=
  c.Presents ∧ ∃ k₁, Step m k c.op k₁ ∧ k' = k.saveState k₁ c.state

/-- The same, as a partial function. -/
def nextCall (m : IntModel) (k : Kernel A) (c : Call A) : Option (Kernel A) :=
  if c.Presents then (k.next m c.op).map (fun k₁ => k.saveState k₁ c.state) else none

theorem callStep_of_nextCall
    {c : Call A} (h : k.nextCall m c = some k') :
    CallStep m k c k' := by
  unfold nextCall at h
  split_ifs at h with hpresents
  obtain ⟨k₁, hnext, hsave⟩ := Option.map_eq_some_iff.mp h
  exact ⟨hpresents, k₁, step_of_next hnext, hsave.symm⟩

/-- A list of calls that are all possible is a run. -/
theorem isRun_of_acceptsCalls
    (c₀ : Call A) {cs : List (Call A)} (h : accepts (nextCall m) k cs = true) :
    IsRun (CallStep m) (states (nextCall m) k cs) (fun i => cs.getD i c₀) cs.length :=
  fun i hi => callStep_of_nextCall (isRun_states c₀ h i hi)

/-- The request that an operation makes to a device. -/
def requestOf (k : Kernel A) (op : Operation A) (d : Dev) : Option Request :=
  match op with
  | .waitIo command devReg subdev _ =>
      if waitCell A devReg subdev = some d then some ⟨k.runningProc, command⟩ else none
  | _ => none

/-- The requests made to a device by the first calls of a run, oldest first. -/
def requestsMade (s : ℕ → Kernel A) (c : ℕ → Call A) (i : ℕ) (d : Dev) : List Request :=
  (List.range i).filterMap (fun j => (s j).requestOf (c j).op d)

/-- The requests whose commands have been sent to the device, oldest first. -/
def requestsSent (k : Kernel A) (d : Dev) : List Request :=
  requestsIn A k.bus d

/-- The requests of the processes that wait for their turn. -/
def requestsWaiting (k : Kernel A) (d : Dev) : List Request :=
  ((k.waitQueue (.dev d)).filter (fun p => k.wForRes d ≠ some p)).map
    (fun p => ⟨p, k.pS p A.arg1⟩)

/-- The process is ready or running. -/
def Schedulable (k : Kernel A) (x : Proc) : Prop :=
  x ≠ .idle ∧ (x = k.runningProc ∨ x ∈ k.readyQueue)

instance (k : Kernel A) (x : Proc) : Decidable (k.Schedulable x) :=
  inferInstanceAs (Decidable (_ ∧ _))

/-- The registered process is the first of the queue of its device. -/
def RegisteredFirst (v : DeviceView) : Prop :=
  ∀ d r, v.res d = some r → (v.queue d).head? = some r

/-- A process that has to wait for a device does not overtake the registered one. -/
def KeepsTurn (k : Kernel A) : Operation A → Prop
  | .waitIo _ devReg subdev _ =>
      ∀ d ∈ waitCell A devReg subdev, ∀ r ∈ k.wForRes d, k.priority k.runningProc ≤ k.priority r
  | _ => True

instance (k : Kernel A) (op : Operation A) : Decidable (k.KeepsTurn op) :=
  match op with
  | .waitIo _ devReg subdev _ =>
      inferInstanceAs (Decidable (∀ d ∈ waitCell A devReg subdev, ∀ r ∈ k.wForRes d,
        k.priority k.runningProc ≤ k.priority r))
  | .createProcess _ _ | .terminateProcess _ | .passeren _ _ | .verhogen _ | .doneIo _ _
  | .timeSlice | .write _ _ => instDecidableTrue

/--
The protocol, in a run.  The request that is outstanding at a completion is the one whose
command was sent after as many commands as there have been completions.
-/
structure DeviceProtocol (s : ℕ → Kernel A) (c : ℕ → Call A) (n : ℕ) : Prop where
  first : ∀ i ≤ n, RegisteredFirst (s i).devices
  /-- A completion makes exactly the process ready whose command was outstanding. -/
  served : ∀ i < n, ∀ d status, (c i).op = .doneIo d status →
    ∃ r command,
      ((s i).requestsSent d)[completions (fun j => (c j).op) i d]? = some ⟨r, command⟩ ∧
      ¬ (s i).Schedulable r ∧
      ∀ x, (s (i + 1)).Schedulable x ↔ (s i).Schedulable x ∨ x = r
  /-- Every command is sent once, unless its process still waits for its turn. -/
  once : ∀ i ≤ n, ∀ d,
    (requestsMade s c i d).Perm ((s i).requestsSent d ++ (s i).requestsWaiting d)
  /-- No request is left when the device is free. -/
  drained : ∀ i ≤ n, ∀ d, (s i).wForRes d = none →
    (requestsMade s c i d).Perm ((s i).requestsSent d)
  /-- A process leaves a queue when its own command is completed, and with the status. -/
  leaves : ∀ i < n, ∀ d x, x ∈ (s i).waitQueue (.dev d) → x ∉ (s (i + 1)).waitQueue (.dev d) →
    ∃ status, (c i).op = .doneIo d status ∧
      ((s i).requestsSent d)[completions (fun j => (c j).op) i d]? =
        some ⟨x, (s i).pS x A.arg1⟩ ∧
      (s (i + 1)).Schedulable x ∧
      (s (i + 1)).pS x = ((s i).pS x).setRet status

section Save

variable {st : State A}

theorem core_saveState : (k.saveState k' st).core = k'.core := by
  unfold saveState
  split_ifs <;> rfl

theorem devices_saveState : (k.saveState k' st).devices = k'.devices :=
  devices_of_core core_saveState

theorem schedulable_saveState (x : Proc) :
    (k.saveState k' st).Schedulable x ↔ k'.Schedulable x := by
  unfold saveState
  split_ifs <;> exact Iff.rfl

theorem pS_saveState_of_ne {x : Proc} (hx : x ≠ k.runningProc) :
    (k.saveState k' st).pS x = k'.pS x := by
  unfold saveState
  split_ifs
  · exact Function.update_of_ne hx _ _
  · rfl

theorem pS_saveState_self
    (hrun : k'.runningProc ≠ k.runningProc) (hidle : k.runningProc ≠ .idle) :
    (k.saveState k' st).pS k.runningProc = st := by
  unfold saveState
  rw [if_pos ⟨hrun.symm, hidle⟩]
  exact Function.update_self _ _ _

end Save

section Scheduling

theorem schedulable_preempt {x y : Proc} (hx : x ≠ .idle) :
    (k.preempt x).Schedulable y ↔ k.Schedulable y ∨ y = x := by
  unfold Schedulable
  by_cases hidle : k.runningProc = .idle
  · rw [preempt_idle hidle]
    constructor
    · rintro ⟨hy, rfl | hready⟩
      · exact Or.inr rfl
      · exact Or.inl ⟨hy, Or.inr hready⟩
    · rintro (⟨hy, hrun | hready⟩ | rfl)
      · exact absurd (hrun.trans hidle) hy
      · exact ⟨hy, Or.inr hready⟩
      · exact ⟨hx, Or.inl rfl⟩
  · rw [preempt_of_ne hidle]
    simp only [mem_insertProcQ]
    constructor
    · rintro ⟨hy, rfl | hrun | hready⟩
      · exact Or.inr rfl
      · exact Or.inl ⟨hy, Or.inl hrun⟩
      · exact Or.inl ⟨hy, Or.inr hready⟩
    · rintro (⟨hy, hplace⟩ | rfl)
      · exact ⟨hy, Or.inr hplace⟩
      · exact ⟨hx, Or.inl rfl⟩

/-- Scheduling a process makes it ready or running, and changes nothing for the others. -/
theorem schedulable_scheduleProc {x y : Proc} (hx : x ≠ .idle) :
    (k.scheduleProc x).Schedulable y ↔ k.Schedulable y ∨ y = x := by
  rcases scheduleProc_cases k x with ⟨-, heq⟩ | ⟨-, -, heq⟩
  · rw [heq]
    exact schedulable_preempt hx
  · rw [heq]
    unfold Schedulable
    simp only [mem_insertProcQ]
    constructor
    · rintro ⟨hy, hrun | rfl | hready⟩
      · exact Or.inl ⟨hy, Or.inl hrun⟩
      · exact Or.inr rfl
      · exact Or.inl ⟨hy, Or.inr hready⟩
    · rintro (⟨hy, hrun | hready⟩ | rfl)
      · exact ⟨hy, Or.inl hrun⟩
      · exact ⟨hy, Or.inr (Or.inr hready)⟩
      · exact ⟨hx, Or.inr (Or.inl rfl)⟩

/-- A queued process is neither ready nor running. -/
theorem Ok.not_schedulable
    (h : k.Ok) {x : Proc} {key : SemKey} (hx : x ∈ k.waitQueue key) :
    ¬ k.Schedulable x := by
  have hkey := (h.residence.semkey x key).mpr hx
  rintro ⟨-, rfl | hready⟩
  · rw [h.residence.semkey_of_absent h.running] at hkey
    exact Option.some_ne_none _ hkey.symm
  · rw [h.residence.semkey_of_ready hready] at hkey
    exact Option.some_ne_none _ hkey.symm

/-- A completion that finds the registered process first makes it ready, and no other. -/
theorem schedulable_doneIo
    (h : k.Ok) {d : Dev} {r : Proc} {q : List Proc}
    (hr : k.wForRes d = some r) (hq : k.waitQueue (.dev d) = r :: q) (status : Word) (x : Proc) :
    (k.doneIo m d status).Schedulable x ↔ k.Schedulable x ∨ x = r := by
  have hidle : r ≠ .idle := (h.live_of_queued (hq ▸ List.mem_cons_self)).1
  obtain ⟨asl, heq, -, -⟩ := doneIo_cons m d h.residence.aslOk hr hq status
  rw [if_pos rfl] at heq
  have hsched := schedulable_scheduleProc (y := x)
    (k := { k with
      asl := asl
      pSemkey := Function.update k.pSemkey r none
      devWList := Function.update k.devWList r none }) hidle
  rw [heq]
  cases q.head? <;> exact hsched

end Scheduling

section Servers

/-- A device as a server of the requests, given the first argument of each process. -/
def deviceServer (A : Arch) (v : DeviceView) (arg : Proc → Word) (d : Dev) : Server Request where
  started := requestsIn A v.bus d
  waiting := ((v.queue d).filter (fun p => v.res d ≠ some p)).map (fun p => ⟨p, arg p⟩)
  current := (v.res d).map (fun p => ⟨p, arg p⟩)

def server (k : Kernel A) (d : Dev) : Server Request :=
  deviceServer A k.devices (fun p => k.pS p A.arg1) d

/-- What an operation is for a device. -/
def deviceEvent (k : Kernel A) (op : Operation A) (d : Dev) : Event Request :=
  match op with
  | .waitIo command devReg subdev _ =>
      if waitCell A devReg subdev = some d then .request ⟨k.runningProc, command⟩ else .other
  | .doneIo d' _ => if d = d' then .finish else .other
  | _ => .other

theorem arrival_deviceEvent (k : Kernel A) (op : Operation A) (d : Dev) :
    (k.deviceEvent op d).arrival = k.requestOf op d := by
  cases op with
  | waitIo command devReg subdev tod =>
      simp only [deviceEvent, requestOf]
      split_ifs <;> rfl
  | doneIo d' status =>
      simp only [deviceEvent, requestOf]
      split_ifs <;> rfl
  | _ => rfl

theorem finishes_deviceEvent (k : Kernel A) (op : Operation A) (d : Dev) :
    (k.deviceEvent op d).Finishes ↔ op.Completes d := by
  cases op with
  | waitIo command devReg subdev tod =>
      simp only [deviceEvent]
      split_ifs <;> exact Iff.rfl
  | doneIo d' status =>
      simp only [deviceEvent, Operation.Completes]
      split_ifs with hd
      · exact iff_of_true trivial hd
      · exact iff_of_false id hd
  | _ => exact Iff.rfl

theorem requestsIn_append (ws ws' : List BusWrite) (d : Dev) :
    requestsIn A (ws ++ ws') d = requestsIn A ws d ++ requestsIn A ws' d :=
  List.filterMap_append

theorem requestsIn_singleton
    {w : BusWrite} {d : Dev} (hcell : w.cell A = some d) :
    requestsIn A [w] d = (w.owner.map (fun p => ⟨p, w.command⟩)).toList := by
  cases howner : w.owner <;> simp [requestsIn, hcell, howner]

theorem requestsIn_of_ne
    {w : BusWrite} {d d' : Dev} (hcell : w.cell A = some d) (hd : d' ≠ d) :
    requestsIn A [w] d' = [] := by
  simp [requestsIn, hcell, Ne.symm hd]

/-- The cell of the write that follows a completed operation. -/
theorem cell_nextWrite (d : Dev) (next : Option Proc) :
    (k.nextWrite d next).cell A = some d :=
  devCell_of_num (getDevInstance_devReg d)

variable {v v' : DeviceView} {arg arg' : Proc → Word} {d : Dev}

/-- The server depends on the queue, the registration and the commands of the device. -/
theorem deviceServer_congr
    (hbus : requestsIn A v'.bus d = requestsIn A v.bus d) (hqueue : v'.queue d = v.queue d)
    (hres : v'.res d = v.res d) (hfirst : RegisteredFirst v)
    (harg : ∀ x ∈ v.queue d, arg' x = arg x) :
    deviceServer A v' arg' d = deviceServer A v arg d := by
  have hwaiting : ∀ x ∈ (v.queue d).filter (fun p => v.res d ≠ some p),
      (⟨x, arg' x⟩ : Request) = ⟨x, arg x⟩ := by
    intro x hx
    rw [harg x (List.mem_of_mem_filter hx)]
  have hcurrent : (v.res d).map (fun p => (⟨p, arg' p⟩ : Request)) =
      (v.res d).map (fun p => ⟨p, arg p⟩) := by
    cases hr : v.res d with
    | none =>
        rfl
    | some r =>
        have hmem : r ∈ v.queue d := List.mem_of_mem_head? (hfirst d r hr)
        rw [Option.map_some, Option.map_some, harg r hmem]
  simp only [deviceServer, hbus, hqueue, hres, hcurrent, List.map_congr_left hwaiting]

/-- The servers of the devices that an operation does not concern stay as they are. -/
theorem step_skip
    {op : Operation A} (hother : k.deviceEvent op d = .other)
    (hbus : requestsIn A v.bus d = requestsIn A k.bus d)
    (hqueue : v.queue d = k.waitQueue (.dev d)) (hres : v.res d = k.wForRes d)
    (hfirst : RegisteredFirst k.devices)
    (harg : ∀ x ∈ k.waitQueue (.dev d), arg' x = k.pS x A.arg1) :
    RequestServer.Step (k.server d) (k.deviceEvent op d) (deviceServer A v arg' d) := by
  have hsame : deviceServer A v arg' d = k.server d :=
    deviceServer_congr hbus hqueue hres hfirst harg
  rw [hsame, hother]
  exact RequestServer.Step.skip

/-- A process that waits for a busy device adds its request to the waiting ones. -/
theorem step_wait
    (h : k.Ok) (hfirst : RegisteredFirst k.devices) {r : Proc} (hr : k.wForRes d = some r)
    (harg : ∀ x ∈ k.waitQueue (.dev d), arg' x = k.pS x A.arg1) :
    RequestServer.Step (k.server d) (.request ⟨k.runningProc, arg' k.runningProc⟩)
      (deviceServer A
        (k.devices.setQueue d (insertProcQ k.priority (k.waitQueue (.dev d)) k.runningProc))
        arg' d) := by
  have hmem : r ∈ k.waitQueue (.dev d) := List.mem_of_mem_head? (hfirst d r hr)
  have hne : k.wForRes d ≠ some k.runningProc := by
    rw [hr]
    exact fun heq => h.ne_running_of_queued hmem (Option.some.inj heq)
  set q := insertProcQ k.priority (k.waitQueue (.dev d)) k.runningProc with hq
  have hserver : deviceServer A (k.devices.setQueue d q) arg' d =
      ⟨(k.server d).started,
        (q.filter (fun p => k.wForRes d ≠ some p)).map (fun p => ⟨p, arg' p⟩),
        some ⟨r, k.pS r A.arg1⟩⟩ := by
    have hcurrent : ((k.devices.setQueue d q).res d).map (fun p => (⟨p, arg' p⟩ : Request)) =
        some ⟨r, k.pS r A.arg1⟩ := by
      rw [DeviceView.res_setQueue, show k.devices.res d = some r from hr, Option.map_some,
        harg r hmem]
    simp only [deviceServer, hcurrent, DeviceView.queue_setQueue, Function.update_self]
    rfl
  rw [hserver]
  refine RequestServer.Step.wait _ _ _ (by simp [server, deviceServer, devices, hr]) ?_
  have hperm := ((insertProcQ_perm k.priority (k.waitQueue (.dev d)) k.runningProc).filter
    (fun p => k.wForRes d ≠ some p)).map (fun p => (⟨p, arg' p⟩ : Request))
  have hold : ∀ x ∈ (k.waitQueue (.dev d)).filter (fun p => k.wForRes d ≠ some p),
      (⟨x, arg' x⟩ : Request) = ⟨x, k.pS x A.arg1⟩ := by
    intro x hx
    rw [harg x (List.mem_of_mem_filter hx)]
  rw [List.filter_cons_of_pos (by simpa using hne), List.map_cons,
    List.map_congr_left hold] at hperm
  exact hperm

/-- A process that finds the device free sends its command. -/
theorem step_submit
    (hdev : k.DevicesOk) (hr : k.wForRes d = none) {w : BusWrite} (hcell : w.cell A = some d)
    (howner : w.owner = some k.runningProc) (harg : arg' k.runningProc = w.command) :
    RequestServer.Step (k.server d) (.request ⟨k.runningProc, w.command⟩)
      (deviceServer A
        (((k.devices.setQueue d [k.runningProc]).register d k.runningProc).send w) arg' d) := by
  have hempty : k.waitQueue (.dev d) = [] := hdev.vacant d hr
  have hserver : deviceServer A
      (((k.devices.setQueue d [k.runningProc]).register d k.runningProc).send w) arg' d =
      ⟨(k.server d).started ++ [⟨k.runningProc, w.command⟩], (k.server d).waiting,
        some ⟨k.runningProc, w.command⟩⟩ := by
    simp only [deviceServer, server, DeviceView.bus_send, requestsIn_append,
      requestsIn_singleton hcell, howner, DeviceView.queue_send, DeviceView.queue_register,
      DeviceView.queue_setQueue, DeviceView.res_send, DeviceView.res_register,
      Function.update_self]
    simp [devices, hempty, harg, DeviceView.register, DeviceView.setQueue]
  rw [hserver]
  exact RequestServer.Step.start _ (by simp [server, deviceServer, devices, hr])

/-- A completion takes up the next request. -/
theorem step_serve
    (h : k.Ok) {r : Proc} {q : List Proc} (hr : k.wForRes d = some r)
    (hq : k.waitQueue (.dev d) = r :: q)
    (harg : ∀ x ∈ q, arg' x = k.pS x A.arg1) :
    RequestServer.Step (k.server d) .finish
      (deviceServer A
        ((((k.devices.setQueue d q).release r).promote d q.head?).send (k.nextWrite d q.head?))
        arg' d) := by
  obtain ⟨hrq, hnd⟩ := h.queue_nodup hq
  have hwaiting : (k.server d).waiting = q.map (fun p => ⟨p, k.pS p A.arg1⟩) := by
    have hall : ∀ x ∈ q, r ≠ x := fun x hx heq => hrq (heq ▸ hx)
    simp only [server, deviceServer, devices, hr, hq]
    rw [List.filter_cons_of_neg (by simp), List.filter_eq_self.mpr (by simpa using hall)]
  have hcurrent : (k.server d).current = some ⟨r, k.pS r A.arg1⟩ := by
    simp [server, deviceServer, devices, hr]
  cases q with
  | nil =>
      have hserver : deviceServer A
          ((((k.devices.setQueue d []).release r).promote d [].head?).send
            (k.nextWrite d [].head?)) arg' d = ⟨(k.server d).started, [], none⟩ := by
        have hack : requestsIn A [k.nextWrite d none] d = [] :=
          requestsIn_singleton (cell_nextWrite d none)
        simp only [deviceServer, server, DeviceView.bus_send, requestsIn_append, List.head?_nil,
          hack]
        simp [DeviceView.vacate, DeviceView.release, DeviceView.setQueue, devices]
      rw [hserver]
      exact RequestServer.Step.rest _ hcurrent hwaiting
  | cons y q =>
      have hyq : ∀ x ∈ q, y ≠ x := fun x hx heq => (List.nodup_cons.mp hnd).1 (heq ▸ hx)
      have hrest : ∀ x ∈ q, (⟨x, arg' x⟩ : Request) = ⟨x, k.pS x A.arg1⟩ := by
        intro x hx
        rw [harg x (List.mem_cons_of_mem y hx)]
      have hserver : deviceServer A
          ((((k.devices.setQueue d (y :: q)).release r).promote d (y :: q).head?).send
            (k.nextWrite d (y :: q).head?)) arg' d =
          ⟨(k.server d).started ++ [⟨y, k.pS y A.arg1⟩],
            q.map (fun p => ⟨p, k.pS p A.arg1⟩), some ⟨y, k.pS y A.arg1⟩⟩ := by
        simp only [deviceServer, server, DeviceView.bus_send, requestsIn_append, List.head?_cons,
          requestsIn_singleton (cell_nextWrite d (some y)), DeviceView.queue_send,
          DeviceView.queue_promote, DeviceView.queue_release, DeviceView.queue_setQueue,
          DeviceView.res_send, DeviceView.res_promote, Function.update_self]
        rw [List.filter_cons_of_neg (by simp), List.filter_eq_self.mpr (by simpa using hyq),
          List.map_congr_left hrest, Option.map_some, harg y List.mem_cons_self]
        rfl
      rw [hserver]
      exact RequestServer.Step.next _ _ _ hcurrent hwaiting

/-- While the registered process is the first, a move is a step of the server. -/
theorem DeviceMove.server_step
    {op : Operation A} (hmove : DeviceMove k op v) (h : k.Sparing)
    (hfirst : RegisteredFirst k.devices) (hterm : ¬ op.Terminates)
    (harg : ∀ d x, x ∈ k.waitQueue (.dev d) → x ∈ v.queue d → arg' x = k.pS x A.arg1)
    (hcall : ∀ command devReg subdev tod, op = .waitIo command devReg subdev tod →
      arg' k.runningProc = command) (d : Dev) :
    RequestServer.Step (k.server d) (k.deviceEvent op d) (deviceServer A v arg' d) := by
  have hskip : k.deviceEvent op d = .other → requestsIn A v.bus d = requestsIn A k.bus d →
      v.queue d = k.waitQueue (.dev d) → v.res d = k.wForRes d →
      RequestServer.Step (k.server d) (k.deviceEvent op d) (deviceServer A v arg' d) :=
    fun hother hbus hqueue hres =>
      step_skip hother hbus hqueue hres hfirst (fun x hx => harg d x hx (hqueue ▸ hx))
  cases hmove with
  | quiet hfree _ =>
      refine hskip ?_ rfl rfl rfl
      cases op with
      | waitIo _ _ _ _ =>
          exact absurd hfree id
      | doneIo _ _ =>
          exact absurd hfree id
      | _ => rfl
  | remove p l _ =>
      exact absurd trivial hterm
  | wait command devReg subdev tod d' r hcell hr =>
      by_cases hd : d = d'
      · subst hd
        have hargs : ∀ x ∈ k.waitQueue (.dev d), arg' x = k.pS x A.arg1 := by
          intro x hx
          refine harg d x hx ?_
          rw [DeviceView.queue_setQueue, Function.update_self]
          exact mem_insertProcQ.mpr (Or.inr hx)
        have hstep := step_wait h.ok hfirst hr hargs
        rw [hcall command devReg subdev tod rfl] at hstep
        simp only [deviceEvent, if_pos hcell]
        exact hstep
      · have hcell' : waitCell A devReg subdev ≠ some d := by
          rw [hcell]
          exact fun heq => hd (Option.some.inj heq).symm
        exact hskip (if_neg hcell') rfl (Function.update_of_ne hd _ _) rfl
  | submit command devReg subdev tod d' hcell hr =>
      have hwrite : (⟨d'.type, devReg, command, some k.runningProc⟩ : BusWrite).cell A = some d' :=
        cell_of_waitCell hcell
      by_cases hd : d = d'
      · subst hd
        simp only [deviceEvent, if_pos hcell]
        exact step_submit h.devicesOk hr hwrite rfl (hcall command devReg subdev tod rfl)
      · have hcell' : waitCell A devReg subdev ≠ some d := by
          rw [hcell]
          exact fun heq => hd (Option.some.inj heq).symm
        refine hskip (if_neg hcell') ?_ (Function.update_of_ne hd _ _)
          (Function.update_of_ne hd _ _)
        rw [DeviceView.bus_send, requestsIn_append, requestsIn_of_ne hwrite hd, List.append_nil]
        rfl
  | spurious d' status hr =>
      by_cases hd : d = d'
      · subst hd
        have hsame : deviceServer A k.devices arg' d = k.server d :=
          deviceServer_congr rfl rfl rfl hfirst (fun x hx => harg d x hx hx)
        rw [hsame]
        simp only [deviceEvent, if_true]
        exact RequestServer.Step.stray (by simp [server, deviceServer, devices, hr])
      · exact hskip (if_neg hd) rfl rfl rfl
  | abandon d' status r hr hq =>
      have hhead := hfirst d' r hr
      rw [show k.devices.queue d' = [] from hq] at hhead
      exact absurd hhead (by simp)
  | serve d' status r q hr hq =>
      by_cases hd : d = d'
      · subst hd
        simp only [deviceEvent, if_true]
        refine step_serve h.ok hr hq (fun x hx => harg d x (hq ▸ List.mem_cons_of_mem r hx) ?_)
        rw [DeviceView.queue_send, DeviceView.queue_promote, DeviceView.queue_release,
          DeviceView.queue_setQueue, Function.update_self]
        exact hx
      · refine hskip (if_neg hd) ?_ ?_ ?_
        · rw [DeviceView.bus_send, requestsIn_append, requestsIn_of_ne (cell_nextWrite d' _) hd,
            List.append_nil, DeviceView.bus_promote]
          rfl
        · rw [DeviceView.queue_send, DeviceView.queue_promote]
          exact Function.update_of_ne hd _ _
        · rw [DeviceView.res_send, DeviceView.res_promote, Function.update_of_ne hd]
          rfl
  | lose d' status r x q hr hx hq =>
      have hhead := hfirst d' r hr
      rw [show k.devices.queue d' = x :: q from hq] at hhead
      exact absurd (Option.some.inj hhead) hx

end Servers

section Turns

/-- The first process of a queue stays there exactly when it is not overtaken. -/
theorem head?_insertProcQ
    {priority : Proc → Int} {r p : Proc} (q : List Proc) (hp : p ≠ r) :
    (insertProcQ priority (r :: q) p).head? = some r ↔ priority p ≤ priority r := by
  by_cases hlt : priority p > priority r
  · simp [insertProcQ, hlt, hp]
  · simp [insertProcQ, hlt, not_lt.mp hlt]

/-- The queue of a device with a registered process that is the first. -/
theorem RegisteredFirst.queue_eq
    {v : DeviceView} (h : RegisteredFirst v) {d : Dev} {r : Proc} (hr : v.res d = some r) :
    ∃ q, v.queue d = r :: q :=
  ⟨_, List.eq_cons_of_mem_head? (h d r hr)⟩

/-- A process in turn keeps its place, if it is not overtaken. -/
theorem DeviceMove.registeredFirst
    {op : Operation A} {v : DeviceView} (hmove : DeviceMove k op v) (h : k.Ok)
    (hfirst : RegisteredFirst k.devices) (hterm : ¬ op.Terminates) (hkeep : k.KeepsTurn op) :
    RegisteredFirst v := by
  intro d r hr
  cases hmove with
  | quiet _ _ =>
      exact hfirst d r hr
  | spurious _ _ _ =>
      exact hfirst d r hr
  | remove p l _ =>
      exact absurd trivial hterm
  | wait command devReg subdev tod d' r' hcell hr' =>
      have hr : k.wForRes d = some r := hr
      rw [DeviceView.queue_setQueue]
      by_cases hd : d = d'
      · subst hd
        obtain ⟨q, hq⟩ := hfirst.queue_eq hr
        have hq : k.waitQueue (.dev d) = r :: q := hq
        have hrun := h.ne_running_of_queued (hq ▸ List.mem_cons_self : r ∈ k.waitQueue (.dev d))
        rw [Function.update_self, hq]
        exact (head?_insertProcQ q hrun.symm).mpr (hkeep d hcell r hr)
      · rw [Function.update_of_ne hd]
        exact hfirst d r hr
  | submit command devReg subdev tod d' hcell hr' =>
      simp only [DeviceView.res_send, DeviceView.res_register, DeviceView.res_setQueue,
        DeviceView.queue_send, DeviceView.queue_register, DeviceView.queue_setQueue] at hr ⊢
      by_cases hd : d = d'
      · subst hd
        rw [Function.update_self] at hr ⊢
        exact hr
      · rw [Function.update_of_ne hd] at hr ⊢
        exact hfirst d r hr
  | abandon d' status r' hr' hq =>
      obtain ⟨q, hq'⟩ := hfirst.queue_eq (show k.devices.res d' = some r' from hr')
      rw [show k.devices.queue d' = [] from hq] at hq'
      exact absurd hq' (by simp)
  | serve d' status r' q hr' hq =>
      simp only [DeviceView.res_send, DeviceView.res_promote, DeviceView.res_release,
        DeviceView.res_setQueue, DeviceView.queue_send, DeviceView.queue_promote,
        DeviceView.queue_release, DeviceView.queue_setQueue] at hr ⊢
      by_cases hd : d = d'
      · subst hd
        rw [Function.update_self] at hr ⊢
        exact hr
      · rw [Function.update_of_ne hd] at hr ⊢
        exact hfirst d r hr
  | lose d' status r' x q hr' hx hq =>
      have hhead := hfirst d' r' hr'
      rw [show k.devices.queue d' = x :: q from hq] at hhead
      exact absurd (Option.some.inj hhead) hx

/-- A process that overtakes the registered one takes its place. -/
theorem DeviceMove.keepsTurn
    {op : Operation A} {v : DeviceView} (hmove : DeviceMove k op v) (h : k.Ok)
    (hfirst : RegisteredFirst k.devices) (hfirst' : RegisteredFirst v) :
    k.KeepsTurn op := by
  cases hmove with
  | wait command devReg subdev tod d r hcell hr =>
      intro d' hd' r' hr'
      obtain rfl : d = d' := Option.some.inj (hcell.symm.trans hd')
      obtain rfl : r = r' := Option.some.inj (hr.symm.trans hr')
      obtain ⟨q, hq⟩ := hfirst.queue_eq (show k.devices.res d = some r from hr)
      have hq : k.waitQueue (.dev d) = r :: q := hq
      have hrun := h.ne_running_of_queued (hq ▸ List.mem_cons_self : r ∈ k.waitQueue (.dev d))
      have hhead := hfirst' d r hr
      rw [DeviceView.queue_setQueue, Function.update_self, hq] at hhead
      exact (head?_insertProcQ q hrun.symm).mp hhead
  | submit command devReg subdev tod d hcell hr =>
      intro d' hd' r' hr'
      obtain rfl : d = d' := Option.some.inj (hcell.symm.trans hd')
      rw [hr] at hr'
      exact absurd hr' (by simp)
  | quiet hfree _ =>
      cases op with
      | waitIo _ _ _ _ =>
          exact absurd hfree id
      | _ => exact trivial
  | _ => exact trivial

end Turns

section Calls

variable {c : Call A}

theorem CallStep.sparing
    (hstep : CallStep m k c k') (h : k.Sparing) (hterm : ¬ c.op.Terminates) :
    k'.Sparing := by
  obtain ⟨-, k₁, hop, rfl⟩ := hstep
  exact (h.step (SparesDevices.of_not_terminates hterm) hop).of_core core_saveState

theorem CallStep.move
    (hstep : CallStep m k c k') (h : k.Sparing) :
    DeviceMove k c.op k'.devices := by
  obtain ⟨-, k₁, hop, rfl⟩ := hstep
  rw [devices_saveState]
  exact device_move h.ok h.devicesOk (h.safe c.op) hop

/-- The state of a process does not change while it waits for a device. -/
theorem CallStep.pS_queued
    (hstep : CallStep m k c k') (h : k.Sparing) {d : Dev} {x : Proc}
    (hx : x ∈ k.waitQueue (.dev d)) (hx' : x ∈ k'.waitQueue (.dev d)) :
    k'.pS x = k.pS x := by
  obtain ⟨-, k₁, hop, rfl⟩ := hstep
  rw [pS_saveState_of_ne (h.ok.ne_running_of_queued hx)]
  have hx' : x ∈ k₁.waitQueue (.dev d) := by
    rwa [waitQueue_of_core core_saveState] at hx'
  rcases hop.pS_cases h.ok (h.safe c.op) with
    ⟨heq, -⟩ | ⟨s, priority, y, free, -, hfree, heq⟩ | ⟨d', status, r, q, hcop, hr, hq, heq⟩
  · rw [heq]
  · have hxy : x ≠ y := by
      rintro rfl
      exact (h.ok.live_of_queued hx).2 (hfree ▸ List.mem_cons_self)
    rw [heq, Function.update_of_ne hxy]
  · have hxr : x ≠ r := by
      -- a served process is in no queue any more
      rintro rfl
      have hxd' : x ∈ k.devices.queue d' := by
        show x ∈ k.waitQueue (.dev d')
        rw [hq]
        exact List.mem_cons_self
      obtain rfl : d' = d := h.ok.devices_unique hx hxd'
      rw [hcop] at hop
      rw [← Except.ok.inj hop.2, (doneIo_serve h.ok hr hq status).2.2] at hx'
      exact h.ok.head_notMem hq hx'
    rw [heq, Function.update_of_ne hxr]

/-- The state that is saved for the caller of a WAITIO holds its command. -/
theorem CallStep.arg_saved
    (hstep : CallStep m k c k') (h : k.Ok) {command devReg subdev tod : Word}
    (hop : c.op = .waitIo command devReg subdev tod) :
    k'.pS k.runningProc A.arg1 = command := by
  obtain ⟨hpresents, k₁, ⟨hadm, hexec⟩, rfl⟩ := hstep
  have harg : c.state A.arg1 = command := by
    unfold Call.Presents at hpresents
    rw [hop] at hpresents
    exact hpresents
  rw [hop] at hadm hexec
  have hidle : k.runningProc ≠ .idle := hadm
  have hnext : ∀ k₂ : Kernel A, k₂.readyQueue = k.readyQueue →
      k₂.runNextReady.runningProc ≠ k.runningProc := by
    intro k₂ hready
    rw [runNextReady_eq, hready]
    cases hq : k.readyQueue with
    | nil =>
        exact Ne.symm hidle
    | cons y q =>
        rintro (rfl : y = _)
        refine h.running_not_ready ?_
        rw [hq]
        exact List.mem_cons_self
  have hrun : k₁.runningProc ≠ k.runningProc := by
    obtain ⟨d, -, rfl⟩ := exec_waitIo hexec
    rcases waitDev_spec m d h hidle command devReg tod with
      ⟨-, asl, heq, -, -⟩ | ⟨-, asl, heq, -, -⟩
    · rw [heq]
      exact hnext _ rfl
    · rw [heq]
      exact hnext _ rfl
  rw [pS_saveState_self hrun hidle, harg]

/-- While the registered processes are the first, a call is a step of every server. -/
theorem CallStep.server_step
    (hstep : CallStep m k c k') (h : k.Sparing) (hfirst : RegisteredFirst k.devices)
    (hterm : ¬ c.op.Terminates) (d : Dev) :
    RequestServer.Step (k.server d) (k.deviceEvent c.op d) (k'.server d) := by
  refine (hstep.move h).server_step h hfirst hterm (fun d x hx hx' => ?_)
    (fun command devReg subdev tod hop => hstep.arg_saved h.ok hop) d
  rw [hstep.pS_queued h hx hx']

/-- What a completion does to the request that is outstanding. -/
theorem CallStep.serves
    (hstep : CallStep m k c k') (h : k.Sparing) (hfirst : RegisteredFirst k.devices)
    {d : Dev} {made : List Request} {done : ℕ} (hbal : Balanced (k.server d) made done)
    (hout : done < (k.requestsSent d).length) {status : Word} (hop : c.op = .doneIo d status) :
    ∃ r q, k.waitQueue (.dev d) = r :: q ∧ k'.waitQueue (.dev d) = q ∧
      (k.requestsSent d)[done]? = some ⟨r, k.pS r A.arg1⟩ ∧
      (∀ x, k'.Schedulable x ↔ k.Schedulable x ∨ x = r) ∧
      k'.pS r = (k.pS r).setRet status := by
  obtain ⟨x, hcurrent⟩ := hbal.exists_current hout
  obtain ⟨r, hr, rfl⟩ := Option.map_eq_some_iff.mp hcurrent
  have hr : k.wForRes d = some r := hr
  obtain ⟨q, hq⟩ := hfirst.queue_eq (show k.devices.res d = some r from hr)
  have hq : k.waitQueue (.dev d) = r :: q := hq
  obtain ⟨-, k₁, hexec, rfl⟩ := hstep
  rw [hop] at hexec
  obtain rfl := Except.ok.inj hexec.2
  obtain ⟨-, hpS, hqueue⟩ := doneIo_serve (m := m) h.ok hr hq status
  have hrun := h.ok.ne_running_of_queued (hq ▸ List.mem_cons_self : r ∈ k.waitQueue (.dev d))
  refine ⟨r, q, hq, ?_, hbal.current_eq hcurrent, fun x => ?_, ?_⟩
  · rw [waitQueue_of_core core_saveState]
    exact hqueue
  · rw [schedulable_saveState]
    exact schedulable_doneIo h.ok hr hq status x
  · rw [pS_saveState_of_ne hrun, hpS, Function.update_self]

/-- Nothing but a completion takes a process off the queue of a device. -/
theorem DeviceMove.completes_of_leaves
    {op : Operation A} {v : DeviceView} (hmove : DeviceMove k op v) (hdev : k.DevicesOk)
    (hterm : ¬ op.Terminates) {d : Dev} {x : Proc}
    (hx : x ∈ k.waitQueue (.dev d)) (hx' : x ∉ v.queue d) :
    ∃ status, op = .doneIo d status := by
  have hpop : ∀ (d' : Dev) (q : List Proc), x ∉ Function.update k.devices.queue d' q d →
      d' = d := by
    intro d' q hmem
    by_contra hd
    rw [Function.update_of_ne (Ne.symm hd)] at hmem
    exact hmem hx
  cases hmove with
  | quiet _ _ =>
      exact absurd hx hx'
  | spurious _ _ _ =>
      exact absurd hx hx'
  | abandon _ _ _ _ _ =>
      exact absurd hx hx'
  | remove p l _ =>
      exact absurd trivial hterm
  | wait command devReg subdev tod d' r hcell hr =>
      rw [DeviceView.queue_setQueue] at hx'
      obtain rfl := hpop d' _ hx'
      rw [Function.update_self] at hx'
      exact absurd (mem_insertProcQ.mpr (Or.inr hx)) hx'
  | submit command devReg subdev tod d' hcell hr =>
      have hx' : x ∉ Function.update k.devices.queue d' [k.runningProc] d := hx'
      obtain rfl := hpop d' _ hx'
      rw [hdev.vacant d' hr] at hx
      exact absurd hx List.not_mem_nil
  | serve d' status r q hr hq =>
      rw [DeviceView.queue_send, DeviceView.queue_promote] at hx'
      obtain rfl := hpop d' _ hx'
      exact ⟨status, rfl⟩
  | lose d' status r y q hr hy hq =>
      rw [DeviceView.queue_send, DeviceView.queue_promote] at hx'
      obtain rfl := hpop d' _ hx'
      exact ⟨status, rfl⟩

end Calls

section Runs

variable {s : ℕ → Kernel A} {c : ℕ → Call A} {n : ℕ}

theorem sparing_of_calls
    (hboot : (s 0).Booted) (hrun : IsRun (CallStep m) s c n)
    (hterm : ∀ i < n, ¬ (c i).op.Terminates) :
    ∀ i ≤ n, (s i).Sparing :=
  hrun.invariant_of (C := fun _ l => ¬ l.op.Terminates) hterm hboot.fresh.sparing
    (fun _ _ _ h hterm hstep => hstep.sparing h hterm)

/-- What holds in a run in which nobody is overtaken. -/
structure InTurn (k : Kernel A) : Prop where
  sparing : k.Sparing
  first : RegisteredFirst k.devices

theorem Fresh.inTurn {k : Kernel A} (h : k.Fresh) : k.InTurn := by
  refine ⟨h.sparing, fun d r hr => ?_⟩
  rw [show k.devices.res d = none from h.wForRes d] at hr
  exact absurd hr (by simp)

/-- The step lemma. -/
theorem InTurn.call
    {k k' : Kernel A} {l : Call A} (h : k.InTurn) (hkeep : ¬ l.op.Terminates ∧ k.KeepsTurn l.op)
    (hstep : CallStep m k l k') :
    k'.InTurn where
  sparing := hstep.sparing h.sparing hkeep.1
  first := (hstep.move h.sparing).registeredFirst h.sparing.ok h.first hkeep.1 hkeep.2

theorem inTurn_of_run
    (hboot : (s 0).Booted) (hrun : IsRun (CallStep m) s c n)
    (hterm : ∀ i < n, ¬ (c i).op.Terminates) (hkeep : ∀ i < n, (s i).KeepsTurn (c i).op) :
    ∀ i ≤ n, (s i).InTurn :=
  hrun.invariant_of (C := fun k l => ¬ l.op.Terminates ∧ k.KeepsTurn l.op)
    (fun i hi => ⟨hterm i hi, hkeep i hi⟩) hboot.fresh.inTurn
    (fun _ _ _ h hkeep hstep => h.call hkeep hstep)

/-- Every device is a server of the requests that are made to it. -/
theorem balanced_of_calls
    (hboot : (s 0).Booted) (hrun : IsRun (CallStep m) s c n)
    (hterm : ∀ i < n, ¬ (c i).op.Terminates)
    (hdone : ∀ i < n, ∀ d, (c i).op.Completes d →
      completions (fun j => (c j).op) i d < ((s i).requestsSent d).length)
    (hkeep : ∀ i < n, (s i).KeepsTurn (c i).op) (d : Dev) :
    ∀ i ≤ n, Balanced ((s i).server d) (requestsMade s c i d)
      (completions (fun j => (c j).op) i d) := by
  have hinv := inTurn_of_run hboot hrun hterm hkeep
  set ev : ℕ → Event Request := fun i => (s i).deviceEvent (c i).op d with hev
  have hrequests : ∀ i, requests ev i = requestsMade s c i d := by
    intro i
    simp only [requests, requestsMade, hev, arrival_deviceEvent]
  have hfinishes : ∀ i, finishes ev i = completions (fun j => (c j).op) i d := by
    intro i
    exact List.countP_congr (fun j _ => by simp [hev, finishes_deviceEvent])
  have h0 : (s 0).server d = Server.idle := by
    have hfresh := hboot.fresh
    simp [server, deviceServer, Server.idle, devices, hfresh.bus, hfresh.noWaiters,
      hfresh.wForRes, requestsIn]
  have hserver : IsRun RequestServer.Step (fun i => (s i).server d) ev n := by
    intro i hi
    obtain ⟨h, hfirst⟩ := hinv i hi.le
    exact (hrun i hi).server_step h hfirst (hterm i hi) d
  have hbal := balanced_of_run h0 hserver (fun i hi hfin => by
    rw [hfinishes]
    exact hdone i hi d ((finishes_deviceEvent _ _ d).mp hfin))
  intro i hi
  rw [← hrequests, ← hfinishes]
  exact hbal i hi

/--
The device wait protocol, in runs without terminations in which a device completes only
commands that were sent: it holds exactly when no process that waits for a busy device has
a higher priority than the process registered there.
-/
theorem device_protocol
    (hboot : (s 0).Booted) (hrun : IsRun (CallStep m) s c n)
    (hterm : ∀ i < n, ¬ (c i).op.Terminates)
    (hdone : ∀ i < n, ∀ d, (c i).op.Completes d →
      completions (fun j => (c j).op) i d < ((s i).requestsSent d).length) :
    DeviceProtocol s c n ↔ ∀ i < n, (s i).KeepsTurn (c i).op := by
  constructor
  · intro hprotocol i hi
    have h := sparing_of_calls hboot hrun hterm i hi.le
    exact ((hrun i hi).move h).keepsTurn h.ok (hprotocol.first i hi.le)
      (hprotocol.first (i + 1) hi)
  · intro hkeep
    have hinv := inTurn_of_run hboot hrun hterm hkeep
    have hbal := balanced_of_calls hboot hrun hterm hdone hkeep
    refine ⟨fun i hi => (hinv i hi).first, fun i hi d status hop => ?_, fun i hi d => ?_,
      fun i hi d hres => ?_, fun i hi d x hx hx' => ?_⟩
    · obtain ⟨h, hfirst⟩ := hinv i hi.le
      have hout := hdone i hi d (by rw [hop]; rfl)
      obtain ⟨r, q, hq, -, hsent, hsched, -⟩ :=
        (hrun i hi).serves h hfirst (hbal d i hi.le) hout hop
      exact ⟨r, _, hsent, h.ok.not_schedulable (hq ▸ List.mem_cons_self : r ∈ _), hsched⟩
    · exact (hbal d i hi).once
    · have hcurrent : ((s i).server d).current = none := by
        show ((s i).wForRes d).map _ = none
        rw [hres]
        rfl
      have honce := (hbal d i hi).once
      rw [((hbal d i hi).resting hcurrent).1, List.append_nil] at honce
      exact honce
    · obtain ⟨h, hfirst⟩ := hinv i hi.le
      obtain ⟨status, hop⟩ :=
        ((hrun i hi).move h).completes_of_leaves h.devicesOk (hterm i hi) hx hx'
      have hout := hdone i hi d (by rw [hop]; rfl)
      obtain ⟨r, q, hq, hq', hsent, hsched, hpS⟩ :=
        (hrun i hi).serves h hfirst (hbal d i hi.le) hout hop
      rw [hq'] at hx'
      rw [hq] at hx
      obtain rfl : x = r := (List.mem_cons.mp hx).resolve_right hx'
      exact ⟨status, hop, hsent, (hsched x).mpr (Or.inr rfl), hpS⟩

/-- A process on uMPS calls WAITIO with the command and the device register. -/
def waitCallMps (command devReg : Word) : Call umps where
  op := .waitIo command devReg 0 0
  state
    | .gpr 4 => command
    | _ => 0

/-- The completion of the first printer. -/
def printerDoneMps : Call umps :=
  ⟨.doneIo ⟨.PRIN, 0⟩ 1, State.reset⟩

/-- A process uses the printer again while one of lower priority waits for its response. -/
def overtakingCalls : List (Call umps) :=
  [waitCallMps 2 0x100001d0, waitCallMps 3 0x100001d0, printerDoneMps,
    waitCallMps 4 0x100001d0, printerDoneMps]

abbrev overtakingRun (i : ℕ) : Kernel umps :=
  states (nextCall .int32) (bootMps [2, 1]) overtakingCalls i

abbrev overtakingCall (i : ℕ) : Call umps :=
  overtakingCalls.getD i printerDoneMps

theorem overtakingCalls_isRun : IsRun (CallStep .int32) overtakingRun overtakingCall 5 :=
  isRun_of_acceptsCalls _ (by decide +kernel)

/-- Its command is never sent, it is in no list, and the other command is sent twice. -/
theorem process_overtaken :
    (bootMps [2, 1]).Booted ∧ IsRun (CallStep .int32) overtakingRun overtakingCall 5 ∧
      (∀ i < 5, ¬ (overtakingCall i).op.Terminates) ∧
      (∀ i < 5, ∀ d, (overtakingCall i).op.Completes d →
        completions (fun j => (overtakingCall j).op) i d <
          ((overtakingRun i).requestsSent d).length) ∧
      (overtakingRun 5).Live (.pcb 0) ∧ (overtakingRun 5).occurrences (.pcb 0) = 0 ∧
      (overtakingRun 5).requestsSent ⟨.PRIN, 0⟩ = [⟨.pcb 0, 2⟩, ⟨.pcb 1, 3⟩, ⟨.pcb 1, 3⟩] ∧
      ¬ DeviceProtocol overtakingRun overtakingCall 5 := by
  refine ⟨bootMps_booted (by decide) (by decide), overtakingCalls_isRun, by decide +kernel,
    fun i hi d hd => ?_, by decide +kernel, by decide +kernel, by decide +kernel,
    fun hprotocol => ?_⟩
  · interval_cases i
    · exact absurd hd id
    · exact absurd hd id
    · obtain rfl : d = ⟨.PRIN, 0⟩ := hd
      decide +kernel
    · exact absurd hd id
    · obtain rfl : d = ⟨.PRIN, 0⟩ := hd
      decide +kernel
  · have hhead := hprotocol.first 4 (by decide) ⟨.PRIN, 0⟩ (.pcb 1) (by decide +kernel)
    exact absurd hhead (by decide +kernel)

/-- Two processes of one priority use the printer. -/
def turnCalls : List (Call umps) :=
  [waitCallMps 2 0x100001d0, waitCallMps 3 0x100001d0, printerDoneMps, printerDoneMps]

abbrev turnRun (i : ℕ) : Kernel umps :=
  states (nextCall .int32) (bootMps [1, 1]) turnCalls i

abbrev turnCall (i : ℕ) : Call umps :=
  turnCalls.getD i printerDoneMps

theorem turnCalls_isRun : IsRun (CallStep .int32) turnRun turnCall 4 :=
  isRun_of_acceptsCalls _ (by decide +kernel)

theorem device_protocol_turnCalls : DeviceProtocol turnRun turnCall 4 := by
  refine (device_protocol (bootMps_booted (by decide) (by decide)) turnCalls_isRun
    (by decide +kernel) (fun i hi d hd => ?_)).mpr (by decide +kernel)
  interval_cases i
  · exact absurd hd id
  · exact absurd hd id
  · obtain rfl : d = ⟨.PRIN, 0⟩ := hd
    decide +kernel
  · obtain rfl : d = ⟨.PRIN, 0⟩ := hd
    decide +kernel

end Runs

end Kernel

namespace Machine

open Kernel

variable {A : Arch} {m : IntModel} {M M' : Machine A}

/-- A handler that executes one operation makes such a step, up to the time accounting. -/
theorem callStep_of_enter
    {e : Entry A} {op : Operation A} {reply : Reply} {r : Resumed A}
    (hok : M.kernel.Ok) (hidle : M.kernel.runningProc = .idle → e.type = .INT)
    (hops : M.operations e.toException = [op]) (hsafe : M.kernel.Safe op)
    (henter : M.enter m e = .ok (M', reply, r)) :
    ∃ st k', CallStep m (M.started e) ⟨op, st⟩ k' ∧
      M'.kernel.core = k'.core ∧ M'.kernel.pS = k'.pS := by
  obtain ⟨k, hexecutes, hcore, -, hresumes⟩ := enter_spec henter
  -- what the handler executes, and the arguments of a WAITIO
  obtain ⟨hstep, hwait⟩ : Kernel.Step m (M.started e) op k ∧
      ∀ command devReg subdev tod, op = .waitIo command devReg subdev tod →
        e.syscall = some 6 ∧ command = e.adjusted A.arg1 := by
    cases hexecutes with
    | interrupt htype hall =>
        have hops' : Kernel.interruptOps e.irq = [op] := by
          rw [← hops]
          simp only [operations, htype]
        have hint : op.Interrupt := interrupt_of_mem (hops' ▸ List.mem_singleton_self op)
        rw [hops'] at hall
        refine ⟨step_of_interrupt hint (execAll_singleton hall), ?_⟩
        rintro command devReg subdev tod rfl
        exact absurd hint id
    | nothing _ hnil _ _ =>
        rw [hops] at hnil
        exact absurd hnil (by simp)
    | operation htype hops' hreq hop =>
        obtain rfl := List.singleton_inj.mp (hops.symm.trans hops')
        have hrun : M.kernel.runningProc ≠ .idle := fun hrun => htype (hidle hrun)
        refine ⟨(started_ok hok).step_of_exec hrun (Safe.of_started hsafe) hop, ?_⟩
        rintro command devReg subdev tod rfl
        exact ⟨hreq.1, hreq.2.1⟩
  have hpresents : ∀ st, (st = e.adjusted ∨
      (∃ w, st = e.adjusted.setRet w) ∧ (e.syscall = some 2 ∨ e.syscall = some 3)) →
      (⟨op, st⟩ : Call A).Presents := by
    intro st hst
    cases hop : op with
    | waitIo command devReg subdev tod =>
        obtain ⟨hsys, harg⟩ := hwait command devReg subdev tod hop
        rw [hsys] at hst
        have hst : st = e.adjusted := by simpa using hst
        show st A.arg1 = command
        rw [hst, harg]
    | _ => exact trivial
  have hrun : (M.started e).runningProc = M.kernel.runningProc := rfl
  cases hresumes with
  | same st hst hsame hpS _ =>
      refine ⟨st, _, ⟨hpresents st hst, k, hstep, rfl⟩, hcore.trans core_saveState.symm, ?_⟩
      rw [hpS, saveState, if_neg (fun h => h.1 (hrun.trans hsame.symm))]
  | other st hst hother hpS _ =>
      refine ⟨st, _, ⟨hpresents st hst, k, hstep, rfl⟩, hcore.trans core_saveState.symm, ?_⟩
      rw [hpS, saveState]
      by_cases hidle' : M.kernel.runningProc = .idle
      · rw [if_pos hidle', if_neg (fun h => h.2 (hrun.trans hidle'))]
      · rw [if_neg hidle', if_pos ⟨fun h => hother (h.symm.trans hrun), fun h => hidle' h⟩, hrun]
  | passup _ _ _ hup _ =>
      rw [operations_of_passedUp hup] at hops
      exact absurd hops (by simp)

end Machine

end Bikaya
