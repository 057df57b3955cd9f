import Mathlib.Tactic.IntervalCases
import Bikaya.Proofs.DeviceQueues

/-!
# Bikaya: responses to terminated processes

Which process issued the command that a device is executing is history, not state: it is
followed along the run, through the terminations.  With equal priorities a completion
serves the issuer of the command, if that process is alive.  If it is not, then the
response is discarded properly only when nobody else is queued.

**Plan.**  `nextIssuer` follows the issuer of the command in progress from the operations
and the deaths only.  With equal priorities nobody is overtaken in a queue, so that the
issuer, if it is alive, is the registered process and the first in the queue (`Aligned`).
When it dies the record of the device is not cleared, and the next completion serves
whoever is first.

**Results.**
* `IssuerOk.step`: the invariant over one step.
* `IssuerOk.faithful_iff`: one completion goes to its issuer, or is discarded, if and only
  if the queue of a device with a dead issuer is empty.
* `response_after_termination`: the same along every run.
* `waiter_lost`: a run in which a process that waits for its turn is dropped.
-/

namespace Bikaya

open OrderedForest TransitionSystem

/-- The issuer of the command that a device is executing. -/
inductive Issuer where
  /-- No command is outstanding. -/
  | nobody
  | alive (p : Proc)
  /-- The issuer has been terminated since. -/
  | dead
deriving DecidableEq

/-- The issuer of a write that has just been made. -/
def Issuer.ofOwner : Option Proc → Issuer
  | none => .nobody
  | some p => .alive p

namespace Kernel

variable {A : Arch} {k k' : Kernel A} {m : IntModel}

/-- The issuer of a command, given who is alive. -/
def survive (k : Kernel A) : Issuer → Issuer
  | .alive p => if k.Live p then .alive p else .dead
  | issuer => issuer

/-- The device an operation may write to. -/
def deviceOf : Operation A → Option Dev
  | .waitIo _ devReg subdev _ => waitCell A devReg subdev
  | .doneIo d _ => some d
  | _ => none

/-- The writes to the device registers made by a step. -/
def sent (k k' : Kernel A) : List BusWrite :=
  k'.bus.drop k.bus.length

/-- The issuers after a step. -/
def nextIssuer (k : Kernel A) (op : Operation A) (k' : Kernel A) (issuer : Dev → Issuer) :
    Dev → Issuer :=
  let issuer := fun d => k'.survive (issuer d)
  match deviceOf op, k.sent k' with
  | some d, w :: _ => Function.update issuer d (.ofOwner w.owner)
  | _, _ => issuer

/-- The issuers along a run. -/
def issuers (s : ℕ → Kernel A) (e : ℕ → Operation A) : ℕ → Dev → Issuer
  | 0 => fun _ => .nobody
  | i + 1 => (s i).nextIssuer (e i) (s (i + 1)) (issuers s e i)

/-- The operations of the runs in which all processes have priority `c`. -/
def Uniform (c : Int) : Operation A → Prop
  | .waitIo _ _ _ _ => True
  | .createProcess _ priority => priority = c
  | .terminateProcess _ => True
  | .doneIo _ _ => True
  | _ => False

/--
A completion is faithful: only the issuer of the command, if it is alive, leaves the
queue, and it is scheduled with the status; the response to a dead issuer is
discarded, and the command of the first process of the queue is sent.
-/
def Faithful (issuer : Dev → Issuer) (k : Kernel A) (op : Operation A) (k' : Kernel A) : Prop :=
  ∀ d status, op = .doneIo d status →
    (∀ x ∈ k.waitQueue (.dev d), x ∉ k'.waitQueue (.dev d) →
      issuer d = .alive x ∧
        (x ∈ k'.readyQueue ∨ x = k'.runningProc) ∧
        k'.pS x = (k.pS x).setRet status) ∧
    (∀ x, k'.pS x ≠ k.pS x → issuer d = .alive x) ∧
    (issuer d = .dead →
      k'.waitQueue (.dev d) = k.waitQueue (.dev d) ∧
        k'.readyQueue = k.readyQueue ∧ k'.runningProc = k.runningProc ∧
        k.sent k' = [k.nextWrite d (k.waitQueue (.dev d)).head?])

/-- A completion for a terminated issuer finds an empty queue. -/
def Vacated (issuer : Dev → Issuer) (k : Kernel A) (op : Operation A) : Prop :=
  ∀ d status, op = .doneIo d status → issuer d = .dead → k.waitQueue (.dev d) = []

/-- The device records agree with the history: a live issuer is registered and first. -/
structure Aligned (issuer : Dev → Issuer) (v : DeviceView) : Prop where
  nobody : ∀ d, issuer d = .nobody → v.res d = none
  alive : ∀ d p, issuer d = .alive p → v.res d = some p ∧ ∃ q, v.queue d = p :: q
  dead : ∀ d, issuer d = .dead → v.res d ≠ none

theorem Aligned.send
    {issuer : Dev → Issuer} {v : DeviceView} (h : Aligned issuer v) (w : BusWrite) :
    Aligned issuer (v.send w) :=
  ⟨h.nobody, h.alive, h.dead⟩

/-- The invariant of these runs. -/
structure IssuerOk (c : Int) (k : Kernel A) (issuer : Dev → Issuer) : Prop where
  ok : k.Ok
  devicesOk : k.DevicesOk
  priority : ∀ x, k.Live x → k.priority x = c ∧ k.originalPriority x = c
  aligned : Aligned issuer k.devices

theorem Fresh.issuerOk
    {c : Int} (h : k.Fresh) (hc : ∀ x, k.Live x → k.priority x = c) :
    IssuerOk c k (fun _ => .nobody) where
  ok := h.ok
  devicesOk := h.devicesOk
  priority := fun x hx => ⟨hc x hx, (h.priority x) ▸ hc x hx⟩
  aligned :=
    ⟨fun d _ => h.wForRes d, fun _ _ hd => absurd hd (by simp), fun _ hd => absurd hd (by simp)⟩

section Priorities

/-- Scheduling changes a priority at most back to the original one. -/
theorem priority_scheduleProc (k : Kernel A) (x y : Proc) :
    (k.scheduleProc x).originalPriority = k.originalPriority ∧
      ((k.scheduleProc x).priority y = k.priority y ∨
        (k.scheduleProc x).priority y = k.originalPriority y) := by
  rcases scheduleProc_cases k x with ⟨-, heq⟩ | ⟨-, -, heq⟩
  · rw [heq]
    by_cases hidle : k.runningProc = .idle
    · rw [preempt_idle hidle]
      exact ⟨rfl, Or.inl rfl⟩
    · rw [preempt_of_ne hidle]
      refine ⟨rfl, ?_⟩
      by_cases hy : y = k.runningProc
      · subst hy
        exact Or.inr (Function.update_self _ _ _)
      · exact Or.inl (Function.update_of_ne hy _ _)
  · rw [heq]
    exact ⟨rfl, Or.inl rfl⟩

/-- A routine that schedules keeps a process whose two priorities are equal. -/
theorem uniform_scheduleProc
    {c : Int} {x : Proc} (h : k.priority x = c ∧ k.originalPriority x = c) (y : Proc) :
    (k.scheduleProc y).priority x = c ∧ (k.scheduleProc y).originalPriority x = c := by
  obtain ⟨horig, hprio⟩ := priority_scheduleProc k y x
  refine ⟨?_, (congrFun horig x).trans h.2⟩
  rcases hprio with heq | heq
  · exact heq.trans h.1
  · exact heq.trans h.2

theorem priority_nextCommand (k : Kernel A) (d : Dev) (next : Option Proc) :
    (k.nextCommand m d next).priority = k.priority ∧
      (k.nextCommand m d next).originalPriority = k.originalPriority := by
  cases next <;> exact ⟨rfl, rfl⟩

/-- The new process has the common priority. -/
theorem IssuerOk.uniform_createProcess
    {c : Int} {issuer : Dev → Issuer} {s : State A} (h : IssuerOk c k issuer)
    (hstep : Step m k (.createProcess s c) k') {x : Proc} (hx : k'.Live x) :
    k'.priority x = c ∧ k'.originalPriority x = c := by
  have hfree := hstep.free_createProcess h.ok
  obtain ⟨hadm, hexec⟩ := hstep
  cases hnil : k.pcbFreeH with
  | nil =>
      simp only [exec, createProcess_nil hnil] at hexec
      obtain rfl : k = k' := Except.ok.inj hexec
      exact h.priority x hx
  | cons y free =>
      obtain ⟨-, -, -, hyrun⟩ := h.ok.adopt hnil hadm s c
      simp only [exec, createProcess_cons hnil hyrun] at hexec
      rw [← Except.ok.inj hexec]
      refine uniform_scheduleProc (k := k.adopt y free s c) ?_ y
      show Function.update k.priority y c x = c ∧ Function.update k.originalPriority y c x = c
      by_cases hxy : x = y
      · rw [hxy, Function.update_self, Function.update_self]
        exact ⟨rfl, rfl⟩
      · rw [Function.update_of_ne hxy, Function.update_of_ne hxy]
        refine h.priority x ⟨hx.1, fun hmem => hx.2 ?_⟩
        rw [hfree, hnil]
        rw [hnil] at hmem
        exact (List.mem_cons.mp hmem).resolve_left hxy

theorem uniform_doneIo
    {c : Int} {x : Proc} (hk : k.Ok) (hx : k.priority x = c ∧ k.originalPriority x = c)
    (d : Dev) (status : Word) :
    (k.doneIo m d status).priority x = c ∧ (k.doneIo m d status).originalPriority x = c := by
  cases hr : k.wForRes d with
  | none =>
      rw [doneIo_none m d hr]
      exact hx
  | some r =>
      cases hq : k.waitQueue (.dev d) with
      | nil =>
          rw [doneIo_nil m d hk.residence.aslOk hr hq]
          rw [(priority_nextCommand _ _ _).1, (priority_nextCommand _ _ _).2]
          exact hx
      | cons y q =>
          obtain ⟨asl, heq, -, -⟩ := doneIo_cons m d hk.residence.aslOk hr hq status
          rw [heq, (priority_nextCommand _ _ _).1, (priority_nextCommand _ _ _).2]
          split_ifs
          · exact uniform_scheduleProc
              (k := { k with
                asl := asl
                pSemkey := Function.update k.pSemkey y none
                devWList := Function.update k.devWList r none }) hx r
          · exact hx

/-- In a uniform run all live processes keep the same priority. -/
theorem IssuerOk.priority_step
    {c : Int} {issuer : Dev → Issuer} {op : Operation A} (h : IssuerOk c k issuer)
    (huniform : Uniform c op) (hsafe : k.Safe op) (hstep : Step m k op k') :
    ∀ x, k'.Live x → k'.priority x = c ∧ k'.originalPriority x = c := by
  intro x hx
  have hback : (∀ s priority, op ≠ .createProcess s priority) → (∀ p, op ≠ .terminateProcess p) →
      k.Live x := by
    intro hcreate hterm
    rw [Live, hstep.free_eq h.ok hcreate hterm] at hx
    exact hx
  cases op with
  | createProcess s priority =>
      obtain rfl : priority = c := huniform
      exact h.uniform_createProcess hstep hx
  | terminateProcess p =>
      obtain ⟨⟨l, hdone⟩, -⟩ := hstep.terminated h.ok hsafe
      have hx' := ((hdone.live_iff x).mp hx).1
      obtain ⟨asl, pParent, rfl, -, -⟩ := hdone.result
      exact h.priority x hx'
  | waitIo command devReg subdev tod =>
      have hx' := h.priority x (hback (by simp) (by simp))
      obtain ⟨hadm, hexec⟩ := hstep
      obtain ⟨d, -, rfl⟩ := exec_waitIo hexec
      rcases waitDev_spec m d h.ok hadm command devReg tod with
        ⟨-, asl, heq, -, -⟩ | ⟨-, asl, heq, -, -⟩
      · rw [heq, runNextReady_eq]
        exact hx'
      · rw [heq, runNextReady_eq]
        exact hx'
  | doneIo d status =>
      have hx' := h.priority x (hback (by simp) (by simp))
      rw [← Except.ok.inj hstep.2]
      exact uniform_doneIo h.ok hx' d status
  | passeren _ _ =>
      exact absurd huniform id
  | verhogen _ =>
      exact absurd huniform id
  | timeSlice =>
      exact absurd huniform id
  | write _ _ =>
      exact absurd huniform id

end Priorities

section Survival

variable {issuer : Issuer}

theorem survive_eq_nobody (h : k.survive issuer = .nobody) : issuer = .nobody := by
  cases issuer with
  | nobody =>
      rfl
  | alive p =>
      rw [survive] at h
      split_ifs at h
  | dead =>
      exact absurd h (by simp [survive])

theorem survive_eq_alive
    {p : Proc} (h : k.survive issuer = .alive p) :
    issuer = .alive p ∧ k.Live p := by
  cases issuer with
  | nobody =>
      exact absurd h (by simp [survive])
  | alive y =>
      rw [survive] at h
      split_ifs at h with hy
      obtain rfl := Issuer.alive.inj h
      exact ⟨rfl, hy⟩
  | dead =>
      exact absurd h (by simp [survive])

theorem survive_eq_dead
    (h : k.survive issuer = .dead) :
    issuer = .dead ∨ ∃ p, issuer = .alive p := by
  cases issuer with
  | nobody =>
      exact absurd h (by simp [survive])
  | alive p =>
      exact Or.inr ⟨p, rfl⟩
  | dead =>
      exact Or.inl rfl

end Survival

section Sent

theorem sent_of_eq (hbus : k'.bus = k.bus) : k.sent k' = [] := by
  rw [sent, hbus, List.drop_length]

theorem sent_of_send {w : BusWrite} (hbus : k'.bus = k.bus ++ [w]) : k.sent k' = [w] := by
  rw [sent, hbus, List.drop_left]

theorem nextIssuer_of_quiet
    {op : Operation A} {issuer : Dev → Issuer} (hbus : k'.bus = k.bus) (d : Dev) :
    k.nextIssuer op k' issuer d = k'.survive (issuer d) := by
  simp only [nextIssuer, sent_of_eq hbus]
  cases deviceOf op <;> rfl

theorem nextIssuer_of_send
    {op : Operation A} {issuer : Dev → Issuer} {w : BusWrite} {d : Dev}
    (hdev : deviceOf op = some d) (hbus : k'.bus = k.bus ++ [w]) :
    k.nextIssuer op k' issuer =
      Function.update (fun d => k'.survive (issuer d)) d (.ofOwner w.owner) := by
  simp only [nextIssuer, hdev, sent_of_send hbus]

end Sent

section Alignment

variable {c : Int} {issuer : Dev → Issuer}

/-- The registered process is the issuer, unless it has died, and the first of the queue. -/
theorem Aligned.alive_of_queued
    {v : DeviceView} {d : Dev} {r x : Proc} {q : List Proc} (h : Aligned issuer v)
    (hdead : issuer d ≠ .dead) (hr : v.res d = some r) (hq : v.queue d = x :: q) :
    issuer d = .alive r ∧ x = r := by
  cases hissuer : issuer d with
  | nobody =>
      exact absurd ((h.nobody d hissuer).symm.trans hr) (by simp)
  | alive y =>
      obtain ⟨hres, q', hq'⟩ := h.alive d y hissuer
      obtain rfl : y = r := Option.some.inj (hres.symm.trans hr)
      exact ⟨rfl, (List.cons.inj (hq.symm.trans hq')).1⟩
  | dead =>
      exact absurd hissuer hdead

/--
The next command is that of the first process left in the queue: it is registered, and
first.
-/
theorem Aligned.pop
    {v : DeviceView} (h : Aligned issuer v) (v' : DeviceView) (d : Dev) (q : List Proc)
    (hqueue : v'.queue = Function.update v.queue d q) (hres : v'.res = v.res) :
    Aligned (Function.update issuer d (.ofOwner q.head?)) (v'.promote d q.head?) := by
  have hpromoted : (v'.promote d q.head?).res = Function.update v.res d q.head? := by
    funext d'
    rw [DeviceView.res_promote, hres]
  refine ⟨fun d' hd' => ?_, fun d' p hd' => ?_, fun d' hd' => ?_⟩
  · rw [hpromoted]
    by_cases heq : d' = d
    · subst heq
      rw [Function.update_self] at hd' ⊢
      cases q with
      | nil =>
          rfl
      | cons y q =>
          exact absurd hd' (by simp [Issuer.ofOwner])
    · rw [Function.update_of_ne heq] at hd' ⊢
      exact h.nobody d' hd'
  · rw [hpromoted, DeviceView.queue_promote, hqueue]
    by_cases heq : d' = d
    · subst heq
      rw [Function.update_self] at hd'
      rw [Function.update_self, Function.update_self]
      cases q with
      | nil =>
          exact absurd hd' (by simp [Issuer.ofOwner])
      | cons y q =>
          obtain rfl : y = p := by simpa [Issuer.ofOwner] using hd'
          exact ⟨rfl, q, rfl⟩
    · rw [Function.update_of_ne heq] at hd'
      rw [Function.update_of_ne heq, Function.update_of_ne heq]
      exact h.alive d' p hd'
  · rw [hpromoted]
    by_cases heq : d' = d
    · subst heq
      rw [Function.update_self] at hd'
      cases q <;> exact absurd hd' (by simp [Issuer.ofOwner])
    · rw [Function.update_of_ne heq] at hd' ⊢
      exact h.dead d' hd'

/-- The terminated processes leave the queues, and the issuers among them are dead. -/
theorem Aligned.restrict
    {v : DeviceView} {l : List Proc} (h : Aligned issuer v) (hl : ∀ x, k'.Live x → x ∉ l) :
    Aligned (fun d => k'.survive (issuer d)) (v.restrict l) := by
  refine ⟨fun d hd => h.nobody d (survive_eq_nobody hd), fun d x hd => ?_, fun d hd => ?_⟩
  · obtain ⟨hissuer, hx⟩ := survive_eq_alive hd
    obtain ⟨hres, q, hq⟩ := h.alive d x hissuer
    refine ⟨hres, survivors l q, ?_⟩
    show survivors l (v.queue d) = _
    rw [hq, survivors, List.filter_cons_of_pos (by simpa using hl x hx)]
  · rcases survive_eq_dead hd with hissuer | ⟨y, hissuer⟩
    · exact h.dead d hissuer
    · intro hnone
      have hres := (h.alive d y hissuer).1
      exact absurd (hnone.symm.trans hres) (by simp)

/-- A newcomer does not overtake an issuer of the same priority. -/
theorem Aligned.enqueue
    {v : DeviceView} {d : Dev} {x : Proc} {priority : Proc → Int} (h : Aligned issuer v)
    (hle : ∀ p, issuer d = .alive p → ¬ priority x > priority p) :
    Aligned issuer (v.setQueue d (insertProcQ priority (v.queue d) x)) := by
  refine ⟨h.nobody, fun d' p hp => ?_, h.dead⟩
  obtain ⟨hres, q, hq⟩ := h.alive d' p hp
  refine ⟨hres, ?_⟩
  rw [DeviceView.queue_setQueue]
  by_cases hd : d' = d
  · subst hd
    refine ⟨insertProcQ priority q x, ?_⟩
    rw [Function.update_self, hq, insertProcQ, if_neg (hle p hp)]
  · rw [Function.update_of_ne hd]
    exact ⟨q, hq⟩

/-- A live issuer is queued on its device. -/
theorem IssuerOk.live
    (h : IssuerOk c k issuer) {d : Dev} {p : Proc} (hp : issuer d = .alive p) :
    k.Live p := by
  obtain ⟨-, q, hq⟩ := h.aligned.alive d p hp
  have hqueued : p ∈ k.waitQueue (.dev d) := by
    rw [show k.waitQueue (.dev d) = p :: q from hq]
    exact List.mem_cons_self
  exact h.ok.live_of_queued hqueued

/-- Only a termination kills an issuer. -/
theorem IssuerOk.survive_eq
    {op : Operation A} (h : IssuerOk c k issuer) (hstep : Step m k op k')
    (hterm : ∀ p, op ≠ .terminateProcess p) :
    (fun d => k'.survive (issuer d)) = issuer := by
  funext d
  cases hp : issuer d with
  | alive p =>
      exact if_pos (hstep.live_mono h.ok hterm (h.live hp))
  | nobody =>
      rfl
  | dead =>
      rfl

theorem IssuerOk.nextIssuer_quiet
    {op : Operation A} (h : IssuerOk c k issuer) (hstep : Step m k op k')
    (hterm : ∀ p, op ≠ .terminateProcess p) (hbus : k'.devices.bus = k.bus) :
    k.nextIssuer op k' issuer = issuer := by
  have hnext : k.nextIssuer op k' issuer = fun d => k'.survive (issuer d) :=
    funext (nextIssuer_of_quiet hbus)
  rw [hnext, h.survive_eq hstep hterm]

theorem IssuerOk.nextIssuer_send
    {op : Operation A} (h : IssuerOk c k issuer) (hstep : Step m k op k')
    (hterm : ∀ p, op ≠ .terminateProcess p) {d : Dev} {w : BusWrite}
    (hdev : deviceOf op = some d) (hbus : k'.devices.bus = k.bus ++ [w]) :
    k.nextIssuer op k' issuer = Function.update issuer d (.ofOwner w.owner) := by
  rw [nextIssuer_of_send hdev hbus, h.survive_eq hstep hterm]

/-- The device records agree with the history after a step. -/
theorem IssuerOk.aligned_step
    {op : Operation A} (h : IssuerOk c k issuer)
    (hsafe : k.Safe op) (hstep : Step m k op k') :
    Aligned (k.nextIssuer op k' issuer) k'.devices := by
  have hmove := device_move h.ok h.devicesOk hsafe hstep
  have hquiet := h.nextIssuer_quiet hstep
  have hsend := fun d w => h.nextIssuer_send (d := d) (w := w) hstep
  generalize k'.devices = v at hmove hquiet hsend ⊢
  cases hmove with
  | quiet _ hterm =>
      rw [hquiet hterm rfl]
      exact h.aligned
  | spurious d status _ =>
      rw [hquiet (by simp) rfl]
      exact h.aligned
  | remove p l hl =>
      obtain ⟨⟨l', hdone⟩, -⟩ := hstep.terminated h.ok hsafe
      exact h.aligned.restrict (fun x hx hxl =>
        ((hdone.live_iff x).mp hx).2 ((hdone.mem x).mpr ((hl x).mp hxl)))
  | wait _ _ _ _ d r _ hr =>
      rw [hquiet (by simp) rfl]
      refine h.aligned.enqueue (fun p hp => ?_)
      rw [(h.priority p (h.live hp)).1, (h.priority _ (h.ok.running_live hstep.1)).1]
      exact lt_irrefl c
  | submit command devReg _ _ d hcell hr =>
      rw [hsend _ _ (by simp) hcell rfl]
      exact (h.aligned.pop (k.devices.setQueue d [k.runningProc]) d [k.runningProc] rfl rfl).send _
  | abandon d _ r hr hq =>
      rw [hsend _ _ (by simp) rfl rfl]
      refine Aligned.send (h.aligned.pop k.devices d [] ?_ rfl) _
      rw [← show k.devices.queue d = [] from hq, Function.update_eq_self]
  | serve d _ r q hr hq =>
      rw [hsend _ _ (by simp) rfl (by rw [DeviceView.bus_send, DeviceView.bus_promote]; rfl)]
      exact (h.aligned.pop ((k.devices.setQueue d q).release r) d q rfl rfl).send _
  | lose d _ r x q hr hx hq =>
      rw [hsend _ _ (by simp) rfl (by rw [DeviceView.bus_send, DeviceView.bus_promote]; rfl)]
      exact (h.aligned.pop (k.devices.setQueue d q) d q rfl rfl).send _

end Alignment

section Runs

variable {c : Int} {issuer : Dev → Issuer}

/-- The step lemma of the uniform runs. -/
theorem IssuerOk.step
    {op : Operation A} (h : IssuerOk c k issuer) (huniform : Uniform c op)
    (hsafe : k.Safe op) (hstep : Step m k op k') :
    IssuerOk c k' (k.nextIssuer op k' issuer) where
  ok := h.ok.step hsafe hstep
  devicesOk := h.devicesOk.step h.ok hsafe hstep
  priority := h.priority_step huniform hsafe hstep
  aligned := h.aligned_step hsafe hstep

/-- A completion is faithful exactly when a dead issuer has left an empty queue. -/
theorem IssuerOk.faithful_iff
    {op : Operation A} (h : IssuerOk c k issuer) (hstep : Step m k op k') :
    Faithful issuer k op k' ↔ Vacated issuer k op := by
  constructor
  · rintro hfaithful d status rfl hdead
    obtain ⟨hqueue, -⟩ := (hfaithful d status rfl).2.2 hdead
    have hmove := device_move_doneIo h.ok (m := m) d status
    rw [Except.ok.inj hstep.2] at hmove
    change k'.devices.queue d = k.devices.queue d at hqueue
    generalize k'.devices = v at hmove hqueue
    -- a completion that finds somebody in the queue takes him out of it
    cases hmove with
    | quiet hfree _ =>
        exact absurd hfree id
    | spurious _ _ hnone =>
        exact absurd hnone (h.aligned.dead d hdead)
    | abandon _ _ _ _ hq =>
        exact hq
    | serve _ _ r q _ hq =>
        simp only [DeviceView.queue_send, DeviceView.queue_promote, DeviceView.queue_release,
          DeviceView.queue_setQueue, Function.update_self] at hqueue
        rw [show k.devices.queue d = r :: q from hq] at hqueue
        exact absurd hqueue (List.cons_ne_self r q).symm
    | lose _ _ r x q _ _ hq =>
        simp only [DeviceView.queue_send, DeviceView.queue_promote,
          DeviceView.queue_setQueue, Function.update_self] at hqueue
        rw [show k.devices.queue d = x :: q from hq] at hqueue
        exact absurd hqueue (List.cons_ne_self x q).symm
  · rintro hvacated d status rfl
    have hk' : k.doneIo m d status = k' := Except.ok.inj hstep.2
    cases hr : k.wForRes d with
    | none =>
        rw [doneIo_none m d hr] at hk'
        subst hk'
        refine ⟨fun x hx hx' => absurd hx hx', fun x hx => absurd rfl hx, fun hdead => ?_⟩
        exact absurd hr (h.aligned.dead d hdead)
    | some r =>
        cases hq : k.waitQueue (.dev d) with
        | nil =>
            rw [doneIo_nil m d h.ok.residence.aslOk hr hq] at hk'
            subst hk'
            refine ⟨fun x hx => absurd hx List.not_mem_nil, fun x hx => absurd rfl hx,
              fun _ => ⟨hq, rfl, rfl, sent_of_send rfl⟩⟩
        | cons x q =>
            have hdead : issuer d ≠ .dead := fun hdead =>
              absurd (hq.symm.trans (hvacated d status rfl hdead)) (by simp)
            obtain ⟨hissuer, rfl⟩ := h.aligned.alive_of_queued hdead hr hq
            obtain ⟨hplaces, hpS, hqueue⟩ := doneIo_serve (m := m) h.ok hr hq status
            rw [hk'] at hplaces hpS hqueue
            refine ⟨fun y hy hy' => ?_, fun y hy => ?_, fun hdead => ?_⟩
            · rw [hqueue] at hy'
              obtain rfl := (List.mem_cons.mp hy).resolve_right hy'
              exact ⟨hissuer, hplaces, by rw [hpS, Function.update_self]⟩
            · have hyx : y = x := by
                by_contra hne
                exact hy (by rw [hpS, Function.update_of_ne hne])
              rw [hyx]
              exact hissuer
            · rw [hissuer] at hdead
              exact absurd hdead (by simp)

variable {s : ℕ → Kernel A} {e : ℕ → Operation A} {n : ℕ}

/--
Responses to terminated processes: with equal priorities, and terminations that meet
no inherited registration, every completion of a run is faithful exactly when each
completion for a dead issuer finds the queue of its device empty.
-/
theorem response_after_termination
    (hboot : (s 0).Booted) (hrun : IsRun (Step m) s e n)
    (hsame : ∀ x, (s 0).Live x → (s 0).priority x = c)
    (huniform : ∀ i < n, Uniform c (e i))
    (hkill : ∀ i < n, ∀ p, e i = .terminateProcess p → (s i).Killable p) :
    (∀ i < n, Faithful (issuers s e i) (s i) (e i) (s (i + 1))) ↔
      ∀ i < n, Vacated (issuers s e i) (s i) (e i) := by
  have hsafe : ∀ i < n, (s i).Safe (e i) := by
    intro i hi
    cases hop : e i with
    | terminateProcess p =>
        exact hkill i hi p hop
    | _ => exact trivial
  have hinv : ∀ i ≤ n, IssuerOk c (s i) (issuers s e i) := by
    intro i
    induction i with
    | zero =>
        exact fun _ => hboot.fresh.issuerOk hsame
    | succ i ih =>
        exact fun hi => (ih (by omega)).step (huniform i hi) (hsafe i hi) (hrun i hi)
  constructor
  · exact fun h i hi => ((hinv i hi.le).faithful_iff (hrun i hi)).mp (h i hi)
  · exact fun h i hi => ((hinv i hi.le).faithful_iff (hrun i hi)).mpr (h i hi)

/-- The registered process is killed while another one is queued behind it. -/
def orphanHistory : List (Operation umps) :=
  [.waitIo 2 0x100001d0 0 0, .waitIo 3 0x100001d0 0 0, .terminateProcess (some (.pcb 0)),
    .doneIo ⟨.PRIN, 0⟩ 1]

/--
The completion takes the process that is queued, and still alive, off the queue without
scheduling it: the process is in no list, and does not run.
-/
theorem waiter_lost :
    (bootMps [1, 1, 1]).Booted ∧
      IsRun (Step .int32) (states (next .int32) (bootMps [1, 1, 1]) orphanHistory)
        (fun i => orphanHistory.getD i .timeSlice) 4 ∧
      (∀ i < 4, Uniform 1 (orphanHistory.getD i .timeSlice)) ∧
      (states (next .int32) (bootMps [1, 1, 1]) orphanHistory 4).Live (.pcb 1) ∧
      (states (next .int32) (bootMps [1, 1, 1]) orphanHistory 3).pSemkey (.pcb 1) =
        some (.dev ⟨.PRIN, 0⟩) ∧
      (states (next .int32) (bootMps [1, 1, 1]) orphanHistory 4).occurrences (.pcb 1) = 0 :=
  ⟨bootMps_booted (by decide) (by decide), isRun_of_accepts (by decide +kernel),
    fun i hi => by interval_cases i <;> exact trivial,
    by decide +kernel, by decide +kernel, by decide +kernel⟩

/-- The registered process is killed, and nobody is queued behind it. -/
def discardHistory : List (Operation umps) :=
  [.waitIo 2 0x100001d0 0 0, .terminateProcess (some (.pcb 0)), .doneIo ⟨.PRIN, 0⟩ 1,
    .waitIo 3 0x100001d0 0 0]

theorem response_after_termination_discardHistory :
    Faithful (issuers (states (next .int32) (bootMps [1, 1, 1]) discardHistory)
        (fun i => discardHistory.getD i .timeSlice) 2)
      (states (next .int32) (bootMps [1, 1, 1]) discardHistory 2)
      (discardHistory.getD 2 .timeSlice)
      (states (next .int32) (bootMps [1, 1, 1]) discardHistory 3) := by
  have hrun : IsRun (Step .int32)
      (states (next .int32) (bootMps [1, 1, 1]) discardHistory)
      (fun i => discardHistory.getD i .timeSlice) 4 :=
    isRun_of_accepts (by decide +kernel)
  have hkill : ∀ x, (states (next .int32) (bootMps [1, 1, 1]) discardHistory 1).pSemkey x =
      none → (states (next .int32) (bootMps [1, 1, 1]) discardHistory 1).devWList x = none := by
    decide +kernel
  refine (response_after_termination (c := 1) (bootMps_booted (by decide) (by decide)) hrun
    (by decide +kernel) ?_ ?_).mpr ?_ 2 (by decide)
  · intro i hi
    interval_cases i <;> exact trivial
  · intro i hi p hp
    interval_cases i
    · simp [discardHistory] at hp
    · exact fun x _ => hkill x
    · simp [discardHistory] at hp
    · simp [discardHistory] at hp
  · intro i hi d status hop _
    interval_cases i
    · simp [discardHistory] at hop
    · simp [discardHistory] at hop
    · obtain ⟨rfl, -⟩ : ⟨.PRIN, 0⟩ = d ∧ 1 = status := by simpa [discardHistory] using hop
      decide +kernel
    · simp [discardHistory] at hop

end Runs

end Kernel

end Bikaya
