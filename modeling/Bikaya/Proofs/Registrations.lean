import Bikaya.Proofs.DeviceQueues

/-!
# Bikaya: registrations and the reuse of PCBs

`dev_w_list` should be set only while its process waits for the response of the device it
names.  Two steps break this: a creation that takes a PCB whose former owner was killed
while it was registered, since `allocPcb` does not clear the field, and a completion that
finds the registered process third or later in its queue.  Without these steps no run
breaks it.

**Plan.**  `Clean` says that a live process that carries a registration is registered with
that device and waits in its queue.  The proof is over the moves of a device
(`DeviceMove`): a completion clears the registration of the process that it serves, a
command sets the one of its process, and a termination frees processes that keep theirs.
Hence the two conditions of `KeepsRegistrations`.

**Results.**
* `CleanOk.move`: the moves that keep the registrations.
* `registrations_clean`: the registrations are clean in every state of a run if and only if
  its steps keep them, and then no termination frees a ready process.
* `registration_inherited`: the run in which a process has the registration of a dead one.
-/

namespace Bikaya

open OrderedForest TransitionSystem

namespace Kernel

variable {A : Arch} {k k' : Kernel A} {m : IntModel}

/-- A live process is registered only with the device it waits for. -/
def Clean (k : Kernel A) : Prop :=
  ∀ x d, k.Live x → k.devWList x = some d →
    k.wForRes d = some x ∧ k.pSemkey x = some (.dev d)

/--
A creation takes a PCB without a registration, and a completion finds the registered
process, if it is queued at all, among the first two.
-/
def KeepsRegistrations (k : Kernel A) : Operation A → Prop
  | .createProcess _ _ => ∀ x ∈ k.pcbFreeH.head?, k.devWList x = none
  | .doneIo d _ =>
      ∀ r ∈ k.wForRes d, r ∈ k.waitQueue (.dev d) → r ∈ (k.waitQueue (.dev d)).take 2
  | _ => True

instance (k : Kernel A) (op : Operation A) : Decidable (k.KeepsRegistrations op) :=
  match op with
  | .createProcess _ _ =>
      inferInstanceAs (Decidable (∀ x ∈ k.pcbFreeH.head?, k.devWList x = none))
  | .doneIo d _ =>
      inferInstanceAs (Decidable (∀ r ∈ k.wForRes d, r ∈ k.waitQueue (.dev d) →
        r ∈ (k.waitQueue (.dev d)).take 2))
  | .terminateProcess _ | .passeren _ _ | .verhogen _ | .waitIo _ _ _ _ | .timeSlice
  | .write _ _ => instDecidableTrue

/-- The invariant of the runs that keep the registrations. -/
structure CleanOk (k : Kernel A) : Prop where
  ok : k.Ok
  devicesOk : k.DevicesOk
  linked : ∀ d r, k.wForRes d = some r → k.devWList r = some d
  clean : k.Clean

theorem Fresh.cleanOk (h : k.Fresh) : k.CleanOk where
  ok := h.ok
  devicesOk := h.devicesOk
  linked := fun d r hr => by
    rw [h.wForRes d] at hr
    exact absurd hr (by simp)
  clean := fun x d _ hx => by
    rw [h.unregistered x] at hx
    exact absurd hx (by simp)

/-- A clean kernel meets no stale registration when it terminates a live process. -/
theorem CleanOk.killable
    (h : k.CleanOk) {p : Option Proc} (ht : k.Live (p.getD k.runningProc)) :
    k.Killable p := by
  intro x hx hkey
  cases hlist : k.devWList x with
  | none =>
      rfl
  | some d =>
      have := (h.clean x d (h.ok.tree.below_live ht hx) hlist).2
      rw [hkey] at this
      exact absurd this (by simp)

theorem CleanOk.safe
    {op : Operation A} (h : k.CleanOk) (hadm : k.Admissible op) :
    k.Safe op := by
  cases op with
  | terminateProcess p =>
      exact h.killable (h.ok.target_live (fun _ => hadm.1) hadm.2)
  | _ => exact trivial

section Step

/-- The processes alive after a step were alive, or carry no registration. -/
theorem CleanOk.live_back
    {op : Operation A} (h : k.CleanOk) (hkeep : k.KeepsRegistrations op)
    (hstep : Step m k op k') {x : Proc} {d : Dev}
    (hx : k'.Live x) (hlist : k.devWList x = some d) :
    k.Live x := by
  rcases hstep.live_back h.ok (h.safe hstep.1) hx with hlive | ⟨s, priority, rfl, hhead⟩
  · exact hlive
  · exact absurd (hlist.symm.trans (hkeep x hhead)) (by simp)

/-- The registrations are in order in a view of the devices. -/
structure CleanView (v : DeviceView) (live : Proc → Prop) : Prop where
  linked : ∀ d r, v.res d = some r → v.list r = some d
  clean : ∀ x d, live x → v.list x = some d → v.res d = some x ∧ x ∈ v.queue d

theorem CleanOk.view (h : k.CleanOk) : CleanView k.devices k.Live where
  linked := h.linked
  clean := fun x d hx hlist =>
    ⟨(h.clean x d hx hlist).1, (h.ok.residence.semkey x (.dev d)).mp (h.clean x d hx hlist).2⟩

theorem CleanView.send
    {v : DeviceView} {live : Proc → Prop} (h : CleanView v live) (w : BusWrite) :
    CleanView (v.send w) live :=
  ⟨h.linked, h.clean⟩

/-- Only the registered processes have to be alive already. -/
theorem CleanView.mono
    {v : DeviceView} {live live' : Proc → Prop} (h : CleanView v live)
    (hlive : ∀ x d, live' x → v.list x = some d → live x) :
    CleanView v live' :=
  ⟨h.linked, fun x d hx hlist => h.clean x d (hlive x d hx hlist) hlist⟩

/-- More processes in the queue of a device. -/
theorem CleanView.setQueue
    {v : DeviceView} {live : Proc → Prop} (h : CleanView v live) {d : Dev} {q : List Proc}
    (hsub : v.queue d ⊆ q) :
    CleanView (v.setQueue d q) live := by
  refine ⟨h.linked, fun x d' hx hlist => ?_⟩
  obtain ⟨hres, hmem⟩ := h.clean x d' hx hlist
  refine ⟨hres, ?_⟩
  rw [DeviceView.queue_setQueue]
  by_cases hd : d' = d
  · subst hd
    rw [Function.update_self]
    exact hsub hmem
  · rwa [Function.update_of_ne hd]

/-- A process without a registration is registered with a device without a process. -/
theorem CleanView.submit
    {v : DeviceView} {live : Proc → Prop} (h : CleanView v live) {d : Dev} {p : Proc}
    (hr : v.res d = none) (hp : v.list p = none) :
    CleanView ((v.setQueue d [p]).register d p) live := by
  constructor
  · intro d' r hr'
    simp only [DeviceView.res_register, DeviceView.res_setQueue, DeviceView.list_register,
      DeviceView.list_setQueue] at hr' ⊢
    by_cases hd : d' = d
    · subst hd
      rw [Function.update_self] at hr'
      rw [← Option.some.inj hr', Function.update_self]
    · rw [Function.update_of_ne hd] at hr'
      have hlist := h.linked d' r hr'
      have hne : r ≠ p := by
        rintro rfl
        exact absurd (hp.symm.trans hlist) (by simp)
      rw [Function.update_of_ne hne]
      exact hlist
  · intro x d' hx hlist
    simp only [DeviceView.res_register, DeviceView.res_setQueue, DeviceView.list_register,
      DeviceView.list_setQueue, DeviceView.queue_register, DeviceView.queue_setQueue]
      at hlist ⊢
    by_cases hxp : x = p
    · rw [hxp, Function.update_self] at hlist
      obtain rfl := Option.some.inj hlist
      rw [Function.update_self, Function.update_self, hxp]
      exact ⟨rfl, List.mem_cons_self⟩
    · rw [Function.update_of_ne hxp] at hlist
      obtain ⟨hres, hmem⟩ := h.clean x d' hx hlist
      have hd : d' ≠ d := by
        rintro rfl
        exact absurd (hr.symm.trans hres) (by simp)
      rw [Function.update_of_ne hd, Function.update_of_ne hd]
      exact ⟨hres, hmem⟩

/-- A device without a queue loses its registered process, which is not alive. -/
theorem CleanView.vacate
    {v : DeviceView} {live : Proc → Prop} (h : CleanView v live) {d : Dev}
    (hq : v.queue d = []) :
    CleanView (v.vacate d) live := by
  constructor
  · intro d' r hr
    change Function.update v.res d none d' = some r at hr
    have hd : d' ≠ d := by
      rintro rfl
      simp at hr
    rw [Function.update_of_ne hd] at hr
    exact h.linked d' r hr
  · intro x d' hx hlist
    obtain ⟨hres, hmem⟩ := h.clean x d' hx hlist
    have hd : d' ≠ d := by
      rintro rfl
      rw [hq] at hmem
      exact absurd hmem List.not_mem_nil
    exact ⟨(Function.update_of_ne hd _ _).trans hres, hmem⟩

/-- A live process that is queued on no device is not registered. -/
theorem CleanView.unregistered
    {v : DeviceView} {live : Proc → Prop} (h : CleanView v live) {x : Proc} (hx : live x)
    (hqueue : ∀ d, v.res d = some x → x ∉ v.queue d) :
    v.list x = none := by
  cases hlist : v.list x with
  | none =>
      rfl
  | some d =>
      obtain ⟨hres, hmem⟩ := h.clean x d hx hlist
      exact absurd hmem (hqueue d hres)

/--
The first process leaves the queue and the next one in line is registered, while
the process that was registered is neither the one that leaves nor one further back.
-/
theorem CleanOk.pop
    (h : k.CleanOk) {live : Proc → Prop}
    (hlive : ∀ x d, live x → k.devWList x = some d → k.Live x)
    {d : Dev} {r x : Proc} {q : List Proc}
    (hr : k.wForRes d = some r) (hq : k.waitQueue (.dev d) = x :: q)
    (hnear : r ∈ q → q.head? = some r) :
    CleanView (((k.devices.setQueue d q).release x).promote d q.head?) live := by
  have hview := h.view
  have hxd : x ∈ k.waitQueue (.dev d) := hq ▸ List.mem_cons_self
  -- a process queued on the device is registered with no other device
  have hother : ∀ y ∈ k.waitQueue (.dev d), ∀ d', d' ≠ d → k.devWList y ≠ some d' := by
    intro y hy d' hd hlist
    have hy' := (hview.clean y d' (h.ok.live_of_queued hy) hlist).2
    exact hd (h.ok.devices_unique hy hy')
  have hlinked : ∀ d' r', d' ≠ d → k.wForRes d' = some r' → r' ∉ k.waitQueue (.dev d) :=
    fun d' r' hd hr' hmem => hother r' hmem d' hd (h.linked d' r' hr')
  have hsame : ∀ z d', live z → z ≠ x → q.head? ≠ some z → k.devWList z = some d' →
      d' ≠ d ∧ k.wForRes d' = some z ∧ z ∈ k.waitQueue (.dev d') := by
    intro z d' hz hzx hznext hlist
    obtain ⟨hres, hmem⟩ := hview.clean z d' (hlive z d' hz hlist) hlist
    refine ⟨?_, hres, hmem⟩
    rintro rfl
    obtain rfl : r = z := Option.some.inj (hr.symm.trans hres)
    change r ∈ k.waitQueue (.dev d') at hmem
    rw [hq] at hmem
    exact hznext (hnear ((List.mem_cons.mp hmem).resolve_left hzx))
  have hlist : ∀ z, z ≠ x → q.head? ≠ some z →
      (((k.devices.setQueue d q).release x).promote d q.head?).list z = k.devWList z := by
    intro z hzx hznext
    rw [DeviceView.list_promote_of_ne hznext]
    exact Function.update_of_ne hzx _ _
  have hnext : ∀ y, q.head? = some y → y ∈ k.waitQueue (.dev d) :=
    fun y hy => hq ▸ List.mem_cons_of_mem _ (List.mem_of_head? hy)
  constructor
  · intro d' r' hr'
    simp only [DeviceView.res_promote, DeviceView.res_release, DeviceView.res_setQueue] at hr'
    by_cases hd : d' = d
    · subst hd
      rw [Function.update_self] at hr'
      rw [hr']
      exact DeviceView.list_promote_self
    · rw [Function.update_of_ne hd] at hr'
      have hr'd := hlinked d' r' hd hr'
      rw [hlist r' (fun hx => hr'd (hx ▸ hxd)) (fun hy => hr'd (hnext r' hy))]
      exact h.linked d' r' hr'
  · intro z d' hz hzlist
    simp only [DeviceView.res_promote, DeviceView.res_release, DeviceView.res_setQueue,
      DeviceView.queue_promote, DeviceView.queue_release, DeviceView.queue_setQueue]
    by_cases hznext : q.head? = some z
    · rw [hznext, DeviceView.list_promote_self] at hzlist
      obtain rfl := Option.some.inj hzlist
      rw [Function.update_self, Function.update_self]
      exact ⟨hznext, List.mem_of_head? hznext⟩
    · have hzx : z ≠ x := by
        rintro rfl
        rw [DeviceView.list_promote_of_ne hznext] at hzlist
        simp at hzlist
      rw [hlist z hzx hznext] at hzlist
      obtain ⟨hd, hres, hmem⟩ := hsame z d' hz hzx hznext hzlist
      rw [Function.update_of_ne hd, Function.update_of_ne hd]
      exact ⟨hres, hmem⟩

/-- What a move that keeps the registrations leaves. -/
theorem CleanOk.move
    {op : Operation A} (h : k.CleanOk) (hkeep : k.KeepsRegistrations op)
    (hstep : Step m k op k') :
    CleanView k'.devices k'.Live := by
  have hsafe := h.safe hstep.1
  have hmove := device_move h.ok h.devicesOk hsafe hstep
  have hlive : ∀ x d, k'.Live x → k.devWList x = some d → k.Live x :=
    fun x d hx hlist => h.live_back hkeep hstep hx hlist
  have hview : CleanView k.devices k'.Live := h.view.mono hlive
  generalize k'.devices = v at hmove
  cases hmove with
  | quiet _ _ =>
      exact hview
  | spurious _ _ _ =>
      exact hview
  | remove p l hl =>
      refine ⟨hview.linked, fun x d hx hlist => ?_⟩
      obtain ⟨hres, hmem⟩ := hview.clean x d hx hlist
      obtain ⟨⟨l', hdone⟩, -⟩ := hstep.terminated h.ok hsafe
      have hxl : x ∉ l :=
        fun hxl => ((hdone.live_iff x).mp hx).2 ((hdone.mem x).mpr ((hl x).mp hxl))
      exact ⟨hres, List.mem_filter.mpr ⟨hmem, by simpa using hxl⟩⟩
  | wait _ _ _ _ d _ _ _ =>
      exact hview.setQueue (fun x hx => mem_insertProcQ.mpr (Or.inr hx))
  | submit _ _ _ _ d _ hr =>
      have hrunning : k.devices.list k.runningProc = none :=
        h.view.unregistered (h.ok.running_live hstep.1)
          (fun d' _ => h.ok.running_not_queued (.dev d'))
      exact (hview.submit hr hrunning).send _
  | abandon d _ r _ hq =>
      exact (hview.vacate hq).send _
  | serve d status r q hr hq =>
      refine (h.pop hlive hr hq (fun hmem => ?_)).send _
      exact absurd hmem (h.ok.head_notMem hq)
  | lose d status r x q hr hx hq =>
      have hxd : x ∈ k.waitQueue (.dev d) := hq ▸ List.mem_cons_self
      -- the lost process is not registered
      have hxlist : k.devices.list x = none := by
        refine h.view.unregistered (h.ok.live_of_queued hxd) (fun d' hres hmem => ?_)
        rw [h.ok.devices_unique hxd hmem] at hres
        exact hx (Option.some.inj (hr.symm.trans hres)).symm
      have hsame : (k.devices.setQueue d q).release x = k.devices.setQueue d q := by
        unfold DeviceView.release
        rw [DeviceView.list_setQueue, ← hxlist, Function.update_eq_self]
        rfl
      have hpop := h.pop hlive hr hq (fun hmem => by
        have htake := hkeep r hr (by rw [hq]; exact List.mem_cons_of_mem _ hmem)
        rw [hq] at htake
        cases q with
        | nil =>
            exact absurd hmem List.not_mem_nil
        | cons y q =>
            have : r = x ∨ r = y := by simpa using htake
            exact congrArg some (this.resolve_left (Ne.symm hx)).symm)
      rw [hsame] at hpop
      exact hpop.send _

/-- The step lemma: the registrations stay in order. -/
theorem CleanOk.step
    {op : Operation A} (h : k.CleanOk) (hkeep : k.KeepsRegistrations op)
    (hstep : Step m k op k') :
    k'.CleanOk := by
  have hsafe := h.safe hstep.1
  have hok := h.ok.step hsafe hstep
  have hview := h.move hkeep hstep
  refine ⟨hok, h.devicesOk.step h.ok hsafe hstep, hview.linked, fun x d hx hlist => ?_⟩
  obtain ⟨hres, hmem⟩ := hview.clean x d hx hlist
  exact ⟨hres, (hok.residence.semkey x (.dev d)).mpr hmem⟩

/-- A step that does not keep the registrations breaks them. -/
theorem CleanOk.keeps_of_clean
    {op : Operation A} (h : k.CleanOk) (hstep : Step m k op k') (hclean : k'.Clean) :
    k.KeepsRegistrations op := by
  have hsafe := h.safe hstep.1
  cases op with
  | createProcess s priority =>
      -- a registered PCB would be live after the step, but not blocked
      intro x hx
      cases hlist : k.devWList x with
      | none =>
          rfl
      | some d =>
          exfalso
          have hxfree : x ∈ k.pcbFreeH := List.mem_of_mem_head? hx
          have hxidle : x ≠ .idle := by
            rintro rfl
            exact h.ok.idle_not_free hxfree
          have hsame : SameDevices k k' := by
            refine sameDevices_step h.ok ?_ (by simp) hstep
            exact trivial
          have hx' : k'.Live x := by
            refine ⟨hxidle, fun hmem => ?_⟩
            obtain ⟨free, hfree⟩ := List.head?_eq_some_iff.mp hx
            have hnd := h.ok.residence.free_nodup
            rw [hstep.free_createProcess h.ok, hfree] at hmem
            rw [hfree] at hnd
            exact (List.nodup_cons.mp hnd).1 hmem
          have hlist' : k'.devWList x = some d :=
            (congrFun (congrArg DeviceView.list hsame.view) x).trans hlist
          have hok := h.ok.step hsafe hstep
          have hmem := (hok.residence.semkey x (.dev d)).mp (hclean x d hx' hlist').2
          have hmem' : x ∈ k.waitQueue (.dev d) := by
            rw [← show k'.waitQueue (.dev d) = k.waitQueue (.dev d) from
              congrFun (congrArg DeviceView.queue hsame.view) d]
            exact hmem
          exact (h.ok.live_of_queued hmem').2 hxfree
  | doneIo d status =>
      -- a registered process further back would lose the device to the second one
      intro r hr hrq
      by_contra hfar
      have hmove := device_move h.ok h.devicesOk hsafe hstep
      have hr' : k'.Live r := by
        have hlive := h.ok.live_of_queued hrq
        refine ⟨hlive.1, ?_⟩
        rw [hstep.free_eq h.ok (by simp) (by simp)]
        exact hlive.2
      have hlist := h.linked d r hr
      have hview : k'.devWList r = some d → k'.wForRes d = some r :=
        fun hlist' => (hclean r d hr' hlist').1
      change k'.devices.list r = some d → k'.devices.res d = some r at hview
      generalize k'.devices = v at hmove hview
      cases hmove with
      | quiet hfree _ =>
          exact hfree
      | spurious _ _ hnone =>
          rw [hnone] at hr
          exact absurd hr (by simp)
      | abandon _ _ _ _ hq =>
          rw [hq] at hrq
          exact List.not_mem_nil hrq
      | serve _ _ r' q hr' hq =>
          obtain rfl : r = r' := Option.some.inj (hr.symm.trans hr')
          rw [hq] at hfar
          exact hfar (by cases q <;> simp)
      | lose _ _ r' x q _ _ hq =>
          rw [hq] at hrq hfar
          have hnext : q.head? ≠ some r := by
            intro hhead
            obtain ⟨q', rfl⟩ := List.head?_eq_some_iff.mp hhead
            exact hfar (by simp)
          have := hview ((DeviceView.list_promote_of_ne hnext).trans hlist)
          simp only [DeviceView.res_send, DeviceView.res_promote, Function.update_self] at this
          exact hnext this
  | _ => exact trivial

end Step

section Runs

variable {s : ℕ → Kernel A} {e : ℕ → Operation A} {n : ℕ}

/--
Registrations and reuse: the registrations are in order throughout a run exactly
when no creation takes a registered PCB and no completion finds the registered
process third or later.  Then no PCB is both free and ready, and a termination
clears no `w_for_res`.
-/
theorem registrations_clean
    (hboot : (s 0).Booted) (hrun : IsRun (Step m) s e n) :
    ((∀ i ≤ n, (s i).Clean) ↔ ∀ i < n, (s i).KeepsRegistrations (e i)) ∧
    ((∀ i < n, (s i).KeepsRegistrations (e i)) →
      ∀ i ≤ n,
        (∀ x ∈ (s i).pcbFreeH, x ∉ (s i).readyQueue) ∧
        ∀ p ret k', (s i).Live (p.getD (s i).runningProc) →
          (s i).terminateProc p = .ok (ret, k') →
          k'.wForRes = (s i).wForRes ∧ ∀ x ∈ k'.pcbFreeH, x ∉ k'.readyQueue) := by
  have h0 : (s 0).CleanOk := hboot.fresh.cleanOk
  refine ⟨?_, fun hkeep i hi => ?_⟩
  · have hiff := hrun.steps_iff (P := fun _ _ k' => k'.Clean)
      (C := fun k op => k.KeepsRegistrations op) h0
      (fun _ _ _ (h : CleanOk _) hkeep hstep => h.step hkeep hstep)
      (fun _ _ _ h hstep =>
        ⟨h.keeps_of_clean hstep, fun hkeep => (h.step hkeep hstep).clean⟩)
    rw [← hiff]
    constructor
    · exact fun hclean i hi => hclean (i + 1) (by omega)
    · intro hclean i hi
      cases i with
      | zero =>
          exact h0.clean
      | succ i =>
          exact hclean i (by omega)
  · have h : (s i).CleanOk := hrun.invariant_of hkeep h0
      (fun _ _ _ h hkeep hstep => h.step hkeep hstep) i hi
    refine ⟨fun x hx => h.ok.residence.not_ready_of_free hx, fun p ret k' hp hterm => ?_⟩
    obtain ⟨-, ⟨l, hdone⟩, hok⟩ := terminate_cases h.ok hp (h.killable hp) hterm
    refine ⟨?_, fun x hx => hok.residence.not_ready_of_free hx⟩
    obtain ⟨asl, pParent, rfl, -, -⟩ := hdone.result
    rfl

/-- A process is killed while it waits for the printer, and another one is created. -/
def reuseHistory : List (Operation umps) :=
  [.waitIo 2 0x100001d0 0 0, .terminateProcess (some (.pcb 0)),
    .createProcess State.reset 1, .terminateProcess (some (.pcb 0))]

theorem reuseHistory_isRun :
    IsRun (Step .int32) (states (next .int32) (bootMps [3, 2]) reuseHistory)
      (fun i => reuseHistory.getD i .timeSlice) 4 :=
  isRun_of_accepts (by decide +kernel)

/--
The new process inherits the registration of the killed one: terminating it, while
it is ready, puts its PCB on the free list and leaves it in the ready queue.  The process
that does this is before it in the queue, so that the links lead back to it.
-/
theorem registration_inherited :
    (bootMps [3, 2]).Booted ∧
      IsRun (Step .int32) (states (next .int32) (bootMps [3, 2]) reuseHistory)
        (fun i => reuseHistory.getD i .timeSlice) 4 ∧
      ¬ (states (next .int32) (bootMps [3, 2]) reuseHistory 3).Clean ∧
      Proc.pcb 0 ∈ (states (next .int32) (bootMps [3, 2]) reuseHistory 4).pcbFreeH ∧
      Proc.pcb 0 ∈ (states (next .int32) (bootMps [3, 2]) reuseHistory 4).readyQueue := by
  refine ⟨bootMps_booted (by decide) (by decide), reuseHistory_isRun,
    fun hclean => ?_, by decide +kernel, by decide +kernel⟩
  have := (hclean (.pcb 0) ⟨.PRIN, 0⟩ (by decide +kernel) (by decide +kernel)).2
  exact absurd this (by decide +kernel)

theorem registrations_clean_reuseHistory :
    (states (next .int32) (bootMps [3, 2]) reuseHistory 2).Clean :=
  (registrations_clean (bootMps_booted (by decide) (by decide))
    (reuseHistory_isRun.initial (m := 2) (by decide))).1.mpr
    (by decide +kernel) 2 le_rfl

end Runs

end Kernel

end Bikaya
