import Bikaya.Proofs.Timers
import Mathlib.Tactic.IntervalCases

/-!
# Bikaya: the CPU time of the processes

The handlers charge the time that passes to the interrupted process, and put a time stamp
on the process they resume.  Between two entries the running process is the only one whose
time stamp is up to date, and no time has been counted twice.

**Plan.**  A reading of the clock is represented by its distance from the second reading of
the launch, which is the first time stamp.  `TimeStep` is what one entry does to the
timers: the interrupted process goes on, another process is resumed, or the exception is
passed up.  `Timed` is the invariant: the stamp of the running process is the present, all
the timers together have not counted more than has passed, and each process has not counted
more than has passed since it was created.

**Results.**
* `timed_of_run`: the invariant in every state of a run.
* `Reports.between`: what two calls of GETCPUTIME of one process report.
* `cpu_time_counted_once`: the counted times are bounded by the time that has passed, for
  all the processes together and for each one, and what is reported never decreases.
-/

namespace Bikaya

open Kernel TimeAccounts TransitionSystem

namespace Machine

variable {A : Arch} {m : IntModel} {M M' : Machine A} {e : Entry A} {k : Kernel A}

section Entries

/-- The readings inside the operations of one exception are `todMid`. -/
theorem tod_of_mem_operations
    {op : Operation A} (hop : op ∈ M.operations e.toException) {tod : Word}
    (hreads : op.Reads tod) :
    tod = e.todMid := by
  unfold operations at hop
  have hkill : ∀ t : ExcType, op ∈ (if M.kernel.isPassupSet t M.kernel.runningProc then []
      else [.terminateProcess (some M.kernel.runningProc)]) → tod = e.todMid := by
    intro t hmem
    split_ifs at hmem
    · exact absurd hmem List.not_mem_nil
    · obtain rfl := List.mem_singleton.mp hmem
      exact absurd hreads id
  split at hop
  · rcases mem_interruptOps hop with rfl | ⟨d, -, rfl⟩ <;> exact absurd hreads id
  · split at hop
    · exact absurd hop List.not_mem_nil
    · split_ifs at hop with hnum
      · exact absurd hop List.not_mem_nil
      · obtain rfl := List.mem_singleton.mp hop
        exact absurd hreads id
      · unfold syscallOps at hop
        split at hop
        · obtain rfl := List.mem_singleton.mp hop
          exact absurd hreads id
        · split at hop
          · obtain rfl := List.mem_singleton.mp hop
            exact absurd hreads id
          · exact absurd hop List.not_mem_nil
        · split at hop
          · obtain rfl := List.mem_singleton.mp hop
            exact absurd hreads id
          · exact absurd hop List.not_mem_nil
        · split at hop
          · obtain rfl := List.mem_singleton.mp hop
            exact hreads.symm
          · exact absurd hop List.not_mem_nil
        · obtain rfl := List.mem_singleton.mp hop
          exact hreads.symm
        · split_ifs at hop
          · obtain rfl := List.mem_singleton.mp hop
            exact absurd hreads id
          · exact absurd hop List.not_mem_nil
        · exact absurd hop List.not_mem_nil
  · exact hkill _ hop

/-- What the operations of an entry do to the timers. -/
theorem Executes.timerMove
    (hexec : Executes m M e k) (hok : M.kernel.Ok)
    (hidle : M.kernel.runningProc = .idle → e.type = .INT)
    (hsafe : ∀ op ∈ M.operations e.toException, M.kernel.Safe op) :
    ∃ op : Operation A, TimerMove (M.started e) k op ∧ (∀ tod, op.Reads tod → tod = e.todMid) := by
  have hquiet : SameRecords (M.started e) k →
      ∃ op : Operation A, TimerMove (M.started e) k op ∧ (∀ tod, op.Reads tod → tod = e.todMid) :=
    fun hsame => ⟨.timeSlice,
      TimerMove.quiet (fun x hx => hsame.free ▸ hx) hsame.time hsame.areas,
      fun _ h => absurd h id⟩
  cases hexec with
  | interrupt htype hops =>
      let Inv : Kernel A → Prop := fun k₁ => k₁.Ok ∧ SameRecords (M.started e) k₁
      have hall : Inv k := by
        refine execAll_invariant ?_ ⟨started_ok hok, rfl, rfl, rfl⟩ hops
        rintro k₁ op k₂ hmem ⟨hk, hsame⟩ hop
        rcases mem_interruptOps hmem with rfl | ⟨d, -, rfl⟩
        · obtain rfl := Except.ok.inj hop
          exact ⟨hk.timeSlice, hsame.trans (sameRecords_timeSlice k₁)⟩
        · obtain rfl := Except.ok.inj hop
          exact ⟨hk.doneIo d _, hsame.trans (sameRecords_doneIo hk.residence.aslOk d _)⟩
      exact hquiet hall.2
  | nothing _ _ _ _ =>
      exact hquiet ⟨rfl, rfl, rfl⟩
  | operation htype hops hreq hop =>
      rename_i op
      have hmem : op ∈ M.operations e.toException := by
        rw [hops]
        exact List.mem_singleton_self op
      have hrun : M.kernel.runningProc ≠ .idle := fun hrun => htype (hidle hrun)
      have hsafe' : (M.started e).Safe op := Safe.of_started (hsafe op hmem)
      have hstep := (started_ok hok).step_of_exec hrun hsafe' hop
      exact ⟨op, hstep.timerMove (started_ok hok) (hsafe'.undamaging (started_ok hok)),
        fun tod hreads => tod_of_mem_operations hmem hreads⟩

/-- What an entry does to the timers of all the processes. -/
inductive TimeStep (M : Machine A) (e : Entry A) (M' : Machine A) : Prop
  /-- The interrupted process is resumed. -/
  | same (k : Kernel A) (op : Operation A) :
      TimerMove (M.started e) k op →
      (∀ tod, op.Reads tod → tod = e.todMid) →
      k.runningProc = M.kernel.runningProc →
      M'.kernel.runningProc = M.kernel.runningProc →
      M'.kernel.pcbFreeH = k.pcbFreeH →
      M'.kernel.timeRecord = (k.flushKernelTime e.todEnd M.kernel.runningProc).timeRecord →
      TimeStep M e M'
  /-- Another process is resumed. -/
  | other (k : Kernel A) (op : Operation A) :
      TimerMove (M.started e) k op →
      (∀ tod, op.Reads tod → tod = e.todMid) →
      M'.kernel.runningProc ≠ M.kernel.runningProc →
      M'.kernel.pcbFreeH = k.pcbFreeH →
      M'.kernel.timeRecord = (k.flushResetTime e.todEnd M'.kernel.runningProc).timeRecord →
      TimeStep M e M'
  /-- The exception is passed up to the interrupted process. -/
  | passed :
      M'.kernel.runningProc = M.kernel.runningProc →
      M'.kernel.pcbFreeH = M.kernel.pcbFreeH →
      (M'.kernel.timeRecord = (M.started e).timeRecord ∨
        M'.kernel.timeRecord =
          ((M.started e).flushKernelTime e.todMid M.kernel.runningProc).timeRecord) →
      TimeStep M e M'

theorem enter_timeStep
    {reply : Reply} {r : Resumed A} (hok : M.kernel.Ok)
    (hidle : M.kernel.runningProc = .idle → e.type = .INT)
    (hsafe : ∀ op ∈ M.operations e.toException, M.kernel.Safe op)
    (henter : M.enter m e = .ok (M', reply, r)) :
    TimeStep M e M' := by
  rcases handle_cases henter with ⟨k, st, hhandling, hM'⟩ | ⟨k, t, hup, -, hM'⟩
  · obtain ⟨k₁, areas, hops, rfl, -⟩ := hhandling.ops
    obtain ⟨op, hmove, hmid⟩ := (executes_of_execAll hops).timerMove hok hidle hsafe
    by_cases hrun : k₁.runningProc = M.kernel.runningProc
    · rw [concluded_same (M := M.userWrites e.memory)
        (k := { k₁ with specAreas := areas }) st hrun] at hM'
      obtain rfl := congrArg Prod.fst hM'
      exact TimeStep.same k₁ op hmove hmid hrun hrun rfl rfl
    · rw [concluded_other (M := M.userWrites e.memory)
        (k := { k₁ with specAreas := areas }) st hrun] at hM'
      obtain rfl := congrArg Prod.fst hM'
      exact TimeStep.other k₁ op hmove hmid hrun rfl rfl
  · obtain rfl := congrArg Prod.fst hM'
    cases hup with
    | unserved ht _ =>
        cases t with
        | SYS => exact TimeStep.passed rfl rfl (Or.inr rfl)
        | _ => exact TimeStep.passed rfl rfl (Or.inl rfl)
    | breakpoint _ _ =>
        exact TimeStep.passed rfl rfl (Or.inl rfl)

end Entries

section Accounts

variable {origin : Word} {opened : Proc → ℕ} {t : ℕ}

/-- The readings of an entry do not go back: distances from the origin below one period. -/
structure Ordered (origin : Word) (t : ℕ) (e : Entry A) : Prop where
  start : t ≤ elapsed origin e.todStart
  mid : elapsed origin e.todStart ≤ elapsed origin e.todMid
  stop : elapsed origin e.todMid ≤ elapsed origin e.todEnd

/-- A process that an entry creates counts from the end of that entry. -/
def nextOpened (origin : Word) (M : Machine A) (e : Entry A) (M' : Machine A)
    (opened : Proc → ℕ) : Proc → ℕ :=
  fun x =>
    if ¬ M.kernel.Live x ∧ M'.kernel.Live x then elapsed origin e.todEnd else opened x

theorem timed_started
    (h : M.kernel.Timed origin opened M.kernel.runningProc t) (ht : Ordered origin t e) :
    (M.started e).Timed origin opened M.kernel.runningProc (elapsed origin e.todStart) := by
  have hwrites : (M.userWrites e.memory).kernel.Timed origin opened M.kernel.runningProc t :=
    ⟨h.stamp, h.within⟩
  exact hwrites.flushUser ht.start

/-- The timers and the stamp of a process that an entry creates are clear. -/
theorem TimeStep.created
    (hstep : TimeStep M e M') (hok : M.kernel.Ok) {z : Proc}
    (hz : ¬ M.kernel.Live z) (hz' : M'.kernel.Live z) :
    M'.kernel.cpuTime z = 0 ∧ M'.kernel.todAtStart z = 0 := by
  have hlive : ∀ {k' : Kernel A}, M'.kernel.pcbFreeH = k'.pcbFreeH → k'.Live z := by
    intro k' hfree
    rw [Live, hfree] at hz'
    exact hz'
  have hclear : ∀ {k' : Kernel A}, k'.timeRecord z = ⟨0, 0, 0, 0⟩ →
      k'.cpuTime z = 0 ∧ k'.todAtStart z = 0 := by
    intro k' hzero
    rw [cpuTime, show k'.userTimer z = 0 from congrArg TimeRecord.user hzero,
      show k'.kernelTimer z = 0 from congrArg TimeRecord.kernel hzero]
    exact ⟨rfl, congrArg TimeRecord.atStart hzero⟩
  cases hstep with
  | same k op hmove _ _ _ hfree hrecord =>
      obtain ⟨hne, hzero⟩ := hmove.created (started_ok hok) hz (hlive hfree)
      refine hclear ?_
      rw [hrecord, ← hzero]
      simp [timeRecord, flushKernelTime, show z ≠ M.kernel.runningProc from hne]
  | other k op hmove _ _ hfree hrecord =>
      obtain ⟨-, hzero⟩ := hmove.created (started_ok hok) hz (hlive hfree)
      obtain ⟨hcpu, hstamp⟩ := hclear hzero
      have heq := congrFun hrecord z
      rw [cpuTime, show M'.kernel.userTimer z = _ from congrArg TimeRecord.user heq,
        show M'.kernel.kernelTimer z = _ from congrArg TimeRecord.kernel heq,
        show M'.kernel.todAtStart z = _ from congrArg TimeRecord.atStart heq]
      exact ⟨hcpu, hstamp⟩
  | passed _ hfree _ =>
      exact absurd (hlive hfree) hz

/-- An entry keeps the accounts. -/
theorem TimeStep.timed
    (hstep : TimeStep M e M') (hok : M.kernel.Ok)
    (h : M.kernel.Timed origin opened M.kernel.runningProc t) (ht : Ordered origin t e) :
    ∃ t' ≤ elapsed origin e.todEnd,
      M'.kernel.Timed origin (nextOpened origin M e M' opened) M'.kernel.runningProc t' := by
  have hstart := timed_started h ht
  have hreopen : M'.kernel.Timed origin opened M'.kernel.runningProc (elapsed origin e.todEnd) →
      M'.kernel.Timed origin (nextOpened origin M e M' opened) M'.kernel.runningProc
        (elapsed origin e.todEnd) := by
    intro htimed
    refine ⟨htimed.stamp, htimed.within.reopen (fun x => ?_)⟩
    by_cases hx : ¬ M.kernel.Live x ∧ M'.kernel.Live x
    · exact Or.inr ⟨if_pos hx, fun _ => (hstep.created hok hx.1 hx.2).1⟩
    · exact Or.inl (if_neg hx)
  cases hstep with
  | same k op hmove hmid hrun hrun' hfree hrecord =>
      obtain ⟨c, -, hc, htimed⟩ := hmove.timed hstart (started_ok hok) hmid ht.mid
      refine ⟨_, le_rfl, hreopen ?_⟩
      rw [hrun']
      exact (htimed.flushKernel (hc.trans ht.stop)).of_record hrecord
        (counted_of_free hfree).subset
  | other k op hmove hmid hrun hfree hrecord =>
      obtain ⟨c, -, hc, htimed⟩ := hmove.timed hstart (started_ok hok) hmid ht.mid
      refine ⟨_, le_rfl, hreopen ?_⟩
      exact (htimed.flushReset (hc.trans ht.stop) M'.kernel.runningProc).of_record hrecord
        (counted_of_free hfree).subset
  | passed hrun hfree hrecord =>
      have hopened : nextOpened origin M e M' opened = opened := by
        funext x
        refine if_neg ?_
        rw [Live, Live, hfree]
        exact fun hx => hx.1 hx.2
      rw [hopened, hrun]
      rcases hrecord with hrecord | hrecord
      · exact ⟨_, ht.mid.trans ht.stop, hstart.of_record hrecord (counted_of_free hfree).subset⟩
      · exact ⟨_, ht.stop, (hstart.flushKernel ht.mid).of_record hrecord
          (counted_of_free hfree).subset⟩

/-- The timers of a process that stays grow. -/
theorem TimeStep.grows
    (hstep : TimeStep M e M') (hok : M.kernel.Ok)
    (h : M.kernel.Timed origin opened M.kernel.runningProc t) (ht : Ordered origin t e)
    {x : Proc} (hx : x ∈ M.kernel.counted) (hx' : x ∈ M'.kernel.counted) :
    (M.kernel.userTimer x).toNat ≤ (M'.kernel.userTimer x).toNat ∧
      (M.kernel.kernelTimer x).toNat ≤ (M'.kernel.kernelTimer x).toNat := by
  have hstart := timed_started h ht
  have huser : (M.kernel.userTimer x).toNat ≤ ((M.started e).userTimer x).toNat :=
    Timed.userTimer_le (k := (M.userWrites e.memory).kernel) ⟨h.stamp, h.within⟩ ht.start hx
  -- the record after the entry, given that of the kernel the handler leaves
  have hresult : ∀ {k' : Kernel A}, M'.kernel.timeRecord x = k'.timeRecord x →
      k'.userTimer x = (M.started e).userTimer x →
      (M.kernel.kernelTimer x).toNat ≤ (k'.kernelTimer x).toNat →
      (M.kernel.userTimer x).toNat ≤ (M'.kernel.userTimer x).toNat ∧
        (M.kernel.kernelTimer x).toNat ≤ (M'.kernel.kernelTimer x).toNat := by
    intro k' heq huser' hkernel'
    rw [show M'.kernel.userTimer x = k'.userTimer x from congrArg TimeRecord.user heq,
      show M'.kernel.kernelTimer x = k'.kernelTimer x from congrArg TimeRecord.kernel heq]
    exact ⟨huser'.symm ▸ huser, hkernel'⟩
  cases hstep with
  | same k op hmove hmid hrun hrun' hfree hrecord =>
      obtain ⟨c, -, hc, htimed⟩ := hmove.timed hstart (started_ok hok) hmid ht.mid
      obtain ⟨huser', hkernel'⟩ := hmove.grows hstart (started_ok hok) hmid ht.mid hx
      rw [counted_of_free hfree] at hx'
      exact hresult (congrFun hrecord x) huser'
        (hkernel'.trans (htimed.kernelTimer_le (hc.trans ht.stop) hx'))
  | other k op hmove hmid hrun hfree hrecord =>
      obtain ⟨huser', hkernel'⟩ := hmove.grows hstart (started_ok hok) hmid ht.mid hx
      exact hresult (congrFun hrecord x) huser' hkernel'
  | passed hrun hfree hrecord =>
      rcases hrecord with hrecord | hrecord
      · exact hresult (congrFun hrecord x) rfl le_rfl
      · exact hresult (congrFun hrecord x) rfl (hstart.kernelTimer_le ht.mid hx)

/-- The stamp of a process that stays is the same. -/
theorem TimeStep.todAtStart
    (hstep : TimeStep M e M') (hok : M.kernel.Ok) {x : Proc} (hx : x ∈ M.kernel.counted) :
    M'.kernel.todAtStart x = M.kernel.todAtStart x := by
  cases hstep with
  | same k op hmove _ _ _ _ hrecord =>
      exact (congrArg TimeRecord.atStart (congrFun hrecord x)).trans
        (hmove.todAtStart (started_ok hok) hx)
  | other k op hmove _ _ _ hrecord =>
      exact (congrArg TimeRecord.atStart (congrFun hrecord x)).trans
        (hmove.todAtStart (started_ok hok) hx)
  | passed _ _ hrecord =>
      rcases hrecord with hrecord | hrecord <;>
      exact congrArg TimeRecord.atStart (congrFun hrecord x)

end Accounts

section Reports

/-- Only GETCPUTIME answers with times, and it changes nothing. -/
theorem consumeSyscall_cpuTime
    {st : State A} {p : Proc} {stateAt : Word → State A} {tod user kernel wallclock : Word}
    {served : Served A} (h : k.consumeSyscall m st p stateAt tod = .ok served)
    (hreply : served.reply = .cpuTime user kernel wallclock) :
    served.kernel = k ∧ user = k.userTimer p ∧
      kernel = k.kernelTimer p + (tod - k.todCache p) ∧ wallclock = tod - k.todAtStart p := by
  have hother : ∀ {k₁ : Kernel A} {st₁ : State A} {reply : Reply},
      (∀ u v w, reply ≠ .cpuTime u v w) →
      (Except.ok ⟨k₁, st₁, reply⟩ : Except Halt (Served A)) = .ok served → False := by
    intro k₁ st₁ reply hno heq
    obtain rfl := Except.ok.inj heq
    exact hno _ _ _ hreply
  unfold consumeSyscall at h
  simp only at h
  split at h
  · obtain rfl := Except.ok.inj h
    obtain ⟨rfl, rfl, rfl⟩ := Reply.cpuTime.inj hreply
    exact ⟨rfl, rfl, rfl, rfl⟩
  · obtain ⟨_, -, h⟩ := ok_of_bind h
    exact (hother (by simp) h).elim
  · obtain ⟨_, -, h⟩ := ok_of_bind h
    obtain ⟨_, -, h⟩ := ok_of_bind h
    exact (hother (by simp) h).elim
  · obtain ⟨_, -, h⟩ := ok_of_bind h
    exact (hother (by simp) h).elim
  · obtain ⟨_, -, h⟩ := ok_of_bind h
    obtain ⟨_, -, h⟩ := ok_of_bind h
    exact (hother (by simp) h).elim
  · obtain ⟨_, -, h⟩ := ok_of_bind h
    exact (hother (by simp) h).elim
  · obtain ⟨_, -, h⟩ := ok_of_bind h
    exact (hother (by simp) h).elim
  · exact (hother (by simp) h).elim
  · exact absurd h (by simp)

/-- GETCPUTIME answers with these values. -/
def Reports (m : IntModel) (M : Machine A) (e : Entry A) (user kernel wallclock : Word) : Prop :=
  ∃ M' r, M.enter m e = .ok (M', .cpuTime user kernel wallclock, r)

/-- The values are those of the PCB of the caller, which is resumed. -/
theorem Reports.spec
    {user kernel wallclock : Word} (h : M.Reports m e user kernel wallclock)
    {reply : Reply} {r : Resumed A} (henter : M.enter m e = .ok (M', reply, r)) :
    e.type = .SYS ∧
      user = (M.started e).userTimer M.kernel.runningProc ∧
      kernel = (M.started e).kernelTimer M.kernel.runningProc +
        (e.todMid - (M.started e).todCache M.kernel.runningProc) ∧
      wallclock = e.todMid - M.kernel.todAtStart M.kernel.runningProc ∧
      M'.kernel.runningProc = M.kernel.runningProc ∧
      M'.kernel.timeRecord =
        ((M.started e).flushKernelTime e.todEnd M.kernel.runningProc).timeRecord := by
  obtain ⟨M₁, r₁, henter₁⟩ := h
  obtain ⟨rfl, rfl, rfl⟩ : M' = M₁ ∧ reply = .cpuTime user kernel wallclock ∧ r = r₁ := by
    simpa using henter.symm.trans henter₁
  rcases handle_cases henter with ⟨k, st, hhandling, hM'⟩ | ⟨_, _, _, hreply, _⟩
  · generalize hreply : Reply.cpuTime user kernel wallclock = reply at hhandling
    cases hhandling with
    | interrupt _ =>
        exact absurd hreply (by simp)
    | served hsys _ hserved =>
        obtain ⟨hkernel, huser, hkern, hwall⟩ := consumeSyscall_cpuTime hserved hreply.symm
        rw [hkernel] at hM'
        rw [concluded_same (M := M.userWrites e.memory)
          (k := (M.userWrites e.memory).startKernel e.toException) _ rfl] at hM'
        obtain rfl := congrArg Prod.fst hM'
        exact ⟨(syscall_eq_some hsys).1, huser, hkern, hwall, rfl, rfl⟩
    | killed _ _ _ =>
        exact absurd hreply (by simp)
  · exact absurd hreply (by simp)

end Reports

section Runs

/-- The distances from the origin of the last reading before each entry. -/
def clock (origin : Word) (e : ℕ → Entry A) : ℕ → ℕ
  | 0 => 0
  | i + 1 => elapsed origin (e i).todEnd

/-- When the processes were created, as distances from the launch. -/
def openedAt (origin : Word) (M : ℕ → Machine A) (e : ℕ → Entry A) : ℕ → Proc → ℕ
  | 0 => fun _ => 0
  | i + 1 => nextOpened origin (M i) (e i) (M (i + 1)) (openedAt origin M e i)

variable {M : ℕ → Machine A} {e : ℕ → Entry A} {n : ℕ} {r₀ : Resumed A} {tod : Word × Word}

theorem clock_mono
    {origin : Word} (hclock : ∀ i < n, Ordered origin (clock origin e i) (e i))
    {i j : ℕ} (hij : i ≤ j) (hj : j ≤ n) :
    clock origin e i ≤ clock origin e j := by
  induction j, hij using Nat.le_induction with
  | base =>
      exact le_rfl
  | succ j hij ih =>
      have h := hclock j (by omega)
      exact (ih (by omega)).trans (h.start.trans (h.mid.trans h.stop))

/-- The launch opens the accounts. -/
theorem LaunchedAt.timed {M : Machine A} (h : M.LaunchedAt r₀ tod) :
    M.kernel.Timed tod.2 (fun _ => 0) M.kernel.runningProc 0 := by
  have hfresh := h.launched.booted.1.fresh
  have hzero : ∀ x, M.kernel.cpuTime x = 0 := by
    intro x
    rw [cpuTime, hfresh.userTimer, hfresh.kernelTimer]
    rfl
  refine ⟨by rw [h.stamps.1, elapsed_self], ⟨?_, ?_, fun _ => le_rfl⟩⟩
  · exact (Finset.sum_eq_zero (fun x _ => hzero x)).le
  · intro x _
    rw [hzero x]

/-- The accounts are kept along a run. -/
theorem timed_of_run
    (hlaunch : (M 0).LaunchedAt r₀ tod) (hrun : IsRun (Step m) M e n)
    (hspare : ∀ i < n, ∀ op ∈ (M i).operations (e i).toException,
      (M i).kernel.SparesDevices op)
    (hclock : ∀ i < n, Ordered tod.2 (clock tod.2 e i) (e i)) :
    ∀ i ≤ n, ∃ t ≤ clock tod.2 e i,
      (M i).kernel.Timed tod.2 (openedAt tod.2 M e i) (M i).kernel.runningProc t := by
  intro i
  induction i with
  | zero =>
      exact fun _ => ⟨0, le_rfl, hlaunch.timed⟩
  | succ i ih =>
      intro hi
      obtain ⟨t, ht, htimed⟩ := ih (by omega)
      have hok := sparing_of_run hlaunch.launched hrun hspare i (by omega)
      obtain ⟨hidle, reply, r, henter⟩ := hrun i hi
      have hstep := enter_timeStep hok.ok hidle (fun op _ => hok.safe op) henter
      have horder := hclock i hi
      exact hstep.timed hok.ok htimed ⟨ht.trans horder.start, horder.mid, horder.stop⟩

/-- The timers of a process between two states in which it stays alive. -/
theorem grows_of_run
    (hlaunch : (M 0).LaunchedAt r₀ tod) (hrun : IsRun (Step m) M e n)
    (hspare : ∀ i < n, ∀ op ∈ (M i).operations (e i).toException,
      (M i).kernel.SparesDevices op)
    (hclock : ∀ i < n, Ordered tod.2 (clock tod.2 e i) (e i))
    {x : Proc} {i j : ℕ} (hij : i ≤ j) (hj : j ≤ n)
    (hx : ∀ l, i ≤ l → l ≤ j → (M l).kernel.Live x) :
    ((M i).kernel.userTimer x).toNat ≤ ((M j).kernel.userTimer x).toNat ∧
      ((M i).kernel.kernelTimer x).toNat ≤ ((M j).kernel.kernelTimer x).toNat := by
  induction j, hij using Nat.le_induction with
  | base =>
      exact ⟨le_rfl, le_rfl⟩
  | succ j hij ih =>
      obtain ⟨huser, hkernel⟩ := ih (by omega) (fun l hl hl' => hx l hl (by omega))
      obtain ⟨t, ht, htimed⟩ := timed_of_run hlaunch hrun hspare hclock j (by omega)
      have hok := sparing_of_run hlaunch.launched hrun hspare j (by omega)
      obtain ⟨hidle, reply, r, henter⟩ := hrun j (by omega)
      have hstep := enter_timeStep hok.ok hidle (fun op _ => hok.safe op) henter
      have horder := hclock j (by omega)
      have hcounted : ∀ l, i ≤ l → l ≤ j + 1 → x ∈ (M l).kernel.counted :=
        fun l hl hl' => mem_counted.mpr (Or.inr (hx l hl hl').2)
      obtain ⟨huser', hkernel'⟩ := hstep.grows hok.ok htimed
        ⟨ht.trans horder.start, horder.mid, horder.stop⟩ (hcounted j hij (by omega))
        (hcounted (j + 1) (by omega) le_rfl)
      exact ⟨huser.trans huser', hkernel.trans hkernel'⟩

/-- Only the process that was launched has a stamp of its first execution. -/
theorem todAtStart_of_run
    (hlaunch : (M 0).LaunchedAt r₀ tod) (hrun : IsRun (Step m) M e n)
    (hsafe : ∀ i < n, ∀ op ∈ (M i).operations (e i).toException, (M i).kernel.Safe op) :
    ∀ i ≤ n, ∀ x, (M i).kernel.Live x →
      ((x = (M 0).kernel.runningProc ∧ ∀ l ≤ i, (M l).kernel.Live x) ∧
        (M i).kernel.todAtStart x = tod.1) ∨
      (¬ (x = (M 0).kernel.runningProc ∧ ∀ l ≤ i, (M l).kernel.Live x) ∧
        (M i).kernel.todAtStart x = 0) := by
  intro i
  induction i with
  | zero =>
      intro _ x hx
      rw [hlaunch.stamps.2]
      by_cases hxrun : x = (M 0).kernel.runningProc
      · refine Or.inl ⟨⟨hxrun, fun l hl => ?_⟩, ?_⟩
        · rw [Nat.le_zero.mp hl]
          exact hx
        · rw [hxrun, Function.update_self]
      · exact Or.inr ⟨fun h => hxrun h.1, Function.update_of_ne hxrun _ _⟩
  | succ i ih =>
      intro hi x hx
      have hok := ok_of_run hlaunch.launched hrun hsafe i (by omega)
      obtain ⟨hidle, reply, r, henter⟩ := hrun i hi
      have hstep := enter_timeStep hok hidle (hsafe i hi) henter
      by_cases hlive : (M i).kernel.Live x
      · rw [hstep.todAtStart hok (mem_counted.mpr (Or.inr hlive.2))]
        rcases ih (by omega) x hlive with ⟨⟨hself, hall⟩, hstamp⟩ | ⟨hnot, hstamp⟩
        · refine Or.inl ⟨⟨hself, fun l hl => ?_⟩, hstamp⟩
          rcases Nat.le_succ_iff.mp hl with hl | rfl
          · exact hall l hl
          · exact hx
        · exact Or.inr ⟨fun h => hnot ⟨h.1, fun l hl => h.2 l (by omega)⟩, hstamp⟩
      · exact Or.inr ⟨fun h => hlive (h.2 i (by omega)), (hstep.created hok hlive hx).2⟩

/-- What GETCPUTIME reports lies between the timers before and after the entry. -/
theorem Reports.between
    {M M' : Machine A} {e : Entry A} {origin : Word} {opened : Proc → ℕ} {t : ℕ}
    {user kernel wallclock : Word} {reply : Reply} {r : Resumed A}
    (h : M.Reports m e user kernel wallclock) (henter : M.enter m e = .ok (M', reply, r))
    (hok : M.kernel.Ok) (htimed : M.kernel.Timed origin opened M.kernel.runningProc t)
    (ht : Ordered origin t e) :
    (M.kernel.userTimer M.kernel.runningProc).toNat ≤ user.toNat ∧
      user = M'.kernel.userTimer M.kernel.runningProc ∧
      (M.kernel.kernelTimer M.kernel.runningProc).toNat ≤ kernel.toNat ∧
      kernel.toNat ≤ (M'.kernel.kernelTimer M.kernel.runningProc).toNat := by
  obtain ⟨-, rfl, rfl, -, -, hrecord⟩ := h.spec henter
  have hp : M.kernel.runningProc ∈ M.kernel.counted :=
    mem_counted.mpr (Or.inr hok.running_not_free)
  have hstart := timed_started htimed ht
  have heq := congrFun hrecord M.kernel.runningProc
  -- a flush at the reading inside the handler, and one at its end
  have hmid := hstart.kernelTimer_flush ht.mid hp
  have hstop := hstart.kernelTimer_flush (ht.mid.trans ht.stop) hp
  have hstop' := ht.stop
  simp only [flushKernelTime, Function.update_self] at hmid
  refine ⟨?_, (congrArg TimeRecord.user heq).symm, ?_, ?_⟩
  · exact Timed.userTimer_le (k := (M.userWrites e.memory).kernel) ⟨htimed.stamp, htimed.within⟩
      ht.start hp
  · rw [hmid]
    exact Nat.le_add_right _ _
  · rw [hmid, show M'.kernel.kernelTimer M.kernel.runningProc = _ from
      congrArg TimeRecord.kernel heq]
    show _ ≤ (((M.started e).flushKernelTime e.todEnd M.kernel.runningProc).kernelTimer
      M.kernel.runningProc).toNat
    rw [hstop]
    omega

/--
No CPU time is counted twice in a run whose readings of the time of day do not go back
and span less than one period, those of the launch included: between the entries and at
the moments inside the handlers, all the timers together hold at most the time since the
launch, and those of one process at most the time since its creation.  What GETCPUTIME
reports to a process does not decrease; the wall-clock value of a process without a stamp
is the reading itself, modulo 2 ^ 32.
-/
theorem cpu_time_counted_once
    (hlaunch : (M 0).LaunchedAt r₀ tod) (hrun : IsRun (Step m) M e n)
    (hspare : ∀ i < n, ∀ op ∈ (M i).operations (e i).toException,
      (M i).kernel.SparesDevices op)
    (hclock : ∀ i < n, Ordered tod.2 (clock tod.2 e i) (e i))
    (hspan : ∀ i < n, elapsed tod.1 tod.2 + elapsed tod.2 (e i).todEnd < 2 ^ 32) :
    (∀ i ≤ n,
      ∑ x ∈ (M i).kernel.counted,
          (((M i).kernel.userTimer x).toNat + ((M i).kernel.kernelTimer x).toNat) ≤
        clock tod.2 e i ∧
      ∀ x ∈ (M i).kernel.counted,
        openedAt tod.2 M e i x +
          (((M i).kernel.userTimer x).toNat + ((M i).kernel.kernelTimer x).toNat) ≤
            clock tod.2 e i) ∧
    (∀ i < n,
      Within ((M i).started (e i)).counted (openedAt tod.2 M e i) ((M i).started (e i)).cpuTime
        (elapsed tod.2 (e i).todStart) ∧
      ∀ k, Executes m (M i) (e i) k →
        Within k.counted (openedAt tod.2 M e i) k.cpuTime (elapsed tod.2 (e i).todMid)) ∧
    (∀ i j x, i < j → j < n → (∀ l, i ≤ l → l ≤ j → (M l).kernel.Live x) →
      (M i).kernel.runningProc = x → (M j).kernel.runningProc = x →
      ∀ user kernel wallclock user' kernel' wallclock',
        (M i).Reports m (e i) user kernel wallclock →
        (M j).Reports m (e j) user' kernel' wallclock' →
        user ≤ user' ∧ kernel ≤ kernel' ∧
          ((e i).todMid ≤ (e j).todMid → wallclock ≤ wallclock')) := by
  have hspared := sparing_of_run hlaunch.launched hrun hspare
  have hsafe : ∀ i < n, ∀ op ∈ (M i).operations (e i).toException, (M i).kernel.Safe op :=
    fun i hi op _ => (hspared i hi.le).safe op
  -- what an entry is known to start from
  have hentry : ∀ i < n, ∃ t ≤ clock tod.2 e i, Ordered tod.2 t (e i) ∧
      (M i).kernel.Timed tod.2 (openedAt tod.2 M e i) (M i).kernel.runningProc t := by
    intro i hi
    obtain ⟨t, ht, htimed⟩ := timed_of_run hlaunch hrun hspare hclock i hi.le
    have horder := hclock i hi
    exact ⟨t, ht, ⟨ht.trans horder.start, horder.mid, horder.stop⟩, htimed⟩
  refine ⟨fun i hi => ?_, fun i hi => ⟨?_, fun k hexec => ?_⟩, ?_⟩
  · obtain ⟨t, ht, htimed⟩ := timed_of_run hlaunch hrun hspare hclock i hi
    exact ⟨(htimed.within.mono ht).total, (htimed.within.mono ht).each⟩
  · obtain ⟨t, -, horder, htimed⟩ := hentry i hi
    exact (timed_started htimed horder).within
  · obtain ⟨t, -, horder, htimed⟩ := hentry i hi
    have hok := (hspared i hi.le).ok
    obtain ⟨op, hmove, hmid⟩ := hexec.timerMove hok (hrun i hi).1 (hsafe i hi)
    obtain ⟨c, -, hc, htimed'⟩ :=
      hmove.timed (timed_started htimed horder) (started_ok hok) hmid horder.mid
    exact htimed'.within.mono hc
  · intro i j x hij hj hlive hxi hxj user kernel wallclock user' kernel' wallclock' hrep hrep'
    obtain ⟨t, -, horder, htimed⟩ := hentry i (by omega)
    obtain ⟨t', -, horder', htimed'⟩ := hentry j hj
    obtain ⟨-, reply, r, henter⟩ := hrun i (by omega)
    obtain ⟨-, reply', r', henter'⟩ := hrun j hj
    obtain ⟨-, huser, -, hkernel⟩ :=
      hrep.between henter (hspared i (by omega)).ok htimed horder
    obtain ⟨huser', -, hkernel', -⟩ :=
      hrep'.between henter' (hspared j hj.le).ok htimed' horder'
    obtain ⟨hgrow, hgrow'⟩ := grows_of_run hlaunch hrun hspare hclock (i := i + 1) hij hj.le
      (fun l hl hl' => hlive l (by omega) hl')
    rw [hxi] at huser hkernel
    rw [hxj] at huser' hkernel'
    refine ⟨?_, ?_, fun htods => ?_⟩
    · rw [huser]
      exact BitVec.le_def.mpr (hgrow.trans huser')
    · exact BitVec.le_def.mpr (hkernel.trans (hgrow'.trans hkernel'))
    · obtain ⟨-, -, -, rfl, -, -⟩ := hrep.spec henter
      obtain ⟨-, -, -, rfl, -, -⟩ := hrep'.spec henter'
      rw [hxi, hxj]
      have hstamps := todAtStart_of_run hlaunch hrun hsafe
      rcases hstamps i (by omega) x (hlive i le_rfl hij.le) with
        ⟨⟨hself, hall⟩, hstamp⟩ | ⟨hnot, hstamp⟩
      · rcases hstamps j hj.le x (hlive j hij.le le_rfl) with ⟨-, hstamp'⟩ | ⟨hnot', -⟩
        · rw [hstamp, hstamp']
          have hnext : clock tod.2 e (i + 1) ≤ clock tod.2 e j := clock_mono hclock hij hj.le
          have hmid := (hclock i (by omega)).stop.trans
            (hnext.trans ((hclock j hj).start.trans (hclock j hj).mid))
          have hmax := hspan j hj
          have hstop := (hclock j hj).stop
          -- the stamp is the first reading of the launch
          have hi : elapsed tod.1 (e i).todMid = elapsed tod.1 tod.2 + elapsed tod.2 (e i).todMid :=
            elapsed_add (by omega)
          have hj : elapsed tod.1 (e j).todMid = elapsed tod.1 tod.2 + elapsed tod.2 (e j).todMid :=
            elapsed_add (by omega)
          refine BitVec.le_def.mpr ?_
          show elapsed tod.1 (e i).todMid ≤ elapsed tod.1 (e j).todMid
          rw [hi, hj]
          exact Nat.add_le_add_left hmid _
        · refine absurd ⟨hself, fun l hl => ?_⟩ hnot'
          by_cases hli : l ≤ i
          · exact hall l hli
          · exact hlive l (by omega) hl
      · rcases hstamps j hj.le x (hlive j hij.le le_rfl) with ⟨⟨hself, hall⟩, -⟩ | ⟨-, hstamp'⟩
        · exact absurd ⟨hself, fun l hl => hall l (by omega)⟩ hnot
        · rw [hstamp, hstamp', sub_zero, sub_zero]
          exact htods

end Runs

section Example

/-- An entry between two readings that are two ticks apart. -/
def atTod (e : Entry umps) (tod : Word) : Entry umps :=
  { e with todStart := tod, todMid := tod + 1, todEnd := tod + 2 }

/-- A process asks for its time, blocks, is woken by the other one, and asks again. -/
def timerEntries : List (Entry umps) :=
  [atTod (syscallMps 1 0 0 0 0) 10, atTod (syscallMps 5 4 0 0 0) 20,
    atTod (syscallMps 4 4 0 0 0) 30, atTod (syscallMps 1 0 0 0 0) 40]

abbrev timerRun (i : ℕ) : Machine umps :=
  states (next .int32) (launchMps [2, 1] 1000) timerEntries i

abbrev timerEntry (i : ℕ) : Entry umps :=
  timerEntries.getD i (syscallMps 1 0 0 0 0)

theorem timerEntries_isRun : IsRun (Step .int32) timerRun timerEntry 4 :=
  isRun_of_accepts _ (by decide +kernel)

theorem cpu_time_counted_once_timerEntries :
    ∑ x ∈ (timerRun 4).kernel.counted,
        (((timerRun 4).kernel.userTimer x).toNat + ((timerRun 4).kernel.kernelTimer x).toNat) ≤
      42 := by
  refine ((cpu_time_counted_once (launchMps_launchedAt 1000 (by decide) (by decide))
    timerEntries_isRun (fun i hi => ?_) (fun i hi => ?_) (fun i hi => ?_)).1 4 le_rfl).1
  · refine sparesDevices_of_not_terminates ?_
    interval_cases i <;> decide +kernel
  · interval_cases i <;> exact ⟨by decide, by decide, by decide⟩
  · interval_cases i <;> decide

end Example

end Machine

end Bikaya
