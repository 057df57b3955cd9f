import Bikaya.Proofs.CpuTime

/-!
# Bikaya: what the timers of a process hold

Every reading of the time of day that an entry takes either closes an interval that is
charged to the interrupted process, or is the stamp of the process that runs next.  The
timers of a process are the sums of its intervals since its creation, modulo 2 ^ 32 and
whatever the readings are.

**Plan.**  `userCharge` and `handlerCharge` are what one entry charges to the interrupted
process, and `stampAt` is the time stamp that it starts from; all three are functions of
the events of the run.  The record of the timers follows them step by step, and the ledger
is the sum over the steps since the creation (`CreatedAt`).  The arithmetic is that of
32-bit words, so nothing is asked of the readings.

**Results.**
* `timers_of_record`: one entry.
* `ledger_of_run`: the timers over a part of a run in which the process is alive.
* `cpu_time_exact`: the timers of every process and the answers of GETCPUTIME.
-/

namespace Bikaya

open Kernel TransitionSystem

namespace Exception

variable {A : Arch}

/-- A PASSEREN or a WAITIO: the system calls that flush the timer of a process they block. -/
def MayBlock (e : Exception A) : Prop :=
  e.syscall = some 5 ∨ e.syscall = some 6

instance (e : Exception A) : Decidable e.MayBlock :=
  inferInstanceAs (Decidable (_ ∨ _))

end Exception

namespace Machine

variable {A : Arch} {m : IntModel} {M M' : Machine A} {e : Entry A} {k : Kernel A}

instance (M : Machine A) (e : Exception A) : Decidable (M.PassedUp e) := by
  unfold PassedUp
  split <;> infer_instance

/--
The reading that the process running after an entry is stamped with.  Passing an exception
up takes no reading at all, except for a system call.
-/
def stampAfter (M : Machine A) (e : Entry A) : Word :=
  if M.PassedUp e.toException then
    if e.syscall = none then e.todStart else e.todMid
  else e.todEnd

/-- The time between the last entry and this one, in the user mode of the interrupted process. -/
def userCharge (stamp : Word) (e : Entry A) : Word :=
  e.todStart - stamp

/--
The part of the handler that is charged to the interrupted process: all of it if the process
goes on, that before the process is blocked, and nothing if it loses the processor otherwise.
-/
def handlerCharge (M : Machine A) (e : Entry A) (M' : Machine A) : Word :=
  if M'.kernel.runningProc = M.kernel.runningProc then M.stampAfter e - e.todStart
  else if e.MayBlock then e.todMid - e.todStart
  else 0

section Entries

/-- A system call that is not served has a number; the other exceptions have none. -/
theorem syscall_none_of_unserved
    {e : Exception A} {t : ExcType} (ht : e.unserved = some t) :
    e.syscall = none ↔ t ≠ .SYS := by
  unfold Exception.unserved at ht
  split at ht
  · exact absurd ht (by simp)
  · split at ht
    · next hsys =>
      split_ifs at ht
      obtain rfl := Option.some.inj ht
      simp [hsys]
    · exact absurd ht (by simp)
  · next t' hint hsys =>
    obtain rfl := Option.some.inj ht
    refine ⟨fun _ => hsys, fun _ => ?_⟩
    unfold Exception.syscall
    split
    · next heq => exact absurd heq hsys
    · rfl

theorem syscall_of_breakpoint {e : Exception A} (he : e.Breakpoint) : e.syscall = none := by
  simp only [Exception.syscall, he.1, he.2]
  rfl

theorem passedKernel_of_ne
    {t : ExcType} (e : Exception A) (ht : t ≠ .SYS) :
    M.passedKernel e t = M.startKernel e := by
  cases t with
  | SYS => exact absurd rfl ht
  | _ => rfl

/-- The two ways in which an entry ends, and what each leaves in the timers. -/
theorem enter_ends
    {reply : Reply} {r : Resumed A} (henter : M.enter m e = .ok (M', reply, r)) :
    (¬ M.PassedUp e.toException ∧ ∃ k, Executes m M e k ∧
        M'.kernel.runningProc = k.runningProc ∧
        M'.kernel.timeRecord =
          (if k.runningProc = M.kernel.runningProc then
            k.flushKernelTime e.todEnd M.kernel.runningProc
          else k.flushResetTime e.todEnd k.runningProc).timeRecord) ∨
      (M.PassedUp e.toException ∧ M'.kernel.runningProc = M.kernel.runningProc ∧
        M'.kernel.timeRecord =
          (if e.syscall = none then M.started e
          else (M.started e).flushKernelTime e.todMid M.kernel.runningProc).timeRecord) := by
  rcases handle_cases henter with ⟨k, st, hhandling, hM'⟩ | ⟨k, t, hup, -, hM'⟩
  · obtain ⟨k₁, areas, hops, rfl, -⟩ := hhandling.ops
    refine Or.inl ⟨hhandling.not_passedUp, k₁, executes_of_execAll hops, ?_⟩
    by_cases hrun : k₁.runningProc = M.kernel.runningProc
    · rw [concluded_same (M := M.userWrites e.memory)
        (k := { k₁ with specAreas := areas }) st hrun] at hM'
      obtain rfl := congrArg Prod.fst hM'
      rw [if_pos hrun]
      exact ⟨rfl, rfl⟩
    · rw [concluded_other (M := M.userWrites e.memory)
        (k := { k₁ with specAreas := areas }) st hrun] at hM'
      obtain rfl := congrArg Prod.fst hM'
      rw [if_neg hrun]
      exact ⟨rfl, rfl⟩
  · obtain rfl := congrArg Prod.fst hM'
    refine Or.inr ⟨hup.passedUp, ?_⟩
    cases hup with
    | @unserved t ht _ =>
        by_cases hcall : e.syscall = none
        · rw [passedKernel_of_ne (M := M.userWrites e.memory) e.toException
            ((syscall_none_of_unserved ht).mp hcall), if_pos hcall]
          exact ⟨rfl, rfl⟩
        · obtain rfl : t = .SYS := not_not.mp (mt (syscall_none_of_unserved ht).mpr hcall)
          rw [if_neg hcall]
          exact ⟨rfl, rfl⟩
    | breakpoint hbp _ =>
        rw [if_pos (syscall_of_breakpoint hbp)]
        exact ⟨rfl, rfl⟩

theorem operations_of_syscall
    {number : ℕ} (hsys : e.syscall = some number) (hnum : number ≤ SYSTEM_SYSCALL_MAX) :
    M.operations e.toException =
        M.kernel.syscallOps e.adjusted e.stateAt e.todMid ∧
      (e.adjusted A.sysN).toNat = number := by
  obtain ⟨htype, -, rfl⟩ := syscall_eq_some hsys
  simp only [operations, htype, hsys, if_neg (not_lt.mpr hnum), and_self]

/-- The operation of an exception reads the time of day if it is a PASSEREN or a WAITIO. -/
theorem reads_iff_mayBlock
    {op : Operation A} (htype : e.type ≠ .INT) (hops : M.operations e.toException = [op]) :
    (∃ tod, op.Reads tod) ↔ e.MayBlock := by
  constructor
  · rintro ⟨tod, hreads⟩
    rcases operations_cases (M := M) htype with ⟨hnil, -, -⟩ | ⟨op', hop', hreq⟩
    · rw [hops] at hnil
      exact absurd hnil (by simp)
    · obtain rfl : op = op' := by
        rw [hops] at hop'
        exact (List.cons.inj hop').1
      cases op with
      | passeren a tod' => exact Or.inl hreq
      | waitIo command devReg subdev tod' => exact Or.inr hreq.1
      | _ => exact absurd hreads id
  · rintro (hsys | hsys)
    · obtain ⟨hopsEq, hnumber⟩ := operations_of_syscall (M := M) hsys (by decide)
      rw [hopsEq, syscallOps, hnumber] at hops
      simp only at hops
      split at hops
      · obtain rfl := (List.cons.inj hops).1
        exact ⟨_, rfl⟩
      · exact absurd hops (by simp)
    · obtain ⟨hopsEq, hnumber⟩ := operations_of_syscall (M := M) hsys (by decide)
      rw [hopsEq, syscallOps, hnumber] at hops
      obtain rfl := (List.cons.inj hops).1
      exact ⟨_, rfl⟩

/-- A process that an operation which reads the time of day does not charge goes on. -/
theorem runningProc_of_reads
    {k k' : Kernel A} {op : Operation A} (h : k.Ok) (hstep : Kernel.Step m k op k') {tod : Word}
    (hreads : op.Reads tod) :
    (k'.timeRecord = k.timeRecord ∧ k'.runningProc = k.runningProc) ∨
      k'.timeRecord = (k.flushKernelTime tod k.runningProc).timeRecord := by
  obtain ⟨hadm, hexec⟩ := hstep
  cases op with
  | passeren a tod' =>
      obtain rfl : tod' = tod := hreads
      simp only [exec] at hexec
      rcases p_spec m a h hadm tod' with ⟨-, heq⟩ | ⟨-, asl, heq, -, -⟩
      · obtain rfl := Except.ok.inj (heq.symm.trans hexec)
        exact Or.inl ⟨rfl, rfl⟩
      · obtain rfl := Except.ok.inj (heq.symm.trans hexec)
        rw [runNextReady_eq]
        exact Or.inr rfl
  | waitIo command devReg subdev tod' =>
      obtain rfl : tod' = tod := hreads
      obtain ⟨d, -, rfl⟩ := exec_waitIo hexec
      rcases waitDev_spec m d h hadm command devReg tod' with
        ⟨-, asl, heq, -, -⟩ | ⟨-, asl, heq, -, -⟩ <;>
      · rw [heq, runNextReady_eq]
        exact Or.inr rfl
  | _ => exact absurd hreads id

/-- The callbacks of an interrupt change no timer. -/
theorem sameRecords_interrupt
    (hok : k.Ok) {irq : Irq} {k' : Kernel A} (hops : k.execAll m (interruptOps irq) = .ok k') :
    SameRecords k k' := by
  let Inv : Kernel A → Prop := fun k₁ => k₁.Ok ∧ SameRecords k k₁
  have hall : Inv k' := by
    refine execAll_invariant ?_ ⟨hok, rfl, rfl, rfl⟩ hops
    rintro k₁ op k₂ hmem ⟨hk, hsame⟩ hop
    rcases mem_interruptOps hmem with rfl | ⟨d, -, rfl⟩
    · obtain rfl := Except.ok.inj hop
      exact ⟨hk.timeSlice, hsame.trans (sameRecords_timeSlice k₁)⟩
    · obtain rfl := Except.ok.inj hop
      exact ⟨hk.doneIo d _, hsame.trans (sameRecords_doneIo hk.residence.aslOk d _)⟩
  exact hall.2

/-- What happens to the timers of a process between the start of a handler and its end. -/
theorem Executes.charges
    (hexec : Executes m M e k) (hok : M.kernel.Ok)
    (hidle : M.kernel.runningProc = .idle → e.type = .INT)
    (hsafe : ∀ op ∈ M.operations e.toException, M.kernel.Safe op)
    {x : Proc} (hx : x ∈ M.kernel.counted) :
    (k.timeRecord x = (M.started e).timeRecord x ∧
        (e.MayBlock → k.runningProc = M.kernel.runningProc)) ∨
      (e.MayBlock ∧
        k.timeRecord x =
          ((M.started e).flushKernelTime e.todMid M.kernel.runningProc).timeRecord x) := by
  cases hexec with
  | interrupt htype hops =>
      have hsame := sameRecords_interrupt (started_ok hok) hops
      refine Or.inl ⟨congrFun hsame.time x, fun hblock => ?_⟩
      have hcall : e.syscall = none := by
        simp only [Exception.syscall, htype]
      simp [Exception.MayBlock, hcall] at hblock
  | nothing _ _ _ _ =>
      exact Or.inl ⟨rfl, fun _ => rfl⟩
  | operation htype hops hreq hop =>
      rename_i op
      have hmem : op ∈ M.operations e.toException := by
        rw [hops]
        exact List.mem_singleton_self op
      have hrun : M.kernel.runningProc ≠ .idle := fun hrun => htype (hidle hrun)
      have hsafe' : (M.started e).Safe op := Safe.of_started (hsafe op hmem)
      have hstep := (started_ok hok).step_of_exec hrun hsafe' hop
      by_cases hblock : e.MayBlock
      · obtain ⟨tod, hreads⟩ := (reads_iff_mayBlock htype hops).mpr hblock
        obtain rfl := tod_of_mem_operations hmem hreads
        rcases runningProc_of_reads (started_ok hok) hstep hreads with ⟨htime, hsame⟩ | htime
        · exact Or.inl ⟨congrFun htime x, fun _ => hsame⟩
        · exact Or.inr ⟨hblock, congrFun htime x⟩
      · have hmove := hstep.timerMove (started_ok hok) (hsafe'.undamaging (started_ok hok))
        rcases hmove.record_cases (started_ok hok) hx with hsame | ⟨tod, hreads, -⟩
        · exact Or.inl ⟨hsame, fun h => absurd h hblock⟩
        · exact absurd ((reads_iff_mayBlock htype hops).mp ⟨tod, hreads⟩) hblock

/-- The parts of a record. -/
theorem timers_of_record
    {k k' : Kernel A} {x : Proc} (h : k'.timeRecord x = k.timeRecord x) :
    k'.userTimer x = k.userTimer x ∧ k'.kernelTimer x = k.kernelTimer x ∧
      k'.todCache x = k.todCache x :=
  ⟨congrArg TimeRecord.user h, congrArg TimeRecord.kernel h, congrArg TimeRecord.cache h⟩

theorem flushKernelTime_kernelTimer (k : Kernel A) (tod : Word) (p x : Proc) :
    (k.flushKernelTime tod p).kernelTimer x =
      k.kernelTimer x + (if p = x then tod - k.todCache p else 0) := by
  by_cases hpx : p = x
  · subst hpx
    simp [flushKernelTime]
  · simp [flushKernelTime, hpx, Ne.symm hpx]

/-- What `start_handler` leaves in the timers. -/
theorem started_timers (M : Machine A) (e : Entry A) (x : Proc) :
    (M.started e).userTimer x =
        M.kernel.userTimer x +
          (if M.kernel.runningProc = x then
            userCharge (M.kernel.todCache M.kernel.runningProc) e else 0) ∧
      (M.started e).kernelTimer x = M.kernel.kernelTimer x ∧
      (M.started e).todCache M.kernel.runningProc = e.todStart := by
  refine ⟨?_, rfl, Function.update_self _ _ _⟩
  by_cases hxr : M.kernel.runningProc = x
  · subst hxr
    rw [if_pos rfl]
    exact Function.update_self _ _ _
  · rw [if_neg hxr, add_zero]
    exact Function.update_of_ne (Ne.symm hxr) _ _

/-- The process that runs after an entry carries the last stamp. -/
theorem enter_stamp
    {reply : Reply} {r : Resumed A} (henter : M.enter m e = .ok (M', reply, r)) :
    M'.kernel.todCache M'.kernel.runningProc = M.stampAfter e := by
  have hcache : ∀ k : Kernel A, M'.kernel.timeRecord = k.timeRecord →
      M'.kernel.todCache = k.todCache :=
    fun k h => funext fun x => congrArg TimeRecord.cache (congrFun h x)
  rcases enter_ends henter with ⟨hup, k, -, hrun, hrecord⟩ | ⟨hup, hrun, hrecord⟩
  · rw [hcache _ hrecord, hrun, stampAfter, if_neg hup]
    split_ifs with hsame
    · rw [hsame]
      exact Function.update_self _ _ _
    · exact Function.update_self _ _ _
  · rw [hcache _ hrecord, hrun, stampAfter, if_pos hup]
    split_ifs
    · exact (started_timers M e M.kernel.runningProc).2.2
    · exact Function.update_self _ _ _

/-- The kernel time that a handler charges. -/
theorem enter_kernelTimer
    {reply : Reply} {r : Resumed A} (hok : M.kernel.Ok)
    (hidle : M.kernel.runningProc = .idle → e.type = .INT)
    (hsafe : ∀ op ∈ M.operations e.toException, M.kernel.Safe op)
    (henter : M.enter m e = .ok (M', reply, r)) {x : Proc} (hx : x ∈ M.kernel.counted) :
    M'.kernel.userTimer x = (M.started e).userTimer x ∧
      M'.kernel.kernelTimer x =
        M.kernel.kernelTimer x +
          (if M.kernel.runningProc = x then handlerCharge M e M' else 0) := by
  obtain ⟨-, hkernel₀, hcache₀⟩ := started_timers M e x
  have hflush := flushKernelTime_kernelTimer (M.started e) e.todMid M.kernel.runningProc x
  rw [hkernel₀, hcache₀] at hflush
  rcases enter_ends henter with ⟨hup, k, hexec, hrun, hrecord⟩ | ⟨hup, hrun, hrecord⟩
  · obtain ⟨huser, hkernel, -⟩ := timers_of_record (congrFun hrecord x)
    have hcharges := hexec.charges hok hidle hsafe hx
    rw [huser, hkernel, handlerCharge, hrun, stampAfter, if_neg hup]
    by_cases hsame : k.runningProc = M.kernel.runningProc
    · -- two flushes: where the process may block, and at the end
      rw [if_pos hsame, if_pos hsame, flushKernelTime_kernelTimer]
      rcases hcharges with ⟨htime, -⟩ | ⟨-, htime⟩
      · obtain ⟨huser₁, hkernel₁, hcache₁⟩ := timers_of_record htime
        refine ⟨huser₁, ?_⟩
        rw [hkernel₁, hkernel₀]
        by_cases hxr : M.kernel.runningProc = x
        · subst hxr
          rw [hcache₁, hcache₀]
        · rw [if_neg hxr, if_neg hxr]
      · obtain ⟨huser₁, hkernel₁, hcache₁⟩ := timers_of_record htime
        refine ⟨huser₁, ?_⟩
        rw [hkernel₁, hflush]
        by_cases hxr : M.kernel.runningProc = x
        · subst hxr
          rw [hcache₁, show ((M.started e).flushKernelTime e.todMid _).todCache _ = e.todMid from
            Function.update_self _ _ _]
          simp only [if_true, add_assoc, sub_add_sub_cancel']
        · rw [if_neg hxr, if_neg hxr, if_neg hxr, add_zero]
    · rw [if_neg hsame, if_neg hsame]
      rcases hcharges with ⟨htime, hblock⟩ | ⟨hblock, htime⟩
      · obtain ⟨huser₁, hkernel₁, -⟩ := timers_of_record htime
        rw [if_neg (fun h => hsame (hblock h)), ite_self, add_zero]
        exact ⟨huser₁, hkernel₁.trans hkernel₀⟩
      · obtain ⟨huser₁, hkernel₁, -⟩ := timers_of_record htime
        rw [if_pos hblock]
        exact ⟨huser₁, hkernel₁.trans hflush⟩
  · obtain ⟨huser, hkernel, -⟩ := timers_of_record (congrFun hrecord x)
    rw [huser, hkernel, handlerCharge, if_pos hrun, stampAfter, if_pos hup]
    by_cases hcall : e.syscall = none
    · rw [if_pos hcall, if_pos hcall, hkernel₀, sub_self, ite_self, add_zero]
      exact ⟨rfl, rfl⟩
    · rw [if_neg hcall, if_neg hcall, hflush]
      exact ⟨rfl, rfl⟩

end Entries

section Runs

variable {M : ℕ → Machine A} {e : ℕ → Entry A} {n : ℕ} {r₀ : Resumed A} {tod : Word × Word}

/-- The stamp that the running process carries before each entry. -/
def stampAt (tod : Word) (M : ℕ → Machine A) (e : ℕ → Entry A) : ℕ → Word
  | 0 => tod
  | i + 1 => (M i).stampAfter (e i)

/-- The user time of a process from the state `b` on until the state `i`. -/
def userLedger (tod : Word) (M : ℕ → Machine A) (e : ℕ → Entry A) (x : Proc) (b i : ℕ) : Word :=
  ∑ j ∈ Finset.Ico b i,
    if (M j).kernel.runningProc = x then userCharge (stampAt tod M e j) (e j) else 0

/-- The kernel time of a process from the state `b` on until the state `i`. -/
def kernelLedger (M : ℕ → Machine A) (e : ℕ → Entry A) (x : Proc) (b i : ℕ) : Word :=
  ∑ j ∈ Finset.Ico b i,
    if (M j).kernel.runningProc = x then (M j).handlerCharge (e j) (M (j + 1)) else 0

theorem stampAt_eq
    (hlaunch : (M 0).LaunchedAt r₀ tod) (hrun : IsRun (Step m) M e n) :
    ∀ i ≤ n, (M i).kernel.todCache (M i).kernel.runningProc = stampAt tod.2 M e i := by
  intro i hi
  cases i with
  | zero =>
      exact hlaunch.stamps.1
  | succ i =>
      obtain ⟨-, reply, r, henter⟩ := hrun i hi
      exact enter_stamp henter

/-- The timers of a process that is alive from one state to a later one. -/
theorem ledger_of_run
    (hlaunch : (M 0).LaunchedAt r₀ tod) (hrun : IsRun (Step m) M e n)
    (hsafe : ∀ i < n, ∀ op ∈ (M i).operations (e i).toException, (M i).kernel.Safe op)
    {x : Proc} {b i : ℕ} (hbi : b ≤ i) (hi : i ≤ n)
    (hx : ∀ j, b ≤ j → j < i → x ∈ (M j).kernel.counted) :
    (M i).kernel.userTimer x = (M b).kernel.userTimer x + userLedger tod.2 M e x b i ∧
      (M i).kernel.kernelTimer x = (M b).kernel.kernelTimer x + kernelLedger M e x b i := by
  have hcharges : ∀ j, b ≤ j → j < i →
      (M (j + 1)).kernel.userTimer x =
          (M j).kernel.userTimer x +
            (if (M j).kernel.runningProc = x then userCharge (stampAt tod.2 M e j) (e j) else 0) ∧
        (M (j + 1)).kernel.kernelTimer x =
          (M j).kernel.kernelTimer x +
            (if (M j).kernel.runningProc = x then
              (M j).handlerCharge (e j) (M (j + 1)) else 0) := by
    intro j hbj hj
    obtain ⟨hidle, reply, r, henter⟩ := hrun j (by omega)
    have hok := ok_of_run hlaunch.launched hrun hsafe j (by omega)
    obtain ⟨huser, hkernel⟩ :=
      enter_kernelTimer hok hidle (hsafe j (by omega)) henter (hx j hbj hj)
    refine ⟨?_, hkernel⟩
    rw [huser, (started_timers (M j) (e j) x).1, stampAt_eq hlaunch hrun j (by omega)]
  exact ⟨balance_from (fun j => (M j).kernel.userTimer x)
      (fun j hbj hj => (hcharges j hbj hj).1) hbi le_rfl,
    balance_from (fun j => (M j).kernel.kernelTimer x)
      (fun j hbj hj => (hcharges j hbj hj).2) hbi le_rfl⟩

/-- The state `b` is the first one of a process: it has just been created. -/
def CreatedAt (M : ℕ → Machine A) (x : Proc) (b : ℕ) : Prop :=
  ∀ j, b = j + 1 → x ∉ (M j).kernel.counted

/-- The timers of a process that has just been created are clear. -/
theorem CreatedAt.clear
    (hlaunch : (M 0).LaunchedAt r₀ tod) (hrun : IsRun (Step m) M e n)
    (hsafe : ∀ i < n, ∀ op ∈ (M i).operations (e i).toException, (M i).kernel.Safe op)
    {x : Proc} {b : ℕ} (hb : CreatedAt M x b) (hbn : b ≤ n) (hx : x ∈ (M b).kernel.counted) :
    (M b).kernel.userTimer x = 0 ∧ (M b).kernel.kernelTimer x = 0 := by
  cases b with
  | zero =>
      have hfresh := hlaunch.launched.booted.1.fresh
      exact ⟨hfresh.userTimer x, hfresh.kernelTimer x⟩
  | succ j =>
      obtain ⟨hidle, reply, r, henter⟩ := hrun j (by omega)
      have hok := ok_of_run hlaunch.launched hrun hsafe j (by omega)
      have hnot : ¬ (M j).kernel.Live x := by
        intro hlive
        exact hb j rfl (mem_counted.mpr (Or.inr hlive.2))
      have hlive : (M (j + 1)).kernel.Live x := by
        rcases mem_counted.mp hx with hidle' | hfree
        · exact absurd (mem_counted.mpr (Or.inl hidle')) (hb j rfl)
        · refine ⟨fun hidle' => hb j rfl (mem_counted.mpr (Or.inl hidle')), hfree⟩
      have hzero := ((enter_timeStep hok hidle (hsafe j (by omega)) henter).created hok hnot
        hlive).1
      rw [cpuTime, Nat.add_eq_zero_iff] at hzero
      exact ⟨BitVec.eq_of_toNat_eq hzero.1, BitVec.eq_of_toNat_eq hzero.2⟩

/--
The timers of a process are exactly the intervals it has been charged with since it was
created, whatever the readings of the time of day are: from its stamp to each of its
exceptions as user time, and the parts of the handlers that it is charged with as kernel
time.  GETCPUTIME reports the first with the exception itself, and the second with its
handler up to the reading.
-/
theorem cpu_time_exact
    (hlaunch : (M 0).LaunchedAt r₀ tod) (hrun : IsRun (Step m) M e n)
    (hsafe : ∀ i < n, ∀ op ∈ (M i).operations (e i).toException, (M i).kernel.Safe op)
    {x : Proc} {b i : ℕ} (hb : CreatedAt M x b) (hbi : b ≤ i) (hi : i ≤ n)
    (hx : ∀ j, b ≤ j → j ≤ i → x ∈ (M j).kernel.counted) :
    (M i).kernel.userTimer x = userLedger tod.2 M e x b i ∧
      (M i).kernel.kernelTimer x = kernelLedger M e x b i ∧
      ∀ user kernel wallclock, i < n → (M i).kernel.runningProc = x →
        (M i).Reports m (e i) user kernel wallclock →
        user = userLedger tod.2 M e x b (i + 1) ∧
          kernel = kernelLedger M e x b i + ((e i).todMid - (e i).todStart) := by
  obtain ⟨huser₀, hkernel₀⟩ := hb.clear hlaunch hrun hsafe (hbi.trans hi) (hx b le_rfl hbi)
  obtain ⟨huser, hkernel⟩ :=
    ledger_of_run hlaunch hrun hsafe hbi hi (fun j hbj hj => hx j hbj hj.le)
  rw [huser₀, zero_add] at huser
  rw [hkernel₀, zero_add] at hkernel
  refine ⟨huser, hkernel, fun user kernel wallclock hin hxi hreports => ?_⟩
  obtain ⟨-, reply, r, henter⟩ := hrun i hin
  obtain ⟨-, rfl, rfl, -, -, -⟩ := hreports.spec henter
  obtain ⟨hstart, hstart', hcache⟩ := started_timers (M i) (e i) (M i).kernel.runningProc
  rw [hstart, hstart', hcache, stampAt_eq hlaunch hrun i hi]
  subst hxi
  rw [huser, hkernel, userLedger, userLedger, Finset.sum_Ico_succ_top hbi]
  exact ⟨rfl, rfl⟩

end Runs

section Example

/-- The process that blocks is not charged with the time it is blocked, nor with the other's. -/
theorem cpu_time_exact_timerEntries :
    userLedger 0 timerRun timerEntry (.pcb 0) 0 4 = 26 ∧
      kernelLedger timerRun timerEntry (.pcb 0) 0 4 = 5 := by
  obtain ⟨huser, hkernel, -⟩ :=
    cpu_time_exact (launchMps_launchedAt 1000 (by decide) (by decide)) timerEntries_isRun
      (fun i hi => safe_of_not_terminates (by interval_cases i <;> decide +kernel))
      (x := .pcb 0) (b := 0) (i := 4) (fun j hj => absurd hj (Nat.succ_ne_zero j).symm)
      (by decide) le_rfl (fun j _ hj => by interval_cases j <;> decide +kernel)
  rw [← huser, ← hkernel]
  decide +kernel

end Example

end Machine

end Bikaya
