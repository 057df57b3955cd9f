import Bikaya.Proofs.Contexts
import Bikaya.Proofs.Entries

/-!
# Bikaya: requests that halt the kernel

The error branches of the kernel are out of reach of valid requests; an invalid request may
reach them.  The module tells which of the invalid requests are contained.

**Plan.**  `BadRequest` lists the requests that the kernel cannot serve: the termination of
a process that is not alive, and the number of no service by a process without areas for
it.  `Contained` says that the first is refused and that the second kills its caller, and
nothing else.  A request is first traced to the operation it becomes (`enter_unserved`).

**Results.**
* `no_internal_panic`: in a run without devices none of the internal error branches of the
  kernel is taken.
* `contained_iff`: which bad requests are contained, in every state of a run.
* `contained_unused`: the termination of a PCB that is not in use, which is not.
-/

namespace Bikaya

open OrderedForest TransitionSystem

namespace Kernel

variable {A : Arch} {k k' : Kernel A} {m : IntModel}

theorem Conserving.of_core
    (h : k.Conserving) (hcore : k'.core = k.core) :
    k'.Conserving := by
  refine ⟨h.ok.of_core hcore, ?_, ?_⟩
  · rw [core_frame hcore]
    exact h.accounted
  · rw [core_frame hcore]
    exact h.unregistered

section Removal

/-- `terminate_proc` never returns the -1 of its documentation. -/
theorem terminateProc_ret
    {p : Option Proc} {r : Int × Kernel A} (h : k.terminateProc p = .ok r) :
    r.1 = 0 := by
  obtain ⟨pParent, pChild, r₁, hrec, rfl⟩ := terminateProc_cases h
  have hremoved := (removal_invariant (P := fun _ => True) (fun _ _ _ => trivial)
    (fun _ _ _ => trivial) (fun _ _ _ => trivial) removalFuel).1 _ _ _ trivial hrec
  exact hremoved.1

theorem outBlocked_frame (k : Kernel A) (y : Proc) :
    (k.outBlocked y).2.readyQueue = k.readyQueue ∧
      (k.outBlocked y).2.devWList = k.devWList ∧
      ∀ x, k.pSemkey x = none → (k.outBlocked y).2.pSemkey x = none := by
  unfold outBlocked
  split
  · exact ⟨rfl, rfl, fun _ hx => hx⟩
  · split
    · exact ⟨rfl, rfl, fun _ hx => hx⟩
    · refine ⟨rfl, rfl, fun x hx => ?_⟩
      simp only [Function.update_apply, hx, ite_self]

/-- A ready process with a stale registration stays in the ready queue. -/
theorem kill_stale
    {x y : Proc} (hkey : k.pSemkey x = none) (hdev : k.devWList x ≠ none)
    (hready : x ∈ k.readyQueue) (hkill : k.kill y = some k') :
    k'.pSemkey x = none ∧ k'.devWList x ≠ none ∧ x ∈ k'.readyQueue := by
  unfold kill at hkill
  split at hkill
  · exact absurd hkill (by simp)
  · rename_i found k₁ hunlink
    rw [← Option.some.inj hkill]
    have h : k₁.pSemkey x = none ∧ k₁.devWList x ≠ none ∧ x ∈ k₁.readyQueue := by
      unfold unlinkProc at hunlink
      split at hunlink
      · obtain ⟨hq, hlist, hsem⟩ := outBlocked_frame k y
        rw [hunlink] at hq hlist hsem
        exact ⟨hsem x hkey, hlist ▸ hdev, hq ▸ hready⟩
      · split at hunlink
        · obtain rfl := congrArg Prod.snd hunlink
          exact ⟨hkey, hdev, hready⟩
        · rename_i hy
          obtain rfl := congrArg Prod.snd hunlink
          have hxy : x ≠ y := fun hxy => hdev (hxy ▸ hy)
          refine ⟨hkey, hdev, ?_⟩
          rw [outProcQ_eq]
          exact (List.mem_erase_of_ne hxy).mpr hready
    exact h

theorem killAll_stale
    {l : List Proc} {x : Proc} (hkey : k.pSemkey x = none) (hdev : k.devWList x ≠ none)
    (hready : x ∈ k.readyQueue) (hkill : k.killAll l = some k') :
    x ∈ k'.readyQueue := by
  induction l generalizing k with
  | nil =>
      rw [← Option.some.inj hkill]
      exact hready
  | cons y l ih =>
      rw [killAll] at hkill
      cases hy : k.kill y with
      | none =>
          rw [hy] at hkill
          exact absurd hkill (by simp)
      | some k₁ =>
          rw [hy] at hkill
          obtain ⟨hkey', hdev', hready'⟩ := kill_stale hkey hdev hready hy
          exact ih hkey' hdev' hready' hkill

/-- A termination leaves such a process ready or running. -/
theorem terminateProc_stale
    (h : k.Ok) {p : Option Proc} (ht : k.Live (p.getD k.runningProc)) {x : Proc}
    (hkey : k.pSemkey x = none) (hdev : k.devWList x ≠ none)
    (hready : x = k.runningProc ∨ x ∈ k.readyQueue)
    {ret : Int} (hret : k.terminateProc p = .ok (ret, k')) :
    x ∈ k'.readyQueue ∨ x = k'.runningProc := by
  obtain ⟨l, hl⟩ := h.tree.forest.exists_preorder [p.getD k.runningProc]
  obtain ⟨pParent, -, hterm⟩ := terminate_visits h.tree ht hl
  rw [hterm p rfl] at hret
  cases hkill : k.parked.killAll l with
  | none =>
      rw [hkill] at hret
      exact absurd hret (by simp)
  | some k₁ =>
      have hx : x ∈ k₁.readyQueue :=
        killAll_stale (k := k.parked) hkey hdev (mem_insertProcQ.mpr hready) hkill
      rw [hkill] at hret
      simp only [outProcQ_eq, withTree] at hret
      by_cases hfound : k₁.runningProc ∈ k₁.readyQueue
      · rw [if_pos hfound] at hret
        obtain rfl := congrArg Prod.snd (Except.ok.inj hret)
        by_cases hrun : x = k₁.runningProc
        · exact Or.inr hrun
        · exact Or.inl ((List.mem_erase_of_ne hrun).mpr hx)
      · rw [if_neg hfound, List.erase_of_not_mem hfound] at hret
        obtain rfl := congrArg Prod.snd (Except.ok.inj hret)
        simp only [runNextReady_eq]
        cases hq : k₁.readyQueue with
        | nil =>
            rw [hq] at hx
            exact absurd hx List.not_mem_nil
        | cons y q =>
            rw [hq] at hx
            simpa [or_comm] using hx

end Removal

/-- The running process and its descendants are terminated, and nobody else. -/
structure KillsRunning (k : Kernel A) (dead : List Proc) (k' : Kernel A) : Prop where
  mem : ∀ x, x ∈ dead ↔ Below k.pChild x k.runningProc
  free : k'.pcbFreeH = dead.reverse ++ k.pcbFreeH
  ready : k'.readyQueue = (survivors dead k.readyQueue).tail
  running : k'.runningProc = (survivors dead k.readyQueue).head?.getD .idle
  waiting : ∀ key, k'.waitQueue key = survivors dead (k.waitQueue key)
  rest : ∀ x ∉ dead,
    k'.priority x = k.priority x ∧ k'.originalPriority x = k.originalPriority x ∧
      k'.pSemkey x = k.pSemkey x ∧ k'.pParent x = k.pParent x

theorem Terminated.killsRunning
    {l : List Proc} (h : k.Terminated k.runningProc l k') :
    k.KillsRunning l k' := by
  have hrun : k.runningProc ∈ l := (h.mem _).mpr (Below.refl _)
  have hmem := h.mem
  obtain ⟨asl, pParent, rfl, hwait, hparent⟩ := h.result
  refine ⟨hmem, rfl, ?_, ?_, hwait, fun x hx => ⟨rfl, rfl, ?_, hparent x hx⟩⟩
  · simp only [afterTermination, readyAfter, hrun, if_true]
  · simp only [afterTermination, runningAfter, hrun, if_true]
  · simp only [afterTermination, unblocked, hx, if_false]

/-- The dead are neither ready nor running. -/
theorem KillsRunning.gone
    {dead : List Proc} (h : k.KillsRunning dead k') {x : Proc} (hx : x ∈ dead)
    (hidle : x ≠ .idle) :
    x ∉ k'.readyQueue ∧ x ≠ k'.runningProc := by
  have hsurv : x ∉ survivors dead k.readyQueue := by
    simp [survivors, hx]
  rw [h.ready, h.running]
  constructor
  · exact fun hmem => hsurv (List.mem_of_mem_tail hmem)
  · intro hrun
    cases hq : survivors dead k.readyQueue with
    | nil =>
        rw [hq] at hrun
        exact hidle hrun
    | cons y q =>
        rw [hq] at hrun hsurv
        exact hsurv (hrun ▸ List.mem_cons_self)

/--
When the running process is terminated: the removal finds its subtree if and only if
`terminate_proc` returns and has killed exactly the subtree.
-/
theorem Ok.killsRunning_iff
    (h : k.Ok) (hidle : k.runningProc ≠ .idle) :
    (∃ ret k' dead, k.terminateProc (some k.runningProc) = .ok (ret, k') ∧
      k.KillsRunning dead k') ↔
    ∀ x, Below k.pChild x k.runningProc → k.Locatable x := by
  have hlive : k.Live k.runningProc := h.running_live hidle
  constructor
  · rintro ⟨ret, k', dead, hterm, hkills⟩
    refine h.locatable (p := some k.runningProc) hlive (fun x hx hready => ?_) hterm
    by_contra hdev
    have hkey : k.pSemkey x = none := by
      rcases hready with rfl | hready
      · exact h.residence.semkey_of_absent h.running
      · exact h.residence.semkey_of_ready hready
    have hxidle : x ≠ .idle := (h.tree.below_live hlive hx).1
    obtain ⟨hnotReady, hnotRunning⟩ := hkills.gone ((hkills.mem x).mpr hx) hxidle
    rcases terminateProc_stale h (p := some k.runningProc) hlive hkey hdev hready hterm with
      hmem | hrun
    · exact hnotReady hmem
    · exact hnotRunning hrun
  · intro hfound
    obtain ⟨l, k', hdone, -, hterm⟩ :=
      terminate_of_locatable (p := some k.runningProc) h hlive hfound
    obtain ⟨hmem, hfree, hready, hrun, hwait, hrest⟩ := Terminated.killsRunning hdone
    exact ⟨0, _, l, hterm, ⟨hmem, hfree, hready, hrun, hwait, hrest⟩⟩

end Kernel

namespace Machine

open Kernel

variable {A : Arch} {m : IntModel}

section Requests

variable (m : IntModel) (M : Machine A) (e : Entry A)

/--
The running process asks for something the nucleus does not do: the termination of a
PCB that is not alive, or a syscall with an unknown number and no handler for it.
-/
def BadRequest : Prop :=
  M.kernel.runningProc ≠ .idle ∧
    ((e.syscall = some 3 ∧ ∃ x, A.procArg (e.adjusted A.arg1) = .ok (some x) ∧
        x ≠ .idle ∧ ¬ M.kernel.Live x) ∨
      ((∃ number, e.syscall = some number ∧ (number = 0 ∨ SYSTEM_SYSCALL_MAX < number)) ∧
        M.kernel.isPassupSet .SYS M.kernel.runningProc = false))

/-- The caller gets -1, and no queue, no tree link and not the running process changes. -/
def Refused : Prop :=
  ∃ M' reply st, M.enter m e = .ok (M', reply, .proc M.kernel.runningProc st) ∧
    st A.retReg = BitVec.ofInt 32 (-1) ∧
    M'.kernel.readyQueue = M.kernel.readyQueue ∧ M'.kernel.asl = M.kernel.asl ∧
    M'.kernel.pcbFreeH = M.kernel.pcbFreeH ∧ M'.kernel.pParent = M.kernel.pParent ∧
    M'.kernel.pChild = M.kernel.pChild ∧ M'.kernel.runningProc = M.kernel.runningProc

/-- The caller is terminated with its descendants, and nobody else. -/
def KillsCaller : Prop :=
  ∃ M' reply r dead, M.enter m e = .ok (M', reply, r) ∧
    M.kernel.KillsRunning dead M'.kernel

/-- A bad request is contained: a termination is refused, an unknown syscall kills the caller. -/
def Contained : Prop :=
  (e.syscall = some 3 → M.Refused m e) ∧ (e.syscall ≠ some 3 → M.KillsCaller m e)

end Requests

section Outcomes

variable {M : Machine A} {e : Entry A}

theorem setRet_self (st : State A) (w : Word) : st.setRet w A.retReg = w :=
  Function.update_self _ _ _

/-- No termination is refused: it returns 0, if at all. -/
theorem not_refused (hsys : e.syscall = some 3) : ¬ M.Refused m e := by
  rintro ⟨M', reply, st, henter, hret, -⟩
  obtain ⟨-, -, hnumber⟩ := syscall_eq_some hsys
  have hhandle := handle_syscall (m := m) (M := M.userWrites e.memory) hsys (by decide)
  rw [show M.enter m e = _ from hhandle] at henter
  cases hserve : ((M.userWrites e.memory).startKernel e.toException).consumeSyscall m
      e.adjusted (M.userWrites e.memory).kernel.runningProc e.stateAt e.todMid with
  | error err =>
      rw [hserve] at henter
      exact absurd henter (by simp [Except.map])
  | ok served =>
      rw [hserve] at henter
      obtain ⟨-, hout⟩ := outcome_inj henter
      have hst : served.state A.retReg = BitVec.ofInt 32 0 := by
        simp only [consumeSyscall, ← hnumber] at hserve
        obtain ⟨target, -, hserve⟩ := ok_of_bind hserve
        obtain ⟨r, hterm, hserve⟩ := ok_of_bind hserve
        rw [← Except.ok.inj hserve, ← terminateProc_ret hterm]
        exact setRet_self _ _
      have hrun : served.kernel.runningProc = M.kernel.runningProc := by
        by_contra hrun
        rw [concluded_other (M := M.userWrites e.memory) served.state hrun] at hout
        have hr := congrArg Prod.snd hout
        exact hrun (by injection hr)
      rw [concluded_same (M := M.userWrites e.memory) served.state hrun] at hout
      have hr := congrArg Prod.snd hout
      obtain rfl : served.state = st := by injection hr
      rw [hst] at hret
      exact absurd hret (by decide)

/-- The syscall number 0 reaches the error branch of `consume_syscall`. -/
theorem enter_zero (hsys : e.syscall = some 0) :
    M.enter m e =
      .error (.panic "ERROR: Syscall not recognised. Did you mean syscall number 42?") := by
  obtain ⟨-, -, hnumber⟩ := syscall_eq_some hsys
  have hhandle := handle_syscall (m := m) (M := M.userWrites e.memory) hsys (by decide)
  rw [show M.enter m e = _ from hhandle]
  simp only [consumeSyscall, ← hnumber]
  rfl

/-- What the termination does shows in the machine after the handler. -/
theorem killsRunning_concluded
    (k : Kernel A) (st : State A) (dead : List Proc) :
    M.kernel.KillsRunning dead
        ((M.userWrites e.memory).concluded e.toException k st).1.kernel ↔
      (M.started e).KillsRunning dead k := by
  have hcore := concluded_core (M := M.userWrites e.memory) (e := e.toException) k st
  rw [core_frame hcore]
  constructor <;> rintro ⟨hmem, hfree, hready, hrun, hwait, hrest⟩ <;>
    exact ⟨hmem, hfree, hready, hrun, hwait, hrest⟩

/-- An exception that is not served is passed up or terminates its process. -/
theorem enter_unserved {t : ExcType} (ht : e.unserved = some t) :
    M.enter m e =
      if M.kernel.isPassupSet t M.kernel.runningProc then
        .ok (((M.userWrites e.memory).passed e.toException
            ((M.userWrites e.memory).passedKernel e.toException t) t).1, .none,
          ((M.userWrites e.memory).passed e.toException
            ((M.userWrites e.memory).passedKernel e.toException t) t).2)
      else
        ((M.started e).terminateProc (some M.kernel.runningProc)).map
          (fun r => (((M.userWrites e.memory).concluded e.toException r.2 e.adjusted).1, .none,
            ((M.userWrites e.memory).concluded e.toException r.2 e.adjusted).2)) :=
  handle_unserved (M := M.userWrites e.memory) ht

/-- An exception that is not served kills its process if the removal finds the whole subtree. -/
theorem killsCaller_iff
    (h : M.kernel.Ok) (hidle : M.kernel.runningProc ≠ .idle) {t : ExcType}
    (hunknown : e.unserved = some t)
    (hno : M.kernel.isPassupSet t M.kernel.runningProc = false) :
    M.KillsCaller m e ↔
      ∀ x, Below M.kernel.pChild x M.kernel.runningProc → M.kernel.Locatable x := by
  have henter := enter_unserved (m := m) (M := M) hunknown
  rw [hno, if_neg Bool.false_ne_true] at henter
  have hstarted : (∃ ret k dead, (M.started e).terminateProc (some M.kernel.runningProc) =
        .ok (ret, k) ∧ (M.started e).KillsRunning dead k) ↔
      ∀ x, Below M.kernel.pChild x M.kernel.runningProc → M.kernel.Locatable x :=
    Ok.killsRunning_iff (started_ok h) hidle
  rw [← hstarted]
  constructor
  · rintro ⟨M', reply, r, dead, hok, hdead⟩
    rw [henter] at hok
    cases hterm : (M.started e).terminateProc (some M.kernel.runningProc) with
    | error err =>
        rw [hterm] at hok
        exact absurd hok (by simp [Except.map])
    | ok res =>
        rw [hterm] at hok
        obtain ⟨-, hout⟩ := outcome_inj hok
        obtain rfl := congrArg Prod.fst hout
        exact ⟨res.1, res.2, dead, rfl, (killsRunning_concluded _ _ _).mp hdead⟩
  · rintro ⟨ret, k, dead, hterm, hdead⟩
    rw [hterm] at henter
    exact ⟨_, _, _, dead, henter, (killsRunning_concluded _ _ _).mpr hdead⟩

/-- An exception of the running process always returns where processes are conserved. -/
theorem fault_progress
    {M : Machine A} (h : M.kernel.Conserving) (hidle : M.kernel.runningProc ≠ .idle)
    {ex : Exception A} (htype : ex.type = .PRG ∨ ex.type = .TLB) :
    ∃ M' reply r, M.handle m ex = .ok (M', reply, r) := by
  have hstart : (M.startKernel ex).Conserving := h.of_core rfl
  have hlive : (M.startKernel ex).Live M.kernel.runningProc := h.ok.running_live hidle
  obtain ⟨l, k', hterm, -⟩ := hstart.terminate (p := some M.kernel.runningProc) hlive
  rw [handle_fault rfl htype, escalation]
  split_ifs
  · exact ⟨_, _, _, rfl⟩
  · rw [hterm]
    exact ⟨_, _, _, rfl⟩

end Outcomes

section Claims

variable {s : ℕ → Kernel A} {op : ℕ → Operation A}
variable {M : ℕ → Machine A} {e : ℕ → Entry A} {n : ℕ} {r₀ : Resumed A}

/--
No error branch of the kernel is reached by valid requests: in every state of a run
without devices, every operation that can occur returns, and so does every trap of
the running process.
-/
theorem no_internal_panic
    (hboot : (s 0).Booted) (hrun : IsRun (Kernel.Step m) s op n)
    (hfree : ∀ i < n, (op i).DeviceFree) :
    ∀ i ≤ n,
      (∀ o : Operation A, (s i).Admissible o → o.DeviceFree →
        ∃ k', (s i).exec m o = .ok k') ∧
      ∀ M : Machine A, M.kernel = s i → (s i).runningProc ≠ .idle →
        ∀ ex : Exception A, ex.type = .PRG ∨ ex.type = .TLB →
          ∃ M' reply r, M.handle m ex = .ok (M', reply, r) := by
  intro i hi
  have h := conserving_of_run hboot hrun hfree i hi
  refine ⟨fun o hadm hdev => ?_, fun M hM hidle ex htype => ?_⟩
  · obtain ⟨k', hexec, -⟩ := h.exec (m := m) hadm hdev
    exact ⟨k', hexec⟩
  · rw [← hM] at h hidle
    exact fault_progress h hidle htype

/-- After the history the parent of two processes can be terminated. -/
theorem no_internal_panic_creationHistory :
    ∃ k', (states (Kernel.next .int32) (bootMps [1, 2]) creationHistory 4).exec .int32
      (.terminateProcess (some (.pcb 1))) = .ok k' :=
  (no_internal_panic (bootMps_booted (by decide) (by decide)) creationHistory_isRun
    (by decide) 4 (by decide)).1 _ (by decide +kernel) trivial

/--
Which bad requests are contained, in the runs whose terminations meet no stale
registration: exactly the syscalls above the known numbers, by callers all of whose
descendants the removal finds.
-/
theorem contained_iff
    (hlaunch : (M 0).Launched r₀) (hrun : IsRun (Step m) M e n)
    (hsafe : ∀ i < n, ∀ op ∈ (M i).operations (e i).toException, (M i).kernel.Safe op) :
    ∀ i ≤ n, ∀ ex : Entry A, (M i).BadRequest ex →
      ((M i).Contained m ex ↔
        ex.unserved = some .SYS ∧
          ∀ x, Below (M i).kernel.pChild x (M i).kernel.runningProc →
            (M i).kernel.Locatable x) := by
  intro i hi ex hbad
  have hok := ok_of_run hlaunch hrun hsafe i hi
  obtain ⟨hidle, ⟨hsys, -⟩ | ⟨⟨number, hsys, hnumber⟩, hno⟩⟩ := hbad
  · have hserved : ex.unserved ≠ some .SYS := by
      simp [Exception.unserved, (syscall_eq_some hsys).1, hsys, SYSTEM_SYSCALL_MAX]
    exact iff_of_false (fun h => not_refused hsys (h.1 hsys)) (fun h => hserved h.1)
  · have hne : ex.syscall ≠ some 3 := by
      rw [hsys]
      intro heq
      have := Option.some.inj heq
      simp only [SYSTEM_SYSCALL_MAX] at hnumber
      omega
    have hcontained : (M i).Contained m ex ↔ (M i).KillsCaller m ex :=
      ⟨fun h => h.2 hne, fun h => ⟨fun heq => absurd heq hne, fun _ => h⟩⟩
    rw [hcontained]
    rcases hnumber with rfl | hmax
    · have hserved : ex.unserved ≠ some .SYS := by
        simp [Exception.unserved, (syscall_eq_some hsys).1, hsys]
      refine iff_of_false ?_ (fun h => hserved h.1)
      rintro ⟨M', reply, r, dead, henter, -⟩
      rw [enter_zero hsys] at henter
      exact absurd henter (by simp)
    · have hunknown : ex.unserved = some .SYS := by
        simp only [Exception.unserved, (syscall_eq_some hsys).1, hsys, hmax, if_true]
      rw [killsCaller_iff hok hidle hunknown hno]
      exact ⟨fun h => ⟨hunknown, h⟩, And.right⟩

/-- After the printer run the running process makes a syscall with an unknown number. -/
theorem contained_iff_printerEntries :
    (printerRun 3).Contained .int32 (syscallMps 9 0 0 0 0) ↔
      (syscallMps 9 0 0 0 0).unserved = some .SYS ∧
        ∀ x, Below (printerRun 3).kernel.pChild x (printerRun 3).kernel.runningProc →
          (printerRun 3).kernel.Locatable x := by
  refine contained_iff (launchMps_launched 1000 (by decide) (by decide)) printerEntries_isRun
    (fun i hi => safe_of_not_terminates ?_) 3 le_rfl _
    ⟨by decide +kernel, Or.inr ⟨⟨9, ?_, Or.inr ?_⟩, ?_⟩⟩
  · interval_cases i <;> decide +kernel
  · decide +kernel
  · decide
  · decide +kernel

/-- A TERMINATEPROCESS of a PCB that was never used halts the kernel. -/
theorem contained_unused :
    (∃ r, (launchMps [1] 1000).Launched r) ∧
      (launchMps [1] 1000).BadRequest (syscallMps 3 0x20010460 0 0 0) ∧
      ¬ (launchMps [1] 1000).Contained .int32 (syscallMps 3 0x20010460 0 0 0) := by
  refine ⟨⟨_, launchMps_launched 1000 (by decide) (by decide)⟩,
    ⟨by decide +kernel, Or.inl ⟨by decide +kernel, .pcb 5, ?_, by decide, by decide +kernel⟩⟩,
    fun h => not_refused (by decide +kernel) (h.1 (by decide +kernel))⟩
  decide +kernel

end Claims

end Machine

end Bikaya
