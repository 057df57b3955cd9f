import Bikaya.Proofs.Exceptions

/-!
# Bikaya: the outcome of an exception

One equation for each of the ways the four handlers go, and from them the cases of an
exception that returns: either the handler ends in `conclude_handler`, or the exception is
passed up.

**Plan.**  The handlers branch on the code of the exception, on the areas that the process
has registered, and on what the system call answers.  An exception that nobody serves
terminates its process (`escalation`).  Each branch is computed once and said as a
constructor of `Handling`, and every later proof about handlers is a case analysis over
`handle_cases`.

**Results.**
* `handle_cases`: an exception is concluded, passed up, or kills the process.
* `passedUp_iff`: when it is passed up.
* `handle_spec`: the operations it executed and the process that is resumed.
-/

namespace Bikaya

namespace Exception

variable {A : Arch}

/-- The type whose areas decide what happens to an exception the nucleus does not serve. -/
def unserved (e : Exception A) : Option ExcType :=
  match e.type with
  | .INT => none
  | .SYS =>
      match e.syscall with
      | some number => if number > SYSTEM_SYSCALL_MAX then some .SYS else none
      | none => none
  | t => some t

/-- A breakpoint. -/
def Breakpoint (e : Exception A) : Prop :=
  e.type = .SYS ∧ A.getExccode e.adjusted = .E_BP

end Exception

namespace Machine

variable {A : Arch} {m : IntModel} {M M' : Machine A} {e : Exception A}

/-- The end of a handler: the kernel and the old area it leaves to `conclude_handler`. -/
def concluded (M : Machine A) (e : Exception A) (k : Kernel A) (st : State A) :
    Machine A × Resumed A :=
  (M.concluding e k st).concludeHandler e.type e.todEnd

/-- The interrupted process is resumed. -/
theorem concluded_same
    {k : Kernel A} (st : State A) (hrun : k.runningProc = M.kernel.runningProc) :
    M.concluded e k st =
      ({ M.concluding e k st with
          intervalTimer := M.timerCache e
          kernel := k.flushKernelTime e.todEnd M.kernel.runningProc },
        .proc k.runningProc st) := by
  have hsame : ¬ (M.concluding e k st).interruptedProc ≠
      (M.concluding e k st).kernel.runningProc := not_not.mpr hrun.symm
  unfold concluded concludeHandler
  simp only [if_neg hsame, concluding_area]
  rfl

/-- Another process is resumed; the interrupted one gets the content of the old area. -/
theorem concluded_other
    {k : Kernel A} (st : State A) (hrun : k.runningProc ≠ M.kernel.runningProc) :
    M.concluded e k st =
      ({ M.concluding e k st with
          intervalTimer := M.clockTicksPerTimeSlice
          kernel :=
            { k.flushResetTime e.todEnd k.runningProc with
              pS :=
                if M.kernel.runningProc ≠ .idle then
                  Function.update k.pS M.kernel.runningProc st
                else k.pS } },
        .proc k.runningProc (k.pS k.runningProc)) := by
  have hother : (M.concluding e k st).interruptedProc ≠
      (M.concluding e k st).kernel.runningProc := Ne.symm hrun
  have hcond : ((M.concluding e k st).interruptedProc ≠ .idle) =
      (M.kernel.runningProc ≠ .idle) := rfl
  unfold concluded concludeHandler
  simp only [if_pos hother, concluding_area, hcond]
  by_cases hidle : M.kernel.runningProc ≠ .idle
  · simp only [if_pos hidle]
    rw [Function.update_of_ne (show (M.concluding e k st).kernel.runningProc ≠
      (M.concluding e k st).interruptedProc from hrun)]
    rfl
  · simp only [if_neg hidle]
    rfl

theorem concluded_core (k : Kernel A) (st : State A) :
    (M.concluded e k st).1.kernel.core = k.core := by
  by_cases hrun : k.runningProc = M.kernel.runningProc
  · rw [concluded_same st hrun]
    rfl
  · rw [concluded_other st hrun]
    rfl

/-- The end of a handler that passes the exception up. -/
def passed (M : Machine A) (e : Exception A) (k : Kernel A) (t : ExcType) :
    Machine A × Resumed A :=
  (M.concluding e k e.adjusted,
    .passup (k.getPassupArea OLD t M.kernel.runningProc)
      (k.getPassupArea NEW t M.kernel.runningProc) e.adjusted)

section Equations

theorem handle_interrupt (htype : e.type = .INT) :
    M.handle m e =
      .ok ((M.concluded e ((M.startKernel e).consumeInterrupts m e.irq) e.adjusted).1, .none,
        (M.concluded e ((M.startKernel e).consumeInterrupts m e.irq) e.adjusted).2) := by
  have hadjusted : e.adjusted = e.state.afterInterrupt := by
    simp only [Exception.adjusted, htype]
  have hM : handleInterrupt m (M.concluding e (M.startKernel e) e.state) e =
      M.concluded e ((M.startKernel e).consumeInterrupts m e.irq) e.adjusted := by
    unfold concluded
    rw [← concluding_set ((M.startKernel e).consumeInterrupts m e.irq) e.state e.adjusted]
    unfold handleInterrupt
    rw [← htype, concluding_area, ← hadjusted]
    rfl
  unfold handle
  simp only [started_eq]
  simp only [htype, hM]

theorem handle_sysbreak (htype : e.type = .SYS) :
    M.handle m e = (M.concluding e (M.startKernel e) e.state).handleSysbreak m e := by
  unfold handle
  simp only [started_eq]
  simp only [htype]

/-- What `handle_sysbreak` finds after the program counter adjustment. -/
theorem handleSysbreak_start (htype : e.type = .SYS) :
    (M.concluding e (M.startKernel e) e.state).setArea .SYS
        ((M.concluding e (M.startKernel e) e.state).oldArea .SYS).afterSysbreak =
      M.concluding e (M.startKernel e) e.adjusted ∧
    (M.concluding e (M.startKernel e) e.adjusted).oldArea .SYS = e.adjusted := by
  have hadjusted : e.adjusted = e.state.afterSysbreak := by
    simp only [Exception.adjusted, htype]
  constructor
  · rw [← concluding_set (M.startKernel e) e.state e.adjusted, ← htype, concluding_area,
      ← hadjusted]
    rfl
  · rw [← htype, concluding_area]

theorem syscall_eq_some {number : ℕ} (hsys : e.syscall = some number) :
    e.type = .SYS ∧ A.getExccode e.adjusted = .E_SYS ∧ number = (e.adjusted A.sysN).toNat := by
  unfold Exception.syscall at hsys
  split at hsys
  case h_1 htype =>
    split_ifs at hsys with hcode
    exact ⟨htype, hcode, (Option.some.inj hsys).symm⟩
  case h_2 =>
    exact absurd hsys (by simp)

theorem handle_syscall
    {number : ℕ} (hsys : e.syscall = some number) (hnum : number ≤ SYSTEM_SYSCALL_MAX) :
    M.handle m e =
      ((M.startKernel e).consumeSyscall m e.adjusted M.kernel.runningProc e.stateAt
          e.todMid).map
        (fun served =>
          ((M.concluded e served.kernel served.state).1, served.reply,
            (M.concluded e served.kernel served.state).2)) := by
  obtain ⟨htype, hcode, rfl⟩ := syscall_eq_some hsys
  obtain ⟨hset, harea⟩ := handleSysbreak_start (M := M) htype
  have hnum' : ¬ (e.adjusted A.sysN).toNat > SYSTEM_SYSCALL_MAX := by omega
  rw [handle_sysbreak htype]
  unfold handleSysbreak
  simp only [hset, harea, hcode, hnum', if_false]
  change (Kernel.consumeSyscall m (M.startKernel e) e.adjusted M.kernel.runningProc e.stateAt
    e.todMid >>= _) = _
  cases (M.startKernel e).consumeSyscall m e.adjusted M.kernel.runningProc e.stateAt
      e.todMid with
  | error err =>
      rfl
  | ok served =>
      have hdone := concluding_set (M := M) (e := e) served.kernel e.adjusted served.state
      rw [htype] at hdone
      simp only [setArea] at hdone
      simp only [bind, Except.bind, Except.map, setArea, concluded, htype, hdone]

/-- The kernel with which an exception that is not served is passed up. -/
def passedKernel (M : Machine A) (e : Exception A) : ExcType → Kernel A
  | .SYS => (M.startKernel e).flushKernelTime e.todMid M.kernel.runningProc
  | _ => M.startKernel e

theorem handleFault_eq (t : ExcType) (hadjusted : e.adjusted = e.state) (htype : e.type = t) :
    (M.concluding e (M.startKernel e) e.state).handleFault t e =
      if M.kernel.isPassupSet t M.kernel.runningProc then
        .ok (M.passed e (M.startKernel e) t)
      else
        ((M.startKernel e).terminateProc (some M.kernel.runningProc)).map
          (fun r => M.concluded e r.2 e.adjusted) := by
  unfold handleFault
  change (if M.kernel.isPassupSet t M.kernel.runningProc = true then _ else
    ((M.startKernel e).terminateProc (some M.kernel.runningProc) >>= _)) = _
  by_cases hup : M.kernel.isPassupSet t M.kernel.runningProc = true
  · rw [if_pos hup, if_pos hup, ← hadjusted]
    unfold launchSpecArea
    rw [← htype, concluding_area]
    rfl
  · rw [if_neg hup, if_neg hup, ← hadjusted, ← htype]
    cases (M.startKernel e).terminateProc (some M.kernel.runningProc) <;> rfl

/-- How an exception ends for which the nucleus looks for areas of type `t`. -/
def escalation (M : Machine A) (e : Exception A) (t : ExcType) :
    Except Halt (Machine A × Reply × Resumed A) :=
  if M.kernel.isPassupSet t M.kernel.runningProc then
    .ok ((M.passed e (M.passedKernel e t) t).1, .none, (M.passed e (M.passedKernel e t) t).2)
  else
    ((M.startKernel e).terminateProc (some M.kernel.runningProc)).map
      (fun r => ((M.concluded e r.2 e.adjusted).1, .none, (M.concluded e r.2 e.adjusted).2))

theorem handle_fault {t : ExcType} (htype : e.type = t) (ht : t = .PRG ∨ t = .TLB) :
    M.handle m e = M.escalation e t := by
  have hadjusted : e.adjusted = e.state := by
    rcases ht with rfl | rfl <;> simp only [Exception.adjusted, htype]
  have hpassed : M.passedKernel e t = M.startKernel e := by
    rcases ht with rfl | rfl <;> rfl
  have hhandle : M.handle m e =
      ((M.concluding e (M.startKernel e) e.state).handleFault t e).map
        (fun r => (r.1, .none, r.2)) := by
    unfold handle
    simp only [started_eq]
    rcases ht with rfl | rfl <;> simp only [htype, handleTrap, handleTLB]
  rw [hhandle, handleFault_eq t hadjusted htype]
  unfold escalation
  rw [hpassed]
  by_cases hup : M.kernel.isPassupSet t M.kernel.runningProc = true
  · rw [if_pos hup, if_pos hup]
    rfl
  · rw [if_neg hup, if_neg hup]
    cases (M.startKernel e).terminateProc (some M.kernel.runningProc) <;> rfl

/-- An exception the nucleus does not serve is passed up, or kills its process. -/
theorem handle_unserved
    {t : ExcType} (ht : e.unserved = some t) :
    M.handle m e = M.escalation e t := by
  cases htype : e.type with
  | INT =>
      simp [Exception.unserved, htype] at ht
  | PRG =>
      refine handle_fault ?_ ?_
      · simpa [Exception.unserved, htype] using ht
      · exact Or.inl (by simpa [Exception.unserved, htype] using ht.symm)
  | TLB =>
      refine handle_fault ?_ ?_
      · simpa [Exception.unserved, htype] using ht
      · exact Or.inr (by simpa [Exception.unserved, htype] using ht.symm)
  | SYS =>
      cases hsys : e.syscall with
      | none =>
          simp [Exception.unserved, htype, hsys] at ht
      | some number =>
          obtain ⟨-, hcode, hn⟩ := syscall_eq_some hsys
          obtain ⟨hnum, rfl⟩ : number > SYSTEM_SYSCALL_MAX ∧ ExcType.SYS = t := by
            simpa [Exception.unserved, htype, hsys] using ht
          obtain ⟨hset, harea⟩ := handleSysbreak_start (M := M) htype
          rw [hn] at hnum
          rw [handle_sysbreak htype]
          unfold handleSysbreak escalation
          simp only [hset, harea, hcode, hnum, if_true]
          change (if M.kernel.isPassupSet .SYS M.kernel.runningProc = true then _ else
            ((M.startKernel e).terminateProc (some M.kernel.runningProc) >>= _)) = _
          by_cases hup : M.kernel.isPassupSet .SYS M.kernel.runningProc = true
          · rw [if_pos hup, if_pos hup]
            unfold launchSpecArea
            rw [harea]
            rfl
          · rw [if_neg hup, if_neg hup]
            unfold concluded
            rw [htype]
            cases (M.startKernel e).terminateProc (some M.kernel.runningProc) <;> rfl

theorem handle_breakpoint (he : e.Breakpoint) :
    M.handle m e =
      if M.kernel.isPassupSet .SYS M.kernel.runningProc then
        .ok ((M.passed e (M.startKernel e) .SYS).1, .none, (M.passed e (M.startKernel e) .SYS).2)
      else .error (.panic "ERROR: BreakPoint launched, handler still not implemented!") := by
  obtain ⟨htype, hcode⟩ := he
  obtain ⟨hset, harea⟩ := handleSysbreak_start (M := M) htype
  rw [handle_sysbreak htype]
  unfold handleSysbreak
  simp only [hset, harea, hcode]
  change (if M.kernel.isPassupSet .SYS M.kernel.runningProc = true then _ else _) = _
  by_cases hup : M.kernel.isPassupSet .SYS M.kernel.runningProc = true
  · rw [if_pos hup, if_pos hup]
    unfold launchSpecArea
    rw [harea]
    rfl
  · rw [if_neg hup, if_neg hup]

theorem handle_unrecognised
    (htype : e.type = .SYS) (hcode : A.getExccode e.adjusted = .E_OTHER) :
    M.handle m e = .error (.panic "Exc cause code not recognised") := by
  obtain ⟨hset, harea⟩ := handleSysbreak_start (M := M) htype
  rw [handle_sysbreak htype]
  unfold handleSysbreak
  simp only [hset, harea, hcode]

end Equations

/-- What a handler that ends in `conclude_handler` leaves to it, and its reply. -/
inductive Handling (m : IntModel) (M : Machine A) (e : Exception A) :
    Kernel A → State A → Reply → Prop
  | interrupt :
      e.type = .INT →
      Handling m M e ((M.startKernel e).consumeInterrupts m e.irq) e.adjusted .none
  | served {number : ℕ} {served : Served A} :
      e.syscall = some number →
      number ≤ SYSTEM_SYSCALL_MAX →
      (M.startKernel e).consumeSyscall m e.adjusted M.kernel.runningProc e.stateAt e.todMid =
        .ok served →
      Handling m M e served.kernel served.state served.reply
  | killed {t : ExcType} {ret : Int} {k : Kernel A} :
      e.unserved = some t →
      M.kernel.isPassupSet t M.kernel.runningProc = false →
      (M.startKernel e).terminateProc (some M.kernel.runningProc) = .ok (ret, k) →
      Handling m M e k e.adjusted .none

/-- The kernel and the type with which an exception is passed up. -/
inductive Escalating (M : Machine A) (e : Exception A) : Kernel A → ExcType → Prop
  | unserved {t : ExcType} :
      e.unserved = some t →
      M.kernel.isPassupSet t M.kernel.runningProc = true →
      Escalating M e (M.passedKernel e t) t
  | breakpoint :
      e.Breakpoint →
      M.kernel.isPassupSet .SYS M.kernel.runningProc = true →
      Escalating M e (M.startKernel e) .SYS

/-- An exception that no service exists for is passed up, or kills. -/
theorem operations_unserved
    {t : ExcType} (ht : e.unserved = some t) :
    M.operations e =
      if M.kernel.isPassupSet t M.kernel.runningProc then []
      else [.terminateProcess (some M.kernel.runningProc)] := by
  unfold Exception.unserved at ht
  split at ht
  · exact absurd ht (by simp)
  · next htype =>
    split at ht
    · next number hsys =>
      split_ifs at ht with hnum
      obtain rfl := Option.some.inj ht
      simp only [operations, htype, hsys, if_pos hnum]
    · exact absurd ht (by simp)
  · next t' hint hsys =>
    obtain rfl := Option.some.inj ht
    cases htype : e.type with
    | INT => exact absurd htype hint
    | SYS => exact absurd htype hsys
    | _ => simp only [operations, htype]

/-- Up to the areas, a concluded handler leaves what the operations of the exception do. -/
theorem Handling.ops
    {k : Kernel A} {st : State A} {reply : Reply} (h : Handling m M e k st reply) :
    ∃ k₁ areas, (M.startKernel e).execAll m (M.operations e) = .ok k₁ ∧
      k = { k₁ with specAreas := areas } ∧ (e.syscall ≠ some 7 → areas = k₁.specAreas) := by
  cases h with
  | interrupt htype =>
      refine ⟨_, _, ?_, rfl, fun _ => rfl⟩
      simp only [operations, htype]
      exact Kernel.execAll_interruptOps e.irq _
  | served hsys hnum hserved =>
      obtain ⟨htype, -, rfl⟩ := syscall_eq_some hsys
      obtain ⟨k₁, areas, hops, heq, hareas, -⟩ := consumeSyscall_spec hserved
      refine ⟨k₁, areas, ?_, heq, fun hne => hareas (fun hseven => hne ?_)⟩
      · simp only [operations, htype, hsys, if_neg (not_lt.mpr hnum)]
        exact hops
      · rw [hsys, hseven]
  | killed ht hno hterm =>
      refine ⟨_, _, ?_, rfl, fun _ => rfl⟩
      have hexec : (M.startKernel e).execAll m [.terminateProcess (some M.kernel.runningProc)] =
          ((M.startKernel e).terminateProc (some M.kernel.runningProc)).map Prod.snd := by
        rw [Kernel.execAll, List.foldlM_cons]
        simp only [Kernel.exec, hterm]
        rfl
      rw [operations_unserved ht, hno, if_neg Bool.false_ne_true, hexec, hterm]
      rfl

theorem outcome_inj
    {x : Machine A × Resumed A} {reply reply' : Reply} {r : Resumed A}
    (h : (Except.ok (x.1, reply', x.2) : Except Halt (Machine A × Reply × Resumed A)) =
      .ok (M', reply, r)) :
    reply' = reply ∧ x = (M', r) := by
  have h := Except.ok.inj h
  exact ⟨congrArg (fun y => y.2.1) h,
    Prod.ext (congrArg (fun y => y.1) h) (congrArg (fun y => y.2.2) h)⟩

/-- An exception that returns is handled or passed up. -/
theorem handle_cases
    {reply : Reply} {r : Resumed A} (h : M.handle m e = .ok (M', reply, r)) :
    (∃ k st, Handling m M e k st reply ∧ M.concluded e k st = (M', r)) ∨
      (∃ k t, Escalating M e k t ∧ reply = .none ∧ M.passed e k t = (M', r)) := by
  have hunserved : ∀ t, e.unserved = some t →
      (∃ k st, Handling m M e k st reply ∧ M.concluded e k st = (M', r)) ∨
      (∃ k t, Escalating M e k t ∧ reply = .none ∧ M.passed e k t = (M', r)) := by
    intro t ht
    rw [handle_unserved ht, escalation] at h
    split_ifs at h with hup
    · obtain ⟨hreply, hout⟩ := outcome_inj h
      exact Or.inr ⟨_, t, .unserved ht hup, hreply.symm, hout⟩
    · cases hterm : (M.startKernel e).terminateProc (some M.kernel.runningProc) with
      | error err =>
          rw [hterm] at h
          exact absurd h (by simp [Except.map])
      | ok res =>
          rw [hterm] at h
          obtain ⟨rfl, hout⟩ := outcome_inj h
          exact Or.inl ⟨res.2, e.adjusted, .killed ht (by simpa using hup) hterm, hout⟩
  cases htype : e.type with
  | INT =>
      rw [handle_interrupt htype] at h
      obtain ⟨rfl, hout⟩ := outcome_inj h
      exact Or.inl ⟨_, _, .interrupt htype, hout⟩
  | PRG =>
      exact hunserved .PRG (by simp [Exception.unserved, htype])
  | TLB =>
      exact hunserved .TLB (by simp [Exception.unserved, htype])
  | SYS =>
      cases hcode : A.getExccode e.adjusted with
      | E_SYS =>
          have hsys : e.syscall = some (e.adjusted A.sysN).toNat := by
            simp only [Exception.syscall, htype, hcode, if_true]
          by_cases hnum : (e.adjusted A.sysN).toNat ≤ SYSTEM_SYSCALL_MAX
          · rw [handle_syscall hsys hnum] at h
            cases hserve : (M.startKernel e).consumeSyscall m e.adjusted M.kernel.runningProc
                e.stateAt e.todMid with
            | error err =>
                rw [hserve] at h
                exact absurd h (by simp [Except.map])
            | ok served =>
                rw [hserve] at h
                obtain ⟨rfl, hout⟩ := outcome_inj h
                exact Or.inl ⟨served.kernel, served.state, .served hsys hnum hserve, hout⟩
          · exact hunserved .SYS (by
              simp only [Exception.unserved, htype, hsys, not_le.mp hnum, if_true])
      | E_BP =>
          rw [handle_breakpoint ⟨htype, hcode⟩] at h
          split_ifs at h with hup
          obtain ⟨hreply, hout⟩ := outcome_inj h
          exact Or.inr ⟨_, _, .breakpoint ⟨htype, hcode⟩ hup, hreply.symm, hout⟩
      | E_OTHER =>
          rw [handle_unrecognised htype hcode] at h
          exact absurd h (by simp)

section Escalation

variable {k : Kernel A}

/-- An exception is passed up when areas are set for its type. -/
theorem passedUp_iff :
    M.PassedUp e ↔
      (∃ t, e.unserved = some t ∧ M.kernel.isPassupSet t M.kernel.runningProc = true) ∨
        (e.Breakpoint ∧ M.kernel.isPassupSet .SYS M.kernel.runningProc = true) := by
  cases htype : e.type with
  | SYS =>
      cases hcode : A.getExccode e.adjusted <;>
        simp only [PassedUp, Exception.unserved, Exception.Breakpoint, Exception.syscall, htype,
          hcode] <;>
        grind
  | _ =>
      simp [PassedUp, Exception.unserved, Exception.Breakpoint, htype]

theorem Handling.not_passedUp
    {st : State A} {reply : Reply} (h : Handling m M e k st reply) :
    ¬ M.PassedUp e := by
  rw [passedUp_iff]
  cases h with
  | interrupt htype =>
      simp [Exception.unserved, Exception.Breakpoint, htype]
  | served hsys hnum _ =>
      obtain ⟨htype, hcode, -⟩ := syscall_eq_some hsys
      simp [Exception.unserved, Exception.Breakpoint, htype, hsys, hcode, not_lt.mpr hnum]
  | killed ht hno _ =>
      rintro (⟨t', ht', hset⟩ | ⟨⟨htype, hcode⟩, -⟩)
      · obtain rfl := Option.some.inj (ht.symm.trans ht')
        rw [hno] at hset
        exact absurd hset Bool.false_ne_true
      · simp [Exception.unserved, Exception.syscall, htype, hcode] at ht

theorem Escalating.passedUp
    {t : ExcType} (h : Escalating M e k t) :
    M.PassedUp e := by
  rw [passedUp_iff]
  cases h with
  | unserved ht hset => exact Or.inl ⟨t, ht, hset⟩
  | breakpoint hbp hset => exact Or.inr ⟨hbp, hset⟩

/-- `conclude_handler` loads the state of the running process. -/
theorem concluded_resumes (k : Kernel A) (st : State A) :
    ∃ st', (M.concluded e k st).2 = .proc k.runningProc st' := by
  by_cases hrun : k.runningProc = M.kernel.runningProc
  · rw [concluded_same st hrun]
    exact ⟨_, rfl⟩
  · rw [concluded_other st hrun]
    exact ⟨_, rfl⟩

end Escalation

section Handled

/-- The content of the old area when the handler concludes. -/
theorem Handling.state
    {k : Kernel A} {st : State A} {reply : Reply} (h : Handling m M e k st reply) :
    st = e.adjusted ∨
      (∃ w, st = e.adjusted.setRet w) ∧ (e.syscall = some 2 ∨ e.syscall = some 3) := by
  cases h with
  | interrupt _ =>
      exact Or.inl rfl
  | served hsys _ hserved =>
      obtain ⟨-, -, rfl⟩ := syscall_eq_some hsys
      obtain ⟨-, -, -, -, -, hstate⟩ := consumeSyscall_spec hserved
      rw [hsys]
      exact hstate.imp_right
        (And.imp_right (fun hnum => hnum.imp (congrArg some) (congrArg some)))
  | killed _ _ _ =>
      exact Or.inl rfl

theorem Handling.handled
    {k : Kernel A} {st : State A} {reply : Reply} (h : Handling m M e k st reply) :
    ∃ k₁, Handled m M e (M.concluded e k st).1 (M.concluded e k st).2 k₁ := by
  have hst := h.state
  obtain ⟨k₁, areas, hops, heq, -⟩ := h.ops
  refine ⟨k₁, ?_⟩
  by_cases hrun : k.runningProc = M.kernel.runningProc
  · rw [concluded_same st hrun]
    subst heq
    exact ⟨hops, rfl, rfl, Resumes.same st hst hrun rfl rfl⟩
  · rw [concluded_other st hrun]
    subst heq
    exact ⟨hops, rfl, rfl, Resumes.other st hst hrun (ite_not _ _ _) rfl⟩

theorem Escalating.handled
    {k : Kernel A} {t : ExcType} (h : Escalating M e k t) :
    Handled m M e (M.passed e k t).1 (M.passed e k t).2 (M.startKernel e) := by
  have hup := h.passedUp
  have hframe : k.core = (M.startKernel e).core ∧ k.pS = (M.startKernel e).pS := by
    cases h with
    | @unserved t _ _ =>
        cases t <;> exact ⟨rfl, rfl⟩
    | breakpoint _ _ =>
        exact ⟨rfl, rfl⟩
  refine ⟨?_, hframe.1, rfl, Resumes.passup _ _ _ hup hframe.2⟩
  rw [operations_of_passedUp hup]
  rfl

/-- What the handler of an exception does. -/
theorem handle_spec
    {reply : Reply} {r : Resumed A} (h : M.handle m e = .ok (M', reply, r)) :
    ∃ k, Handled m M e M' r k := by
  rcases handle_cases h with ⟨k, st, hhandling, hout⟩ | ⟨k, t, hescalating, -, hout⟩
  · have hhandled := hhandling.handled
    rw [hout] at hhandled
    exact hhandled
  · have hhandled : Handled m M e (M.passed e k t).1 (M.passed e k t).2 (M.startKernel e) :=
      hescalating.handled
    rw [hout] at hhandled
    exact ⟨_, hhandled⟩

end Handled

end Machine

end Bikaya
