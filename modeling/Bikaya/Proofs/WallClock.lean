import Bikaya.Proofs.CpuTime

/-!
# Bikaya: the wall-clock time of the processes

`tod_at_start` is written when the kernel is launched, for the process that runs first, and
when a PCB is allocated.  The value that GETCPUTIME returns is compared with the time since
the first dispatch of the process.

**Plan.**  `firstDispatch` is the reading at the entry that dispatched the process for the
first time, found in the history of the run; for the process that the launch dispatches it
is the launch's first reading, the one that is kept in `tod_at_start`.  The field is
written in the two places above and in no other (`todAtStart_of_run`), so it is this
reading or 0.

**Results.**
* `firstDispatch_running`: the running process has been dispatched.
* `wallclock_iff`: GETCPUTIME returns the time since the first dispatch if and only if the
  caller was dispatched by the launch, or the reading at its first dispatch was 0.
* `wallclock_stampEntries`: a process that is told the time of day.
-/

namespace Bikaya

open Kernel TransitionSystem

namespace Machine

variable {A : Arch} {m : IntModel}

/--
The reading at which the process that owns a PCB was dispatched for the first time.  A
process is dispatched by the launch, or by a handler that resumes it; the owner of a PCB
changes when the PCB is free in between.
-/
def firstDispatch (tod : Word) (M : ℕ → Machine A) (e : ℕ → Entry A) : ℕ → Proc → Option Word
  | 0 => fun x => if x = (M 0).kernel.runningProc then some tod else none
  | i + 1 => fun x =>
      let before :=
        if (M i).kernel.Live x ∧ (M (i + 1)).kernel.Live x then firstDispatch tod M e i x
        else none
      if x = (M (i + 1)).kernel.runningProc then some (before.getD (e i).todEnd) else before

variable {M : ℕ → Machine A} {e : ℕ → Entry A} {n : ℕ} {r₀ : Resumed A} {tod : Word × Word}

/-- The process that the launch has dispatched, not a later owner of its PCB. -/
def DispatchedByLaunch (M : ℕ → Machine A) (i : ℕ) (x : Proc) : Prop :=
  x = (M 0).kernel.runningProc ∧ ∀ l ≤ i, (M l).kernel.Live x

/-- The running process has been dispatched. -/
theorem firstDispatch_running (tod : Word) (M : ℕ → Machine A) (e : ℕ → Entry A) (i : ℕ) :
    ∃ first, firstDispatch tod M e i (M i).kernel.runningProc = some first := by
  cases i with
  | zero =>
      exact ⟨tod, if_pos rfl⟩
  | succ i =>
      exact ⟨_, if_pos rfl⟩

theorem firstDispatch_of_launch
    {i : ℕ} {x : Proc} (h : DispatchedByLaunch M i x) :
    firstDispatch tod.1 M e i x = some tod.1 := by
  induction i with
  | zero =>
      exact if_pos h.1
  | succ i ih =>
      have hbefore := ih ⟨h.1, fun l hl => h.2 l (by omega)⟩
      have hlive : (M i).kernel.Live x ∧ (M (i + 1)).kernel.Live x :=
        ⟨h.2 i (by omega), h.2 (i + 1) le_rfl⟩
      simp only [firstDispatch, if_pos hlive, hbefore, Option.getD_some, ite_self]

/--
In every run, the wall-clock value that GETCPUTIME returns to a process is the time since
its first dispatch exactly if the launch has dispatched it, or its first dispatch
happened at a reading of 0.
-/
theorem wallclock_iff
    (hlaunch : (M 0).LaunchedAt r₀ tod) (hrun : IsRun (Step m) M e n)
    (hsafe : ∀ i < n, ∀ op ∈ (M i).operations (e i).toException, (M i).kernel.Safe op) :
    ∀ i < n, ∀ user kernel wallclock, (M i).Reports m (e i) user kernel wallclock →
      ∃ first, firstDispatch tod.1 M e i (M i).kernel.runningProc = some first ∧
        (wallclock = (e i).todMid - first ↔
          DispatchedByLaunch M i (M i).kernel.runningProc ∨ first = 0) := by
  intro i hi user kernel wallclock hreports
  obtain ⟨hidle, reply, r, henter⟩ := hrun i hi
  obtain ⟨htype, -, -, hwall, -, -⟩ := hreports.spec henter
  obtain ⟨first, hfirst⟩ := firstDispatch_running tod.1 M e i
  refine ⟨first, hfirst, ?_⟩
  have hbusy : (M i).kernel.runningProc ≠ .idle := by
    intro hrun'
    rw [hidle hrun'] at htype
    exact absurd htype (by simp)
  have hlive : (M i).kernel.Live (M i).kernel.runningProc :=
    (ok_of_run hlaunch.launched hrun hsafe i hi.le).running_live hbusy
  rw [hwall, sub_right_inj]
  rcases todAtStart_of_run hlaunch hrun hsafe i hi.le _ hlive with ⟨hby, hstamp⟩ | ⟨hnot, hstamp⟩
  · have htod : firstDispatch tod.1 M e i (M i).kernel.runningProc = some tod.1 :=
      firstDispatch_of_launch hby
    rw [hfirst] at htod
    rw [hstamp, ← Option.some.inj htod]
    exact iff_of_true rfl (Or.inl hby)
  · rw [hstamp]
    constructor
    · exact fun h => Or.inr h.symm
    · rintro (hby | hzero)
      · exact absurd hby hnot
      · exact hzero.symm

section Example

/-- The first process blocks, and the second one asks for its time. -/
def stampEntries : List (Entry umps) :=
  [atTod (syscallMps 5 4 0 0 0) 20, atTod (syscallMps 1 0 0 0 0) 30]

abbrev stampRun (i : ℕ) : Machine umps :=
  states (next .int32) (launchMps [2, 1] 1000) stampEntries i

abbrev stampEntry (i : ℕ) : Entry umps :=
  stampEntries.getD i (syscallMps 1 0 0 0 0)

theorem stampEntries_isRun : IsRun (Step .int32) stampRun stampEntry 2 :=
  isRun_of_accepts _ (by decide +kernel)

/-- The answer to GETCPUTIME. -/
def answer (M : Machine umps) (e : Entry umps) : Option (Word × Word × Word) :=
  match M.enter .int32 e with
  | .ok (_, .cpuTime user kernel wallclock, _) => some (user, kernel, wallclock)
  | _ => none

theorem reports_of_answer
    {M : Machine umps} {e : Entry umps} {user kernel wallclock : Word}
    (h : answer M e = some (user, kernel, wallclock)) :
    M.Reports .int32 e user kernel wallclock := by
  unfold answer at h
  split at h
  · next M' user' kernel' wallclock' r henter =>
    obtain ⟨rfl, rfl, rfl⟩ : user' = user ∧ kernel' = kernel ∧ wallclock' = wallclock := by
      simpa using h
    exact ⟨M', r, henter⟩
  · exact absurd h (by simp)

/-- The second process runs since 22; at 31 it is told that 31 ticks have passed. -/
theorem wallclock_stampEntries :
    (∃ r, (stampRun 0).LaunchedAt r (0, 0)) ∧ IsRun (Step .int32) stampRun stampEntry 2 ∧
      firstDispatch 0 stampRun stampEntry 1 (stampRun 1).kernel.runningProc = some 22 ∧
      (stampEntry 1).todMid = 31 ∧
      (stampRun 1).Reports .int32 (stampEntry 1) 8 1 31 ∧ (31 : Word) ≠ 31 - 22 :=
  ⟨⟨_, launchMps_launchedAt 1000 (by decide) (by decide)⟩, stampEntries_isRun,
    by decide +kernel, by decide, reports_of_answer (by decide +kernel), by decide⟩

/-- The first process is told the time since the launch. -/
theorem wallclock_iff_timerEntries :
    ∃ first, firstDispatch 0 timerRun timerEntry 3 (timerRun 3).kernel.runningProc = some first ∧
      ((41 : Word) = (timerEntry 3).todMid - first ↔
        DispatchedByLaunch timerRun 3 (timerRun 3).kernel.runningProc ∨ first = 0) := by
  refine wallclock_iff (launchMps_launchedAt 1000 (by decide) (by decide)) timerEntries_isRun
    (fun i hi => safe_of_not_terminates ?_) 3 (by decide) 26 4 41
    (reports_of_answer (by decide +kernel))
  interval_cases i <;> decide +kernel

end Example

end Machine

end Bikaya
