import Bikaya.Core.Handler
import Bikaya.Core.Operations

/-!
# Bikaya: runs of the machine

The machine as a transition system: it is launched, and from then on user code and
the exception handlers alternate.  The processor state that user code leaves is part
of the exception it raises; what it leaves in the integers of its semaphores is
part of the entry.

A run starts with a machine that is `Launched`, from 1 to `MAXPROC` starting processes and
any content of the memory, and goes on by `Step`; `next` computes the steps.
-/

namespace Bikaya

/-- One entry into the kernel: the memory that user code leaves, and an exception. -/
structure Entry (A : Arch) extends Exception A where
  /-- The integers of the semaphores. -/
  memory : SemAddr → Int

namespace Machine

open TransitionSystem

variable {A : Arch}

/-- The integers of the semaphores, after the execution of user code. -/
def userWrites (M : Machine A) (memory : SemAddr → Int) : Machine A :=
  { M with kernel := { M.kernel with sem := memory } }

/-- User code runs, an exception is raised, and its handler runs. -/
def enter (m : IntModel) (M : Machine A) (e : Entry A) :
    Except Halt (Machine A × Reply × Resumed A) :=
  (M.userWrites e.memory).handle m e.toException

/--
The step relation of the machine.  The code of the idle process is an empty loop, so
that nothing but interrupts can occur while it runs.
-/
def Step (m : IntModel) (M : Machine A) (e : Entry A) (M' : Machine A) : Prop :=
  (M.kernel.runningProc = .idle → e.type = .INT) ∧
    ∃ reply r, M.enter m e = .ok (M', reply, r)

/-- The same, as a partial function. -/
def next (m : IntModel) (M : Machine A) (e : Entry A) : Option (Machine A) :=
  if M.kernel.runningProc = .idle → e.type = .INT then
    (M.enter m e).toOption.map Prod.fst
  else none

theorem step_of_next
    {m : IntModel} {M M' : Machine A} {e : Entry A} (h : M.next m e = some M') :
    Step m M e M' := by
  unfold next at h
  split_ifs at h with hidle
  cases henter : M.enter m e with
  | error err =>
      rw [henter] at h
      exact absurd h (by simp [Except.toOption])
  | ok r =>
      rw [henter] at h
      obtain rfl : r.1 = M' := Option.some.inj h
      exact ⟨hidle, r.2.1, r.2.2, henter⟩

/-- A list of entries that all return is a run. -/
theorem isRun_of_accepts
    {m : IntModel} {M : Machine A} {es : List (Entry A)} (e : Entry A)
    (h : accepts (next m) M es = true) :
    IsRun (Step m) (states (next m) M es) (fun i => es.getD i e) es.length :=
  fun i hi => step_of_next (isRun_states e h i hi)

/-- The machine and the loaded state after a launch with 1 to `MAXPROC` processes. -/
def Launched (M : Machine A) (r : Resumed A) : Prop :=
  ∃ (sem : SemAddr → Int) (startingProcs : List ProcInitData) (clockTicks : Word)
    (tod : Word × Word) (areas : ExcType → State A),
    1 ≤ startingProcs.length ∧ startingProcs.length ≤ MAXPROC ∧
      bikayaLaunch sem startingProcs clockTicks tod areas = .ok (M, r)

end Machine

end Bikaya
