import Bikaya.Core.Handler
import Bikaya.Proofs.Entries

/-!
# Bikaya: the code that leaves the processor states alone

The states in the PCBs are written by `allocPcb` and `create_process`, by `done_io` for the
process that gets its response, and by `conclude_handler`.  Everything else keeps them, in
every kernel, whatever its invariants are.

**Plan.**  The routines are put together from updates that do not mention the states, so
each frame follows the text of its routine; for the removal it is an invariant of the
visits.  The handlers on memory need no more than that of these routines.

**Results.**
* `initPcbs_pS`, `terminateProc_pS`, `consumeSyscall_pS`: the frames.
* `consumeSyscall_congr`: only CREATEPROCESS reads a state through a pointer.
-/

namespace Bikaya
namespace Kernel

variable {A : Arch} {k k' : Kernel A} {i : IntModel}

section Queues

@[simp] theorem insertBlocked_pS (k : Kernel A) (key : SemKey) (p : Proc) :
    (k.insertBlocked key p).2.pS = k.pS := by
  unfold insertBlocked
  split <;> rfl

@[simp] theorem insertBlockedFifo_pS (k : Kernel A) (key : SemKey) (p : Proc) :
    (k.insertBlockedFifo key p).2.pS = k.pS := by
  unfold insertBlockedFifo
  split <;> rfl

@[simp] theorem removeBlocked_pS (k : Kernel A) (key : SemKey) :
    (k.removeBlocked key).2.pS = k.pS := by
  unfold removeBlocked
  split
  · rfl
  · split <;> rfl

@[simp] theorem outBlocked_pS (k : Kernel A) (p : Proc) :
    (k.outBlocked p).2.pS = k.pS := by
  unfold outBlocked
  split
  · rfl
  · split <;> rfl

@[simp] theorem scheduleProc_pS (k : Kernel A) (p : Proc) :
    (k.scheduleProc p).pS = k.pS := by
  obtain ⟨priority, ready, running, heq⟩ := scheduleProc_frame k p
  rw [heq]

@[simp] theorem runNextReady_pS (k : Kernel A) :
    k.runNextReady.pS = k.pS := by
  unfold runNextReady setRunningProc
  split <;> rfl

@[simp] theorem timeSliceCallback_pS (k : Kernel A) :
    (k.timeSliceCallback i).pS = k.pS := by
  obtain ⟨priority, ready, running, heq⟩ := timeSlice_frame i k
  rw [heq]

@[simp] theorem nextCommand_pS (k : Kernel A) (d : Dev) (next : Option Proc) :
    (k.nextCommand i d next).pS = k.pS := by
  cases next <;> rfl

/-- `initPcbs` writes to the free list only. -/
@[simp] theorem initPcbs_pS (k : Kernel A) :
    k.initPcbs.pS = k.pS := by
  have hfold : ∀ (l : List (Fin MAXPROC)) (k : Kernel A),
      (l.foldl (fun k i => k.freePcb (.pcb i)) k).pS = k.pS := by
    intro l
    induction l with
    | nil =>
        intro k
        rfl
    | cons x l ih =>
        intro k
        exact ih (k.freePcb (.pcb x))
  exact hfold _ _

theorem insertChild_pS
    {prnt p : Option Proc} (h : k.insertChild prnt p = .ok k') :
    k'.pS = k.pS := by
  cases prnt with
  | none =>
      exact absurd h (by simp [insertChild])
  | some prnt =>
      cases p with
      | none =>
          exact absurd h (by simp [insertChild])
      | some p =>
          simp only [insertChild] at h
          split_ifs at h <;> rw [← Except.ok.inj h]

end Queues

section Termination

@[simp] theorem unlinkProc_pS (k : Kernel A) (p : Proc) :
    (k.unlinkProc p).2.pS = k.pS := by
  unfold unlinkProc
  split
  · exact outBlocked_pS k p
  · split <;> rfl

@[simp] theorem removeChild_pS (k : Kernel A) (p : Proc) :
    (k.removeChild p).2.pS = k.pS := by
  unfold removeChild
  split <;> rfl

@[simp] theorem unparked_pS (k : Kernel A) :
    k.unparked.pS = k.pS := by
  unfold unparked
  simp only
  split_ifs
  · rfl
  · exact runNextReady_pS _

/-- `terminate_proc`. -/
theorem terminateProc_pS
    {p : Option Proc} {r : Int × Kernel A} (h : k.terminateProc p = .ok r) :
    r.2.pS = k.pS := by
  obtain ⟨pParent, pChild, r₁, hrec, rfl⟩ := terminateProc_cases h
  have hkeep := removal_invariant (P := fun k₁ => k₁.pS = k.pS)
    (fun k₁ x hk₁ => (unlinkProc_pS k₁ x).trans hk₁) (fun _ _ hk₁ => hk₁)
    (fun k₁ x hk₁ => (removeChild_pS k₁ x).trans hk₁) removalFuel
  obtain ⟨-, hremoved⟩ := hkeep.1 (k.parked.withTree pParent pChild) _ _ rfl hrec
  exact (unparked_pS r₁.2).trans hremoved

end Termination

section Syscalls

@[simp] theorem v_pS (k : Kernel A) (semaddr : SemAddr) :
    (k.v i semaddr).pS = k.pS := by
  have hremove : ∀ k : Kernel A, (k.removeBlocked (.user semaddr)).2.pS = k.pS :=
    fun k => removeBlocked_pS k _
  have hage : ∀ k : Kernel A, (k.ageBlocked i (.user semaddr)).pS = k.pS := by
    intro k
    unfold ageBlocked
    split <;> rfl
  have h := hremove (k.addSem i semaddr 1)
  unfold v
  simp only
  split
  · rename_i heq
    rw [heq] at h
    exact h
  · rename_i dequeued k₁ heq
    rw [heq] at h
    simp only [addSem, scheduleProc_pS, hage]
    exact h

theorem p_pS
    {semaddr : SemAddr} {tod : Word} (h : k.p i semaddr tod = .ok k') :
    k'.pS = k.pS := by
  unfold p at h
  simp only at h
  split_ifs at h
  · have hins := insertBlocked_pS
      ((k.addSem i semaddr (-1)).flushKernelTime tod (k.addSem i semaddr (-1)).runningProc)
      (.user semaddr) (k.addSem i semaddr (-1)).runningProc
    split at h
    · exact absurd h (by simp)
    · rename_i k₁ heq
      rw [← Except.ok.inj h]
      have heq' := congrArg Prod.snd heq
      simp only at heq'
      simp only [addSem, runNextReady_pS, ← heq']
      exact hins
  · rw [← Except.ok.inj h]
    rfl

theorem waitIo_pS
    {command devReg subdev tod : Word} (h : k.waitIo i command devReg subdev tod = .ok k') :
    k'.pS = k.pS := by
  obtain ⟨d, -, rfl⟩ := exec_waitIo (k := k) (m := i) h
  dsimp only [waitDev, flushKernelTime]
  split_ifs <;> simp [popRunning, sendCommand]

theorem specPassup_pS
    {arg1 arg2 arg3 : Word} (h : k.specPassup arg1 arg2 arg3 = .ok k') :
    k'.pS = k.pS := by
  obtain ⟨old, -, h⟩ := ok_of_bind h
  obtain ⟨new, -, h⟩ := ok_of_bind h
  split_ifs at h
  · rw [← Except.ok.inj h]
  · cases hterm : k.terminateProc (some k.runningProc) with
    | error err =>
        rw [hterm] at h
        exact absurd h (by simp [Except.map])
    | ok r =>
        rw [hterm] at h
        rw [← Except.ok.inj h]
        exact terminateProc_pS hterm

/-- The system calls that write to no processor state. -/
theorem consumeSyscall_pS
    {st : State A} {interrupted : Proc} {stateAt : Word → State A} {tod : Word}
    {served : Bikaya.Served A}
    (h2 : (st A.sysN).toNat ≠ 2) (h3 : (st A.sysN).toNat ≠ 3)
    (h : k.consumeSyscall i st interrupted stateAt tod = .ok served) :
    served.kernel.pS = k.pS ∧ served.state = st := by
  unfold consumeSyscall at h
  simp only at h
  split at h
  · rw [← Except.ok.inj h]
    exact ⟨rfl, rfl⟩
  · contradiction
  · contradiction
  · obtain ⟨semaddr, -, h⟩ := ok_of_bind h
    rw [← Except.ok.inj h]
    exact ⟨v_pS k semaddr, rfl⟩
  · obtain ⟨semaddr, -, h⟩ := ok_of_bind h
    obtain ⟨k₁, hp, h⟩ := ok_of_bind h
    rw [← Except.ok.inj h]
    exact ⟨p_pS hp, rfl⟩
  · obtain ⟨k₁, hwait, h⟩ := ok_of_bind h
    rw [← Except.ok.inj h]
    exact ⟨waitIo_pS hwait, rfl⟩
  · obtain ⟨k₁, hspec, h⟩ := ok_of_bind h
    rw [← Except.ok.inj h]
    exact ⟨specPassup_pS hspec, rfl⟩
  · rw [← Except.ok.inj h]
    exact ⟨rfl, rfl⟩
  · exact absurd h (by simp)

/-- The states in user memory matter to CREATEPROCESS only. -/
theorem consumeSyscall_congr
    {st : State A} (h2 : (st A.sysN).toNat ≠ 2) (interrupted : Proc)
    (stateAt stateAt' : Word → State A) (tod : Word) :
    k.consumeSyscall i st interrupted stateAt tod =
      k.consumeSyscall i st interrupted stateAt' tod := by
  unfold consumeSyscall
  simp only
  split
  all_goals first | rfl | contradiction

end Syscalls

end Kernel
end Bikaya
