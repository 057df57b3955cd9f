import Mathlib.Tactic.IntervalCases
import Bikaya.Proofs.Conservation
import Bikaya.Proofs.LinkedBoot

/-!
# Bikaya: runs on the links

The linked kernel follows every run of the kernel on lists: at every moment its rings hold
the same processes in the same order, its tree is the same tree, and its other fields are
the same.  So what is proved of runs on lists holds of the rings.

**Plan.**  The boots agree, and so do the operations, as long as the invariant of the
kernel on lists holds.  It holds along every run whose terminations meet no process that is
registered from an earlier use of its PCB; the run on the links is then the one that the
agreement builds step by step.

**Results.**
* `links_refine_lists`: every run on lists is followed on the links, and the next operation
  has the same outcome.
* `links_never_stray`: no operation of a run on the links follows a NULL or stray pointer,
  or walks a queue that does not end.
-/

namespace Bikaya

open Lockstep TransitionSystem

namespace Kernel

variable {A : Arch} {k : Kernel A} {i : IntModel}

/-- The ways in which an operation can stop the kernel. -/
theorem exec_error
    {op : Operation A} {e : Halt} (h : k.Ok) (hadm : k.Admissible op)
    (hexec : k.exec i op = .error e) :
    (op.Terminates ∧ e = removalPanic) ∨
    (∃ command devReg subdev tod, op = .waitIo command devReg subdev tod ∧
      devCell (getExtDevType (A.getDevLine devReg) subdev) (A.getDevInstance devReg) = none ∧
      e = .fault) := by
  cases op with
  | createProcess s priority =>
      obtain ⟨created, k', heq, -⟩ := h.createProcess hadm s priority
      simp only [exec, heq, Except.map, reduceCtorEq] at hexec
  | terminateProcess p =>
      refine Or.inl ⟨trivial, ?_⟩
      have ht := h.target_live (fun _ => hadm.1) hadm.2
      obtain ⟨l, hl⟩ := h.tree.forest.exists_preorder [p.getD k.runningProc]
      obtain ⟨pParent, -, hterm⟩ := terminate_visits h.tree ht hl
      rw [exec, hterm p rfl] at hexec
      cases hkill : k.parked.killAll l with
      | none =>
          rw [hkill] at hexec
          exact (Except.error.inj hexec).symm
      | some k' =>
          rw [hkill] at hexec
          simp only at hexec
          split at hexec
          · exact absurd hexec (by simp [Except.map])
          · exact absurd hexec (by simp [Except.map])
  | passeren a tod =>
      obtain ⟨k', heq, -⟩ := h.p (m := i) hadm a tod
      simp only [exec, heq, reduceCtorEq] at hexec
  | verhogen a =>
      exact absurd hexec (by simp [exec])
  | waitIo command devReg subdev tod =>
      refine Or.inr ⟨command, devReg, subdev, tod, rfl, ?_⟩
      have hexec : k.waitIo i command devReg subdev tod = .error e := hexec
      delta waitIo at hexec
      cases hcell : devCell (getExtDevType (A.getDevLine devReg) subdev)
          (A.getDevInstance devReg) with
      | none =>
          rw [hcell] at hexec
          exact ⟨rfl, (Except.error.inj hexec).symm⟩
      | some d =>
          rw [hcell] at hexec
          exact absurd hexec (by simp)
  | doneIo d status =>
      exact absurd hexec (by simp [exec])
  | timeSlice =>
      exact absurd hexec (by simp [exec])
  | write a value =>
      exact absurd hexec (by simp [exec])

/-- Without a free PCB a starting process makes the boot panic. -/
theorem addStartingProc_full
    (hfree : k.pcbFreeH = []) (data : ProcInitData) :
    k.addStartingProc data =
      .error (.panic "ERROR: The maximum number of processes has been reached!") := by
  simp only [addStartingProc, allocPcb, hfree]

/-- A boot that succeeds has 1 to `MAXPROC` starting processes. -/
theorem booted_of_boot
    {sem : SemAddr → Int} {startingProcs : List ProcInitData} {tod : Word × Word}
    (hboot : boot sem startingProcs tod = .ok k) : k.Booted := by
  refine ⟨sem, startingProcs, tod, ?_, ?_, hboot⟩
  · by_contra hlen
    obtain rfl : startingProcs = [] := List.eq_nil_of_length_eq_zero (by omega)
    simp only [boot, initScheduler, List.foldlM_nil, ok_bind, pure_eq_ok, launch, populatePcb,
      removeProcQ, reduceCtorEq] at hboot
  · by_contra hlen
    obtain ⟨k₁, hfold, hbooting⟩ := Booting.foldlM (startingProcs.take MAXPROC)
      (Booting.start (A := A) sem) (by simp)
    have hfull : k₁.pcbFreeH = [] := by
      rw [hbooting.free]
      simp
      omega
    cases hrest : startingProcs.drop MAXPROC with
    | nil =>
        exact hlen (List.drop_eq_nil_iff.mp hrest)
    | cons data rest =>
        rw [← List.take_append_drop MAXPROC startingProcs, hrest] at hboot
        simp only [boot, initScheduler, List.foldlM_append, List.foldlM_cons, hfold, ok_bind,
          addStartingProc_full hfull] at hboot
        exact absurd hboot (by simp [bind, Except.bind])

end Kernel

namespace LinkedKernel

variable {A : Arch} {i : IntModel}
variable {k : ℕ → Kernel A} {op : ℕ → Operation A} {n : ℕ}
variable {sem : SemAddr → Int} {startingProcs : List ProcInitData} {tod : Word × Word}

/-- The step relation of the linked kernel. -/
def Step (i : IntModel) (l : LinkedKernel A) (op : Operation A) (l' : LinkedKernel A) : Prop :=
  l.exec i op = .ok l'

/-- The states of the linked kernel along a run of the kernel. -/
theorem follows
    (hboot : Kernel.boot sem startingProcs tod = .ok (k 0))
    (hrun : IsRun (Kernel.Step i) k op n) (hsound : ∀ j < n, (k j).Undamaging (op j)) :
    ∃ l : ℕ → LinkedKernel A, boot sem startingProcs tod = .ok (l 0) ∧
      IsRun (Step i) l op n ∧ ∀ j ≤ n, (l j).Represents (k j) := by
  have hok : (k 0).Ok := (Kernel.booted_of_boot hboot).fresh.ok
  have hagree := boot_agrees (A := A) sem startingProcs tod
  rw [hboot] at hagree
  obtain ⟨l₀, hboot', hl₀⟩ := hagree.of_ok
  obtain ⟨l, hl, hfollow, hrep⟩ :=
    follows_run hrun hsound hok
      (fun a op b (ha : a.Ok) hC hab => ha.step_of_undamaging hC hab)
      (fun l a op b hla ha hC hab => (hab.2 ▸ exec_agrees hla ha hab.1 hC).of_ok) hl₀
  exact ⟨l, hl.symm ▸ hboot', hfollow, hrep⟩

/--
The kernel on its links follows every run of the kernel on lists, and its links represent
the lists at every moment; the next operation has the same outcome on both.
-/
theorem links_refine_lists
    (hboot : Kernel.boot sem startingProcs tod = .ok (k 0))
    (hrun : IsRun (Kernel.Step i) k op n) (hsound : ∀ j < n, (k j).Undamaging (op j)) :
    ∃ l : ℕ → LinkedKernel A, boot sem startingProcs tod = .ok (l 0) ∧
      IsRun (Step i) l op n ∧ (∀ j ≤ n, (l j).Represents (k j)) ∧
      ∀ op', (k n).Admissible op' → (k n).Undamaging op' →
        Agree Represents ((l n).exec i op') ((k n).exec i op') := by
  obtain ⟨l, hboot', hfollow, hrep⟩ := follows hboot hrun hsound
  have hok : (k n).Ok :=
    hrun.invariant_of hsound (Kernel.booted_of_boot hboot).fresh.ok
      (fun a op b ha hC hab => ha.step_of_undamaging hC hab) n le_rfl
  exact ⟨l, hboot', hfollow, hrep, fun op' hadm hsound' =>
    exec_agrees (hrep n le_rfl) hok hadm hsound'⟩

theorem creationHistory_undamaging :
    ∀ j < 5, (states (Kernel.next .int32) (Kernel.bootMps [1, 2])
      Kernel.creationHistory j).Undamaging (Kernel.creationHistory.getD j .timeSlice) := by
  intro j hj
  have hdev : ∀ x, (states (Kernel.next .int32) (Kernel.bootMps [1, 2])
      Kernel.creationHistory 4).devWList x = none := by
    decide +kernel
  interval_cases j
  · exact trivial
  · exact trivial
  · exact trivial
  · exact trivial
  · exact fun x _ _ => hdev x

/-- Two starting processes, and a history that ends with a termination. -/
theorem links_refine_lists_creationHistory :
    ∃ l : ℕ → LinkedKernel umps,
      boot (fun _ => 0) ([1, 2].map Kernel.plainProc) 0 = .ok (l 0) ∧
      IsRun (Step .int32) l (fun j => Kernel.creationHistory.getD j .timeSlice) 5 ∧
      ∀ j ≤ 5, (l j).Represents
        (states (Kernel.next .int32) (Kernel.bootMps [1, 2]) Kernel.creationHistory j) := by
  obtain ⟨l, hboot, hfollow, hrep, -⟩ :=
    links_refine_lists (Kernel.boot_bootMps (by decide) (by decide))
      Kernel.creationHistory_isRun creationHistory_undamaging
  exact ⟨l, hboot, hfollow, hrep⟩

/-- The operation can occur and damages no queue, whatever lists the links represent. -/
def Allowed (l : LinkedKernel A) (op : Operation A) : Prop :=
  ∀ k, l.Represents k → k.Admissible op ∧ k.Undamaging op

/-- The lists that the links represent, and their invariant. -/
def Sound (l : LinkedKernel A) : Prop :=
  ∃ k, l.Represents k ∧ k.Ok

theorem Sound.step
    {l l' : LinkedKernel A} {op : Operation A} (h : l.Sound) (hop : l.Allowed op)
    (hstep : Step i l op l') : l'.Sound := by
  obtain ⟨k, hrep, hok⟩ := h
  obtain ⟨hadm, hsound⟩ := hop k hrep
  have hagree := exec_agrees (i := i) hrep hok hadm hsound
  rw [hstep] at hagree
  obtain ⟨k', hexec, hrep'⟩ := hagree.ok_of
  exact ⟨k', hrep', hok.step_of_undamaging hsound ⟨hadm, hexec⟩⟩

/--
No stray pointers: in a run of the kernel on its links, the links are those of separated
lists and of a process tree at every moment, and an operation follows no NULL pointer,
takes no link for the field of a structure it is not part of and has no endless loop.
It returns, or panics because a process to be removed is on no list, or is a WAITIO for a
device outside of the table, where the model stops.
-/
theorem links_never_stray
    {l : ℕ → LinkedKernel A} (hboot : boot sem startingProcs tod = .ok (l 0))
    (hrun : IsRun (Step i) l op n) (hallowed : ∀ j < n, (l j).Allowed (op j)) :
    ∀ j ≤ n, (∃ k, (l j).Represents k ∧ k.Ok) ∧
      ∀ op', (l j).Allowed op' →
        (∃ l', (l j).exec i op' = .ok l') ∨
        (op'.Terminates ∧ (l j).exec i op' = .error removalPanic) ∨
        (∃ command devReg subdev tod, op' = .waitIo command devReg subdev tod ∧
          devCell (getExtDevType (A.getDevLine devReg) subdev) (A.getDevInstance devReg) =
            none ∧
          (l j).exec i op' = .error .fault) := by
  have h0 : (l 0).Sound := by
    have hagree := boot_agrees (A := A) sem startingProcs tod
    rw [hboot] at hagree
    obtain ⟨k, hboot', hrep⟩ := hagree.ok_of
    exact ⟨k, hrep, (Kernel.booted_of_boot hboot').fresh.ok⟩
  intro j hj
  have hj : (l j).Sound := hrun.invariant_of hallowed h0 (fun _ _ _ h hC hab => h.step hC hab) j hj
  refine ⟨hj, fun op' hop' => ?_⟩
  obtain ⟨k, hrep, hok⟩ := hj
  obtain ⟨hadm, hsound⟩ := hop' k hrep
  have hagree := exec_agrees (i := i) hrep hok hadm hsound
  cases hexec : k.exec i op' with
  | ok k' =>
      rw [hexec] at hagree
      obtain ⟨l', heq, -⟩ := hagree.of_ok
      exact Or.inl ⟨l', heq⟩
  | error e =>
      rw [hexec] at hagree
      rcases Kernel.exec_error hok hadm hexec with ⟨hterm, rfl⟩ |
        ⟨command, devReg, subdev, tod', rfl, hcell, rfl⟩
      · exact Or.inr (Or.inl ⟨hterm, hagree.of_error⟩)
      · exact Or.inr (Or.inr ⟨command, devReg, subdev, tod', rfl, hcell, hagree.of_error⟩)

theorem timeSlice_allowed (l : LinkedKernel A) : l.Allowed .timeSlice :=
  fun _ _ => ⟨trivial, trivial⟩

/-- A booted kernel with one process, at the end of a time slice. -/
theorem links_never_stray_timeSlice :
    ∃ l l' : LinkedKernel umps, boot (fun _ => 0) ([1].map Kernel.plainProc) (0, 0) = .ok l ∧
      Step .int32 l .timeSlice l' ∧ ∃ k, l'.Represents k ∧ k.Ok := by
  have hagree := boot_agrees (A := umps) (fun _ => 0) ([1].map Kernel.plainProc) (0, 0)
  rw [Kernel.boot_bootMps (by decide) (by decide)] at hagree
  obtain ⟨l, hboot, -⟩ := hagree.of_ok
  have hstart : IsRun (Step .int32) (fun _ => l) (fun _ => .timeSlice) 0 :=
    fun j hj => absurd hj (Nat.not_lt_zero j)
  obtain ⟨-, hnext⟩ :=
    links_never_stray hboot hstart (fun j _ => timeSlice_allowed l) 0 le_rfl
  rcases hnext .timeSlice (timeSlice_allowed l) with ⟨l', hl'⟩ | ⟨hterm, -⟩ |
    ⟨_, _, _, _, heq, -⟩
  · refine ⟨l, l', hboot, hl', ?_⟩
    have hrun : IsRun (Step .int32) (fun j => if j = 0 then l else l')
        (fun _ => .timeSlice) 1 := by
      intro j hj
      obtain rfl : j = 0 := by omega
      exact hl'
    exact (links_never_stray (l := fun j => if j = 0 then l else l') hboot hrun
      (fun j _ => timeSlice_allowed _) 1 le_rfl).1
  · exact absurd hterm id
  · exact absurd heq (by simp)

end LinkedKernel

end Bikaya
