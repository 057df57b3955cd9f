import Bikaya.Proofs.Effects

/-!
# Bikaya: the invariant of the lists is preserved

Every operation keeps the lists of processes separated, the process tree a forest, and the
running process outside the lists.  Nothing is assumed about devices, except that a
termination meets no stale registration.

**Plan.**  Each operation is a few moves of single processes (`Effects.lean`), and each
move has its rule in `RunningProcess.lean`, so that the invariant `Ok` is carried from one
rule to the next.  Only the termination is different.  It puts its victims on the free list
wherever they are found, and a process that is found by its device registration while it is
ready or running would stay there.  `Safe` and `Undamaging` say that no victim has such a
registration: `allocPcb` does not clear the field, so this is a condition on the history
and not a consequence of the invariant.  `Undamaging` asks the victims that are ready or
running only, and is all that the lists need; `Safe` asks every victim that is not blocked.

**Results.**
* `terminate_cases`: what a termination does when it returns, as one update of the kernel.
* `Ok.p`, `Ok.v`, `Ok.waitDev`, `Ok.doneIo`, `Ok.timeSlice`, `Ok.createProcess`: the other
  operations keep the invariant without any condition.
* `Ok.step_of_undamaging`, `Ok.step`: so does every step that damages nothing.
* `Step.terminated`: the effect of a termination in a run.
-/

namespace Bikaya

open OrderedForest

namespace Kernel

variable {A : Arch} {k k' : Kernel A} {m : IntModel}

/-- Everything in the subtree of the target that is not blocked is not registered. -/
def Killable (k : Kernel A) (p : Option Proc) : Prop :=
  ∀ x, Below k.pChild x (p.getD k.runningProc) → k.pSemkey x = none → k.devWList x = none

/-- The operation meets no stale device registration. -/
def Safe (k : Kernel A) : Operation A → Prop
  | .terminateProcess p => k.Killable p
  | _ => True

/--
The operation removes no running or ready process that holds a stale device
registration: `recursive_remove_proc` would free it and leave it in the ready queue.
-/
def Undamaging (k : Kernel A) : Operation A → Prop
  | .terminateProcess p =>
      ∀ x, Below k.pChild x (p.getD k.runningProc) →
        x = k.runningProc ∨ x ∈ k.readyQueue → k.devWList x = none
  | _ => True

theorem Safe.undamaging
    {op : Operation A} (h : k.Safe op) (hok : k.Ok) : k.Undamaging op := by
  cases op with
  | terminateProcess p =>
      intro x hx hplace
      refine h x hx ?_
      rcases hplace with rfl | hready
      · exact hok.residence.semkey_of_absent hok.running
      · exact hok.residence.semkey_of_ready hready
  | _ =>
      exact trivial

/-- What a termination that returns has done. -/
structure Terminated (k : Kernel A) (t : Proc) (l : List Proc) (k' : Kernel A) : Prop where
  mem : ∀ x, x ∈ l ↔ Below k.pChild x t
  nodup : l.Nodup
  live : ∀ x ∈ l, k.Live x
  result : ∃ asl pParent,
    k' = k.afterTermination t l asl pParent ∧
    (∀ key, asl.waitQueue key = survivors l (k.waitQueue key)) ∧
    (∀ x, x ∉ l → pParent x = k.pParent x)

section Termination

variable {p : Option Proc} {t : Proc} {l : List Proc}

/-- The invariant after a termination. -/
theorem Ok.afterTermination
    (h : k.Ok) (ht : k.Live t) (hmem : ∀ x, x ∈ l ↔ Below k.pChild x t)
    {asl : Asl} {pParent : Proc → Option Proc}
    (hwait : ∀ key, asl.waitQueue key = survivors l (k.waitQueue key))
    (hparent : ∀ x, x ∉ l → pParent x = k.pParent x)
    (hres : Residence asl (l.reverse ++ k.pcbFreeH) (survivors l k.readyQueue)
      (unblocked k.pSemkey l)) :
    (k.afterTermination t l asl pParent).Ok := by
  have htree : TreeOk pParent (k.childrenAfter t l) (l.reverse ++ k.pcbFreeH) := by
    refine h.tree.removeSubtree ht hmem ?_ hparent ?_ ?_
    · intro x
      simp
    · intro x hx
      simp [childrenAfter, hx]
    · intro x hx
      simp [childrenAfter, hx]
  have habsent : ∀ x, x ∉ l → k.Absent x →
      Residence.Absent asl (l.reverse ++ k.pcbFreeH) (survivors l k.readyQueue) x := by
    intro x hxl hx
    obtain ⟨hfree, hready, hblocked⟩ := Residence.absent_iff.mp hx
    refine Residence.absent_iff.mpr ⟨by simp [hxl, hfree], ?_, ?_⟩
    · exact fun hmem => hready (List.mem_of_mem_filter hmem)
    · intro key hmem
      rw [hwait] at hmem
      exact hblocked key (List.mem_of_mem_filter hmem)
  have hidle : Proc.idle ∉ l := by
    intro hidle
    exact (h.tree.below_live ht ((hmem _).mp hidle)).1 rfl
  by_cases hrun : k.runningProc ∈ l
  · -- the first survivor of the ready queue is run
    have hnext := Ok.runNextReady
      (k := { k with
        asl := asl
        pParent := pParent
        pChild := k.childrenAfter t l
        pSemkey := unblocked k.pSemkey l
        readyQueue := survivors l k.readyQueue
        pcbFreeH := l.reverse ++ k.pcbFreeH }) hres htree (habsent _ hidle h.idle)
    rw [runNextReady_eq] at hnext
    simpa only [Kernel.afterTermination, readyAfter, runningAfter, hrun, if_true] using hnext
  · simp only [Kernel.afterTermination, readyAfter, runningAfter, hrun, if_false]
    exact ⟨hres, htree, habsent _ hidle h.idle, habsent _ hrun h.running⟩

/-- A termination kills the subtree, if it finds all of it. -/
theorem terminate_of_locatable
    (h : k.Ok) (ht : k.Live (p.getD k.runningProc))
    (hfound : ∀ x, Below k.pChild x (p.getD k.runningProc) → k.Locatable x) :
    ∃ l k', k.Terminated (p.getD k.runningProc) l k' ∧ k'.Ok ∧
      k.terminateProc p = .ok (0, { k' with wForRes := k.vacated l }) := by
  obtain ⟨l, hl⟩ := h.tree.forest.exists_preorder [p.getD k.runningProc]
  have hmem := mem_subtree hl
  obtain ⟨asl, pParent, hterm, hwait, hparent, hres⟩ :=
    terminateProc_spec h.residence h.tree h.running ht hl
      (fun x hx => hfound x ((hmem x).mp hx)) rfl
  exact ⟨l, _,
    ⟨hmem, subtree_nodup h.tree hl, fun x hx => h.tree.below_live ht ((hmem x).mp hx),
      asl, pParent, rfl, hwait, hparent⟩,
    h.afterTermination ht hmem hwait hparent hres, hterm⟩

/-- If a termination returns then it found the whole subtree. -/
theorem Ok.locatable
    (h : k.Ok) (ht : k.Live (p.getD k.runningProc))
    (hclean : ∀ x, Below k.pChild x (p.getD k.runningProc) →
      x = k.runningProc ∨ x ∈ k.readyQueue → k.devWList x = none)
    {ret : Int} (hret : k.terminateProc p = .ok (ret, k')) :
    ∀ x, Below k.pChild x (p.getD k.runningProc) → k.Locatable x := by
  obtain ⟨l, hl⟩ := h.tree.forest.exists_preorder [p.getD k.runningProc]
  have hmem := mem_subtree hl
  have hfound := locatable_of_terminateProc h.residence h.tree h.running ht hl
    (fun x hx => hclean x ((hmem x).mp hx)) rfl hret
  exact fun x hx => hfound x ((hmem x).mpr hx)

/-- A process that can be removed has no stale registration. -/
theorem Removable.clean {x : Proc} (h : k.Removable x) :
    k.pSemkey x = none → k.devWList x = none :=
  fun hkey => h.elim (fun hne => absurd hkey hne) And.left

theorem terminate_of_removable
    (h : k.Ok) (ht : k.Live (p.getD k.runningProc))
    (hfound : ∀ x, Below k.pChild x (p.getD k.runningProc) → k.Removable x) :
    ∃ l k', k.terminateProc p = .ok (0, k') ∧
      k.Terminated (p.getD k.runningProc) l k' ∧ k'.Ok := by
  obtain ⟨l, k', hdone, hok, hterm⟩ :=
    terminate_of_locatable h ht (fun x hx => (hfound x hx).locatable)
  refine ⟨l, k', ?_, hdone, hok⟩
  obtain ⟨asl, pParent, rfl, -, -⟩ := hdone.result
  rw [hterm, vacated_of_clean (fun x hx => (hfound x ((hdone.mem x).mp hx)).clean)]
  rfl

/-- A termination that returns has killed the subtree. -/
theorem terminate_cases
    (h : k.Ok) (ht : k.Live (p.getD k.runningProc)) (hkill : k.Killable p)
    {ret : Int} (hret : k.terminateProc p = .ok (ret, k')) :
    ret = 0 ∧ (∃ l, k.Terminated (p.getD k.runningProc) l k') ∧ k'.Ok := by
  have hclean : ∀ x, Below k.pChild x (p.getD k.runningProc) →
      x = k.runningProc ∨ x ∈ k.readyQueue → k.devWList x = none := by
    intro x hx hready
    refine hkill x hx ?_
    rcases hready with rfl | hready
    · exact h.residence.semkey_of_absent h.running
    · exact h.residence.semkey_of_ready hready
  have hfound : ∀ x, Below k.pChild x (p.getD k.runningProc) → k.Removable x := by
    intro x hx
    by_cases hkey : k.pSemkey x = none
    · rcases h.locatable ht hclean hret x hx with hne | hlists
      · exact absurd hkey hne
      · exact Or.inr ⟨hkill x hx hkey, hlists.mp (hkill x hx hkey)⟩
    · exact Or.inl hkey
  obtain ⟨l', k₁, hterm, hdone, hok⟩ := terminate_of_removable h ht hfound
  obtain ⟨rfl, rfl⟩ : ret = 0 ∧ k' = k₁ := by
    have := hret.symm.trans hterm
    exact ⟨congrArg Prod.fst (Except.ok.inj this), congrArg Prod.snd (Except.ok.inj this)⟩
  exact ⟨rfl, ⟨l', hdone⟩, hok⟩

end Termination

/-- The adopted process, before it is scheduled. -/
theorem Ok.adopt
    (h : k.Ok) {x : Proc} {free : List Proc} (hfree : k.pcbFreeH = x :: free)
    (hidle : k.runningProc ≠ .idle) (s : State A) (priority : Int) :
    (k.adopt x free s priority).Ok ∧ (k.adopt x free s priority).Absent x ∧
      x ≠ .idle ∧ x ≠ k.runningProc := by
  have hres := h.residence
  have htree := h.tree
  have hidleAbsent := h.idle
  have hrunAbsent := h.running
  rw [hfree] at hres htree
  rw [Absent, hfree] at hidleAbsent hrunAbsent
  have hxkey : k.pSemkey x = none := hres.semkey_of_free List.mem_cons_self
  have hkeys : Function.update k.pSemkey x none = k.pSemkey := by
    rw [← hxkey, Function.update_eq_self]
  have hx : Residence.Absent k.asl free k.readyQueue x := Residence.absent_freeHead hres
  have hxidle : x ≠ .idle := by
    rintro rfl
    exact (Residence.absent_iff.mp hidleAbsent).1 List.mem_cons_self
  have hxrun : x ≠ k.runningProc := by
    intro hxrun
    exact (Residence.absent_iff.mp hrunAbsent).1 (hxrun ▸ List.mem_cons_self)
  have hxfree : x ∉ free := (List.nodup_cons.mp hres.free_nodup).1
  have hsub : free ⊆ x :: free := List.subset_cons_self x free
  refine ⟨⟨?_, ?_, ?_, ?_⟩, hx, hxidle, hxrun⟩
  · show Residence k.asl free k.readyQueue (Function.update k.pSemkey x none)
    rw [hkeys]
    exact hres.leaveFree (List.sublist_cons_self x free)
  · exact htree.adopt hxfree hxidle ⟨hidle, (Residence.absent_iff.mp hrunAbsent).1⟩
  · exact Residence.absent_leaveFree hidleAbsent hsub
  · exact Residence.absent_leaveFree hrunAbsent hsub

/-- The running process has been put into a waiting queue, and the next one runs. -/
theorem Ok.block
    (h : k.Ok) (hidle : k.runningProc ≠ .idle) {key : SemKey} {asl : Asl} {q : List Proc}
    (hOk : asl.Ok) (hwait : asl.waitQueue = Function.update k.waitQueue key q)
    (hq : q.Perm (k.runningProc :: k.waitQueue key)) :
    Residence asl k.pcbFreeH k.readyQueue
        (Function.update k.pSemkey k.runningProc (some key)) ∧
      Residence.Absent asl k.pcbFreeH k.readyQueue .idle :=
  ⟨h.residence.block h.running hOk hwait hq,
    Residence.absent_block h.idle (Ne.symm hidle) hwait hq⟩

/-- The first process of a waiting queue has been taken out of it. -/
theorem Ok.unblock
    (h : k.Ok) {key : SemKey} {asl : Asl} {x : Proc} {q : List Proc}
    (hOk : asl.Ok) (hq : k.waitQueue key = x :: q)
    (hwait : asl.waitQueue = Function.update k.waitQueue key q) :
    { k with asl := asl, pSemkey := Function.update k.pSemkey x none }.Ok ∧
      { k with asl := asl, pSemkey := Function.update k.pSemkey x none }.Absent x ∧
      x ≠ .idle ∧ x ≠ k.runningProc := by
  have hx : x ∈ k.waitQueue key := hq ▸ List.mem_cons_self
  have hsub : q.Sublist (k.waitQueue key) := hq ▸ List.sublist_cons_self x q
  obtain ⟨hres, habsent⟩ := h.residence.unblock hOk hx hwait (by
    show (k.waitQueue key).Perm (x :: q)
    rw [hq]) hsub
  have hne : ∀ y, k.Absent y → x ≠ y := by
    rintro y hy rfl
    exact (Residence.absent_iff.mp hy).2.2 key hx
  exact ⟨⟨hres, h.tree, Residence.absent_unblock h.idle hwait hsub.subset,
    Residence.absent_unblock h.running hwait hsub.subset⟩, habsent, hne _ h.idle,
    hne _ h.running⟩

/-- The second half of `done_io` does not touch the lists. -/
theorem Ok.nextCommand
    (h : k.Ok) (d : Dev) (next : Option Proc) :
    (k.nextCommand m d next).Ok := by
  cases next <;> exact ⟨h.residence, h.tree, h.idle, h.running⟩

theorem Ok.respond
    (h : k.Ok) {x : Proc} (hx : k.Absent x) (hidle : x ≠ .idle) (hne : x ≠ k.runningProc)
    (status : Word) :
    (k.respond x status).Ok := by
  have h' : { k with devWList := Function.update k.devWList x none }.Ok :=
    ⟨h.residence, h.tree, h.idle, h.running⟩
  obtain ⟨hres, htree, hidle', hrun⟩ := h'.scheduleProc hx hidle hne
  exact ⟨hres, htree, hidle', hrun⟩

/-- A completion interrupt keeps the invariant. -/
theorem Ok.doneIo
    (h : k.Ok) (d : Dev) (status : Word) :
    (k.doneIo m d status).Ok := by
  cases hr : k.wForRes d with
  | none =>
      rw [doneIo_none m d hr]
      exact ⟨h.residence, h.tree, h.idle, h.running⟩
  | some r =>
      cases hq : k.waitQueue (.dev d) with
      | nil =>
          rw [doneIo_nil m d h.residence.aslOk hr hq]
          exact h.nextCommand d none
      | cons x q =>
          obtain ⟨asl, hdone, hOk, hwait⟩ := doneIo_cons m d h.residence.aslOk hr hq status
          obtain ⟨hok, habsent, hidle, hne⟩ := h.unblock hOk hq hwait
          rw [hdone]
          refine Ok.nextCommand ?_ d q.head?
          split_ifs with hx
          · subst hx
            exact hok.respond habsent hidle hne status
          · exact hok

/-- WAITIO keeps the invariant. -/
theorem Ok.waitDev
    (h : k.Ok) (hidle : k.runningProc ≠ .idle) (d : Dev) (command devReg tod : Word) :
    (k.waitDev m command devReg d tod).Ok := by
  rcases waitDev_spec m d h hidle command devReg tod with
    ⟨-, asl, heq, hOk, hwait⟩ | ⟨-, asl, heq, hOk, hwait⟩
  · obtain ⟨hres, hidle'⟩ := h.block hidle hOk hwait (insertProcQ_perm _ _ _)
    rw [heq]
    exact Ok.runNextReady hres h.tree hidle'
  · obtain ⟨hres, hidle'⟩ := h.block hidle hOk hwait (List.perm_append_singleton _ _)
    rw [heq]
    exact Ok.runNextReady hres h.tree hidle'

/-- V keeps the invariant. -/
theorem Ok.v
    (h : k.Ok) (a : SemAddr) :
    (k.v m a).Ok := by
  rcases v_spec m a h.residence.aslOk with ⟨-, heq⟩ | ⟨x, q, asl, hq, heq, hOk, hwait⟩
  · rw [heq]
    exact ⟨h.residence, h.tree, h.idle, h.running⟩
  · obtain ⟨⟨hres, htree, hidle', hrun⟩, habsent, hidle, hne⟩ := h.unblock hOk hq hwait
    rw [heq]
    exact Ok.scheduleProc ⟨hres, htree, hidle', hrun⟩ habsent hidle hne

/-- P keeps the invariant, and returns. -/
theorem Ok.p
    (h : k.Ok) (hidle : k.runningProc ≠ .idle) (a : SemAddr) (tod : Word) :
    ∃ k', k.p m a tod = .ok k' ∧ k'.Ok := by
  rcases p_spec m a h hidle tod with ⟨-, heq⟩ | ⟨-, asl, heq, hOk, hwait⟩
  · exact ⟨_, heq, h.residence, h.tree, h.idle, h.running⟩
  · obtain ⟨hres, hidle'⟩ := h.block hidle hOk hwait (insertProcQ_perm _ _ _)
    exact ⟨_, heq, Ok.runNextReady hres h.tree hidle'⟩

/-- The end of a time slice keeps the invariant. -/
theorem Ok.timeSlice
    (h : k.Ok) :
    (k.timeSliceCallback m).Ok := by
  rcases timeSlice_spec (k := k) m with ⟨heq, -⟩ | ⟨x, q, hq, -, heq⟩
  · rw [heq]
    exact ⟨h.residence, h.tree, h.idle, h.running⟩
  · have hres := h.residence
    rw [hq] at hres
    have hsub : q.Sublist k.readyQueue := hq ▸ List.sublist_cons_self x q
    have hne : x ≠ k.runningProc := by
      rintro rfl
      exact h.running_not_ready (hq ▸ List.mem_cons_self)
    rw [heq]
    refine Ok.preempt ⟨h.residence.leaveReady hsub, h.tree, ?_, ?_⟩ ?_ hne
    · exact Residence.absent_leaveReady h.idle hsub.subset
    · exact Residence.absent_leaveReady h.running hsub.subset
    · exact Residence.absent_readyHead hres

/-- Creation keeps the invariant, and returns. -/
theorem Ok.createProcess
    (h : k.Ok) (hidle : k.runningProc ≠ .idle) (s : State A) (priority : Int) :
    ∃ created k', k.createProcess s priority = .ok (created, k') ∧ k'.Ok := by
  cases hfree : k.pcbFreeH with
  | nil =>
      exact ⟨_, _, createProcess_nil hfree s priority, h⟩
  | cons x free =>
      obtain ⟨hok, habsent, hxidle, hxrun⟩ := h.adopt hfree hidle s priority
      exact ⟨_, _, createProcess_cons hfree hxrun s priority,
        hok.scheduleProc habsent hxidle hxrun⟩

/-- A TERMINATEPROCESS that returns has killed the subtree of its target. -/
theorem Step.terminated
    {p : Option Proc} (hstep : Step m k (.terminateProcess p) k') (h : k.Ok)
    (hkill : k.Killable p) :
    (∃ l, k.Terminated (p.getD k.runningProc) l k') ∧ k'.Ok := by
  obtain ⟨⟨hidle, hp⟩, hexec⟩ := hstep
  simp only [exec] at hexec
  cases hterm : k.terminateProc p with
  | error e =>
      rw [hterm] at hexec
      exact absurd hexec (by simp [Except.map])
  | ok r =>
      rw [hterm] at hexec
      obtain rfl : r.2 = k' := Except.ok.inj hexec
      exact (terminate_cases h (h.target_live (fun _ => hidle) hp) hkill hterm).2

/-- A TERMINATEPROCESS that returns has also vacated the devices it was looked for on. -/
theorem Step.vacated
    {p : Option Proc} (hstep : Step m k (.terminateProcess p) k') (h : k.Ok)
    (hsound : k.Undamaging (.terminateProcess p)) :
    ∃ l k₁, k.Terminated (p.getD k.runningProc) l k₁ ∧ k₁.Ok ∧
      k' = { k₁ with wForRes := k.vacated l } := by
  obtain ⟨⟨hidle, hp⟩, hexec⟩ := hstep
  have ht := h.target_live (fun _ => hidle) hp
  simp only [exec] at hexec
  cases hterm : k.terminateProc p with
  | error e =>
      rw [hterm] at hexec
      exact absurd hexec (by simp [Except.map])
  | ok r =>
      obtain ⟨l, k₁, hdone, hok, heq⟩ :=
        terminate_of_locatable h ht (h.locatable ht hsound hterm)
      rw [heq] at hexec
      exact ⟨l, k₁, hdone, hok, (Except.ok.inj hexec).symm⟩

/-- Every operation that damages no queue keeps the invariant. -/
theorem Ok.step_of_undamaging
    {op : Operation A} (h : k.Ok) (hsound : k.Undamaging op) (hstep : Step m k op k') :
    k'.Ok := by
  obtain ⟨hadm, hexec⟩ := hstep
  cases op with
  | createProcess s priority =>
      obtain ⟨created, k₁, heq, hok⟩ := h.createProcess hadm s priority
      simp only [exec, heq] at hexec
      exact Except.ok.inj hexec ▸ hok
  | terminateProcess p =>
      obtain ⟨l, k₁, -, hok, rfl⟩ := Step.vacated ⟨hadm, hexec⟩ h hsound
      exact ⟨hok.residence, hok.tree, hok.idle, hok.running⟩
  | passeren semaddr tod =>
      obtain ⟨k₁, heq, hok⟩ := h.p hadm (m := m) semaddr tod
      simp only [exec, heq] at hexec
      exact Except.ok.inj hexec ▸ hok
  | verhogen semaddr =>
      exact Except.ok.inj hexec ▸ h.v semaddr
  | waitIo command devReg subdev tod =>
      obtain ⟨d, -, rfl⟩ := exec_waitIo hexec
      exact h.waitDev hadm d command devReg tod
  | doneIo d status =>
      exact Except.ok.inj hexec ▸ h.doneIo d status
  | timeSlice =>
      exact Except.ok.inj hexec ▸ h.timeSlice
  | write a value =>
      exact Except.ok.inj hexec ▸ ⟨h.residence, h.tree, h.idle, h.running⟩

/-- Every operation keeps the invariant. -/
theorem Ok.step
    {op : Operation A} (h : k.Ok) (hsafe : k.Safe op) (hstep : Step m k op k') :
    k'.Ok :=
  h.step_of_undamaging (hsafe.undamaging h) hstep

end Kernel

end Bikaya
