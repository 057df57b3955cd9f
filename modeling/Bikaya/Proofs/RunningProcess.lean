import Bikaya.Proofs.Termination

/-!
# Bikaya: the running process

The invariant of the kernel's lists together with the running process, which is in none of
them, and the rules for the routines that change who runs.

**Plan.**  `Ok` puts the invariants of the lists and of the tree together.  The running
process, like the idle one, is absent from the lists.  A routine that changes who runs puts
a process that was absent into the ready queue, or takes one out.

**Results.**
* `Ok.scheduleProc`, `Ok.runNextReady`, `Ok.preempt`: these routines keep the invariant.
* `Accounted.scheduleProc`: and they lose no process.
* `Ok.target_live`: the target of an admissible termination is alive.
-/

namespace Bikaya

namespace Kernel

variable {A : Arch} {k : Kernel A} {x y : Proc}

/-- `x` is in none of the lists of PCBs. -/
abbrev Absent (k : Kernel A) (x : Proc) : Prop :=
  Residence.Absent k.asl k.pcbFreeH k.readyQueue x

/-- The invariant of the lists, of the process tree and of the running process. -/
structure Ok (k : Kernel A) : Prop where
  residence : Residence k.asl k.pcbFreeH k.readyQueue k.pSemkey
  tree : TreeOk k.pParent k.pChild k.pcbFreeH
  idle : k.Absent .idle
  running : k.Absent k.runningProc

section Places

theorem Ok.running_not_free (h : k.Ok) : k.runningProc ∉ k.pcbFreeH :=
  (Residence.absent_iff.mp h.running).1

theorem Ok.running_not_ready (h : k.Ok) : k.runningProc ∉ k.readyQueue :=
  (Residence.absent_iff.mp h.running).2.1

theorem Ok.running_not_queued (h : k.Ok) (key : SemKey) : k.runningProc ∉ k.waitQueue key :=
  (Residence.absent_iff.mp h.running).2.2 key

theorem Ok.idle_not_free (h : k.Ok) : .idle ∉ k.pcbFreeH :=
  (Residence.absent_iff.mp h.idle).1

theorem Ok.idle_not_ready (h : k.Ok) : .idle ∉ k.readyQueue :=
  (Residence.absent_iff.mp h.idle).2.1

theorem Ok.idle_not_queued (h : k.Ok) (key : SemKey) : .idle ∉ k.waitQueue key :=
  (Residence.absent_iff.mp h.idle).2.2 key

/-- A waiting process does not run. -/
theorem Ok.ne_running_of_queued (h : k.Ok) {key : SemKey} (hx : x ∈ k.waitQueue key) :
    x ≠ k.runningProc := by
  rintro rfl
  exact h.running_not_queued key hx

/-- The first process of a waiting queue, and the others. -/
theorem Ok.queue_nodup
    (h : k.Ok) {key : SemKey} {q : List Proc} (hq : k.waitQueue key = x :: q) :
    x ∉ q ∧ q.Nodup := by
  have hnd : (k.waitQueue key).Nodup := h.residence.wait_nodup key
  rw [hq] at hnd
  exact List.nodup_cons.mp hnd

theorem Ok.head_notMem
    (h : k.Ok) {key : SemKey} {q : List Proc} (hq : k.waitQueue key = x :: q) :
    x ∉ q :=
  (h.queue_nodup hq).1

end Places

/-- No process is lost: each one runs or is in one of the lists. -/
def Accounted (k : Kernel A) : Prop :=
  ∀ x, x ≠ .idle → k.Absent x → x = k.runningProc

/-- `stop_running_proc`, then `set_running_proc`. -/
def preempt (k : Kernel A) (x : Proc) : Kernel A :=
  k.stopRunningProc.setRunningProc (some x)

theorem preempt_idle (hidle : k.runningProc = .idle) :
    k.preempt x = { k with runningProc := x } := by
  simp [preempt, stopRunningProc, setRunningProc, hidle]

theorem preempt_of_ne (hidle : k.runningProc ≠ .idle) :
    k.preempt x =
      { k with
        priority := Function.update k.priority k.runningProc
          (k.originalPriority k.runningProc)
        readyQueue := insertProcQ
          (Function.update k.priority k.runningProc (k.originalPriority k.runningProc))
          k.readyQueue k.runningProc
        runningProc := x } := by
  simp [preempt, stopRunningProc, setRunningProc, hidle]

/-- What `schedule_proc` does: it preempts the running process, or queues the new one. -/
theorem scheduleProc_cases (k : Kernel A) (x : Proc) :
    ((k.runningProc = .idle ∨ k.priority k.runningProc < k.priority x) ∧
      k.scheduleProc x = k.preempt x) ∨
    (k.runningProc ≠ .idle ∧ k.priority x ≤ k.priority k.runningProc ∧
      k.scheduleProc x =
        { k with readyQueue := insertProcQ k.priority k.readyQueue x }) := by
  by_cases hswap : k.priority x > k.priority k.runningProc ∨ k.runningProc = .idle
  · exact Or.inl ⟨hswap.symm, by rw [scheduleProc, if_pos hswap]; rfl⟩
  · obtain ⟨hle, hidle⟩ := not_or.mp hswap
    exact Or.inr ⟨hidle, not_lt.mp hle, by rw [scheduleProc, if_neg hswap]⟩

/-- A scheduled process is ready or runs. -/
theorem scheduleProc_places (k : Kernel A) (x : Proc) :
    x ∈ (k.scheduleProc x).readyQueue ∨ x = (k.scheduleProc x).runningProc := by
  rcases scheduleProc_cases k x with ⟨-, heq⟩ | ⟨-, -, heq⟩
  · rw [heq]
    exact Or.inr rfl
  · rw [heq]
    exact Or.inl (mem_insertProcQ.mpr (Or.inl rfl))

section Rules

/-- A process outside the lists becomes the running one. -/
theorem Ok.preempt
    (h : k.Ok) (hx : k.Absent x) (hne : x ≠ k.runningProc) :
    (k.preempt x).Ok := by
  by_cases hidle : k.runningProc = .idle
  · rw [preempt_idle hidle]
    exact ⟨h.residence, h.tree, h.idle, hx⟩
  · rw [preempt_of_ne hidle]
    have hq := insertProcQ_perm
      (Function.update k.priority k.runningProc (k.originalPriority k.runningProc))
      k.readyQueue k.runningProc
    exact
      { residence := h.residence.enterReady h.running hq
        tree := h.tree
        idle := Residence.absent_enterReady h.idle (Ne.symm hidle) hq
        running := Residence.absent_enterReady hx hne hq }

/-- A process outside the lists is scheduled. -/
theorem Ok.scheduleProc
    (h : k.Ok) (hx : k.Absent x) (hidle : x ≠ .idle) (hne : x ≠ k.runningProc) :
    (k.scheduleProc x).Ok := by
  rcases scheduleProc_cases k x with ⟨-, heq⟩ | ⟨-, -, heq⟩
  · rw [heq]
    exact h.preempt hx hne
  · rw [heq]
    have hq := insertProcQ_perm k.priority k.readyQueue x
    exact
      { residence := h.residence.enterReady hx hq
        tree := h.tree
        idle := Residence.absent_enterReady h.idle (Ne.symm hidle) hq
        running := Residence.absent_enterReady h.running (Ne.symm hne) hq }

theorem absent_preempt
    (hy : (k.preempt x).Absent y) (hyidle : y ≠ .idle) :
    k.Absent y ∧ y ≠ k.runningProc ∨ (y = k.runningProc ∧ k.runningProc = .idle) := by
  by_cases hidle : k.runningProc = .idle
  · rw [preempt_idle hidle] at hy
    refine Or.inl ⟨hy, ?_⟩
    rw [hidle]
    exact hyidle
  · rw [preempt_of_ne hidle] at hy
    obtain ⟨hfree, hready, hwait⟩ := Residence.absent_iff.mp hy
    simp only [mem_insertProcQ, not_or] at hready
    exact Or.inl ⟨Residence.absent_iff.mpr ⟨hfree, hready.2, hwait⟩, hready.1⟩

/-- Scheduling accounts for a process that was in none of the lists. -/
theorem Accounted.scheduleProc
    (h : ∀ y, y ≠ .idle → k.Absent y → y = k.runningProc ∨ y = x) :
    (k.scheduleProc x).Accounted := by
  intro y hyidle hy
  rcases scheduleProc_cases k x with ⟨-, heq⟩ | ⟨-, -, heq⟩
  · rw [heq] at hy ⊢
    rcases absent_preempt hy hyidle with ⟨habsent, hne⟩ | ⟨rfl, hidle⟩
    · exact (h y hyidle habsent).resolve_left hne
    · exact absurd hidle hyidle
  · rw [heq] at hy ⊢
    obtain ⟨hfree, hready, hwait⟩ := Residence.absent_iff.mp hy
    simp only [mem_insertProcQ, not_or] at hready
    exact (h y hyidle (Residence.absent_iff.mpr ⟨hfree, hready.2, hwait⟩)).resolve_right
      hready.1

theorem Accounted.preempt
    (h : ∀ y, y ≠ .idle → k.Absent y → y = k.runningProc ∨ y = x) :
    (k.preempt x).Accounted := by
  intro y hyidle hy
  rcases absent_preempt hy hyidle with ⟨habsent, hne⟩ | ⟨rfl, hidle⟩
  · exact (h y hyidle habsent).resolve_left hne
  · exact absurd hidle hyidle

/-- The first ready process runs, or the idle process does. -/
theorem Ok.runNextReady
    (hres : Residence k.asl k.pcbFreeH k.readyQueue k.pSemkey)
    (htree : TreeOk k.pParent k.pChild k.pcbFreeH) (hidle : k.Absent .idle) :
    k.runNextReady.Ok := by
  rw [runNextReady_eq]
  have htail : k.readyQueue.tail ⊆ k.readyQueue := (List.tail_sublist _).subset
  refine
    { residence := hres.leaveReady (List.tail_sublist _)
      tree := htree
      idle := Residence.absent_leaveReady hidle htail
      running := ?_ }
  cases hq : k.readyQueue with
  | nil =>
      rw [Absent, hq] at hidle
      exact hidle
  | cons a q =>
      rw [hq] at hres
      exact Residence.absent_readyHead hres

theorem Accounted.runNextReady
    (h : ∀ y, y ≠ .idle → ¬ k.Absent y) :
    k.runNextReady.Accounted := by
  rw [runNextReady_eq]
  intro y hyidle hy
  cases hq : k.readyQueue with
  | nil =>
      rw [hq] at hy
      refine absurd ?_ (h y hyidle)
      rw [Absent, hq]
      exact hy
  | cons a q =>
      rw [hq] at hy
      by_contra hne
      refine h y hyidle ?_
      obtain ⟨hfree, hready, hwait⟩ := Residence.absent_iff.mp hy
      refine Residence.absent_iff.mpr ⟨hfree, ?_, hwait⟩
      rw [hq]
      exact fun hmem => (List.mem_cons.mp hmem).elim hne hready

/-- The running process of the kernel is live, unless nothing runs. -/
theorem Ok.running_live (h : k.Ok) (hidle : k.runningProc ≠ .idle) : k.Live k.runningProc :=
  ⟨hidle, h.running_not_free⟩

/-- The target of a termination is live. -/
theorem Ok.target_live
    (h : k.Ok) {p : Option Proc} (hidle : p = none → k.runningProc ≠ .idle)
    (hp : ∀ q ∈ p, k.Live q) :
    k.Live (p.getD k.runningProc) := by
  cases p with
  | none =>
      exact h.running_live (hidle rfl)
  | some q =>
      exact hp q rfl

/-- There is a descriptor for the running process to block on. -/
theorem Ok.room
    (h : k.Ok) (hidle : k.runningProc ≠ .idle) (key : SemKey) :
    k.waitQueue key ≠ [] ∨ k.asl.semdFreeH ≠ [] :=
  Or.inr (h.residence.exists_free_semd h.running h.idle hidle)

end Rules

end Kernel

end Bikaya
