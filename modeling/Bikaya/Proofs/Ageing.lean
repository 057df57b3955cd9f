import Bikaya.Proofs.Boot
import Bikaya.Proofs.Conservation
import Mathlib.Tactic.IntervalCases

/-!
# Bikaya: the ageing of the ready processes

A ready process has its original priority and one unit for each time slice that ended since
it entered the ready queue.  The paths into the ready queue forget the units collected
before, with one exception: the completion of a device operation.

**Plan.**  `bonus` is what a process has beyond its original priority.  `Accrues` says,
move by move, how an operation changes the bonus of the ready processes, and every
operation is shown to be such a move.  `AgesExactly` is the law for one step; it fails for
one kind of step only, the completion that requeues a process with the units it had
collected while it waited.  `AgeingLaw` carries the law along a run, from the last entry of
the process into the ready queue.

**Results.**
* `Step.accrues`: what a step does to the bonus of a ready process.
* `ageing_law`: in every state of a run the law holds if and only if every process that a
  completion requeues has its original priority.
* `ageing_law_before_completion`: a run in which one does.
-/

namespace Bikaya

open TransitionSystem

namespace Kernel

variable {A : Arch} {k k' : Kernel A} {m : IntModel}

/-- The units of priority that a process has collected. -/
def bonus (k : Kernel A) (x : Proc) : ℤ :=
  k.priority x - k.originalPriority x

/-- The operation is a completion that puts `x` into the ready queue. -/
def Requeues (k : Kernel A) (x : Proc) : Operation A → Prop
  | .doneIo d _ =>
      k.wForRes d = some x ∧ (k.waitQueue (.dev d)).head? = some x ∧
        k.runningProc ≠ .idle ∧ k.priority x ≤ k.priority k.runningProc
  | _ => False

/-- At the end of a time slice the priorities of the ready processes do not overflow. -/
def AgesExactly (m : IntModel) (k : Kernel A) : Operation A → Prop
  | .timeSlice => ∀ x ∈ k.readyQueue, m.add (k.priority x) 1 = k.priority x + 1
  | _ => True

section Steps

/-- Who is ready after a process has been scheduled, and with what bonus. -/
theorem bonus_preempt
    {x y : Proc} (hy : y ∈ (k.preempt x).readyQueue) (hrun : k.runningProc ∉ k.readyQueue) :
    (y ∈ k.readyQueue ∧ (k.preempt x).bonus y = k.bonus y) ∨
      (y = k.runningProc ∧ (k.preempt x).bonus y = 0) := by
  by_cases hidle : k.runningProc = .idle
  · rw [preempt_idle hidle] at hy ⊢
    exact Or.inl ⟨hy, rfl⟩
  · rw [preempt_of_ne hidle] at hy ⊢
    rcases mem_insertProcQ.mp hy with rfl | hmem
    · refine Or.inr ⟨rfl, ?_⟩
      simp [bonus]
    · have hne : y ≠ k.runningProc := fun heq => hrun (heq ▸ hmem)
      refine Or.inl ⟨hmem, ?_⟩
      simp [bonus, hne]

theorem bonus_scheduleProc
    {x y : Proc} (hy : y ∈ (k.scheduleProc x).readyQueue)
    (hrun : k.runningProc ∉ k.readyQueue) :
    (y ∈ k.readyQueue ∧ (k.scheduleProc x).bonus y = k.bonus y) ∨
      (y = k.runningProc ∧ (k.scheduleProc x).bonus y = 0) ∨
      (y = x ∧ (k.scheduleProc x).bonus y = k.bonus y ∧
        k.runningProc ≠ .idle ∧ k.priority x ≤ k.priority k.runningProc) := by
  rcases scheduleProc_cases k x with ⟨-, heq⟩ | ⟨hidle, hle, heq⟩
  · rw [heq] at hy ⊢
    rcases bonus_preempt hy hrun with hready | hself
    · exact Or.inl hready
    · exact Or.inr (Or.inl hself)
  · rw [heq] at hy ⊢
    rcases mem_insertProcQ.mp hy with rfl | hmem
    · exact Or.inr (Or.inr ⟨rfl, rfl, hidle, hle⟩)
    · exact Or.inl ⟨hmem, rfl⟩

/-- The process `x` stays ready, and its bonus grows with the time slices. -/
def Accrues (k k₁ : Kernel A) (x : Proc) : Prop :=
  x ∈ k.readyQueue ∧ k₁.bonus x = k.bonus x + (k₁.slices - k.slices)

theorem accrues_of_subset
    {k₁ : Kernel A} {x : Proc} (hx : x ∈ k₁.readyQueue) (hsub : k₁.readyQueue ⊆ k.readyQueue)
    (hbonus : k₁.bonus x = k.bonus x) (hslices : k₁.slices = k.slices) :
    k.Accrues k₁ x :=
  ⟨hsub hx, by rw [hbonus, hslices]; omega⟩

theorem accrues_runNextReady
    {k₁ : Kernel A} {x : Proc} (hx : x ∈ k₁.runNextReady.readyQueue)
    (hready : k₁.readyQueue = k.readyQueue) (hbonus : k₁.bonus x = k.bonus x)
    (hslices : k₁.slices = k.slices) :
    k.Accrues k₁.runNextReady x := by
  rw [runNextReady_eq] at hx ⊢
  exact accrues_of_subset hx (hready ▸ (List.tail_sublist _).subset) hbonus hslices

theorem slices_scheduleProc (k : Kernel A) (x : Proc) : (k.scheduleProc x).slices = k.slices := by
  obtain ⟨_, _, _, heq⟩ := scheduleProc_frame k x
  rw [heq]

/-- Scheduling `z`, which was not ready. -/
theorem accrues_scheduleProc
    {k₁ : Kernel A} {x z : Proc} (hx : x ∈ (k₁.scheduleProc z).readyQueue)
    (hz : z ∉ k.readyQueue) (hrun : k.runningProc ∉ k.readyQueue)
    (hready : k₁.readyQueue = k.readyQueue) (hrunning : k₁.runningProc = k.runningProc)
    (hbonus : ∀ y ∈ k.readyQueue, k₁.bonus y = k.bonus y) (hslices : k₁.slices = k.slices) :
    k.Accrues (k₁.scheduleProc z) x ∨
      (x ∉ k.readyQueue ∧ ((k₁.scheduleProc z).bonus x = 0 ∨
        (x = z ∧ (k₁.scheduleProc z).bonus x = k₁.bonus x ∧
          k.runningProc ≠ .idle ∧ k₁.priority z ≤ k₁.priority k.runningProc))) := by
  rw [← hready, ← hrunning] at hrun
  rcases bonus_scheduleProc hx hrun with ⟨hmem, heq⟩ | ⟨rfl, heq⟩ | ⟨rfl, heq, hidle, hle⟩
  · rw [hready] at hmem
    refine Or.inl ⟨hmem, ?_⟩
    rw [heq, hbonus x hmem, slices_scheduleProc, hslices]
    omega
  · rw [hready] at hrun
    exact Or.inr ⟨hrun, Or.inl heq⟩
  · rw [hrunning] at hidle hle
    exact Or.inr ⟨hz, Or.inr ⟨rfl, heq, hidle, hle⟩⟩

/-- The end of a time slice, when nothing overflows. -/
theorem accrues_timeSlice
    (h : k.Ok) (hexact : ∀ x ∈ k.readyQueue, m.add (k.priority x) 1 = k.priority x + 1)
    {x : Proc} (hx : x ∈ (k.timeSliceCallback m).readyQueue) :
    k.Accrues (k.timeSliceCallback m) x ∨
      (x ∉ k.readyQueue ∧ (k.timeSliceCallback m).bonus x = 0) := by
  have hrun : k.runningProc ∉ k.readyQueue := h.running_not_ready
  have hage : ∀ y ∈ k.readyQueue,
      raisePriorities m k.priority k.readyQueue y = k.priority y + 1 := by
    intro y hy
    rw [raisePriorities_of_mem m k.priority h.residence.ready_nodup hy]
    exact hexact y hy
  rcases timeSlice_spec (k := k) m with ⟨heq, -⟩ | ⟨y, q, hq, -, heq⟩
  · rw [heq] at hx ⊢
    refine Or.inl ⟨hx, ?_⟩
    simp only [bonus, hage x hx]
    push_cast
    omega
  · rw [heq] at hx ⊢
    have hrunq : k.runningProc ∉ q := fun hmem => hrun (hq ▸ List.mem_cons_of_mem _ hmem)
    have hslices : ∀ k₁ : Kernel A, (k₁.preempt y).slices = k₁.slices := by
      intro k₁
      obtain ⟨_, _, hframe⟩ := preempt_frame k₁ y
      rw [hframe]
    rcases bonus_preempt hx hrunq with ⟨hmem, hbonus⟩ | ⟨rfl, hbonus⟩
    · have hready : x ∈ k.readyQueue := hq ▸ List.mem_cons_of_mem _ hmem
      refine Or.inl ⟨hready, ?_⟩
      rw [hbonus, hslices]
      simp only [bonus, hage x hready]
      push_cast
      omega
    · exact Or.inr ⟨hrun, hbonus⟩

theorem bonus_nextCommand (k : Kernel A) (d : Dev) (next : Option Proc) :
    (k.nextCommand m d next).bonus = k.bonus ∧
      (∀ x, x ∈ (k.nextCommand m d next).readyQueue ↔ x ∈ k.readyQueue) ∧
      (k.nextCommand m d next).slices = k.slices := by
  cases next <;> exact ⟨rfl, fun _ => Iff.rfl, rfl⟩

/-- The completion of a device operation: the served process keeps its bonus. -/
theorem accrues_doneIo
    (h : k.Ok) {d : Dev} {status : Word} {x : Proc}
    (hx : x ∈ (k.doneIo m d status).readyQueue) :
    k.Accrues (k.doneIo m d status) x ∨
      (x ∉ k.readyQueue ∧ ((k.doneIo m d status).bonus x = 0 ∨
        (k.Requeues x (.doneIo d status) ∧ (k.doneIo m d status).bonus x = k.bonus x))) := by
  have hrun : k.runningProc ∉ k.readyQueue := h.running_not_ready
  cases hr : k.wForRes d with
  | none =>
      rw [doneIo_none m d hr] at hx ⊢
      exact Or.inl (accrues_of_subset hx (List.Subset.refl _) rfl rfl)
  | some r =>
      cases hq : k.waitQueue (.dev d) with
      | nil =>
          rw [doneIo_nil m d h.residence.aslOk hr hq] at hx ⊢
          obtain ⟨hbonus, hready, hslices⟩ := bonus_nextCommand (m := m) k d none
          exact Or.inl (accrues_of_subset hx (fun y => (hready y).mp) (congrFun hbonus x) hslices)
      | cons y q =>
          obtain ⟨asl, heq, -, -⟩ := doneIo_cons m d h.residence.aslOk hr hq status
          rw [heq] at hx ⊢
          split_ifs at hx ⊢ with hyr
          · subst hyr
            have hy : y ∉ k.readyQueue := h.residence.not_ready_of_wait (hq ▸ List.mem_cons_self)
            obtain ⟨hbonus, hready, hslices⟩ := bonus_nextCommand (m := m)
              ({ k with asl := asl, pSemkey := Function.update k.pSemkey y none }.respond y status)
              d q.head?
            rw [Accrues, hbonus, hslices]
            rcases accrues_scheduleProc (k := k) (z := y) ((hready x).mp hx) hy hrun rfl rfl
              (fun _ _ => rfl) rfl with hstay | ⟨hnot, hzero | ⟨rfl, hkept, hidle, hle⟩⟩
            · exact Or.inl hstay
            · exact Or.inr ⟨hnot, Or.inl hzero⟩
            · exact Or.inr ⟨hnot, Or.inr ⟨⟨hr, by rw [hq]; rfl, hidle, hle⟩, hkept⟩⟩
          · obtain ⟨hbonus, hready, hslices⟩ := bonus_nextCommand (m := m)
              { k with asl := asl, pSemkey := Function.update k.pSemkey y none } d q.head?
            exact Or.inl (accrues_of_subset hx (fun y => (hready y).mp) (congrFun hbonus x) hslices)

/--
What an operation does to the bonus of a process that is ready afterwards: it grows with
the time slices while the process stays ready, and a process that enters the ready
queue starts from 0, unless a completion puts it there.
-/
theorem Step.accrues
    {op : Operation A} (h : k.Ok) (hsound : k.Undamaging op) (hexact : k.AgesExactly m op)
    (hstep : Step m k op k') {x : Proc} (hx : x ∈ k'.readyQueue) :
    k.Accrues k' x ∨
      (x ∉ k.readyQueue ∧ (k'.bonus x = 0 ∨ (k.Requeues x op ∧ k'.bonus x = k.bonus x))) := by
  obtain ⟨hadm, hexec⟩ := hstep
  have hrun : k.runningProc ∉ k.readyQueue := h.running_not_ready
  cases op with
  | createProcess s priority =>
      cases hnil : k.pcbFreeH with
      | nil =>
          simp only [exec, createProcess_nil hnil] at hexec
          obtain rfl := Except.ok.inj hexec
          exact Or.inl (accrues_of_subset hx (List.Subset.refl _) rfl rfl)
      | cons z free =>
          obtain ⟨-, habsent, hzidle, hzrun⟩ := h.adopt hnil hadm s priority
          have hz : z ∉ k.readyQueue := (Residence.absent_iff.mp habsent).2.1
          have hother : ∀ y ∈ k.readyQueue, (k.adopt z free s priority).bonus y = k.bonus y := by
            intro y hy
            have hyz : y ≠ z := fun heq => hz (heq ▸ hy)
            simp [bonus, adopt, hyz]
          simp only [exec, createProcess_cons hnil hzrun] at hexec
          obtain rfl := Except.ok.inj hexec
          rcases accrues_scheduleProc hx hz hrun rfl rfl hother rfl with
            hstay | ⟨hnot, hzero | ⟨rfl, hkept, -⟩⟩
          · exact Or.inl hstay
          · exact Or.inr ⟨hnot, Or.inl hzero⟩
          · refine Or.inr ⟨hnot, Or.inl (hkept.trans ?_)⟩
            simp [bonus, adopt]
  | terminateProcess p =>
      obtain ⟨l, k₁, hdone, -, rfl⟩ := Step.vacated ⟨hadm, hexec⟩ h hsound
      obtain ⟨asl, pParent, rfl, -, -⟩ := hdone.result
      refine Or.inl (accrues_of_subset hx ?_ rfl rfl)
      show k.readyAfter l ⊆ k.readyQueue
      unfold readyAfter
      split_ifs
      · exact ((List.tail_sublist _).trans List.filter_sublist).subset
      · exact List.filter_sublist.subset
  | passeren a tod =>
      simp only [exec] at hexec
      rcases p_spec m a h hadm tod with ⟨-, heq⟩ | ⟨-, asl, heq, -, -⟩
      · obtain rfl := Except.ok.inj (heq.symm.trans hexec)
        exact Or.inl (accrues_of_subset hx (List.Subset.refl _) rfl rfl)
      · obtain rfl := Except.ok.inj (heq.symm.trans hexec)
        exact Or.inl (accrues_runNextReady hx rfl rfl rfl)
  | verhogen a =>
      obtain rfl := Except.ok.inj hexec
      rcases v_spec m a h.residence.aslOk with ⟨-, heq⟩ | ⟨z, q, asl, hq, heq, -, -⟩
      · rw [heq] at hx ⊢
        exact Or.inl (accrues_of_subset hx (List.Subset.refl _) rfl rfl)
      · rw [heq] at hx ⊢
        have hwait : ∀ y ∈ z :: q, y ∉ k.readyQueue :=
          fun y hy => h.residence.not_ready_of_wait (hq ▸ hy)
        have hzq : z ∉ q := h.head_notMem hq
        have hother : ∀ y ∈ k.readyQueue,
            raisePriorities m (Function.update k.priority z (k.originalPriority z)) q y -
              k.originalPriority y = k.bonus y := by
          intro y hy
          have hyz : y ≠ z := fun heq => hwait z List.mem_cons_self (heq ▸ hy)
          have hyq : y ∉ q := fun hmem => hwait y (List.mem_cons_of_mem _ hmem) hy
          simp [bonus, raisePriorities_of_notMem m _ hyq, hyz]
        rcases accrues_scheduleProc hx (hwait z List.mem_cons_self) hrun rfl rfl hother rfl with
          hstay | ⟨hnot, hzero | ⟨rfl, hkept, -⟩⟩
        · exact Or.inl hstay
        · exact Or.inr ⟨hnot, Or.inl hzero⟩
        · refine Or.inr ⟨hnot, Or.inl (hkept.trans ?_)⟩
          simp [bonus, raisePriorities_of_notMem m _ hzq]
  | waitIo command devReg subdev tod =>
      obtain ⟨d, -, rfl⟩ := exec_waitIo hexec
      rcases waitDev_spec m d h hadm command devReg tod with
        ⟨-, asl, heq, -, -⟩ | ⟨-, asl, heq, -, -⟩ <;> rw [heq] at hx ⊢
      · exact Or.inl (accrues_runNextReady hx rfl rfl rfl)
      · exact Or.inl (accrues_runNextReady hx rfl rfl rfl)
  | doneIo d status =>
      obtain rfl := Except.ok.inj hexec
      exact accrues_doneIo h hx
  | timeSlice =>
      obtain rfl := Except.ok.inj hexec
      rcases accrues_timeSlice h hexact hx with hstay | ⟨hnot, hzero⟩
      · exact Or.inl hstay
      · exact Or.inr ⟨hnot, Or.inl hzero⟩
  | write a value =>
      obtain rfl := Except.ok.inj hexec
      exact Or.inl (accrues_of_subset hx (List.Subset.refl _) rfl rfl)

/-- A process that does not preempt the running one becomes ready with its bonus. -/
theorem bonus_respond
    {x : Proc} (hidle : k.runningProc ≠ .idle) (hle : k.priority x ≤ k.priority k.runningProc)
    (status : Word) :
    x ∈ (k.respond x status).readyQueue ∧ (k.respond x status).bonus x = k.bonus x := by
  rcases scheduleProc_cases { k with devWList := Function.update k.devWList x none } x with
    ⟨hidle' | hlt, -⟩ | ⟨-, -, heq⟩
  · exact absurd hidle' hidle
  · exact absurd hlt (not_lt.mpr hle)
  · simp only [respond, heq]
    exact ⟨mem_insertProcQ.mpr (Or.inl rfl), rfl⟩

/-- A completion that puts a process into the ready queue leaves it its bonus. -/
theorem Requeues.bonus
    {d : Dev} {status : Word} {x : Proc} (h : k.Requeues x (.doneIo d status)) (hok : k.Ok) :
    x ∉ k.readyQueue ∧ x ∈ (k.doneIo m d status).readyQueue ∧
      (k.doneIo m d status).bonus x = k.bonus x := by
  obtain ⟨hres, hhead, hidle, hle⟩ := h
  obtain ⟨q, hq⟩ := List.head?_eq_some_iff.mp hhead
  refine ⟨hok.residence.not_ready_of_wait (hq ▸ List.mem_cons_self), ?_⟩
  obtain ⟨asl, heq, -, -⟩ := doneIo_cons m d hok.residence.aslOk hres hq status
  rw [heq, if_pos rfl]
  obtain ⟨hbonus, hready, -⟩ := bonus_nextCommand (m := m)
    ({ k with asl := asl, pSemkey := Function.update k.pSemkey x none }.respond x status) d q.head?
  rw [hbonus, hready]
  exact bonus_respond
    (k := { k with asl := asl, pSemkey := Function.update k.pSemkey x none }) hidle hle status

end Steps

section Runs

/-- The index at which the process entered the ready queue for the last time. -/
def lastEntry (s : ℕ → Kernel A) (x : Proc) : ℕ → ℕ
  | 0 => 0
  | i + 1 =>
      if x ∈ (s i).readyQueue ∧ x ∈ (s (i + 1)).readyQueue then lastEntry s x i else i + 1

/--
The law: a ready process has its original priority and one unit for each callback of
the time slices since it entered the ready queue.
-/
def AgeingLaw (s : ℕ → Kernel A) (i : ℕ) : Prop :=
  ∀ x ∈ (s i).readyQueue,
    (s i).priority x =
      (s i).originalPriority x + ((s i).slices - (s (lastEntry s x i)).slices : ℤ)

instance (s : ℕ → Kernel A) (i : ℕ) : Decidable (AgeingLaw s i) :=
  inferInstanceAs (Decidable (∀ x ∈ (s i).readyQueue, _))

variable {s : ℕ → Kernel A} {e : ℕ → Operation A} {n : ℕ}

theorem ageingLaw_iff (s : ℕ → Kernel A) (i : ℕ) :
    AgeingLaw s i ↔ ∀ x ∈ (s i).readyQueue,
      (s i).bonus x = ((s i).slices - (s (lastEntry s x i)).slices : ℤ) :=
  forall₂_congr fun _ _ => ⟨fun h => by rw [bonus, h]; omega, fun h => by rw [bonus] at h; omega⟩

theorem lastEntry_of_stays
    {x : Proc} {i : ℕ} (hx : x ∈ (s i).readyQueue) (hx' : x ∈ (s (i + 1)).readyQueue) :
    lastEntry s x (i + 1) = lastEntry s x i :=
  if_pos ⟨hx, hx'⟩

theorem lastEntry_of_enters
    {x : Proc} {i : ℕ} (hx : x ∉ (s i).readyQueue) :
    lastEntry s x (i + 1) = i + 1 :=
  if_neg fun h => hx h.1

/-- The law carries over a step unless a completion requeues a process with a bonus. -/
theorem AgeingLaw.step
    {i : ℕ} (hlaw : AgeingLaw s i) (h : (s i).Ok) (hsound : (s i).Undamaging (e i))
    (hexact : (s i).AgesExactly m (e i)) (hstep : Step m (s i) (e i) (s (i + 1)))
    (hclean : ∀ x, (s i).Requeues x (e i) → (s i).priority x = (s i).originalPriority x) :
    AgeingLaw s (i + 1) := by
  rw [ageingLaw_iff] at hlaw ⊢
  intro x hx
  rcases hstep.accrues h hsound hexact hx with ⟨hready, hbonus⟩ | ⟨hnot, hentry⟩
  · rw [lastEntry_of_stays hready hx, hbonus, hlaw x hready]
    omega
  · rw [lastEntry_of_enters hnot, sub_self]
    rcases hentry with hzero | ⟨hreq, hkept⟩
    · exact hzero
    · rw [hkept, Kernel.bonus, hclean x hreq, sub_self]

/-- Where the law holds after a step, no completion has requeued a process with a bonus. -/
theorem AgeingLaw.clean
    {i : ℕ} (hlaw : AgeingLaw s (i + 1)) (h : (s i).Ok)
    (hstep : Step m (s i) (e i) (s (i + 1))) :
    ∀ x, (s i).Requeues x (e i) → (s i).priority x = (s i).originalPriority x := by
  intro x hreq
  obtain ⟨-, hexec⟩ := hstep
  cases hop : e i with
  | doneIo d status =>
      rw [hop] at hreq hexec
      have hnext : (s i).doneIo m d status = s (i + 1) := Except.ok.inj hexec
      obtain ⟨hnot, hmem, hkept⟩ := hreq.bonus (m := m) h
      rw [hnext] at hmem hkept
      have hzero := (ageingLaw_iff s (i + 1)).mp hlaw x hmem
      rw [lastEntry_of_enters hnot, sub_self, hkept, Kernel.bonus] at hzero
      omega
  | _ =>
      rw [hop] at hreq
      exact absurd hreq id

/--
The ageing law holds in every state of a run exactly if every completion that puts a
process into the ready queue finds it with its original priority.  Left out are runs
in which a termination damages the ready queue, and slices at which a priority
overflows.
-/
theorem ageing_law
    (hboot : (s 0).Booted) (hrun : IsRun (Step m) s e n)
    (hsound : ∀ i < n, (s i).Undamaging (e i)) (hexact : ∀ i < n, (s i).AgesExactly m (e i)) :
    (∀ i ≤ n, AgeingLaw s i) ↔
      ∀ i < n, ∀ x, (s i).Requeues x (e i) → (s i).priority x = (s i).originalPriority x := by
  have hok : ∀ i ≤ n, (s i).Ok :=
    hrun.invariant_of hsound hboot.fresh.ok (fun _ _ _ h hs hstep => h.step_of_undamaging hs hstep)
  constructor
  · intro hlaw i hi
    exact (hlaw (i + 1) hi).clean (hok i (by omega)) (hrun i hi)
  · intro hclean i
    induction i with
    | zero =>
        intro _ x _
        rw [hboot.fresh.priority x, lastEntry]
        omega
    | succ i ih =>
        intro hi
        exact (ih (by omega)).step (hok i (by omega)) (hsound i hi) (hexact i hi) (hrun i hi)
          (hclean i hi)

end Runs

section Example

/-- A process ages in the ready queue, runs, waits for a printer, and is ready again. -/
def bonusHistory : List (Operation umps) :=
  [.timeSlice, .waitIo 2 0x100001d0 0 0, .waitIo 2 0x100001e0 0 0, .doneIo ⟨.PRIN, 0⟩ 1,
    .doneIo ⟨.PRIN, 1⟩ 1]

theorem bonusHistory_isRun :
    IsRun (Step .unbounded) (states (next .unbounded) (bootMps [5, 1]) bonusHistory)
      (fun i => bonusHistory.getD i .timeSlice) 5 :=
  isRun_of_accepts (by decide +kernel)

/-- The process of priority 1 enters the ready queue with priority 2. -/
theorem ageing_law_bonusHistory :
    (bootMps [5, 1]).Booted ∧
      IsRun (Step .unbounded) (states (next .unbounded) (bootMps [5, 1]) bonusHistory)
        (fun i => bonusHistory.getD i .timeSlice) 5 ∧
      ¬ AgeingLaw (states (next .unbounded) (bootMps [5, 1]) bonusHistory) 5 :=
  ⟨bootMps_booted (by decide) (by decide), bonusHistory_isRun, by decide +kernel⟩

/-- Up to the last completion the law holds. -/
theorem ageing_law_before_completion :
    AgeingLaw (states (next .unbounded) (bootMps [5, 1]) bonusHistory) 4 := by
  refine (ageing_law (bootMps_booted (by decide) (by decide))
    (bonusHistory_isRun.initial (m := 4) (by decide))
    (fun i hi => ?_) (fun i hi => ?_)).mpr (fun i hi x hx => ?_) 4 le_rfl
  · interval_cases i <;> exact trivial
  · interval_cases i
    · exact fun _ _ => rfl
    · exact trivial
    · exact trivial
    · exact trivial
  · interval_cases i
    · exact absurd hx id
    · exact absurd hx id
    · exact absurd hx id
    · exact absurd (by decide +kernel) hx.2.2.1

end Example

end Kernel

end Bikaya
