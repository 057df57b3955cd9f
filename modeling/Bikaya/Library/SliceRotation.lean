import Bikaya.Library.PriorityScheduler
import Mathlib.Tactic.Linarith
import Mathlib.Tactic.Positivity

/-!
# Rotation of the ready tasks by time slices

Only ends of slices occur.  A ready task that waits gains one unit of priority with each of
them, and the running task gains none; a preempted task falls back to its own priority.
Every ready task therefore gets its turn:

* once the waiting task exceeds the own priority of every competitor, no preempted task is
  inserted ahead of it anymore;
* from then on each of the tasks ahead of it is dispatched at most once, and each
  dispatched task resists for a bounded number of slices.

The place of the task in the ready queue (`ahead`) and the slices for which the running
task resists it (`resistance`) bound what is left.

**Results.**
* `Contest.slice`: one slice dispatches the task, or wears down the running one, or lets a
  task ahead of it run.
* `Contest.dispatched`: the task is dispatched within the bound.
* `Orderly.contest`: an orderly scheduler is a contest for each of its ready tasks.
-/

namespace PriorityScheduler

open AgingQueue StableInsert

universe u v

variable {α : Type u} {κ : Type v} [DecidableEq α]

namespace Sched

/--
After `t` slices the task `x`, of initial priority `q`, still waits; `M` bounds the
priorities of the competitors at the start, and `n` their number.
-/
structure Contest (s : Sched α κ) (x : α) (q M : ℤ) (t n : ℕ) : Prop where
  nodup : s.ready.Nodup
  sorted : NonIncreasing s.priority s.ready
  running : ∃ r, s.running = some r ∧ r ∉ s.ready ∧ s.priority r ≤ M + t ∧ s.original r ≤ M
  mem : x ∈ s.ready
  priority : s.priority x = q + t
  ready : ∀ y ∈ s.ready, s.priority y ≤ M + t ∧ s.original y ≤ M
  length : s.ready.length ≤ n

/-- The number of ready tasks ahead of `x`. -/
def ahead (s : Sched α κ) (x : α) : ℕ :=
  s.ready.idxOf x

/-- For how many slices the running task resists the task `x`, at most. -/
def resistance (s : Sched α κ) (x : α) : ℤ :=
  match s.running with
  | none => 0
  | some r => max 0 (s.priority r - s.priority x - 1)

section Contest

variable {s : Sched α κ} {x : α} {q M : ℤ} {t n : ℕ}

theorem Contest.ahead_lt (h : s.Contest x q M t n) : s.ahead x < n :=
  lt_of_lt_of_le (List.idxOf_lt_length_of_mem h.mem) h.length

/-- The running task keeps running: one slice less until it gives way. -/
theorem Contest.keep
    (h : s.Contest x q M t n) (heq : s.slice = s.ageReady)
    (hless : ∀ r ∈ s.running, ∀ y ∈ s.ready.head?,
      s.ageReady.priority y < s.ageReady.priority r) :
    s.slice.Contest x q M (t + 1) n ∧
      s.slice.ahead x = s.ahead x ∧ s.slice.resistance x + 1 = s.resistance x := by
  obtain ⟨r, hsome, hr, hrM, horig⟩ := h.running
  have hage : ∀ y ∈ s.ready, s.ageReady.priority y = s.priority y + 1 :=
    fun y hy => age_of_mem hy
  have hkeep : s.ageReady.priority r = s.priority r := age_of_notMem hr
  have hsorted : NonIncreasing s.ageReady.priority s.ready :=
    sameOrder_age.nonIncreasing h.sorted
  have hlead : s.priority x + 1 < s.priority r := by
    cases hq : s.ready with
    | nil =>
        have hmem := h.mem
        rw [hq] at hmem
        exact absurd hmem List.not_mem_nil
    | cons y ys =>
        have hy := hless r hsome y (by rw [hq]; rfl)
        have hx : s.ageReady.priority x ≤ s.ageReady.priority y := by
          rw [hq] at hsorted
          exact hsorted.le_head (hq ▸ h.mem)
        rw [hage x h.mem] at hx
        rw [hkeep] at hy
        omega
  rw [heq]
  refine ⟨⟨h.nodup, hsorted, ⟨r, hsome, hr, ?_, horig⟩, h.mem, ?_, ?_, h.length⟩, rfl, ?_⟩
  · rw [hkeep]
    push_cast
    omega
  · rw [hage x h.mem, h.priority]
    push_cast
    omega
  · intro y hy
    have hyM := h.ready y hy
    rw [hage y hy]
    push_cast
    exact ⟨by omega, hyM.2⟩
  · have hrun : s.ageReady.running = some r := hsome
    simp only [resistance, hrun, hsome, hkeep, hage x h.mem]
    omega

/-- The first ready task takes over from the running one. -/
theorem Contest.switch
    (h : s.Contest x q M t n) {y : α} {ys : List α} {r : α}
    (hq : s.ready = y :: ys) (hsome : s.running = some r) (hyx : y ≠ x)
    (heq : s.slice = { s.ageReady with ready := ys }.preempt y) :
    s.slice.Contest x q M (t + 1) n ∧
      s.slice.ahead x ≤ s.ahead x ∧
      (M ≤ q + t → s.slice.ahead x + 1 = s.ahead x) ∧
      s.slice.resistance x ≤ max 0 (M - q - 1) := by
  obtain ⟨r', hsome', hr, hrM, horig⟩ := h.running
  obtain rfl : r = r' := Option.some.inj (hsome.symm.trans hsome')
  rw [hq] at hr
  have hnd : (y :: ys).Nodup := hq ▸ h.nodup
  have hxys : x ∈ ys := by
    have hmem := h.mem
    rw [hq] at hmem
    exact (List.mem_cons.mp hmem).resolve_left (fun heq => hyx heq.symm)
  have hry : r ≠ y := fun heq => hr (heq ▸ List.mem_cons_self)
  have hrys : r ∉ ys := fun hmem => hr (List.mem_cons_of_mem _ hmem)
  have hxr : x ≠ r := fun heq => hrys (heq ▸ hxys)
  -- the priorities afterwards: the aged ones, but for the preempted task
  let priority := Function.update s.ageReady.priority r (s.original r)
  have hpriority : ∀ z ∈ y :: ys, priority z = s.priority z + 1 := by
    intro z hz
    have hzr : z ≠ r := fun heq => hr (heq ▸ hz)
    show Function.update _ r _ z = _
    rw [Function.update_of_ne hzr]
    exact age_of_mem (hq ▸ hz)
  have hself : priority r = s.original r := Function.update_self ..
  have hslice : s.slice =
      { s with priority := priority, ready := stableInsert priority r ys, running := some y } := by
    rw [heq, preempt_of_some (s := { s.ageReady with ready := ys }) hsome]
    rfl
  have hsorted : NonIncreasing priority ys := by
    have hold : NonIncreasing s.priority (y :: ys) := hq ▸ h.sorted
    refine (hold.sublist (List.sublist_cons_self _ _)).congr ?_
    intro a ha b hb hab
    rw [hpriority a (List.mem_cons_of_mem _ ha), hpriority b (List.mem_cons_of_mem _ hb)]
    omega
  have hxp : priority x = q + t + 1 := by
    rw [hpriority x (List.mem_cons_of_mem _ hxys), h.priority]
  have hyM : s.priority y ≤ M + t := (h.ready y (hq ▸ List.mem_cons_self)).1
  have hahead : s.ahead x = ys.idxOf x + 1 := by
    rw [ahead, hq, List.idxOf_cons_ne _ hyx]
  have hplace : (stableInsert priority r ys).idxOf x ≤ ys.idxOf x + 1 ∧
      (M ≤ q + t → (stableInsert priority r ys).idxOf x = ys.idxOf x) := by
    refine ⟨idxOf_stableInsert_le hxr, fun hM => idxOf_stableInsert_of_le hsorted hxys ?_⟩
    rw [hself, hxp]
    omega
  rw [hslice]
  refine ⟨⟨?_, hsorted.stableInsert r, ⟨y, rfl, ?_, ?_, ?_⟩, ?_, ?_, ?_, ?_⟩, ?_, ?_, ?_⟩
  · refine stableInsert_perm.nodup_iff.mpr ?_
    exact List.nodup_cons.mpr ⟨hrys, (List.nodup_cons.mp hnd).2⟩
  · intro hmem
    rcases mem_stableInsert.mp hmem with hyr | hyys
    · exact hry hyr.symm
    · exact (List.nodup_cons.mp hnd).1 hyys
  · show priority y ≤ _
    rw [hpriority y List.mem_cons_self]
    push_cast
    omega
  · exact (h.ready y (hq ▸ List.mem_cons_self)).2
  · exact mem_stableInsert.mpr (Or.inr hxys)
  · show priority x = _
    rw [hxp]
    push_cast
    omega
  · intro z hz
    show priority z ≤ _ ∧ s.original z ≤ M
    rcases mem_stableInsert.mp hz with rfl | hzys
    · rw [hself]
      push_cast
      exact ⟨by omega, horig⟩
    · have hzM := h.ready z (hq ▸ List.mem_cons_of_mem _ hzys)
      rw [hpriority z (List.mem_cons_of_mem _ hzys)]
      push_cast
      exact ⟨by omega, hzM.2⟩
  · show (stableInsert priority r ys).length ≤ n
    rw [stableInsert_perm.length_eq, List.length_cons]
    have hlen := h.length
    rw [hq, List.length_cons] at hlen
    exact hlen
  · show (stableInsert priority r ys).idxOf x ≤ _
    omega
  · intro hM
    show (stableInsert priority r ys).idxOf x + 1 = _
    rw [hplace.2 hM, hahead]
  · show max 0 (priority y - priority x - 1) ≤ _
    rw [hxp, hpriority y List.mem_cons_self]
    omega

/-- One slice: the task is dispatched, or it waits on. -/
theorem Contest.slice
    (h : s.Contest x q M t n) :
    s.slice.running = some x ∨
      (s.slice.Contest x q M (t + 1) n ∧
        ((s.slice.ahead x = s.ahead x ∧ s.slice.resistance x + 1 = s.resistance x) ∨
          ((M ≤ q + t → s.slice.ahead x + 1 = s.ahead x) ∧
            s.slice.resistance x ≤ max 0 (M - q - 1)))) := by
  obtain ⟨r, hsome, -, -, -⟩ := h.running
  rcases slice_cases s with ⟨heq, hless, -⟩ | ⟨y, ys, -, hnone, -⟩ | ⟨y, ys, r', hq, hsome', -, heq⟩
  · obtain ⟨hnext, hahead, hres⟩ := h.keep heq hless
    exact Or.inr ⟨hnext, Or.inl ⟨hahead, hres⟩⟩
  · rw [hsome] at hnone
    exact absurd hnone (by simp)
  · by_cases hyx : y = x
    · refine Or.inl ?_
      rw [heq, preempt_of_some (s := { s.ageReady with ready := ys }) hsome', hyx]
    · obtain ⟨hnext, -, hahead, hres⟩ := h.switch hq hsome' hyx heq
      exact Or.inr ⟨hnext, Or.inr ⟨hahead, hres⟩⟩

omit [DecidableEq α] in
theorem Contest.resistance_le (h : s.Contest x q M t n) :
    s.resistance x ≤ max 0 (M - q - 1) := by
  obtain ⟨r, hsome, -, hrM, -⟩ := h.running
  have hx := h.priority
  simp only [resistance, hsome]
  omega

/-- In any number of slices the task is dispatched, or it has gained that much. -/
theorem Contest.rise
    (h : s.Contest x q M t n) (j : ℕ) :
    (∃ i ≤ j, (Sched.slice^[i] s).running = some x) ∨
      (Sched.slice^[j] s).Contest x q M (t + j) n := by
  induction j generalizing s t with
  | zero =>
      exact Or.inr h
  | succ j ih =>
      rcases h.slice with hrun | ⟨hnext, -⟩
      · exact Or.inl ⟨1, by omega, hrun⟩
      · rcases ih hnext with ⟨i, hi, hrun⟩ | hcontest
        · exact Or.inl ⟨i + 1, by omega, hrun⟩
        · refine Or.inr ?_
          rw [show t + (j + 1) = t + 1 + j by omega]
          exact hcontest

/-- Past the own priorities of the others, each task ahead of `x` runs at most once. -/
theorem Contest.drain
    (h : s.Contest x q M t n) (hM : M ≤ q + t) {N : ℕ}
    (hN : s.resistance x + 1 + s.ahead x * (max 0 (M - q) + 1) ≤ N) :
    ∃ i ≤ N, (Sched.slice^[i] s).running = some x := by
  induction N generalizing s t with
  | zero =>
      obtain ⟨r, hsome, -⟩ := h.running
      simp only [resistance, hsome] at hN
      have : 0 ≤ (s.ahead x : ℤ) * (max 0 (M - q) + 1) := by positivity
      omega
  | succ N ih =>
      rcases h.slice with hrun | ⟨hnext, hmeasure⟩
      · exact ⟨1, by omega, hrun⟩
      · have hless : s.slice.resistance x + 1 + s.slice.ahead x * (max 0 (M - q) + 1) ≤ N := by
          rcases hmeasure with ⟨hahead, hres⟩ | ⟨hahead, hres⟩
          · rw [hahead]
            push_cast at hN
            omega
          · have hstep : (s.ahead x : ℤ) = s.slice.ahead x + 1 := by
              exact_mod_cast (hahead hM).symm
            rw [hstep, add_mul] at hN
            have hnonneg : 0 ≤ s.resistance x := by
              unfold resistance
              split <;> omega
            push_cast at hN
            omega
        obtain ⟨i, hi, hrun⟩ := ih hnext (by push_cast; omega) hless
        exact ⟨i + 1, by omega, hrun⟩

/-- Every ready task is dispatched after a bounded number of slices. -/
theorem Contest.dispatched
    (h : s.Contest x q M 0 n) :
    ∃ i : ℕ, (i : ℤ) ≤ (n + 1) * (M - q + 1) ∧ (Sched.slice^[i] s).running = some x := by
  have hqM : q ≤ M := by
    have hx := (h.ready x h.mem).1
    rw [h.priority] at hx
    simpa using hx
  obtain ⟨gap, hgap⟩ : ∃ gap : ℕ, (gap : ℤ) = M - q := ⟨(M - q).toNat, by omega⟩
  have hn : (0 : ℤ) ≤ n := Int.natCast_nonneg n
  have hbound : (gap : ℤ) + (gap + 1 + (n - 1) * (gap + 1)) ≤ (n + 1) * (M - q + 1) := by
    rw [← hgap]
    linarith
  rcases h.rise gap with ⟨i, hi, hrun⟩ | hrisen
  · refine ⟨i, ?_, hrun⟩
    have hpos : (0 : ℤ) ≤ n * (gap + 1) := by positivity
    rw [← hgap]
    linarith [show (i : ℤ) ≤ gap by exact_mod_cast hi]
  · have hahead : ((Sched.slice^[gap] s).ahead x : ℤ) ≤ n - 1 := by
      have := hrisen.ahead_lt
      omega
    have hres := hrisen.resistance_le
    have hahead' : ((Sched.slice^[gap] s).ahead x : ℤ) * (gap + 1) ≤ (n - 1) * (gap + 1) :=
      mul_le_mul_of_nonneg_right hahead (by omega)
    obtain ⟨N, hN⟩ : ∃ N : ℕ, (N : ℤ) = gap + 1 + (n - 1) * (gap + 1) := by
      refine ⟨(gap + 1 + (n - 1) * (gap + 1) : ℤ).toNat, Int.toNat_of_nonneg ?_⟩
      have := hrisen.ahead_lt
      have : (0 : ℤ) ≤ (n - 1) * (gap + 1) := mul_nonneg (by omega) (by omega)
      omega
    obtain ⟨i, hi, hrun⟩ := hrisen.drain (by push_cast; omega) (N := N) (by
      rw [hN, show max 0 (M - q) = (gap : ℤ) by omega]
      omega)
    refine ⟨i + gap, ?_, ?_⟩
    · push_cast
      linarith [show (i : ℤ) ≤ N by exact_mod_cast hi]
    · rw [Function.iterate_add_apply]
      exact hrun

end Contest

/--
What the rotation rests on: no task is below its own priority, the ready queue is
ordered, and no task is ready while none runs.
-/
structure Orderly (s : Sched α κ) : Prop where
  aged : ∀ x, s.original x ≤ s.priority x
  sorted : NonIncreasing s.priority s.ready
  idle : s.running = none → s.ready = []

section Orderly

variable {s s' : Sched α κ}

omit [DecidableEq α] in
theorem Orderly.dispatch (h : s.Orderly) : s.dispatch.Orderly where
  aged := h.aged
  sorted := h.sorted.sublist (List.tail_sublist _)
  idle := by
    intro hnone
    have hnil : s.ready = [] := List.head?_eq_none_iff.mp hnone
    show s.ready.tail = []
    rw [hnil]
    rfl

theorem aged_preempt
    (haged : ∀ y, s.original y ≤ s.priority y) (x y : α) :
    (s.preempt x).original y ≤ (s.preempt x).priority y := by
  cases hr : s.running with
  | none =>
      simpa [preempt, hr] using haged y
  | some r =>
      rw [preempt_of_some hr]
      by_cases hy : y = r
      · subst hy
        exact (Function.update_self y (s.original y) s.priority).ge
      · exact le_of_le_of_eq (haged y) (Function.update_of_ne hy _ _).symm

theorem aged_schedule
    (haged : ∀ y, s.original y ≤ s.priority y) (x y : α) :
    (s.schedule x).original y ≤ (s.schedule x).priority y := by
  rcases schedule_cases s x with ⟨-, heq⟩ | ⟨r, -, -, heq⟩ | ⟨r, -, -, heq⟩ <;> rw [heq]
  · exact haged y
  · exact aged_preempt haged x y
  · exact haged y

theorem busy_schedule (s : Sched α κ) (x : α) : (s.schedule x).running ≠ none := by
  rcases schedule_cases s x with ⟨-, heq⟩ | ⟨r, hr, -, heq⟩ | ⟨r, hr, -, heq⟩ <;> rw [heq]
  · simp
  · simp [preempt_of_some hr]
  · simp [hr]

theorem aged_slice
    (haged : ∀ y, s.original y ≤ s.priority y) (y : α) :
    s.slice.original y ≤ s.slice.priority y := by
  have hage : ∀ y, s.ageReady.original y ≤ s.ageReady.priority y :=
    fun y => le_trans (haged y) (le_age y)
  rcases slice_cases s with ⟨heq, -⟩ | ⟨x, q, -, -, heq⟩ | ⟨x, q, r, -, -, -, heq⟩ <;> rw [heq]
  · exact hage y
  · exact hage y
  · exact aged_preempt (s := { s.ageReady with ready := q }) hage x y

theorem idle_slice
    (hidle : s.running = none → s.ready = []) :
    s.slice.running = none → s.slice.ready = [] := by
  rcases slice_cases s with ⟨heq, -⟩ | ⟨x, q, -, -, heq⟩ | ⟨x, q, r, -, hr, -, heq⟩ <;> rw [heq]
  · exact hidle
  · simp
  · simp [preempt_of_some (s := { s.ageReady with ready := q }) hr]

/-- Every move keeps the tasks orderly. -/
theorem Orderly.move
    [DecidableEq κ] (h : s.Orderly) (hmove : Move s s') (hwf : s.Wf) :
    s'.Orderly := by
  refine ⟨?_, (hmove.evolves hwf none).nonIncreasing h.sorted, ?_⟩
  · cases hmove with
    | stay =>
        exact h.aged
    | enroll x p _ _ =>
        refine aged_schedule (s := s.enroll x p) (fun y => ?_) x
        by_cases hy : y = x
        · subst hy
          simp [enroll]
        · simpa [enroll, hy] using h.aged y
    | block key r _ =>
        exact h.aged
    | wake key x q _ =>
        refine aged_schedule (s := { s.setWait key q with priority := _ }) (fun y => ?_) x
        refine le_trans ?_ (le_age y)
        by_cases hy : y = x
        · subst hy
          exact (Function.update_self y (s.original y) s.priority).ge
        · exact le_of_le_of_eq (h.aged y) (Function.update_of_ne hy _ _).symm
    | release key x q _ =>
        exact aged_schedule (s := s.setWait key q) h.aged x
    | drop key x q _ =>
        exact h.aged
    | kill keep =>
        unfold Sched.kill
        simp only
        split_ifs <;> exact h.aged
    | slice =>
        exact aged_slice h.aged
  · cases hmove with
    | stay =>
        exact h.idle
    | enroll x p _ _ =>
        exact fun hnone => absurd hnone (busy_schedule _ x)
    | block key r _ =>
        exact h.dispatch.idle
    | wake key x q _ =>
        exact fun hnone => absurd hnone (busy_schedule _ x)
    | release key x q _ =>
        exact fun hnone => absurd hnone (busy_schedule _ x)
    | drop key x q _ =>
        exact h.idle
    | kill keep =>
        unfold Sched.kill
        simp only
        split_ifs
        · intro hnone
          show s.ready.filter keep = []
          rw [h.idle hnone]
          rfl
        · intro hnone
          have hnil : s.ready.filter keep = [] := List.head?_eq_none_iff.mp hnone
          show (s.ready.filter keep).tail = []
          rw [hnil]
          rfl
    | slice =>
        exact idle_slice h.idle

omit [DecidableEq α] in
/-- A ready task of an orderly scheduler enters the contest. -/
theorem Orderly.contest
    (h : s.Orderly) (hwf : s.Wf) {x : α} (hx : x ∈ s.ready) {M : ℤ}
    (hready : ∀ y ∈ s.ready, s.priority y ≤ M) (hrun : ∀ r ∈ s.running, s.priority r ≤ M) :
    s.Contest x (s.priority x) M 0 s.ready.length := by
  refine ⟨hwf.ready_nodup, h.sorted, ?_, hx, by simp, ?_, le_refl _⟩
  · cases hr : s.running with
    | none =>
        rw [h.idle hr] at hx
        exact absurd hx List.not_mem_nil
    | some r =>
        have hrM := hrun r hr
        exact ⟨r, rfl, hwf.running r hr none, by simpa using hrM, le_trans (h.aged r) hrM⟩
  · intro y hy
    have hyM := hready y hy
    exact ⟨by simpa using hyM, le_trans (h.aged y) hyM⟩

end Orderly

end Sched

end PriorityScheduler
