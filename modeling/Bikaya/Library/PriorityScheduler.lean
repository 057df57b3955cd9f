import Bikaya.Library.AgingQueue
import Bikaya.Library.SeparatedQueues

/-!
# A preemptive priority scheduler with aging

The abstract machine of a scheduler: a ready queue, a queue of waiting tasks for each key,
and at most one running task.  Tasks that wait are aged, and a task that is preempted or
woken falls back to its original priority.

The main results are the preservation, by every move, of the dispatch discipline (the
running task has the greatest priority, and the processor is idle only when nothing is
ready), and the fact that every move lets each queue evolve as an aging queue.

**Results.**
* `Move.dispatched`: the dispatch discipline.
* `Move.evolves`, `evolves_slice`: the queues.
* `Move.dispatch_precedes`: who is dispatched has been in front.
-/

namespace PriorityScheduler

open StableInsert AgingQueue SeparatedQueues

universe u v

variable {α : Type u} {κ : Type v}

/-- The state of the scheduler. -/
structure Sched (α : Type u) (κ : Type v) where
  ready : List α
  wait : κ → List α
  running : Option α
  priority : α → ℤ
  original : α → ℤ

namespace Sched

/-- The queues of the scheduler: the ready queue, and the waiting queues. -/
def queue (s : Sched α κ) : Option κ → List α
  | none => s.ready
  | some key => s.wait key

/-- The tasks are in distinct places. -/
structure Wf (s : Sched α κ) : Prop where
  separated : Separated s.queue
  running : ∀ r ∈ s.running, Unplaced s.queue r

/-- The dispatch discipline. -/
structure Dispatched (s : Sched α κ) : Prop where
  aged : ∀ x, s.original x ≤ s.priority x
  top : ∀ r ∈ s.running, ∀ x ∈ s.ready, s.priority x ≤ s.priority r
  idle : s.running = none → s.ready = []
  sorted : ∀ i, NonIncreasing s.priority (s.queue i)

/-- The first ready task runs, or nothing does. -/
def dispatch (s : Sched α κ) : Sched α κ :=
  { s with ready := s.ready.tail, running := s.ready.head? }

/-- The tasks that satisfy `keep` survive. -/
def kill (s : Sched α κ) (keep : α → Bool) : Sched α κ :=
  let s' : Sched α κ :=
    { s with ready := s.ready.filter keep, wait := fun key => (s.wait key).filter keep }
  if s.running.all keep then s' else s'.dispatch

section Wf

variable {s : Sched α κ} (h : s.Wf)
include h

theorem Wf.ready_nodup : s.ready.Nodup :=
  h.separated.nodup none

theorem Wf.wait_nodup (key : κ) : (s.wait key).Nodup :=
  h.separated.nodup (some key)

theorem Wf.not_ready_of_wait {key : κ} {x : α} (hx : x ∈ s.wait key) : x ∉ s.ready := by
  intro hx'
  cases h.separated.unique (some key) none x hx hx'

theorem Wf.wait_unique
    {key key' : κ} {x : α} (hx : x ∈ s.wait key) (hx' : x ∈ s.wait key') :
    key = key' :=
  Option.some.inj (h.separated.unique (some key) (some key') x hx hx')

theorem Wf.head_notMem {key : κ} {x : α} {q : List α} (hq : s.wait key = x :: q) : x ∉ q := by
  have hnd := h.wait_nodup key
  rw [hq] at hnd
  exact (List.nodup_cons.mp hnd).1

end Wf

section Dispatch

variable {s : Sched α κ}

/-- Dispatching the first ready task keeps, or establishes, the discipline. -/
theorem Dispatched.dispatch
    (haged : ∀ x, s.original x ≤ s.priority x)
    (hsorted : ∀ i, NonIncreasing s.priority (s.queue i)) :
    Dispatched s.dispatch where
  aged := haged
  top := by
    intro r hr x hx
    have hready : s.ready = r :: s.ready.tail := by
      cases hq : s.ready with
      | nil =>
          rw [Sched.dispatch, hq] at hr
          exact absurd hr (by simp)
      | cons a q =>
          rw [Sched.dispatch, hq] at hr
          rw [Option.some.inj hr]
          rfl
    have hq := hsorted none
    change NonIncreasing s.priority s.ready at hq
    rw [hready] at hq
    exact hq.le_head (List.mem_cons_of_mem _ hx)
  idle := by
    intro hnone
    have : s.ready = [] := List.head?_eq_none_iff.mp hnone
    show s.ready.tail = []
    rw [this]
    rfl
  sorted := by
    rintro (_ | key)
    · exact (hsorted none).sublist (List.tail_sublist _)
    · exact hsorted (some key)

/-- Killing tasks keeps the discipline. -/
theorem Dispatched.kill
    (h : Dispatched s) (keep : α → Bool) :
    Dispatched (s.kill keep) := by
  have hsorted : ∀ i, NonIncreasing s.priority ((s.queue i).filter keep) :=
    fun i => (h.sorted i).sublist List.filter_sublist
  unfold Sched.kill
  simp only
  split_ifs with hkeep
  · exact
      { aged := h.aged
        top := fun r hr x hx => h.top r hr x (List.mem_of_mem_filter hx)
        idle := fun hnone => by
          show s.ready.filter keep = []
          rw [h.idle hnone]
          rfl
        sorted := fun i => by
          cases i with
          | none => exact hsorted none
          | some key => exact hsorted (some key) }
  · refine Dispatched.dispatch h.aged ?_
    rintro (_ | key)
    · exact hsorted none
    · exact hsorted (some key)

end Dispatch

variable [DecidableEq α]

/-- The running task, if any, goes back to the ready queue, and `x` runs. -/
def preempt (s : Sched α κ) (x : α) : Sched α κ :=
  match s.running with
  | none => { s with running := some x }
  | some r =>
      let priority := Function.update s.priority r (s.original r)
      { s with
        priority := priority
        ready := stableInsert priority r s.ready
        running := some x }

/-- `x` runs at once if it outranks the running task, else it becomes ready. -/
def schedule (s : Sched α κ) (x : α) : Sched α κ :=
  match s.running with
  | none => s.preempt x
  | some r =>
      if s.priority r < s.priority x then s.preempt x
      else { s with ready := stableInsert s.priority x s.ready }

/-- The priorities after one tick of waiting for the tasks of `q`. -/
def age (priority : α → ℤ) (q : List α) : α → ℤ :=
  fun x => if x ∈ q then priority x + 1 else priority x

/-- The ready tasks have waited for one more tick. -/
def ageReady (s : Sched α κ) : Sched α κ :=
  { s with priority := age s.priority s.ready }

/-- The end of a time slice. -/
def slice (s : Sched α κ) : Sched α κ :=
  match s.ready with
  | [] => s.ageReady
  | x :: q =>
      match s.running with
      | none => { s.ageReady with ready := q, running := some x }
      | some r =>
          if s.ageReady.priority r ≤ s.ageReady.priority x then
            { s.ageReady with ready := q }.preempt x
          else s.ageReady

/-- A task starts with priority `p`. -/
def enroll (s : Sched α κ) (x : α) (p : ℤ) : Sched α κ :=
  { s with
    priority := Function.update s.priority x p
    original := Function.update s.original x p }

section Aging

variable {priority : α → ℤ} {q : List α} {x : α}

theorem le_age (x : α) : priority x ≤ age priority q x := by
  unfold age
  split_ifs <;> omega

theorem age_of_mem (hx : x ∈ q) : age priority q x = priority x + 1 := by
  simp [age, hx]

theorem age_of_notMem (hx : x ∉ q) : age priority q x = priority x := by
  simp [age, hx]

/-- Aging a whole queue does not change how its tasks compare. -/
theorem sameOrder_age : SameOrder priority (age priority q) q := by
  intro x hx y hy
  rw [age_of_mem hx, age_of_mem hy]
  omega

end Aging

section Schedule

variable {s : Sched α κ} {x : α}

theorem preempt_of_some {r : α} (hr : s.running = some r) :
    s.preempt x =
      { s with
        priority := Function.update s.priority r (s.original r)
        ready := stableInsert (Function.update s.priority r (s.original r)) r s.ready
        running := some x } := by
  simp [preempt, hr]

/-- What scheduling does, in its three cases. -/
theorem schedule_cases (s : Sched α κ) (x : α) :
    (s.running = none ∧ s.schedule x = { s with running := some x }) ∨
    (∃ r, s.running = some r ∧ s.priority r < s.priority x ∧ s.schedule x = s.preempt x) ∨
    (∃ r, s.running = some r ∧ s.priority x ≤ s.priority r ∧
      s.schedule x = { s with ready := stableInsert s.priority x s.ready }) := by
  cases hr : s.running with
  | none =>
      exact Or.inl ⟨rfl, by simp [schedule, preempt, hr]⟩
  | some r =>
      refine Or.inr ?_
      by_cases hlt : s.priority r < s.priority x
      · exact Or.inl ⟨r, rfl, hlt, by simp [schedule, hr, hlt]⟩
      · exact Or.inr ⟨r, rfl, not_lt.mp hlt, by simp [schedule, hr, hlt]⟩

/--
A preemption by a task of the greatest priority keeps the discipline, and needs
it only for the other ready tasks.
-/
theorem Dispatched.preempt
    {r : α} (hsome : s.running = some r) (hr : Unplaced s.queue r) (hxr : x ≠ r)
    (haged : ∀ y, s.original y ≤ s.priority y)
    (hsorted : ∀ i, NonIncreasing s.priority (s.queue i))
    (htop : ∀ y ∈ s.ready, s.priority y ≤ s.priority x)
    (hrun : s.priority r ≤ s.priority x) :
    Dispatched (s.preempt x) := by
  have hne : ∀ i, ∀ y ∈ s.queue i, y ≠ r := by
    rintro i y hy rfl
    exact hr i hy
  have hsorted' : ∀ i,
      NonIncreasing (Function.update s.priority r (s.original r)) (s.queue i) :=
    fun i => (SameOrder.of_eq (fun y hy => Function.update_of_ne (hne i y hy) _ _)).nonIncreasing
      (hsorted i)
  rw [preempt_of_some hsome]
  constructor
  · intro y
    show s.original y ≤ Function.update s.priority r (s.original r) y
    by_cases hyr : y = r
    · rw [hyr, Function.update_self]
    · rw [Function.update_of_ne hyr]
      exact haged y
  · intro z hz y hy
    obtain rfl : x = z := Option.some.inj hz
    show Function.update s.priority r (s.original r) y ≤
      Function.update s.priority r (s.original r) x
    rw [Function.update_of_ne hxr]
    rcases mem_stableInsert.mp hy with rfl | hy
    · rw [Function.update_self]
      exact le_trans (haged y) hrun
    · rw [Function.update_of_ne (hne none y hy)]
      exact htop y hy
  · intro hnone
    exact absurd hnone (by simp)
  · rintro (_ | key)
    · exact (hsorted' none).stableInsert r
    · exact hsorted' (some key)

/-- Scheduling a task keeps the discipline. -/
theorem Dispatched.schedule
    (h : Dispatched s) (hr : ∀ r ∈ s.running, Unplaced s.queue r)
    (hx : s.running ≠ some x) :
    Dispatched (s.schedule x) := by
  rcases schedule_cases s x with ⟨hnone, heq⟩ | ⟨r, hsome, hlt, heq⟩ | ⟨r, hsome, hle, heq⟩
  · rw [heq]
    have hready := h.idle hnone
    constructor
    · exact h.aged
    · intro r _ y hy
      change y ∈ s.ready at hy
      rw [hready] at hy
      exact absurd hy List.not_mem_nil
    · intro hcontra
      exact absurd hcontra (by simp)
    · rintro (_ | key)
      · exact h.sorted none
      · exact h.sorted (some key)
  · rw [heq]
    have hxr : x ≠ r := by
      rintro rfl
      exact hx hsome
    refine Dispatched.preempt hsome (hr r hsome) hxr h.aged h.sorted ?_ hlt.le
    intro y hy
    exact le_trans (h.top r hsome y hy) hlt.le
  · rw [heq]
    constructor
    · exact h.aged
    · intro z hz y hy
      obtain rfl : r = z := Option.some.inj (hsome.symm.trans hz)
      rcases mem_stableInsert.mp hy with rfl | hy
      · exact hle
      · exact h.top r hsome y hy
    · intro hcontra
      exact absurd (hsome.symm.trans hcontra) (by simp)
    · rintro (_ | key)
      · exact (h.sorted none).stableInsert x
      · exact h.sorted (some key)

/-- Preemption lets the ready queue evolve. -/
theorem evolves_preempt
    {r : α} {key : α → ℤ} {q : List α}
    (hsome : s.running = some r) (hr : r ∉ q) (hsub : s.ready.Sublist q)
    (hkey : SameOrder key s.priority s.ready) :
    Evolves key q (s.preempt x).priority (s.preempt x).ready := by
  rw [preempt_of_some hsome]
  refine Evolves.enter s.ready r hsub ?_ hr rfl
  have hne : ∀ y ∈ s.ready, y ≠ r := by
    rintro y hy rfl
    exact hr (hsub.subset hy)
  intro y hy z hz
  show Function.update s.priority r (s.original r) y ≤
    Function.update s.priority r (s.original r) z ↔ _
  rw [Function.update_of_ne (hne y hy), Function.update_of_ne (hne z hz)]
  exact hkey y hy z hz

/-- Scheduling lets the ready queue evolve. -/
theorem evolves_schedule
    (hr : ∀ r ∈ s.running, r ∉ s.ready) (hx : x ∉ s.ready)
    {key : α → ℤ} (hkey : SameOrder key s.priority s.ready) :
    Evolves key s.ready (s.schedule x).priority (s.schedule x).ready := by
  rcases schedule_cases s x with ⟨_, heq⟩ | ⟨r, hsome, _, heq⟩ | ⟨r, _, _, heq⟩
  · rw [heq]
    exact Evolves.leave (List.Sublist.refl _) hkey
  · rw [heq]
    exact evolves_preempt hsome (hr r hsome) (List.Sublist.refl _) hkey
  · rw [heq]
    exact Evolves.enter s.ready x (List.Sublist.refl _) hkey hx rfl

@[simp] theorem wait_preempt (s : Sched α κ) (x : α) : (s.preempt x).wait = s.wait := by
  unfold preempt
  split <;> rfl

@[simp] theorem wait_schedule (s : Sched α κ) (x : α) : (s.schedule x).wait = s.wait := by
  rcases schedule_cases s x with ⟨_, heq⟩ | ⟨r, _, _, heq⟩ | ⟨r, _, _, heq⟩ <;> rw [heq]
  exact wait_preempt s x

/-- A preemption changes the priority of the running task only. -/
theorem priority_preempt {y : α} (hy : s.running ≠ some y) :
    (s.preempt x).priority y = s.priority y := by
  cases hr : s.running with
  | none =>
      simp [preempt, hr]
  | some r =>
      rw [preempt_of_some hr]
      refine Function.update_of_ne ?_ _ _
      rintro rfl
      exact hy hr

theorem priority_schedule {y : α} (hy : s.running ≠ some y) :
    (s.schedule x).priority y = s.priority y := by
  rcases schedule_cases s x with ⟨_, heq⟩ | ⟨r, _, _, heq⟩ | ⟨r, _, _, heq⟩ <;> rw [heq]
  exact priority_preempt hy

/-- What the end of a slice does, in its three cases. -/
theorem slice_cases (s : Sched α κ) :
    s.slice = s.ageReady ∧
      (∀ r ∈ s.running, ∀ x ∈ s.ready.head?, s.ageReady.priority x < s.ageReady.priority r) ∧
      (s.running = none → s.ready = []) ∨
    (∃ x q, s.ready = x :: q ∧ s.running = none ∧
      s.slice = { s.ageReady with ready := q, running := some x }) ∨
    (∃ x q r, s.ready = x :: q ∧ s.running = some r ∧
      s.ageReady.priority r ≤ s.ageReady.priority x ∧
      s.slice = { s.ageReady with ready := q }.preempt x) := by
  cases hq : s.ready with
  | nil =>
      exact Or.inl ⟨by simp [slice, hq], by simp, by simp⟩
  | cons x q =>
      cases hr : s.running with
      | none =>
          exact Or.inr (Or.inl ⟨x, q, rfl, rfl, by simp [slice, hq, hr]⟩)
      | some r =>
          by_cases hle : s.ageReady.priority r ≤ s.ageReady.priority x
          · exact Or.inr (Or.inr ⟨x, q, r, rfl, rfl, hle, by simp [slice, hq, hr, hle]⟩)
          · refine Or.inl ⟨by simp [slice, hq, hr, hle], ?_, by simp⟩
            simpa using not_le.mp hle

/-- The end of a slice keeps the discipline. -/
theorem dispatched_slice
    (hwf : s.Wf) (h : s.Dispatched) :
    s.slice.Dispatched := by
  have hsorted : ∀ i, NonIncreasing s.ageReady.priority (s.queue i) := by
    rintro (_ | key)
    · exact sameOrder_age.nonIncreasing (h.sorted none)
    · refine (SameOrder.of_eq (fun x hx => ?_)).nonIncreasing (h.sorted (some key))
      exact age_of_notMem (hwf.not_ready_of_wait hx)
  have haged : ∀ x, s.original x ≤ s.ageReady.priority x :=
    fun x => le_trans (h.aged x) (le_age x)
  rcases slice_cases s with ⟨heq, hless, hidle⟩ | ⟨x, q, hq, hnone, heq⟩ |
    ⟨x, q, r, hq, hsome, hle, heq⟩
  · rw [heq]
    refine ⟨haged, ?_, hidle, ?_⟩
    · intro r hr y hy
      change y ∈ s.ready at hy
      cases hq : s.ready with
      | nil =>
          rw [hq] at hy
          exact absurd hy List.not_mem_nil
      | cons x q =>
          have hready := hsorted none
          change NonIncreasing _ s.ready at hready
          rw [hq] at hready hy
          exact le_trans (hready.le_head hy) (hless r hr x (by rw [hq]; rfl)).le
    · rintro (_ | key)
      · exact hsorted none
      · exact hsorted (some key)
  · rw [h.idle hnone] at hq
    exact absurd hq (by simp)
  · rw [heq]
    have hready := hsorted none
    change NonIncreasing _ s.ready at hready
    rw [hq] at hready
    have hr : Unplaced s.queue r := hwf.running r hsome
    have hrq : r ∉ x :: q := hq ▸ hr none
    refine Dispatched.preempt (s := { s.ageReady with ready := q }) hsome ?_ ?_ haged ?_ ?_ hle
    · rintro (_ | key)
      · exact fun hmem => hrq (List.mem_cons_of_mem _ hmem)
      · exact hr (some key)
    · rintro rfl
      exact hrq List.mem_cons_self
    · rintro (_ | key)
      · exact hready.sublist (List.sublist_cons_self _ _)
      · exact hsorted (some key)
    · intro y hy
      exact hready.le_head (List.mem_cons_of_mem _ hy)

/-- The end of a slice lets each queue evolve. -/
theorem evolves_slice
    (hwf : s.Wf) (i : Option κ) :
    Evolves s.priority (s.queue i) s.slice.priority (s.slice.queue i) := by
  have hwait : ∀ key, ∀ x ∈ s.wait key, s.ageReady.priority x = s.priority x :=
    fun key x hx => age_of_notMem (hwf.not_ready_of_wait hx)
  have hready : SameOrder s.priority s.ageReady.priority s.ready := sameOrder_age
  rcases slice_cases s with ⟨heq, -, -⟩ | ⟨x, q, hq, hnone, heq⟩ |
    ⟨x, q, r, hq, hsome, hle, heq⟩
  · rw [heq]
    cases i with
    | none =>
        exact Evolves.leave (List.Sublist.refl _) hready
    | some key =>
        exact Evolves.leave (List.Sublist.refl _) (SameOrder.of_eq (hwait key))
  · have hsub : q.Sublist s.ready := hq ▸ List.sublist_cons_self x q
    rw [heq]
    cases i with
    | none =>
        exact Evolves.leave hsub
          (fun y hy z hz => hready y (hsub.subset hy) z (hsub.subset hz))
    | some key =>
        exact Evolves.leave (List.Sublist.refl _) (SameOrder.of_eq (hwait key))
  · have hsub : q.Sublist s.ready := hq ▸ List.sublist_cons_self x q
    have hr : Unplaced s.queue r := hwf.running r hsome
    rw [heq]
    cases i with
    | none =>
        exact evolves_preempt (s := { s.ageReady with ready := q }) hsome (hr none) hsub
          (fun y hy z hz => hready y (hsub.subset hy) z (hsub.subset hz))
    | some key =>
        show Evolves s.priority (s.wait key) _ (Sched.wait (preempt _ x) key)
        rw [wait_preempt]
        refine Evolves.leave (List.Sublist.refl _) (SameOrder.of_eq (fun y hy => ?_))
        have hyr : s.running ≠ some y := by
          intro hy'
          obtain rfl : r = y := Option.some.inj (hsome.symm.trans hy')
          exact hr (some key) hy
        rw [priority_preempt (s := { s.ageReady with ready := q }) hyr]
        exact hwait key y hy

end Schedule

section Enroll

variable {s : Sched α κ}

/-- A new task changes no priority in the queues. -/
theorem priority_enroll
    {x : α} (hx : Unplaced s.queue x) (p : ℤ) (i : Option κ) :
    ∀ y ∈ s.queue i, (s.enroll x p).priority y = s.priority y := by
  intro y hy
  have hyx : y ≠ x := by
    rintro rfl
    exact hx i hy
  exact Function.update_of_ne hyx _ _

theorem Dispatched.enroll
    (h : s.Dispatched) {x : α} (hx : Unplaced s.queue x) (hrun : s.running ≠ some x) (p : ℤ) :
    (s.enroll x p).Dispatched := by
  have hsame := priority_enroll hx p
  constructor
  · intro y
    show Function.update s.original x p y ≤ Function.update s.priority x p y
    by_cases hyx : y = x
    · rw [hyx, Function.update_self, Function.update_self]
    · rw [Function.update_of_ne hyx, Function.update_of_ne hyx]
      exact h.aged y
  · intro r hr y hy
    have hrx : r ≠ x := by
      rintro rfl
      exact hrun hr
    rw [hsame none y hy]
    show s.priority y ≤ Function.update s.priority x p r
    rw [Function.update_of_ne hrx]
    exact h.top r hr y hy
  · exact h.idle
  · rintro (_ | key)
    · exact (SameOrder.of_eq (hsame none)).nonIncreasing (h.sorted none)
    · exact (SameOrder.of_eq (hsame (some key))).nonIncreasing (h.sorted (some key))

end Enroll

section Woken

variable {s : Sched α κ} {key : κ} {x : α} {q : List α}

/-- Outside the queue of a woken task no priority changes. -/
theorem age_outside
    (hq : s.wait key = x :: q) {y : α} (hy : y ∉ s.wait key) :
    age (Function.update s.priority x (s.original x)) q y = s.priority y := by
  rw [hq] at hy
  obtain ⟨hyx, hyq⟩ := not_or.mp (mt List.mem_cons.mpr hy)
  rw [age_of_notMem hyq, Function.update_of_ne hyx]

/-- Behind a woken task all tasks age. -/
theorem age_inside
    (hxq : x ∉ q) :
    SameOrder s.priority (age (Function.update s.priority x (s.original x)) q) q := by
  intro y hy z hz
  have hne : ∀ w ∈ q, w ≠ x := fun w hw hwx => hxq (hwx ▸ hw)
  rw [sameOrder_age y hy z hz, Function.update_of_ne (hne y hy), Function.update_of_ne (hne z hz)]

end Woken

end Sched

open Sched

section Replace

variable [DecidableEq κ] {s : Sched α κ}

/-- The queue of one key is replaced. -/
def Sched.setWait (s : Sched α κ) (key : κ) (q : List α) : Sched α κ :=
  { s with wait := Function.update s.wait key q }

theorem queue_setWait (s : Sched α κ) (key : κ) (q : List α) :
    (s.setWait key q).queue = Function.update s.queue (some key) q := by
  funext i
  cases i with
  | none =>
      rfl
  | some key' =>
      by_cases hk : key' = key
      · subst hk
        simp [setWait, queue]
      · simp [setWait, queue, hk]

theorem unplaced_setWait
    {key : κ} {q : List α} {x : α} (hx : Unplaced s.queue x) (hq : q ⊆ s.wait key) :
    Unplaced (s.setWait key q).queue x := by
  rw [queue_setWait]
  exact hx.remove hq

/-- A sublist of an ordered waiting queue is put in its place. -/
theorem sorted_setWait
    {key : κ} {q : List α}
    (hsorted : ∀ i, NonIncreasing s.priority (s.queue i)) (hq : NonIncreasing s.priority q) :
    ∀ i, NonIncreasing s.priority ((s.setWait key q).queue i) := by
  intro i
  rw [queue_setWait]
  by_cases hi : i = some key
  · subst hi
    rw [Function.update_self]
    exact hq
  · rw [Function.update_of_ne hi]
    exact hsorted i

end Replace

variable [DecidableEq α] [DecidableEq κ]

/-- The moves of the scheduler. -/
inductive Move (s : Sched α κ) : Sched α κ → Prop
  | stay : Move s s
  /-- A new task is scheduled. -/
  | enroll (x : α) (p : ℤ) :
      Unplaced s.queue x →
      s.running ≠ some x →
      Move s ((s.enroll x p).schedule x)
  /-- The running task waits. -/
  | block (key : κ) (r : α) :
      s.running = some r →
      Move s (s.setWait key (stableInsert s.priority r (s.wait key))).dispatch
  /-- The first waiting task is woken, and the others are aged. -/
  | wake (key : κ) (x : α) (q : List α) :
      s.wait key = x :: q →
      Move s
        ({ s.setWait key q with
          priority := age (Function.update s.priority x (s.original x)) q }.schedule x)
  /-- The first waiting task is released with the priority it has. -/
  | release (key : κ) (x : α) (q : List α) :
      s.wait key = x :: q →
      Move s ((s.setWait key q).schedule x)
  /-- The first waiting task is lost. -/
  | drop (key : κ) (x : α) (q : List α) :
      s.wait key = x :: q →
      Move s (s.setWait key q)
  | kill (keep : α → Bool) :
      Move s (s.kill keep)
  | slice :
      Move s s.slice

section Moves

variable {s s' : Sched α κ}

section Wake

variable {key : κ} {x : α} {q : List α}

/-- The queues after a task has been taken out to be woken. -/
theorem Sched.Dispatched.wake
    (h : s.Dispatched) (hwf : s.Wf) (hq : s.wait key = x :: q) :
    ({ s.setWait key q with
      priority := age (Function.update s.priority x (s.original x)) q } :
        Sched α κ).Dispatched := by
  have hsub : q.Sublist (s.wait key) := hq ▸ List.sublist_cons_self x q
  constructor
  · intro y
    refine le_trans ?_ (le_age y)
    by_cases hyx : y = x
    · rw [hyx, Function.update_self]
      exact le_rfl
    · rw [Function.update_of_ne hyx]
      exact h.aged y
  · intro r hr y hy
    have hy' : y ∉ s.wait key := fun hmem => hwf.not_ready_of_wait hmem hy
    show age _ q y ≤ age _ q r
    rw [age_outside hq hy', age_outside hq (hwf.running r hr (some key))]
    exact h.top r hr y hy
  · exact h.idle
  · intro i
    show NonIncreasing (age _ q) ((s.setWait key q).queue i)
    rw [queue_setWait]
    by_cases hi : i = some key
    · subst hi
      rw [Function.update_self]
      exact (age_inside (hwf.head_notMem hq)).nonIncreasing ((h.sorted (some key)).sublist hsub)
    · rw [Function.update_of_ne hi]
      refine (SameOrder.of_eq (fun y hy => age_outside hq ?_)).nonIncreasing (h.sorted i)
      exact fun hmem => hi (hwf.separated.unique i (some key) y hy hmem)

end Wake

/-- Every move keeps the dispatch discipline. -/
theorem Move.dispatched
    (hmove : Move s s') (hwf : s.Wf) (h : s.Dispatched) :
    s'.Dispatched := by
  cases hmove with
  | stay =>
      exact h
  | enroll x p hx hrun =>
      exact (h.enroll hx hrun p).schedule hwf.running hrun
  | block key r hr =>
      exact Dispatched.dispatch h.aged
        (sorted_setWait h.sorted ((h.sorted (some key)).stableInsert r))
  | wake key x q hq =>
      have hxwait : x ∈ s.wait key := hq ▸ List.mem_cons_self
      have hsub : q.Sublist (s.wait key) := hq ▸ List.sublist_cons_self x q
      have hxrun : s.running ≠ some x := fun hrun => hwf.running x hrun (some key) hxwait
      refine (h.wake hwf hq).schedule ?_ hxrun
      exact fun r hr => unplaced_setWait (hwf.running r hr) hsub.subset
  | release key x q hq =>
      have hxwait : x ∈ s.wait key := hq ▸ List.mem_cons_self
      have hsub : q.Sublist (s.wait key) := hq ▸ List.sublist_cons_self x q
      have hxrun : s.running ≠ some x := fun hrun => hwf.running x hrun (some key) hxwait
      refine Dispatched.schedule ?_ ?_ hxrun
      · exact ⟨h.aged, h.top, h.idle,
          sorted_setWait h.sorted ((h.sorted (some key)).sublist hsub)⟩
      · exact fun r hr => unplaced_setWait (hwf.running r hr) hsub.subset
  | drop key x q hq =>
      have hsub : q.Sublist (s.wait key) := hq ▸ List.sublist_cons_self x q
      exact ⟨h.aged, h.top, h.idle,
        sorted_setWait h.sorted ((h.sorted (some key)).sublist hsub)⟩
  | kill keep =>
      exact h.kill keep
  | slice =>
      exact dispatched_slice hwf h

/-- A waiting task is scheduled: what the queues do. -/
theorem evolves_schedule_waiting
    (hwf : s.Wf) {key : κ} {x : α} {q : List α} (hq : s.wait key = x :: q)
    {priority : α → ℤ}
    (houtside : ∀ y, y ∉ s.wait key → priority y = s.priority y)
    (hinside : SameOrder s.priority priority q) (i : Option κ) :
    Evolves s.priority (s.queue i)
      ({ s.setWait key q with priority := priority }.schedule x).priority
      (({ s.setWait key q with priority := priority }.schedule x).queue i) := by
  have hxwait : x ∈ s.wait key := hq ▸ List.mem_cons_self
  have hsub : q.Sublist (s.wait key) := hq ▸ List.sublist_cons_self x q
  cases i with
  | none =>
      refine evolves_schedule (s := { s.setWait key q with priority := priority })
        (fun r hr => hwf.running r hr none) (hwf.not_ready_of_wait hxwait) ?_
      refine SameOrder.of_eq (fun y hy => houtside y ?_)
      exact fun hmem => hwf.not_ready_of_wait hmem hy
  | some key' =>
      show Evolves s.priority (s.wait key') _ (Sched.wait (schedule _ x) key')
      rw [wait_schedule]
      have hprio : ∀ y ∈ s.wait key',
          ({ s.setWait key q with priority := priority }.schedule x).priority y = priority y := by
        intro y hy
        refine priority_schedule ?_
        exact fun hr => hwf.running y hr (some key') hy
      by_cases hk : key' = key
      · subst hk
        have hqueue : ({ s.setWait key' q with priority := priority } : Sched α κ).wait key' = q :=
          Function.update_self _ _ _
        rw [hqueue]
        refine Evolves.leave hsub ?_
        intro y hy z hz
        rw [hprio y (hsub.subset hy), hprio z (hsub.subset hz)]
        exact hinside y hy z hz
      · have hqueue : ({ s.setWait key q with priority := priority } : Sched α κ).wait key' =
            s.wait key' := Function.update_of_ne hk _ _
        rw [hqueue]
        refine Evolves.leave (List.Sublist.refl _) (SameOrder.of_eq (fun y hy => ?_))
        rw [hprio y hy]
        exact houtside y (fun hmem => hk (hwf.wait_unique hy hmem))

/-- Every move lets each queue evolve. -/
theorem Move.evolves
    (hmove : Move s s') (hwf : s.Wf) (i : Option κ) :
    Evolves s.priority (s.queue i) s'.priority (s'.queue i) := by
  cases hmove with
  | stay =>
      exact Evolves.refl
  | enroll x p hx hrun =>
      have hsame := priority_enroll hx p
      cases i with
      | none =>
          exact evolves_schedule (s := s.enroll x p) (fun r hr => hwf.running r hr none)
            (hx none) (SameOrder.of_eq (hsame none))
      | some key =>
          show Evolves s.priority (s.wait key) _ (Sched.wait (schedule _ x) key)
          rw [wait_schedule]
          refine Evolves.leave (List.Sublist.refl _) (SameOrder.of_eq (fun y hy => ?_))
          have hyrun : s.running ≠ some y := fun hr => hwf.running y hr (some key) hy
          rw [priority_schedule (s := s.enroll x p) hyrun]
          exact hsame (some key) y hy
  | block key r hr =>
      cases i with
      | none =>
          exact Evolves.leave (List.tail_sublist _) (SameOrder.refl _)
      | some key' =>
          by_cases hk : key' = key
          · subst hk
            have hqueue : (s.setWait key' (stableInsert s.priority r (s.wait key'))).dispatch.queue
                (some key') = stableInsert s.priority r (s.wait key') :=
              Function.update_self _ _ _
            rw [hqueue]
            exact Evolves.enter (s.wait key') r (List.Sublist.refl _) (SameOrder.refl _)
              (hwf.running r hr (some key')) rfl
          · have hqueue : (s.setWait key (stableInsert s.priority r (s.wait key))).dispatch.queue
                (some key') = s.wait key' :=
              Function.update_of_ne hk _ _
            rw [hqueue]
            exact Evolves.refl
  | wake key x q hq =>
      exact evolves_schedule_waiting hwf hq (fun _ hy => age_outside hq hy)
        (age_inside (hwf.head_notMem hq)) i
  | release key x q hq =>
      exact evolves_schedule_waiting hwf hq (fun _ _ => rfl) (SameOrder.refl _) i
  | drop key x q hq =>
      rw [queue_setWait]
      by_cases hi : i = some key
      · subst hi
        rw [Function.update_self]
        refine Evolves.leave ?_ (SameOrder.refl _)
        show q.Sublist (s.wait key)
        rw [hq]
        exact List.sublist_cons_self x q
      · rw [Function.update_of_ne hi]
        exact Evolves.refl
  | kill keep =>
      unfold Sched.kill
      simp only
      split_ifs
      · cases i with
        | none =>
            exact Evolves.leave List.filter_sublist (SameOrder.refl _)
        | some key =>
            exact Evolves.leave List.filter_sublist (SameOrder.refl _)
      · cases i with
        | none =>
            exact Evolves.leave ((List.tail_sublist _).trans List.filter_sublist)
              (SameOrder.refl _)
        | some key =>
            exact Evolves.leave List.filter_sublist (SameOrder.refl _)
  | slice =>
      exact evolves_slice hwf i

/--
A task dispatched from the ready queue stood before every task that stays ready.
-/
theorem Move.dispatch_precedes
    (hmove : Move s s') (hwf : s.Wf) {x y : α}
    (hx : x ∈ s.ready) (hrun : s'.running = some x) (hy : y ∈ s.ready) (hy' : y ∈ s'.ready) :
    Precedes s.ready x y := by
  have hold : s.running ≠ some x := fun hr => hwf.running x hr none hx
  -- the first task of a sublist of the ready queue is dispatched
  have hhead : ∀ q : List α, q.Sublist s.ready → q.head? = some x → y ∈ q.tail →
      Precedes s.ready x y := by
    intro q hsub hq hyq
    obtain ⟨l, rfl⟩ := List.head?_eq_some_iff.mp hq
    exact (precedes_of_head hyq).trans hsub
  -- scheduling runs a task that was not ready
  have hsched : ∀ (s₁ : Sched α κ) (z : α), s₁.running = s.running → z ∉ s.ready →
      (s₁.schedule z).running ≠ some x := by
    intro s₁ z hr hz hcontra
    have hzx : z ≠ x := by
      rintro rfl
      exact hz hx
    rcases schedule_cases s₁ z with ⟨-, heq⟩ | ⟨r, hsome, -, heq⟩ | ⟨r, -, -, heq⟩
    · rw [heq] at hcontra
      exact hzx (Option.some.inj hcontra)
    · rw [heq, preempt_of_some hsome] at hcontra
      exact hzx (Option.some.inj hcontra)
    · rw [heq] at hcontra
      exact hold (hr.symm.trans hcontra)
  cases hmove with
  | stay =>
      exact absurd hrun hold
  | enroll z p hz _ =>
      exact absurd hrun (hsched _ z rfl (hz none))
  | block key r _ =>
      exact hhead s.ready (List.Sublist.refl _) hrun hy'
  | wake key z q hq =>
      exact absurd hrun (hsched _ z rfl (hwf.not_ready_of_wait (hq ▸ List.mem_cons_self)))
  | release key z q hq =>
      exact absurd hrun (hsched _ z rfl (hwf.not_ready_of_wait (hq ▸ List.mem_cons_self)))
  | drop key z q _ =>
      exact absurd hrun hold
  | kill keep =>
      unfold Sched.kill at hrun hy'
      simp only at hrun hy'
      split_ifs at hrun hy' with hkeep
      · exact absurd hrun hold
      · exact hhead _ List.filter_sublist hrun hy'
  | slice =>
      rcases slice_cases s with ⟨heq, -, -⟩ | ⟨z, q, hq, -, heq⟩ | ⟨z, q, r, hq, hsome, -, heq⟩
      · rw [heq] at hrun
        exact absurd hrun hold
      · rw [heq] at hrun hy'
        refine hhead s.ready (List.Sublist.refl _) ?_ ?_
        · rw [hq]
          exact hrun
        · rw [hq]
          exact hy'
      · rw [heq, preempt_of_some (s := { s.ageReady with ready := q }) hsome] at hrun hy'
        have hyr : y ≠ r := by
          rintro rfl
          exact hwf.running y hsome none hy
        refine hhead s.ready (List.Sublist.refl _) ?_ ?_
        · rw [hq]
          exact hrun
        · rw [hq]
          exact (mem_stableInsert.mp hy').resolve_left hyr

end Moves

end PriorityScheduler
