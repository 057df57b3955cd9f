import Bikaya.Library.Runs
import Bikaya.Proofs.Conservation

/-!
# Bikaya: the capacity of the active semaphore list

The functions of `asl.c` as a transition system of their own, from `initASL` on.  The
descriptors, the queues and the keys of the processes stay in step over every history, and
there are enough descriptors for the processes of the table.

**Plan.**  `AslCall` is a call of one of the functions of `asl.c`, and `AslStep` a call
made on the state that the former calls have left.  `Blocking` is the invariant: the
descriptors have distinct keys, no active descriptor has an empty queue, and the processes
that wait have the key of the queue they are in.  The queues are disjoint, so that there
are never more active descriptors than processes.

**Results.**
* `Blocking.step`: every call keeps the invariant.
* `Blocking.insertBlocked_requeued` and the like: what a successful call does to the queue
  of its key and to the keys of the processes.
* `active_semaphore_list`: the invariant, the failures, the effects and the capacity over
  every history of calls.
-/

namespace Bikaya

open TransitionSystem

/-- The calls of the functions of `asl.c`; the priority of a PCB may change at any time. -/
inductive AslCall where
  | insertBlocked (key : SemKey) (p : Proc)
  | insertBlockedFifo (key : SemKey) (p : Proc)
  | removeBlocked (key : SemKey)
  | outBlocked (p : Proc)
  | headBlocked (key : SemKey)
  | setPriority (p : Proc) (priority : Int)

/-- The PCB that a call inserts. -/
def AslCall.inserted : AslCall → Option Proc
  | .insertBlocked _ p => some p
  | .insertBlockedFifo _ p => some p
  | _ => none

namespace Kernel

variable {A : Arch} {k k' : Kernel A}

/-- The state after a call. -/
def callAsl (k : Kernel A) : AslCall → Kernel A
  | .insertBlocked key p => (k.insertBlocked key p).2
  | .insertBlockedFifo key p => (k.insertBlockedFifo key p).2
  | .removeBlocked key => (k.removeBlocked key).2
  | .outBlocked p => (k.outBlocked p).2
  | .headBlocked _ => k
  | .setPriority p priority => { k with priority := Function.update k.priority p priority }

/-- A call; only processes that are not blocked are inserted. -/
def AslStep (k : Kernel A) (call : AslCall) (k' : Kernel A) : Prop :=
  (∀ p ∈ call.inserted, k.pSemkey p = none) ∧ k.callAsl call = k'

/-- The state after `initASL`, when no process is blocked. -/
def AslStart (k : Kernel A) : Prop :=
  (∃ asl : Asl, k.asl = asl.init) ∧ ∀ p, k.pSemkey p = none

/-- The invariant of the descriptors, the queues and the keys. -/
abbrev Blocking (k : Kernel A) : Prop :=
  Residence k.asl [] [] k.pSemkey

section Calls

/-- An insertion fails when the key is not active and no descriptor is free. -/
theorem insertBlocked_full
    {key : SemKey} (hkey : ∀ s ∈ k.asl.semdH, k.asl.sKey s ≠ some key)
    (hfree : k.asl.semdFreeH = []) (p : Proc) :
    k.insertBlocked key p = (true, k) ∧ k.insertBlockedFifo key p = (true, k) := by
  have htarget := Asl.targetSemd_eq_none (Asl.getSemd_eq_none.mpr hkey) hfree
  simp only [insertBlocked, insertBlockedFifo, htarget, and_self]

theorem Blocking.absent
    (h : k.Blocking) {p : Proc} (hp : k.pSemkey p = none) :
    Residence.Absent k.asl [] [] p :=
  h.absent_of_semkey List.not_mem_nil List.not_mem_nil hp

/-- There is room for a key: it is active, or a descriptor is free. -/
theorem Blocking.room_iff
    (h : k.Blocking) (key : SemKey) :
    (k.waitQueue key ≠ [] ∨ k.asl.semdFreeH ≠ []) ↔
      ¬ ((∀ s ∈ k.asl.semdH, k.asl.sKey s ≠ some key) ∧ k.asl.semdFreeH = []) := by
  have hactive : k.waitQueue key = [] ↔ ∀ s ∈ k.asl.semdH, k.asl.sKey s ≠ some key :=
    (h.aslOk.waitQueue_eq_nil_iff key).trans Asl.getSemd_eq_none
  rw [not_and_or, ← hactive]

/-- What an insertion of a process that is not blocked does. -/
theorem Blocking.insert
    (h : k.Blocking) (key : SemKey) {p : Proc} (hp : k.pSemkey p = none) :
    (((∀ s ∈ k.asl.semdH, k.asl.sKey s ≠ some key) ∧ k.asl.semdFreeH = []) ∧
      k.insertBlocked key p = (true, k) ∧ k.insertBlockedFifo key p = (true, k)) ∨
    (¬ ((∀ s ∈ k.asl.semdH, k.asl.sKey s ≠ some key) ∧ k.asl.semdFreeH = []) ∧
      (k.insertBlocked key p).1 = false ∧ (k.insertBlocked key p).2.Blocking ∧
      (k.insertBlockedFifo key p).1 = false ∧ (k.insertBlockedFifo key p).2.Blocking) := by
  by_cases hfull : (∀ s ∈ k.asl.semdH, k.asl.sKey s ≠ some key) ∧ k.asl.semdFreeH = []
  · exact Or.inl ⟨hfull, insertBlocked_full hfull.1 hfull.2 p⟩
  · have hroom := (h.room_iff key).mpr hfull
    refine Or.inr ⟨hfull, ?_⟩
    obtain ⟨asl, hins, hOk, hwait⟩ := insertBlocked_spec h.aslOk key p hroom
    obtain ⟨asl', hins', hOk', hwait'⟩ := insertBlockedFifo_spec h.aslOk key p hroom
    rw [hins, hins']
    exact ⟨rfl, h.block (h.absent hp) hOk hwait (insertProcQ_perm _ _ _),
      rfl, h.block (h.absent hp) hOk' hwait' (List.perm_append_singleton _ _)⟩

/-- `removeBlocked` finds nothing, or takes the first process of the key. -/
theorem Blocking.remove
    (h : k.Blocking) (key : SemKey) :
    ((∀ x, k.pSemkey x ≠ some key) ∧ k.removeBlocked key = (none, k)) ∨
    (∃ p, k.pSemkey p = some key ∧ (k.removeBlocked key).1 = some p ∧
      (k.removeBlocked key).2.Blocking) := by
  cases hq : k.waitQueue key with
  | nil =>
      refine Or.inl ⟨fun x hx => ?_, removeBlocked_nil h.aslOk hq⟩
      have hmem : x ∈ k.waitQueue key := (h.semkey x key).mp hx
      rw [hq] at hmem
      exact List.not_mem_nil hmem
  | cons p q =>
      have hp : p ∈ k.waitQueue key := hq ▸ List.mem_cons_self
      obtain ⟨asl, hrem, hOk, hwait⟩ := removeBlocked_cons h.aslOk hq
      refine Or.inr ⟨p, (h.semkey p key).mpr hp, ?_⟩
      rw [hrem]
      refine ⟨rfl, (h.unblock hOk hp hwait ?_ ?_).1⟩
      · show (k.waitQueue key).Perm (p :: q)
        rw [hq]
      · show q.Sublist (k.waitQueue key)
        rw [hq]
        exact List.sublist_cons_self p q

/-- `outBlocked` finds nothing, or takes a blocked process out of its queue. -/
theorem Blocking.out
    (h : k.Blocking) (p : Proc) :
    (k.pSemkey p = none ∧ k.outBlocked p = (none, k)) ∨
    (k.pSemkey p ≠ none ∧ (k.outBlocked p).1 = some p ∧ (k.outBlocked p).2.Blocking) := by
  cases hkey : k.pSemkey p with
  | none =>
      refine Or.inl ⟨rfl, ?_⟩
      have hg : k.asl.getSemd none = none := by
        refine Asl.getSemd_eq_none.mpr (fun s hs hnone => ?_)
        obtain ⟨key, hs'⟩ := h.aslOk.hasKey s hs
        exact absurd (hnone.symm.trans hs') (by simp)
      simp only [outBlocked, hkey, hg]
  | some key =>
      have hp : p ∈ k.waitQueue key := (h.semkey p key).mp hkey
      obtain ⟨asl, hout, hOk, hwait⟩ := outBlocked_spec h.aslOk hkey hp
      refine Or.inr ⟨by simp, ?_⟩
      rw [hout]
      exact ⟨rfl, (h.unblock hOk hp hwait (List.perm_cons_erase hp)
        List.erase_sublist).1⟩

/-- One process enters or leaves the queue of a key, and nothing else changes. -/
structure Requeued (k : Kernel A) (key : SemKey) (queue : List Proc) (p : Proc)
    (semkey : Option SemKey) (k' : Kernel A) : Prop where
  queue : k'.waitQueue = Function.update k.waitQueue key queue
  semkey : k'.pSemkey = Function.update k.pSemkey p semkey
  others : k' = { k with asl := k'.asl, pSemkey := k'.pSemkey }

/-- An insertion that does not fail, behind the processes of at least the same priority. -/
theorem Blocking.insertBlocked_requeued
    (h : k.Blocking) {key : SemKey} {p : Proc} (hins : (k.insertBlocked key p).1 = false) :
    k.Requeued key (insertProcQ k.priority (k.waitQueue key) p) p (some key)
      (k.insertBlocked key p).2 := by
  have hroom : ¬ ((∀ s ∈ k.asl.semdH, k.asl.sKey s ≠ some key) ∧ k.asl.semdFreeH = []) := by
    intro hfull
    rw [(insertBlocked_full hfull.1 hfull.2 p).1] at hins
    exact absurd hins (by simp)
  obtain ⟨asl, heq, -, hwait⟩ := insertBlocked_spec h.aslOk key p ((h.room_iff key).mpr hroom)
  rw [heq]
  exact ⟨hwait, rfl, rfl⟩

/-- The same at the end of the queue. -/
theorem Blocking.insertBlockedFifo_requeued
    (h : k.Blocking) {key : SemKey} {p : Proc} (hins : (k.insertBlockedFifo key p).1 = false) :
    k.Requeued key (k.waitQueue key ++ [p]) p (some key) (k.insertBlockedFifo key p).2 := by
  have hroom : ¬ ((∀ s ∈ k.asl.semdH, k.asl.sKey s ≠ some key) ∧ k.asl.semdFreeH = []) := by
    intro hfull
    rw [(insertBlocked_full hfull.1 hfull.2 p).2] at hins
    exact absurd hins (by simp)
  obtain ⟨asl, heq, -, hwait⟩ :=
    insertBlockedFifo_spec h.aslOk key p ((h.room_iff key).mpr hroom)
  rw [heq]
  exact ⟨hwait, rfl, rfl⟩

/-- What `removeBlocked` returns was the first of its queue. -/
theorem Blocking.removeBlocked_requeued
    (h : k.Blocking) {key : SemKey} {p : Proc} (hrem : (k.removeBlocked key).1 = some p) :
    ∃ q, k.waitQueue key = p :: q ∧ k.Requeued key q p none (k.removeBlocked key).2 := by
  cases hq : k.waitQueue key with
  | nil =>
      rw [removeBlocked_nil h.aslOk hq] at hrem
      exact absurd hrem (by simp)
  | cons x q =>
      obtain ⟨asl, heq, -, hwait⟩ := removeBlocked_cons h.aslOk hq
      rw [heq] at hrem
      obtain rfl : x = p := Option.some.inj hrem
      rw [heq]
      exact ⟨q, rfl, hwait, rfl, rfl⟩

/-- What `outBlocked` returns was blocked. -/
theorem Blocking.outBlocked_requeued
    (h : k.Blocking) {p x : Proc} (hout : (k.outBlocked p).1 = some x) :
    x = p ∧ ∃ key, k.pSemkey p = some key ∧
      k.Requeued key ((k.waitQueue key).erase p) p none (k.outBlocked p).2 := by
  cases hkey : k.pSemkey p with
  | none =>
      rcases h.out p with ⟨-, heq⟩ | ⟨hne, -⟩
      · rw [heq] at hout
        exact absurd hout (by simp)
      · exact absurd hkey hne
  | some key =>
      obtain ⟨asl, heq, -, hwait⟩ := outBlocked_spec h.aslOk hkey ((h.semkey p key).mp hkey)
      rw [heq] at hout
      rw [heq]
      exact ⟨(Option.some.inj hout).symm, key, rfl, hwait, rfl, rfl⟩

/-- Every call keeps the invariant. -/
theorem Blocking.step
    {call : AslCall} (h : k.Blocking) (hstep : k.AslStep call k') :
    k'.Blocking := by
  obtain ⟨hadm, rfl⟩ := hstep
  cases call with
  | insertBlocked key p =>
      rcases h.insert key (hadm p rfl) with ⟨-, hins, -⟩ | ⟨-, -, hblock, -⟩
      · rw [callAsl, hins]
        exact h
      · exact hblock
  | insertBlockedFifo key p =>
      rcases h.insert key (hadm p rfl) with ⟨-, -, hins⟩ | ⟨-, -, -, -, hblock⟩
      · rw [callAsl, hins]
        exact h
      · exact hblock
  | removeBlocked key =>
      rcases h.remove key with ⟨-, hrem⟩ | ⟨p, -, -, hblock⟩
      · rw [callAsl, hrem]
        exact h
      · exact hblock
  | outBlocked p =>
      rcases h.out p with ⟨-, hout⟩ | ⟨-, -, hblock⟩
      · rw [callAsl, hout]
        exact h
      · exact hblock
  | headBlocked key =>
      exact h
  | setPriority p priority =>
      exact h

theorem AslStart.blocking (h : k.AslStart) : k.Blocking := by
  obtain ⟨⟨asl, hasl⟩, hkey⟩ := h
  obtain ⟨hOk, hwait⟩ := asl.init_ok
  rw [← hasl] at hOk hwait
  refine ⟨hOk, ⟨?_, ?_⟩, fun x key => ?_⟩
  · rintro (_ | _ | key)
    · exact List.nodup_nil
    · exact List.nodup_nil
    · exact (hwait key).symm ▸ List.nodup_nil
  · rintro (_ | _ | key) j x hx
    · exact absurd hx List.not_mem_nil
    · exact absurd hx List.not_mem_nil
    · have hx' : x ∈ k.asl.waitQueue key := hx
      rw [hwait key] at hx'
      exact absurd hx' List.not_mem_nil
  · rw [hkey x, hwait key]
    simp

end Calls

section Room

/-- The idle process is never blocked when only processes of the table are inserted. -/
theorem AslStep.idle
    {call : AslCall} (hstep : k.AslStep call k') (hidle : k.pSemkey .idle = none)
    (hcall : ∀ p ∈ call.inserted, p ≠ .idle) :
    k'.pSemkey .idle = none := by
  have hins : ∀ (key : SemKey) (p : Proc), p ≠ .idle →
      Function.update k.pSemkey p (some key) .idle = none := by
    intro key p hp
    rw [Function.update_of_ne (Ne.symm hp)]
    exact hidle
  have hout : ∀ p, Function.update k.pSemkey p none .idle = none := by
    intro p
    by_cases hp : Proc.idle = p
    · rw [hp, Function.update_self]
    · rw [Function.update_of_ne hp]
      exact hidle
  obtain ⟨hadm, rfl⟩ := hstep
  cases call with
  | insertBlocked key p =>
      show (k.insertBlocked key p).2.pSemkey .idle = none
      unfold insertBlocked
      split
      · exact hidle
      · exact hins key p (hcall p rfl)
  | insertBlockedFifo key p =>
      show (k.insertBlockedFifo key p).2.pSemkey .idle = none
      unfold insertBlockedFifo
      split
      · exact hidle
      · exact hins key p (hcall p rfl)
  | removeBlocked key =>
      show (k.removeBlocked key).2.pSemkey .idle = none
      unfold removeBlocked
      split
      · exact hidle
      · split
        · exact hidle
        · exact hout _
  | outBlocked p =>
      show (k.outBlocked p).2.pSemkey .idle = none
      unfold outBlocked
      split
      · exact hidle
      · split
        · exact hidle
        · exact hout _
  | headBlocked key =>
      exact hidle
  | setPriority p priority =>
      exact hidle

/-- There is a descriptor for every process of the table that is not blocked. -/
theorem Blocking.insert_ok
    (h : k.Blocking) (hidle : k.pSemkey .idle = none) {p : Proc} (hp : p ≠ .idle)
    (hkey : k.pSemkey p = none) (key : SemKey) :
    (k.insertBlocked key p).1 = false ∧ (k.insertBlockedFifo key p).1 = false := by
  have hfree := h.exists_free_semd (h.absent hkey) (h.absent hidle) hp
  rcases h.insert key hkey with ⟨⟨-, hfull⟩, -⟩ | ⟨-, hins, -, hins', -⟩
  · exact absurd hfull hfree
  · exact ⟨hins, hins'⟩

/-- P never runs out of descriptors. -/
theorem Blocking.p_ok
    (h : k.Blocking) (hidle : k.pSemkey .idle = none) (hrun : k.runningProc ≠ .idle)
    (hkey : k.pSemkey k.runningProc = none) (m : IntModel) (a : SemAddr) (tod : Word) :
    ∃ k', k.p m a tod = .ok k' := by
  set k₁ := (k.addSem m a (-1)).flushKernelTime tod k.runningProc with hk₁
  have hins : (k₁.insertBlocked (.user a) k.runningProc).1 = false :=
    (Blocking.insert_ok (k := k₁) h hidle hrun hkey (.user a)).1
  by_cases hneg : (k.addSem m a (-1)).sem a < 0
  · cases hres : k₁.insertBlocked (.user a) k.runningProc with
    | mk failed k₂ =>
        rw [hres] at hins
        obtain rfl : failed = false := hins
        exact ⟨_, p_blocked m a hneg hres⟩
  · exact ⟨k.addSem m a (-1), by simp only [p, hneg, if_false]⟩

end Room

variable {s : ℕ → Kernel A} {e : ℕ → AslCall} {n : ℕ}

theorem blocking_of_run
    (hstart : (s 0).AslStart) (hrun : IsRun AslStep s e n) :
    ∀ i ≤ n, (s i).Blocking :=
  hrun.invariant hstart.blocking (fun _ _ _ h hstep => h.step hstep)

/--
The active semaphore list: the invariant of the descriptors, the queues and the keys;
when the functions of `asl.c` fail, and that they change nothing then; the capacity, from
which P and WAITIO find a descriptor for every running process; and what the functions do
when they do not fail.
-/
theorem active_semaphore_list
    (hstart : (s 0).AslStart) (hrun : IsRun AslStep s e n) :
    (∀ i ≤ n,
      (s i).asl.Ok ∧
      (∀ d ∈ (s i).asl.semdH, ((s i).asl.sProcQ d).Nodup) ∧
      ∀ p key, (s i).pSemkey p = some key ↔
        ∃ d ∈ (s i).asl.semdH, (s i).asl.sKey d = some key ∧ p ∈ (s i).asl.sProcQ d) ∧
    (∀ i ≤ n,
      (∀ key p, (s i).pSemkey p = none →
        (((s i).insertBlocked key p).1 = true ↔
          (∀ d ∈ (s i).asl.semdH, (s i).asl.sKey d ≠ some key) ∧ (s i).asl.semdFreeH = []) ∧
        (((s i).insertBlocked key p).1 = true → ((s i).insertBlocked key p).2 = s i) ∧
        (((s i).insertBlockedFifo key p).1 = true ↔
          (∀ d ∈ (s i).asl.semdH, (s i).asl.sKey d ≠ some key) ∧ (s i).asl.semdFreeH = []) ∧
        (((s i).insertBlockedFifo key p).1 = true →
          ((s i).insertBlockedFifo key p).2 = s i)) ∧
      (∀ key,
        (((s i).removeBlocked key).1 = none ↔ ∀ p, (s i).pSemkey p ≠ some key) ∧
        (((s i).removeBlocked key).1 = none → ((s i).removeBlocked key).2 = s i)) ∧
      ∀ p,
        (((s i).outBlocked p).1 = none ↔ (s i).pSemkey p = none) ∧
        (((s i).outBlocked p).1 = none → ((s i).outBlocked p).2 = s i)) ∧
    ((∀ i < n, ∀ p ∈ (e i).inserted, p ≠ .idle) →
      ∀ i ≤ n, ∀ k : Kernel A, k.asl = (s i).asl → k.pSemkey = (s i).pSemkey →
        (∀ p, p ≠ .idle → k.pSemkey p = none → ∀ key,
          (k.insertBlocked key p).1 = false ∧ (k.insertBlockedFifo key p).1 = false) ∧
        (k.runningProc ≠ .idle → k.pSemkey k.runningProc = none →
          (∀ m a tod, ∃ k', k.p m a tod = .ok k') ∧
          ∀ d, (k.popRunning.2.insertBlocked (.dev d) k.popRunning.1).1 = false ∧
            (k.popRunning.2.insertBlockedFifo (.dev d) k.popRunning.1).1 = false)) ∧
    ∀ i ≤ n,
      (∀ key p,
        (((s i).insertBlocked key p).1 = false →
          (s i).Requeued key (insertProcQ (s i).priority ((s i).waitQueue key) p) p (some key)
            ((s i).insertBlocked key p).2) ∧
        (((s i).insertBlockedFifo key p).1 = false →
          (s i).Requeued key ((s i).waitQueue key ++ [p]) p (some key)
            ((s i).insertBlockedFifo key p).2)) ∧
      (∀ key p, ((s i).removeBlocked key).1 = some p →
        ∃ q, (s i).waitQueue key = p :: q ∧
          (s i).Requeued key q p none ((s i).removeBlocked key).2) ∧
      (∀ p x, ((s i).outBlocked p).1 = some x →
        x = p ∧ ∃ key, (s i).pSemkey p = some key ∧
          (s i).Requeued key (((s i).waitQueue key).erase p) p none ((s i).outBlocked p).2) ∧
      ∀ key, (s i).headBlocked key = ((s i).waitQueue key).head? := by
  have hblock := blocking_of_run hstart hrun
  refine ⟨fun i hi => ?_, fun i hi => ⟨fun key p hp => ?_, fun key => ?_, fun p => ?_⟩, ?_,
    fun i hi => ?_⟩
  · have h := hblock i hi
    refine ⟨h.aslOk, fun d hd => ?_, fun p key => ?_⟩
    · obtain ⟨key, hkey⟩ := h.aslOk.hasKey d hd
      rw [← h.aslOk.waitQueue_of_mem hd hkey]
      exact h.wait_nodup key
    · rw [h.semkey p key]
      constructor
      · intro hp
        cases hg : (s i).asl.getSemd (some key) with
        | none =>
            rw [Asl.Ok.waitQueue_of_none hg] at hp
            exact absurd hp List.not_mem_nil
        | some d =>
            obtain ⟨hd, hkey⟩ := Asl.getSemd_mem hg
            rw [h.aslOk.waitQueue_of_mem hd hkey] at hp
            exact ⟨d, hd, hkey, hp⟩
      · rintro ⟨d, hd, hkey, hp⟩
        rw [h.aslOk.waitQueue_of_mem hd hkey]
        exact hp
  · rcases (hblock i hi).insert key hp with ⟨hfull, hins, hins'⟩ | ⟨hroom, hins, -, hins', -⟩
    · rw [hins, hins']
      exact ⟨iff_of_true rfl hfull, fun _ => rfl, iff_of_true rfl hfull, fun _ => rfl⟩
    · rw [hins, hins']
      exact ⟨iff_of_false (by simp) hroom, fun h => absurd h (by simp),
        iff_of_false (by simp) hroom, fun h => absurd h (by simp)⟩
  · rcases (hblock i hi).remove key with ⟨hnone, hrem⟩ | ⟨p, hp, hrem, -⟩
    · rw [hrem]
      exact ⟨iff_of_true rfl hnone, fun _ => rfl⟩
    · rw [hrem]
      exact ⟨iff_of_false (by simp) (fun h => h p hp), fun h => absurd h (by simp)⟩
  · rcases (hblock i hi).out p with ⟨hnone, hout⟩ | ⟨hkey, hout, -⟩
    · rw [hout]
      exact ⟨iff_of_true rfl hnone, fun _ => rfl⟩
    · rw [hout]
      exact ⟨iff_of_false (by simp) hkey, fun h => absurd h (by simp)⟩
  · intro htable i hi k hasl hkeys
    have hidle : ∀ j ≤ n, (s j).pSemkey .idle = none :=
      hrun.invariant_of htable (hstart.2 .idle)
        (fun _ _ _ h hcall hstep => AslStep.idle hstep h hcall)
    have hk : k.Blocking := by
      rw [Blocking, hasl, hkeys]
      exact hblock i hi
    have hkidle : k.pSemkey .idle = none := by
      rw [hkeys]
      exact hidle i hi
    refine ⟨fun p hp hkey key => hk.insert_ok hkidle hp hkey key, fun hrun' hkey =>
      ⟨hk.p_ok hkidle hrun' hkey, fun d => ?_⟩⟩
    rw [popRunning, runNextReady_eq]
    exact Blocking.insert_ok
      (k := { k with
        readyQueue := k.readyQueue.tail
        runningProc := k.readyQueue.head?.getD .idle }) hk hkidle hrun' hkey (.dev d)
  · have h := hblock i hi
    exact ⟨fun key p => ⟨h.insertBlocked_requeued, h.insertBlockedFifo_requeued⟩,
      fun key p => h.removeBlocked_requeued, fun p x => h.outBlocked_requeued,
      headBlocked_eq⟩

/-- Two processes are blocked on one semaphore, and one of them leaves. -/
def lockCalls : List AslCall :=
  [.insertBlocked (.user mutexMps) (.pcb 0), .insertBlocked (.user mutexMps) (.pcb 1),
    .outBlocked (.pcb 0)]

/-- The states these calls go through. -/
def lockStates : ℕ → Kernel umps
  | 0 => { bss (fun _ => 0) with asl := (bss (A := umps) (fun _ => 0)).asl.init }
  | i + 1 => (lockStates i).callAsl (lockCalls.getD i (.headBlocked (.user mutexMps)))

theorem lockStates_isRun :
    IsRun AslStep lockStates
      (fun i => lockCalls.getD i (.headBlocked (.user mutexMps))) 3 := by
  have hadm : ∀ i < 3, ∀ p ∈ (lockCalls.getD i
      (.headBlocked (.user mutexMps))).inserted, (lockStates i).pSemkey p = none := by
    decide
  exact fun i hi => ⟨hadm i hi, rfl⟩

theorem active_semaphore_list_lockCalls :
    (lockStates 3).pSemkey (.pcb 1) = some (.user mutexMps) ↔
      ∃ d ∈ (lockStates 3).asl.semdH,
        (lockStates 3).asl.sKey d = some (.user mutexMps) ∧
          .pcb 1 ∈ (lockStates 3).asl.sProcQ d :=
  ((active_semaphore_list (s := lockStates) ⟨⟨_, rfl⟩, fun _ => rfl⟩ lockStates_isRun).1 3
    le_rfl).2.2 (.pcb 1) (.user mutexMps)

end Kernel

end Bikaya
