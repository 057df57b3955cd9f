import Bikaya.Core.Scheduler
import Bikaya.Library.StableInsert

/-!
# Bikaya: process queues

The queue functions of `pcb.c` as operations on lists: insertion is the stable insertion by
priority, unlinking is the removal of one element, and the ageing loop increments the
priority of each process of the queue once.

**Results.**
* `insertProcQ_eq`, `outProcQ_eq`: the functions as operations of the library and of the
  lists.
* `raisePriorities_of_mem`: the loop on a queue without duplicates.

The queues on the links of the PCBs are in `QueueLinks.lean`.
-/

namespace Bikaya

open StableInsert

/-- The queue insertion of the kernel is stable insertion by priority. -/
theorem insertProcQ_eq
    (priority : Proc → Int) (q : List Proc) (p : Proc) :
    insertProcQ priority q p = stableInsert priority p q := by
  induction q with
  | nil =>
      rfl
  | cons target q ih =>
      by_cases h : priority p > priority target
      · simp [insertProcQ, stableInsert, h]
      · have hlt : ¬ priority target < priority p := h
        simp only [insertProcQ, h, if_false, ih]
        simp [stableInsert, hlt]

theorem insertProcQ_perm
    (priority : Proc → Int) (q : List Proc) (p : Proc) :
    (insertProcQ priority q p).Perm (p :: q) := by
  rw [insertProcQ_eq]
  exact stableInsert_perm

@[simp] theorem mem_insertProcQ
    {priority : Proc → Int} {q : List Proc} {p x : Proc} :
    x ∈ insertProcQ priority q p ↔ x = p ∨ x ∈ q := by
  rw [insertProcQ_eq]
  exact mem_stableInsert

theorem insertProcQ_ne_nil
    (priority : Proc → Int) (q : List Proc) (p : Proc) :
    insertProcQ priority q p ≠ [] := by
  intro h
  have : p ∈ insertProcQ priority q p := mem_insertProcQ.mpr (Or.inl rfl)
  rw [h] at this
  exact List.not_mem_nil this

@[simp] theorem insertProcQ_nil
    (priority : Proc → Int) (p : Proc) :
    insertProcQ priority [] p = [p] :=
  rfl

/-- `outProcQ` finds `p` exactly when it is in the queue, and unlinks it once. -/
theorem outProcQ_eq
    (q : List Proc) (p : Proc) :
    outProcQ q p = (if p ∈ q then some p else none, q.erase p) := by
  induction q with
  | nil =>
      rfl
  | cons target q ih =>
      by_cases h : target = p
      · subst h
        simp [outProcQ]
      · have h' : p ≠ target := Ne.symm h
        simp [outProcQ, h, h', ih]

@[simp] theorem removeProcQ_nil :
    removeProcQ [] = (none, []) :=
  rfl

@[simp] theorem removeProcQ_cons
    (p : Proc) (q : List Proc) :
    removeProcQ (p :: q) = (some p, q) :=
  rfl

theorem removeProcQ_eq
    (q : List Proc) :
    removeProcQ q = (q.head?, q.tail) := by
  cases q <;> rfl

theorem raisePriorities_of_notMem
    (m : IntModel) (priority : Proc → Int) {q : List Proc} {x : Proc}
    (hx : x ∉ q) :
    raisePriorities m priority q x = priority x := by
  induction q generalizing priority with
  | nil =>
      rfl
  | cons p q ih =>
      obtain ⟨hne, hx⟩ := not_or.mp (mt List.mem_cons.mpr hx)
      rw [raisePriorities, List.foldl_cons]
      exact (ih _ hx).trans (Function.update_of_ne hne _ _)

/-- In a queue without repetitions each process is aged once. -/
theorem raisePriorities_of_mem
    (m : IntModel) (priority : Proc → Int) {q : List Proc} {x : Proc}
    (hq : q.Nodup) (hx : x ∈ q) :
    raisePriorities m priority q x = m.add (priority x) PRIORITY_INC_PER_TIME_SLICE := by
  induction q generalizing priority with
  | nil =>
      exact absurd hx List.not_mem_nil
  | cons p q ih =>
      obtain ⟨hp, hq⟩ := List.nodup_cons.mp hq
      rw [raisePriorities, List.foldl_cons]
      rcases List.mem_cons.mp hx with rfl | hx
      · exact (raisePriorities_of_notMem m _ hp).trans (Function.update_self _ _ _)
      · have hne : x ≠ p := fun h => hp (h ▸ hx)
        exact (ih _ hq hx).trans (by rw [Function.update_of_ne hne])

@[simp] theorem raisePriorities_nil
    (m : IntModel) (priority : Proc → Int) :
    raisePriorities m priority [] = priority :=
  rfl

end Bikaya
