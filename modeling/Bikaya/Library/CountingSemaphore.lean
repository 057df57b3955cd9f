import Mathlib.Data.Finset.Card
import Bikaya.Library.Runs

/-!
# Counting semaphores with direct hand-over

A semaphore with its units, the processes that wait for one, and those that hold one.  A
release with waiting processes hands the unit over, so that the integer never counts a unit
that somebody waits for.  Processes may die while they wait or hold.

**Results.**
* `Bounded.move`: every move keeps the holders within the units.
* `Exhaustive.move`: if no unit is taken twice or lost, somebody waits only while all the
  units are held.
-/

namespace CountingSemaphore

open TransitionSystem

universe u

/-- The units that are left, the processes that wait, and those that hold a unit. -/
structure Semaphore (P : Type u) where
  value : ℤ
  waiting : List P
  holders : Finset P

/-- What happens to a semaphore. -/
inductive Action (P : Type u) where
  | stay
  /-- `p` takes a unit. -/
  | acquire (p : P)
  /-- `p` waits for a unit. -/
  | block (p : P)
  /-- `p` gives its unit back. -/
  | release (p : P)
  /-- `p` hands its unit over to `x`, which waits. -/
  | handOver (p x : P)
  /-- Processes die. -/
  | abandon (dead : Finset P)

variable {P : Type u}

/-- Only processes without a unit ask for one, and no holder dies. -/
def Action.Clean (s : Semaphore P) : Action P → Prop
  | .acquire p => p ∉ s.holders
  | .block p => p ∉ s.holders
  | .abandon dead => ∀ x ∈ s.holders, x ∉ dead
  | _ => True

namespace Semaphore

variable {s s' : Semaphore P} {c : ℤ} {act : Action P}

/-- The invariant of a semaphore of capacity `c`. -/
structure Bounded (c : ℤ) (s : Semaphore P) : Prop where
  nonneg : 0 ≤ s.value
  drained : s.waiting ≠ [] → s.value = 0
  capacity : s.value + s.holders.card ≤ c

/-- The units that are left and those that are held make up the capacity. -/
structure Exhaustive (c : ℤ) (s : Semaphore P) : Prop where
  nodup : s.waiting.Nodup
  apart : ∀ x ∈ s.waiting, x ∉ s.holders
  balance : s.value + s.holders.card = c

/-- At most as many processes hold a unit as there are units. -/
theorem Bounded.card_le (h : s.Bounded c) : (s.holders.card : ℤ) ≤ c := by
  have := h.nonneg
  have := h.capacity
  omega

/-- While somebody waits, all the units are held. -/
theorem Exhaustive.card_eq
    (h : s.Exhaustive c) (hbounded : s.Bounded c) (hwait : s.waiting ≠ []) :
    (s.holders.card : ℤ) = c := by
  have := h.balance
  have := hbounded.drained hwait
  omega

variable [DecidableEq P]

/-- The actions of a semaphore. -/
inductive Move (s : Semaphore P) : Action P → Semaphore P → Prop
  | stay : Move s .stay s
  | acquire {p : P} :
      0 < s.value →
      p ∉ s.waiting →
      Move s (.acquire p) { s with value := s.value - 1, holders := insert p s.holders }
  | block {p : P} {q : List P} :
      s.value = 0 →
      p ∉ s.waiting →
      q.Perm (p :: s.waiting) →
      Move s (.block p) { s with waiting := q }
  | release {p : P} :
      p ∈ s.holders →
      s.waiting = [] →
      Move s (.release p) { s with value := s.value + 1, holders := s.holders.erase p }
  | handOver {p x : P} {q : List P} :
      p ∈ s.holders →
      s.waiting.Perm (x :: q) →
      Move s (.handOver p x) { s with waiting := q, holders := insert x (s.holders.erase p) }
  | abandon {dead : Finset P} :
      Move s (.abandon dead)
        { s with
          waiting := s.waiting.filter (fun x => x ∉ dead)
          holders := s.holders.filter (fun x => x ∉ dead) }

/-- Every move respects the capacity. -/
theorem Bounded.move (h : s.Bounded c) (hmove : Move s act s') : s'.Bounded c := by
  have hnonneg := h.nonneg
  have hcapacity := h.capacity
  cases hmove with
  | stay =>
      exact h
  | @acquire p hpos _ =>
      have hcard : ((insert p s.holders).card : ℤ) ≤ s.holders.card + 1 := by
        exact_mod_cast Finset.card_insert_le p s.holders
      refine ⟨by show 0 ≤ s.value - 1; omega, fun hne => ?_, ?_⟩
      · have := h.drained hne
        omega
      · show s.value - 1 + ((insert p s.holders).card : ℤ) ≤ c
        omega
  | block hzero _ _ =>
      exact ⟨hnonneg, fun _ => hzero, hcapacity⟩
  | @release p hp hempty =>
      have hcard : ((s.holders.erase p).card : ℤ) + 1 = s.holders.card := by
        exact_mod_cast Finset.card_erase_add_one hp
      refine ⟨by show 0 ≤ s.value + 1; omega, fun hne => absurd hempty hne, ?_⟩
      show s.value + 1 + ((s.holders.erase p).card : ℤ) ≤ c
      omega
  | @handOver p x q hp hq =>
      have hcard : ((s.holders.erase p).card : ℤ) + 1 = s.holders.card := by
        exact_mod_cast Finset.card_erase_add_one hp
      have hinsert : ((insert x (s.holders.erase p)).card : ℤ) ≤ (s.holders.erase p).card + 1 := by
        exact_mod_cast Finset.card_insert_le x (s.holders.erase p)
      refine ⟨hnonneg, fun _ => h.drained ?_, ?_⟩
      · intro hnil
        rw [hnil] at hq
        exact absurd hq.symm.eq_nil (List.cons_ne_nil x q)
      · show s.value + ((insert x (s.holders.erase p)).card : ℤ) ≤ c
        omega
  | @abandon dead =>
      have hcard : ((s.holders.filter (fun x => x ∉ dead)).card : ℤ) ≤ s.holders.card := by
        exact_mod_cast Finset.card_filter_le _ _
      refine ⟨hnonneg, fun hne => h.drained (fun hnil => hne ?_), ?_⟩
      · simp only [hnil, List.filter_nil]
      · show s.value + ((s.holders.filter (fun x => x ∉ dead)).card : ℤ) ≤ c
        omega

/-- A clean move loses no unit. -/
theorem Exhaustive.move
    (h : s.Exhaustive c) (hmove : Move s act s') (hclean : act.Clean s) :
    s'.Exhaustive c := by
  have hbalance := h.balance
  cases hmove with
  | stay =>
      exact h
  | @acquire p _ hwait =>
      have hcard : ((insert p s.holders).card : ℤ) = s.holders.card + 1 := by
        exact_mod_cast Finset.card_insert_of_notMem hclean
      refine ⟨h.nodup, fun x hx => ?_, ?_⟩
      · rw [Finset.mem_insert, not_or]
        exact ⟨fun hxp => hwait (hxp ▸ hx), h.apart x hx⟩
      · show s.value - 1 + ((insert p s.holders).card : ℤ) = c
        omega
  | block _ hwait hq =>
      refine ⟨hq.nodup_iff.mpr (List.nodup_cons.mpr ⟨hwait, h.nodup⟩), fun x hx => ?_, hbalance⟩
      rcases List.mem_cons.mp (hq.mem_iff.mp hx) with rfl | hx
      · exact hclean
      · exact h.apart x hx
  | @release p hp hempty =>
      have hcard : ((s.holders.erase p).card : ℤ) + 1 = s.holders.card := by
        exact_mod_cast Finset.card_erase_add_one hp
      refine ⟨h.nodup, fun x hx hmem => h.apart x hx (Finset.mem_of_mem_erase hmem), ?_⟩
      show s.value + 1 + ((s.holders.erase p).card : ℤ) = c
      omega
  | @handOver p x q hp hq =>
      obtain ⟨hxq, hnodup⟩ := List.nodup_cons.mp (hq.nodup_iff.mp h.nodup)
      have hx : x ∉ s.holders := h.apart x (hq.mem_iff.mpr List.mem_cons_self)
      have hcard : ((s.holders.erase p).card : ℤ) + 1 = s.holders.card := by
        exact_mod_cast Finset.card_erase_add_one hp
      have hinsert : ((insert x (s.holders.erase p)).card : ℤ) = (s.holders.erase p).card + 1 := by
        exact_mod_cast
          Finset.card_insert_of_notMem (fun hmem => hx (Finset.mem_of_mem_erase hmem))
      refine ⟨hnodup, fun y hy => ?_, ?_⟩
      · rw [Finset.mem_insert, not_or]
        refine ⟨fun hyx => hxq (hyx ▸ hy), fun hmem => ?_⟩
        exact h.apart y (hq.mem_iff.mpr (List.mem_cons_of_mem x hy)) (Finset.mem_of_mem_erase hmem)
      · show s.value + ((insert x (s.holders.erase p)).card : ℤ) = c
        omega
  | @abandon dead =>
      have hsame : s.holders.filter (fun x => x ∉ dead) = s.holders :=
        Finset.filter_true_of_mem hclean
      refine ⟨h.nodup.filter _, fun x hx => ?_, ?_⟩
      · rw [hsame]
        exact h.apart x (List.mem_of_mem_filter hx)
      · show s.value + ((s.holders.filter (fun x => x ∉ dead)).card : ℤ) = c
        rw [hsame, hbalance]

end Semaphore

end CountingSemaphore
