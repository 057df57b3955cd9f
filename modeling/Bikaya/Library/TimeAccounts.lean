import Mathlib.Algebra.BigOperators.Group.Finset.Piecewise
import Mathlib.Algebra.Order.BigOperators.Group.Finset
import Mathlib.Data.BitVec

/-!
# Time accounts

A clock of finitely many bits wraps around, but the distances of its readings from a fixed
origin tell how much time has passed, as long as less than one period has.

A finite number of accounts share the time that passes: at most one is charged at a time.
The accounts together never exceed the time since the origin, and each alone never exceeds
the time since it was opened.

**Results.**
* `elapsed_add`, `toNat_sub_of_elapsed`: distances that add up within the period.
* `Within.charge`, `Within.open`, `Within.close`, `Within.reopen`: an account is charged,
  opened and closed, while the bounds hold.
-/

namespace TimeAccounts

section Clock

variable {w : ℕ}

/-- The time from the origin to a reading, less than one period. -/
def elapsed (origin tod : BitVec w) : ℕ :=
  (tod - origin).toNat

variable {origin a b : BitVec w}

theorem elapsed_lt (origin tod : BitVec w) : elapsed origin tod < 2 ^ w :=
  BitVec.isLt _

@[simp] theorem elapsed_self (origin : BitVec w) : elapsed origin origin = 0 := by
  simp [elapsed]

/-- Two intervals in a row, together shorter than one period. -/
theorem elapsed_add {a b c : BitVec w} (h : elapsed a b + elapsed b c < 2 ^ w) :
    elapsed a c = elapsed a b + elapsed b c := by
  have hsplit : c - a = (b - a) + (c - b) := by
    rw [add_comm, sub_add_sub_cancel]
  rw [elapsed, hsplit, BitVec.toNat_add]
  exact Nat.mod_eq_of_lt h

/-- The distance between two readings, the later one second. -/
theorem toNat_sub_of_elapsed
    (h : elapsed origin a ≤ elapsed origin b) :
    (b - a).toNat = elapsed origin b - elapsed origin a := by
  rw [← sub_sub_sub_cancel_right b a origin]
  exact BitVec.toNat_sub_of_le h

/-- A counter that does not overflow with the time that passes. -/
theorem toNat_charge
    {c : BitVec w} (h : elapsed origin a ≤ elapsed origin b)
    (hc : c.toNat ≤ elapsed origin a) :
    (c + (b - a)).toNat = c.toNat + (elapsed origin b - elapsed origin a) := by
  have hlt := elapsed_lt origin b
  rw [BitVec.toNat_add, toNat_sub_of_elapsed h, Nat.mod_eq_of_lt (by omega)]

end Clock

section Accounts

variable {α : Type*} [DecidableEq α]

/--
At time `t` the accounts in `S`, opened at the times `opened`, hold no more than the
time that has passed.
-/
structure Within (S : Finset α) (opened c : α → ℕ) (t : ℕ) : Prop where
  total : ∑ x ∈ S, c x ≤ t
  each : ∀ x ∈ S, opened x + c x ≤ t
  past : ∀ x, opened x ≤ t

variable {S S' : Finset α} {opened c c' : α → ℕ} {t t' : ℕ}

omit [DecidableEq α] in
theorem Within.mono (h : Within S opened c t) (ht : t ≤ t') : Within S opened c t' where
  total := h.total.trans ht
  each := fun x hx => (h.each x hx).trans ht
  past := fun x => (h.past x).trans ht

omit [DecidableEq α] in
theorem Within.congr (h : Within S opened c t) (hc : ∀ x ∈ S, c' x = c x) :
    Within S opened c' t where
  total := (Finset.sum_congr rfl hc).trans_le h.total
  each := fun x hx => by
    rw [hc x hx]
    exact h.each x hx
  past := h.past

omit [DecidableEq α] in
/-- Some accounts are closed. -/
theorem Within.close (h : Within S opened c t) (hS : S' ⊆ S) : Within S' opened c t where
  total := (Finset.sum_le_sum_of_subset hS).trans h.total
  each := fun x hx => h.each x (hS hx)
  past := h.past

/-- One account is charged with the time that passes, if it is still open. -/
theorem Within.charge
    (h : Within S opened c t) {p : α} (ht : t ≤ t')
    (hp : p ∈ S → c' p = c p + (t' - t)) (hother : ∀ x ∈ S, x ≠ p → c' x = c x) :
    Within S opened c' t' where
  total := by
    have hle : ∀ x ∈ S, c' x ≤ c x + if x = p then t' - t else 0 := by
      intro x hx
      split_ifs with hxp
      · subst hxp
        exact (hp hx).le
      · exact (hother x hx hxp).le
    calc ∑ x ∈ S, c' x
        ≤ ∑ x ∈ S, (c x + if x = p then t' - t else 0) := Finset.sum_le_sum hle
      _ = ∑ x ∈ S, c x + ∑ x ∈ S, (if x = p then t' - t else 0) := Finset.sum_add_distrib
      _ ≤ t + (t' - t) := by
          refine Nat.add_le_add h.total ?_
          rw [Finset.sum_ite_eq' S p (fun _ => t' - t)]
          split_ifs <;> omega
      _ = t' := by omega
  each := fun x hx => by
    have hx' := h.each x hx
    by_cases hxp : x = p
    · subst hxp
      rw [hp hx]
      omega
    · rw [hother x hx hxp]
      omega
  past := fun x => (h.past x).trans ht

/-- An empty account is opened. -/
theorem Within.open
    (h : Within S opened c t) {z : α} (hz : z ∉ S) (hzero : c' z = 0)
    (hother : ∀ x ∈ S, c' x = c x) :
    Within (insert z S) opened c' t where
  total := by
    rw [Finset.sum_insert hz, hzero, zero_add]
    exact (h.congr hother).total
  each := by
    intro x hx
    rcases Finset.mem_insert.mp hx with rfl | hxS
    · rw [hzero]
      exact h.past x
    · exact (h.congr hother).each x hxS
  past := h.past

omit [DecidableEq α] in
/-- The time of opening of empty accounts may be set to the present. -/
theorem Within.reopen
    (h : Within S opened c t) {opened' : α → ℕ}
    (hopened : ∀ x, opened' x = opened x ∨ (opened' x = t ∧ (x ∈ S → c x = 0))) :
    Within S opened' c t where
  total := h.total
  each := fun x hx => by
    rcases hopened x with heq | ⟨heq, hzero⟩
    · rw [heq]
      exact h.each x hx
    · rw [heq, hzero hx, add_zero]
  past := fun x => by
    rcases hopened x with heq | ⟨heq, -⟩
    · rw [heq]
      exact h.past x
    · exact heq.le

end Accounts

end TimeAccounts
