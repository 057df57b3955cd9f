import Mathlib.Data.BitVec
import Mathlib.Logic.Function.Basic
import Mathlib.Tactic.Ring

/-!
# Byte memories

A memory gives each address of `w` bits its byte; ranges of addresses wrap around.  A codec
says how a value is stored in a fixed number of bytes, and a record has its fields at fixed
offsets.  Copying byte by byte from the lowest address on is described exactly, for ranges
that overlap as well; it copies a record whole unless the destination begins inside the
source.

**Results.**
* `copyForward_apply`: every byte after the copy.
* `copyForward_plain`: when the copy has the bytes of the source.
* `loadRecord_storeField`, `storeField_outside`: a field of a record is written.
* `loadRecord_copyForward`: a record is copied.
-/

namespace ByteMemory

universe u v r

variable {w : ℕ} {β : Type u} {α : Type v}

section Ranges

/-- The address is one of the `n` from `a` on. -/
def InRange (a : BitVec w) (n : ℕ) (x : BitVec w) : Prop :=
  (x - a).toNat < n

instance (a : BitVec w) (n : ℕ) (x : BitVec w) : Decidable (InRange a n x) :=
  inferInstanceAs (Decidable (_ < _))

/-- The two ranges have no address in common. -/
def Apart (a : BitVec w) (m : ℕ) (b : BitVec w) (n : ℕ) : Prop :=
  ∀ x, InRange a m x → ¬ InRange b n x

variable {a b x : BitVec w} {m n i : ℕ}

theorem Apart.symm (h : Apart a m b n) : Apart b n a m :=
  fun x hb ha => h x ha hb

theorem toNat_offset (a : BitVec w) (hi : i < 2 ^ w) :
    (a + BitVec.ofNat w i - a).toNat = i := by
  rw [add_sub_cancel_left, BitVec.toNat_ofNat, Nat.mod_eq_of_lt hi]

theorem add_offset (a x : BitVec w) : a + BitVec.ofNat w (x - a).toNat = x := by
  rw [BitVec.ofNat_toNat, BitVec.setWidth_eq, add_sub_cancel]

theorem inRange_offset (a : BitVec w) (hi : i < n) (hn : n ≤ 2 ^ w) :
    InRange a n (a + BitVec.ofNat w i) := by
  rw [InRange, toNat_offset a (by omega)]
  exact hi

/-- The offsets inside a range add up. -/
theorem toNat_offset_add
    (a : BitVec w) {o j : ℕ} (h : o + j < 2 ^ w) :
    (a + BitVec.ofNat w o + BitVec.ofNat w j - a).toNat = o + j := by
  rw [add_assoc, ← BitVec.ofNat_add, toNat_offset a h]

/-- The distance of a byte of the source from the destination, going up. -/
theorem toNat_sub_of_offset (b a : BitVec w) (hi : i < 2 ^ w) :
    (a + BitVec.ofNat w i - b).toNat =
      if (b - a).toNat ≤ i then i - (b - a).toNat else 2 ^ w - (b - a).toNat + i := by
  have hd := (b - a).isLt
  rw [show a + BitVec.ofNat w i - b = BitVec.ofNat w i - (b - a) by ring, BitVec.toNat_sub,
    BitVec.toNat_ofNat, Nat.mod_eq_of_lt hi]
  split_ifs with hle
  · rw [show 2 ^ w - (b - a).toNat + i = 2 ^ w + (i - (b - a).toNat) by omega, Nat.add_mod_left,
      Nat.mod_eq_of_lt (by omega)]
  · exact Nat.mod_eq_of_lt (by omega)

/-- A part of a range, and where it lies. -/
theorem InRange.part
    {o k : ℕ} (h : InRange (a + BitVec.ofNat w o) k x) (ho : o + k ≤ 2 ^ w) :
    o ≤ (x - a).toNat ∧ (x - a).toNat < o + k := by
  have hx : x = a + BitVec.ofNat w o + BitVec.ofNat w (x - (a + BitVec.ofNat w o)).toNat :=
    (add_offset _ x).symm
  have hk : (x - (a + BitVec.ofNat w o)).toNat < k := h
  rw [hx, toNat_offset_add a (by omega)]
  omega

/-- Ranges that do not wrap around are apart if one ends before the other begins. -/
theorem apart_of_le
    (ha : a.toNat + m ≤ b.toNat) (hb : b.toNat + n ≤ 2 ^ w) :
    Apart a m b n := by
  intro x hxa hxb
  have hxlt := x.isLt
  have halt := a.isLt
  unfold InRange at hxa hxb
  rw [BitVec.toNat_sub] at hxa hxb
  rcases Nat.lt_or_ge x.toNat b.toNat with hlt | hge
  · rw [Nat.mod_eq_of_lt (by omega)] at hxb
    omega
  · rw [show 2 ^ w - a.toNat + x.toNat = 2 ^ w + (x.toNat - a.toNat) by omega,
      Nat.add_mod_left, Nat.mod_eq_of_lt (by omega)] at hxa
    omega

end Ranges

section Copying

/-- The loop that copies `n` bytes one by one, from the lowest address on. -/
def copyForward (mem : BitVec w → β) (dst src : BitVec w) : ℕ → BitVec w → β
  | 0 => mem
  | n + 1 => copyForward (Function.update mem dst (mem src)) (dst + 1) (src + 1) n

variable {mem : BitVec w → β} {dst src a x : BitVec w} {n : ℕ}

/-- The last round of the loop. -/
theorem copyForward_succ (mem : BitVec w → β) (dst src : BitVec w) (n : ℕ) :
    copyForward mem dst src (n + 1) =
      Function.update (copyForward mem dst src n) (dst + BitVec.ofNat w n)
        (copyForward mem dst src n (src + BitVec.ofNat w n)) := by
  induction n generalizing mem dst src with
  | zero =>
      simp [copyForward]
  | succ n ih =>
      have hone : ∀ p : BitVec w, p + 1 + BitVec.ofNat w n = p + BitVec.ofNat w (n + 1) := by
        intro p
        rw [BitVec.ofNat_add, add_assoc, add_comm (1 : BitVec w)]
        rfl
      rw [copyForward, ih, hone, hone]
      rfl

/--
What the loop leaves in the memory.  Where the destination begins `d` bytes inside the
source, it is filled with copies of the first `d` bytes of the source.
-/
theorem copyForward_apply
    (hn : n ≤ 2 ^ w) (x : BitVec w) :
    copyForward mem dst src n x =
      if InRange dst n x then
        mem (src + BitVec.ofNat w ((x - dst).toNat % (dst - src).toNat))
      else mem x := by
  induction n generalizing x with
  | zero =>
      simp [copyForward, InRange]
  | succ n ih =>
      have hd := (dst - src).isLt
      have hlast : copyForward mem dst src n (src + BitVec.ofNat w n) =
          mem (src + BitVec.ofNat w (n % (dst - src).toNat)) := by
        have hback := toNat_sub_of_offset dst src (i := n) (by omega)
        rw [ih (by omega)]
        rcases Nat.lt_or_ge n (dst - src).toNat with hlt | hge
        · -- the byte has not been written yet
          rw [if_neg (not_le.mpr hlt)] at hback
          have hout : ¬ InRange dst n (src + BitVec.ofNat w n) := by
            rw [InRange, hback]
            omega
          rw [if_neg hout, Nat.mod_eq_of_lt hlt]
        · rw [if_pos hge] at hback
          split_ifs with hin
          · rw [hback, ← Nat.mod_eq_sub_mod hge]
          · rw [InRange, hback] at hin
            rw [show (dst - src).toNat = 0 by omega, Nat.mod_zero]
      rw [copyForward_succ]
      by_cases hx : x = dst + BitVec.ofNat w n
      · have hoff : (x - dst).toNat = n := by rw [hx, toNat_offset dst (by omega)]
        rw [hx, Function.update_self, ← hx, hlast, if_pos (by rw [InRange, hoff]; omega), hoff]
      · rw [Function.update_of_ne hx, ih (by omega)]
        have hne : (x - dst).toNat ≠ n := by
          rintro rfl
          exact hx (add_offset dst x).symm
        by_cases hin : InRange dst n x
        · rw [if_pos hin, if_pos (by unfold InRange at hin ⊢; omega)]
        · rw [if_neg hin, if_neg (by unfold InRange at hin ⊢; omega)]

theorem copyForward_outside
    (hn : n ≤ 2 ^ w) (hx : ¬ InRange dst n x) :
    copyForward mem dst src n x = mem x := by
  rw [copyForward_apply hn, if_neg hx]

/-- The destination does not begin inside the source, unless both are the same. -/
def Plain (dst src : BitVec w) (n : ℕ) : Prop :=
  dst = src ∨ n ≤ (dst - src).toNat

theorem Apart.plain (h : Apart dst n src n) : Plain dst src n := by
  by_cases hn : n = 0
  · exact Or.inr (by omega)
  · refine Or.inr (not_lt.mp (fun hlt => h dst ?_ hlt))
    rw [InRange, sub_self]
    simpa using Nat.pos_of_ne_zero hn

/-- The destination gets what the source had. -/
theorem copyForward_plain
    (h : Plain dst src n) {i : ℕ} (hi : i < n) (hn : n ≤ 2 ^ w) :
    copyForward mem dst src n (dst + BitVec.ofNat w i) = mem (src + BitVec.ofNat w i) := by
  rw [copyForward_apply hn, if_pos (inRange_offset dst hi hn), toNat_offset dst (by omega)]
  rcases h with rfl | h
  · rw [sub_self]
    simp
  · rw [Nat.mod_eq_of_lt (by omega)]

end Copying

section Codecs

/-- How a value is stored in `n` bytes. -/
structure Codec (n : ℕ) (β : Type u) (α : Type v) where
  encode : α → Fin n → β
  decode : (Fin n → β) → α
  decode_encode : ∀ value, decode (encode value) = value

variable {n : ℕ} (c : Codec n β α) {mem mem' : BitVec w → β} {a b x : BitVec w}

/-- The value at an address. -/
def Codec.load (mem : BitVec w → β) (a : BitVec w) : α :=
  c.decode (fun i => mem (a + BitVec.ofNat w i))

/-- The memory with the value at the address. -/
def Codec.store (mem : BitVec w → β) (a : BitVec w) (value : α) : BitVec w → β :=
  fun x => if h : (x - a).toNat < n then c.encode value ⟨_, h⟩ else mem x

theorem Codec.load_store (hn : n ≤ 2 ^ w) (value : α) :
    c.load (c.store mem a value) a = value := by
  have hbytes : (fun i : Fin n => c.store mem a value (a + BitVec.ofNat w i)) =
      c.encode value := by
    funext i
    have hoff := toNat_offset a (i := i) (by omega)
    have hlt : (a + BitVec.ofNat w i - a).toNat < n := by
      rw [hoff]
      exact i.isLt
    rw [Codec.store, dif_pos hlt]
    exact congrArg (c.encode value) (Fin.ext hoff)
  rw [Codec.load, hbytes, c.decode_encode]

theorem Codec.store_outside (value : α) (hx : ¬ InRange a n x) :
    c.store mem a value x = mem x :=
  dif_neg hx

/-- The value depends on its bytes only. -/
theorem Codec.load_congr
    (h : ∀ i < n, mem' (b + BitVec.ofNat w i) = mem (a + BitVec.ofNat w i)) :
    c.load mem' b = c.load mem a :=
  congrArg c.decode (funext fun i => h i i.isLt)

end Codecs

section Records

/-- The places of the fields of a record: each of `k` bytes inside `n`, none on another one. -/
structure Layout (ρ : Type r) (k n : ℕ) where
  offset : ρ → ℕ
  offset_le : ∀ f, offset f + k ≤ n
  separated : ∀ f g, f ≠ g → offset f + k ≤ offset g ∨ offset g + k ≤ offset f

variable {ρ : Type r} {k n : ℕ} (c : Codec k β α) (l : Layout ρ k n)
variable {mem mem' : BitVec w → β} {a b dst src : BitVec w} {f : ρ}

/-- The record at an address. -/
def loadRecord (mem : BitVec w → β) (a : BitVec w) : ρ → α :=
  fun f => c.load mem (a + BitVec.ofNat w (l.offset f))

/-- The memory with one field of the record at the address assigned. -/
def storeField (mem : BitVec w → β) (a : BitVec w) (f : ρ) (value : α) : BitVec w → β :=
  c.store mem (a + BitVec.ofNat w (l.offset f)) value

/-- An assignment writes to the range of its record. -/
theorem storeField_outside
    (hn : n ≤ 2 ^ w) {x : BitVec w} (hx : ¬ InRange a n x) (value : α) :
    storeField c l mem a f value x = mem x :=
  c.store_outside value (fun h => hx ((h.part ((l.offset_le f).trans hn)).2.trans_le
    (l.offset_le f)))

/-- Records in memories that agree on their ranges. -/
theorem loadRecord_congr
    (h : ∀ i < n, mem' (b + BitVec.ofNat w i) = mem (a + BitVec.ofNat w i)) :
    loadRecord c l mem' b = loadRecord c l mem a := by
  funext f
  refine c.load_congr (fun i hi => ?_)
  have hle := l.offset_le f
  rw [add_assoc, add_assoc, ← BitVec.ofNat_add]
  exact h _ (by omega)

/-- A record that keeps its bytes. -/
theorem loadRecord_eq
    (hn : n ≤ 2 ^ w) (h : ∀ x, InRange a n x → mem' x = mem x) :
    loadRecord c l mem' a = loadRecord c l mem a :=
  loadRecord_congr c l (fun _ hi => h _ (inRange_offset a hi hn))

/-- An assignment changes its field and no other one. -/
theorem loadRecord_storeField
    [DecidableEq ρ] (hn : n ≤ 2 ^ w) (value : α) :
    loadRecord c l (storeField c l mem a f value) a =
      Function.update (loadRecord c l mem a) f value := by
  funext g
  have hf := l.offset_le f
  have hg := l.offset_le g
  by_cases hgf : g = f
  · subst hgf
    rw [Function.update_self]
    exact c.load_store (by omega) value
  · rw [Function.update_of_ne hgf]
    refine c.load_congr (fun i hi => c.store_outside value (fun hin => ?_))
    have hplace := hin.part (hf.trans hn)
    rw [toNat_offset_add a (by omega)] at hplace
    have hsep := l.separated f g (Ne.symm hgf)
    omega

/-- A copied record. -/
theorem loadRecord_copyForward
    (hn : n ≤ 2 ^ w) (h : Plain dst src n) :
    loadRecord c l (copyForward mem dst src n) dst = loadRecord c l mem src :=
  loadRecord_congr c l (fun _ hi => copyForward_plain h hi hn)

end Records

end ByteMemory
