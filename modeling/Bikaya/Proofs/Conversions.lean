import Bikaya.Core.Terminal
import Bikaya.Library.Cells
import Bikaya.Library.Numerals

/-!
# Bikaya: values to strings and back

`unum_to_str_buf` counts the digits of a number by one loop of divisions and inserts them
by another; both make the same number of rounds, and the numeral fills exactly the place
between the pointers.  `num_to_str_buf` does the same for a number that is not negative.
For a negative one it reads in front of the table of digits, which happens to `int_to_str`
and `int_to_str_binary` for the least number, whose negation is itself.

**Plan.**  `moveToEnd_eq` and `moveBack_eq` describe the two loops: the first stops after
as many rounds as the numeral has digits, and the second puts the digits in place from the
last to the first.  A conversion is then the placement of a text, and nothing outside its
place changes.  The signed conversions put a sign in front of the text of the negation.

**Results.**
* `unumToStrBuf_writes`: the text of the number, from the buffer on, for every base.
* `unsigned_conversions`: the unsigned conversions are right, and read back, for every
  number and buffer.
* `signed_conversions_iff`: the signed ones are right except for the least number.
* `least_number_faults`: the read in front of the table.
-/

namespace Bikaya

open Cells Numerals

section Unsigned

variable {digit : List Char} {base i : Word} {fuel : ℕ} {m : Chars} {c : Char} {p : ℤ}

theorem unsignedDivide_eq (hb : 2 ≤ base.toNat) (i : Word) :
    unsignedDivide i base = .ok (i / base, ((i.toNat % base.toNat : ℕ) : ℤ)) := by
  have hne : base ≠ 0 := by
    rintro rfl
    exact absurd hb (by decide)
  rw [unsignedDivide, if_neg hne, BitVec.toNat_umod]

theorem digitAt_of_getElem? {d : ℕ} (hc : digit[d]? = some c) : digitAt digit d = .ok c := by
  simp [digitAt, hc]

/-- The division leaves 0 exactly at the highest digit. -/
theorem div_eq_zero_iff (hb : 2 ≤ base.toNat) : i / base = 0 ↔ i.toNat < base.toNat := by
  rw [← BitVec.toNat_inj, BitVec.toNat_udiv]
  exact Nat.div_eq_zero_iff_lt (by omega)

theorem moveToEnd_succ (hb : 2 ≤ base.toNat) (fuel : ℕ) (i : Word) (p : ℤ) :
    moveToEnd base (fuel + 1) i p =
      if i.toNat < base.toNat then .ok (p + 1) else moveToEnd base fuel (i / base) (p + 1) := by
  simp only [moveToEnd, unsignedDivide_eq hb, ok_bind, div_eq_zero_iff hb, pure_eq_ok]

theorem moveBack_succ
    (hb : 2 ≤ base.toNat) (hc : digit[i.toNat % base.toNat]? = some c)
    (fuel : ℕ) (m : Chars) (p : ℤ) :
    moveBack unsignedDivide digit base (fuel + 1) m i p =
      if i.toNat < base.toNat then .ok (Function.update m (p - 1) c)
      else moveBack unsignedDivide digit base fuel (Function.update m (p - 1) c) (i / base)
        (p - 1) := by
  simp only [moveBack, unsignedDivide_eq hb, ok_bind, digitAt_of_getElem? hc, div_eq_zero_iff hb,
    pure_eq_ok]

/-- The first loop makes one round for each digit. -/
theorem moveToEnd_eq
    (hb : 2 ≤ base.toNat) (hlen : base.toNat ≤ digit.length)
    (hfuel : (text digit base.toNat i.toNat).length ≤ fuel) :
    moveToEnd base fuel i p = .ok (p + (text digit base.toNat i.toNat).length) := by
  generalize hi : i.toNat = n at hfuel ⊢
  induction n using text_induction hb hlen generalizing i fuel p with
  | one n c h hc =>
      obtain ⟨fuel, rfl⟩ := Nat.exists_eq_add_one_of_ne_zero (Nat.ne_of_gt hfuel)
      rw [moveToEnd_succ hb, if_pos (hi ▸ h)]
      rfl
  | more n c h hc ih =>
      rw [List.length_append, List.length_singleton] at hfuel ⊢
      obtain ⟨fuel, rfl⟩ := Nat.exists_eq_add_one_of_ne_zero (by omega : fuel ≠ 0)
      have hquot : (i / base).toNat = n / base.toNat := by
        rw [BitVec.toNat_udiv, hi]
      rw [moveToEnd_succ hb, if_neg (by omega), ih hquot (by omega)]
      congr 1
      push_cast
      omega

/-- The second loop inserts the digits, and ends where the first one has started. -/
theorem moveBack_eq
    (hb : 2 ≤ base.toNat) (hlen : base.toNat ≤ digit.length)
    (hfuel : (text digit base.toNat i.toNat).length ≤ fuel) :
    moveBack unsignedDivide digit base fuel m i (p + (text digit base.toNat i.toNat).length) =
      .ok (place m p (text digit base.toNat i.toNat)) := by
  generalize hi : i.toNat = n at hfuel ⊢
  induction n using text_induction hb hlen generalizing i fuel m with
  | one n c h hc =>
      obtain ⟨fuel, rfl⟩ := Nat.exists_eq_add_one_of_ne_zero (Nat.ne_of_gt hfuel)
      have hmod : digit[i.toNat % base.toNat]? = some c := by
        rw [hi, Nat.mod_eq_of_lt h, hc]
      rw [moveBack_succ hb hmod, if_pos (hi ▸ h)]
      simp
  | more n c h hc ih =>
      rw [List.length_append, List.length_singleton] at hfuel ⊢
      obtain ⟨fuel, rfl⟩ := Nat.exists_eq_add_one_of_ne_zero (by omega : fuel ≠ 0)
      have hquot : (i / base).toNat = n / base.toNat := by
        rw [BitVec.toNat_udiv, hi]
      have hp : p + (((text digit base.toNat (n / base.toNat)).length + 1 : ℕ) : ℤ) - 1 =
          p + (text digit base.toNat (n / base.toNat)).length := by
        push_cast
        omega
      rw [moveBack_succ hb (hi ▸ hc), if_neg (by omega), hp, ih hquot (by omega), place_append]
      rfl

/-- The conversion places the numeral, and returns the pointer behind it. -/
theorem unumToStrBuf_eq
    (hb : 2 ≤ base.toNat) (hlen : base.toNat ≤ digit.length) (hfuel : 32 ≤ fuel)
    (m : Chars) (i : Word) (b : ℤ) :
    unumToStrBuf fuel m i digit base b =
      .ok (b + (text digit base.toNat i.toNat).length,
        place m b (text digit base.toNat i.toNat)) := by
  have hlt : i.toNat < base.toNat ^ 32 :=
    lt_of_lt_of_le i.isLt (Nat.pow_le_pow_left hb 32)
  have hrounds := (length_text_le hb hlen (by decide) hlt).trans hfuel
  simp only [unumToStrBuf, toStrBuf, moveToEnd_eq hb hlen hrounds, moveBack_eq hb hlen hrounds,
    ok_bind, pure_eq_ok]

end Unsigned

section Signed

variable {digit : List Char} {base i : Word} {fuel : ℕ} {m m' : Chars} {p : ℤ}

/-- Numbers that are not negative are divided alike. -/
theorem signedDivide_of_nonneg
    (hi : i.msb = false) (hb : base.msb = false) :
    signedDivide i base = unsignedDivide i base := by
  have hquot : i.sdiv base = i / base := by
    simp [BitVec.sdiv_eq, hi, hb]
  have hrem : (i.srem base).toInt = (i % base).toNat := by
    have heq : i.srem base = i % base := by
      simp [BitVec.srem_eq, hi, hb]
    rw [heq, BitVec.toInt_eq_toNat_of_msb (BitVec.msb_umod_eq_false_of_left hi base)]
  rw [signedDivide, unsignedDivide, hquot, hrem]

theorem moveBack_signed
    (hi : i.msb = false) (hb : base.msb = false) :
    moveBack signedDivide digit base fuel m i p =
      moveBack unsignedDivide digit base fuel m i p := by
  induction fuel generalizing m i p with
  | zero =>
      rfl
  | succ fuel ih =>
      simp only [moveBack, signedDivide_of_nonneg hi hb, unsignedDivide]
      split_ifs with hzero
      · rfl
      · simp only [ok_bind, ih (BitVec.msb_udiv_eq_false_of hi)]

theorem numToStrBuf_of_nonneg
    (hi : i.msb = false) (hb : base.msb = false) (b : ℤ) :
    numToStrBuf fuel m i digit base b = unumToStrBuf fuel m i digit base b := by
  simp only [numToStrBuf, unumToStrBuf, toStrBuf, moveBack_signed hi hb]

/-- The division of a negative number, with a remainder that is not negative. -/
theorem signedDivide_negative
    {quotient : Word} {index : ℤ} (hi : i.toInt < 0) (hb : 2 ≤ base.toInt)
    (hdiv : signedDivide i base = .ok (quotient, index)) (hindex : 0 ≤ index) :
    quotient.toInt < 0 := by
  have hne : base ≠ 0 := by
    rintro rfl
    exact absurd hb (by decide)
  rw [signedDivide, if_neg hne] at hdiv
  obtain ⟨rfl, rfl⟩ := Prod.mk.inj (Except.ok.inj hdiv)
  have hminus : base ≠ -1#32 := by
    rintro rfl
    exact absurd hb (by decide)
  rw [BitVec.toInt_srem] at hindex
  rw [BitVec.toInt_sdiv_of_ne_or_ne i base (Or.inr hminus)]
  have hsplit := Int.mul_tdiv_add_tmod i.toInt base.toInt
  by_contra hquot
  have := mul_nonneg (show (0 : ℤ) ≤ base.toInt by omega) (not_lt.mp hquot)
  omega

/--
A negative number is never written: its last digit but zeros has a negative index, and a
quotient of it is negative again.
-/
theorem moveBack_negative
    (hi : i.toInt < 0) (hb : 2 ≤ base.toInt) :
    moveBack signedDivide digit base fuel m i p ≠ .ok m' := by
  induction fuel generalizing m i p with
  | zero =>
      exact fun h => nomatch h
  | succ fuel ih =>
      intro h
      obtain ⟨⟨quotient, index⟩, hdiv, h⟩ := ok_of_bind h
      obtain ⟨c, hc, h⟩ := ok_of_bind h
      have hindex : 0 ≤ index := by
        by_contra hneg
        rw [digitAt, if_pos (not_le.mp hneg)] at hc
        exact nomatch hc
      have hquot := signedDivide_negative hi hb hdiv hindex
      have hne : quotient ≠ 0 := by
        rintro rfl
        exact absurd hquot (by decide)
      rw [if_neg hne] at h
      exact ih hquot h

end Signed

section Strings

variable {digit : List Char} {base i : Word} {fuel : ℕ} {m : Chars} {b : ℤ}

/-- A table of digits from which strings are made: neither the sign nor the NUL is a digit. -/
structure StringDigits (digit : List Char) (base : Word) : Prop where
  base_nonneg : base.msb = false
  two_le : 2 ≤ base.toNat
  length : base.toNat ≤ digit.length
  distinct : (digit.take base.toNat).Nodup
  sign : '-' ∉ digit.take base.toNat
  eos : EOS ∉ digit.take base.toNat

theorem decimalDigits_spec : StringDigits decimalDigits 10 := by
  constructor <;> decide

theorem binaryDigits_spec : StringDigits binaryDigits 2 := by
  constructor <;> decide

/-- The string at an address of the memory. -/
abbrev IsString (m : Chars) (b : ℤ) (s : List Char) : Prop :=
  Terminated EOS m b s

theorem StringDigits.eos_notMem_signedText (h : StringDigits digit base) (z : ℤ) :
    EOS ∉ signedText '-' digit base.toNat z := by
  have htext : EOS ∉ text digit base.toNat z.natAbs :=
    fun hmem => h.eos (mem_text h.two_le h.length hmem)
  unfold signedText
  split_ifs
  · exact List.not_mem_cons_of_ne_of_not_mem (by decide) htext
  · exact htext

/-- The number that is written once the sign has been removed. -/
theorem toNat_neg_eq_natAbs
    (hi : i.toInt < 0) (hmin : i ≠ BitVec.intMin 32) :
    (-i).msb = false ∧ (-i).toNat = i.toInt.natAbs := by
  have hneg : (-i).toInt = -i.toInt := BitVec.toInt_neg_of_ne_intMin hmin
  have hmsb : (-i).msb = false := by
    rw [BitVec.msb_eq_toInt, hneg]
    exact decide_eq_false (by omega)
  have hnat := BitVec.toInt_eq_toNat_of_msb hmsb
  exact ⟨hmsb, by omega⟩

/-- Both conversions of a signed number place its text and the NUL. -/
theorem StringDigits.signedToStr_eq
    (h : StringDigits digit base) (hfuel : 32 ≤ fuel) (hmin : i ≠ BitVec.intMin 32)
    (m : Chars) (b : ℤ) :
    signedToStr digit base fuel m i b =
      .ok (b, place m b (signedText '-' digit base.toNat i.toInt ++ [EOS])) := by
  have hwrites := unumToStrBuf_eq h.two_le h.length hfuel
  unfold signedToStr signedText
  split_ifs with hi
  · -- the sign, the digits of the negation and the NUL are placed from left to right
    obtain ⟨hmsb, hnat⟩ := toNat_neg_eq_natAbs hi hmin
    have hminus : i * -1 = -i := mul_neg_one i
    have hplace : Function.update (place (Function.update m b '-') (b + 1)
          (text digit base.toNat i.toInt.natAbs))
          (b + 1 + (text digit base.toNat i.toInt.natAbs).length) EOS =
        place m b ('-' :: (text digit base.toNat i.toInt.natAbs ++ [EOS])) := by
      rw [update_place, place_update (Or.inl (by omega)), place_cons]
    simp only [hminus, numToStrBuf_of_nonneg hmsb h.base_nonneg, hwrites, hnat, hplace, ok_bind,
      pure_eq_ok, List.cons_append]
  · have hmsb : i.msb = false := by
      rw [BitVec.msb_eq_toInt]
      exact decide_eq_false hi
    have hnat := BitVec.toInt_eq_toNat_of_msb hmsb
    have habs : i.toInt.natAbs = i.toNat := by omega
    simp only [numToStrBuf_of_nonneg hmsb h.base_nonneg, hwrites, habs, update_place, ok_bind,
      pure_eq_ok]

/-- The negation of the least number is itself, which cannot be written. -/
theorem StringDigits.signedToStr_intMin
    (h : StringDigits digit base) (r : ℤ × Chars) :
    signedToStr digit base fuel m (BitVec.intMin 32) b ≠ .ok r := by
  intro hr
  have hb : 2 ≤ base.toInt := by
    have := BitVec.toInt_eq_toNat_of_msb h.base_nonneg
    have := h.two_le
    omega
  have hwrap : BitVec.intMin 32 * -1 = BitVec.intMin 32 := by decide
  have hneg : (BitVec.intMin 32).toInt < 0 := by decide
  unfold signedToStr at hr
  rw [if_pos hneg, hwrap] at hr
  obtain ⟨⟨p, m₁⟩, hbuf, -⟩ := ok_of_bind hr
  obtain ⟨p', -, hbuf⟩ := ok_of_bind hbuf
  obtain ⟨m₂, hback, -⟩ := ok_of_bind hbuf
  exact moveBack_negative hneg hb hback

/-- `uint_to_str` places the decimal numeral and the NUL. -/
theorem uintToStr_eq
    (hfuel : 32 ≤ fuel) (m : Chars) (i : Word) (b : ℤ) :
    uintToStr fuel m i b = .ok (b, place m b (text decimalDigits 10 i.toNat ++ [EOS])) := by
  have hten : (10 : Word).toNat = 10 := rfl
  have hwrites := unumToStrBuf_eq decimalDigits_spec.two_le decimalDigits_spec.length hfuel m i b
  simp only [uintToStr, hwrites, hten, update_place, ok_bind, pure_eq_ok]

end Strings

section Results

variable {digit : List Char} {base : Word}

/--
A conversion of a signed number does what it is for: it returns the buffer with a string in
it, a sign exactly in front of a negative number and then the digits of its absolute
value without leading zeros, which reads as the number.
-/
def ConvertsSigned
    (toStr : ℕ → Chars → Word → ℤ → Except Halt (ℤ × Chars)) (digit : List Char) (base : ℕ)
    (i : Word) : Prop :=
  ∀ m b, ∃ m' s,
    (∀ fuel ≥ 32, toStr fuel m i b = .ok (b, m')) ∧
    IsString m' b s ∧
    s = signedText '-' digit base i.toInt ∧
    (i.toInt ≠ 0 → (text digit base i.toInt.natAbs).head? ≠ digit[0]?) ∧
    readSigned '-' digit base s = some i.toInt

theorem StringDigits.convertsSigned_iff
    (h : StringDigits digit base) (i : Word) :
    ConvertsSigned (signedToStr digit base) digit base.toNat i ↔ i ≠ BitVec.intMin 32 := by
  constructor
  · rintro hconv rfl
    obtain ⟨m', s, hrun, -⟩ := hconv (fun _ => EOS) 0
    exact h.signedToStr_intMin _ (hrun 32 le_rfl)
  · intro hmin m b
    refine ⟨_, signedText '-' digit base.toNat i.toInt,
      fun fuel hfuel => h.signedToStr_eq hfuel hmin m b, ?_, rfl, fun hzero => ?_, ?_⟩
    · exact terminated_place (h.eos_notMem_signedText i.toInt) m b
    · exact head_text h.two_le h.length h.distinct (by omega)
    · exact readSigned_signedText h.two_le h.length h.distinct h.sign i.toInt

/--
`int_to_str` and `int_to_str_binary` convert every number but the least one, whose negation
is itself.
-/
theorem signed_conversions_iff (i : Word) :
    (ConvertsSigned intToStr decimalDigits 10 i ↔ i ≠ BitVec.intMin 32) ∧
      (ConvertsSigned intToStrBinary binaryDigits 2 i ↔ i ≠ BitVec.intMin 32) :=
  ⟨decimalDigits_spec.convertsSigned_iff i, binaryDigits_spec.convertsSigned_iff i⟩

/-- The conversions of the least number read in front of the table of digits. -/
theorem least_number_faults :
    intToStr 32 (fun _ => EOS) 0x80000000 0 = .error .fault ∧
      intToStrBinary 32 (fun _ => EOS) 0x80000000 0 = .error .fault ∧
      ¬ ConvertsSigned intToStr decimalDigits 10 0x80000000 ∧
      ¬ ConvertsSigned intToStrBinary binaryDigits 2 0x80000000 := by
  refine ⟨rfl, rfl, fun h => ?_, fun h => ?_⟩
  · exact (decimalDigits_spec.convertsSigned_iff _).mp h rfl
  · exact (binaryDigits_spec.convertsSigned_iff _).mp h rfl

theorem two_le_toNat (hbase : 2 ≤ base.toInt) : 2 ≤ base.toNat := by
  have hcond := BitVec.toInt_eq_toNat_cond base
  split_ifs at hcond <;> omega

/-- The numeral of 0 is the first digit alone. -/
theorem text_zero
    (hb : 0 < base.toNat) (hlen : base.toNat ≤ digit.length) :
    text digit base.toNat 0 = digit.take 1 := by
  cases digit with
  | nil =>
      exact absurd (hb.trans_le hlen) (lt_irrefl 0)
  | cons c digit =>
      exact text_of_lt hb rfl

/-- What `unum_to_str_buf` writes, where it writes it and what it returns. -/
theorem unumToStrBuf_writes
    (hbase : 2 ≤ base.toInt) (hlen : base.toNat ≤ digit.length)
    (hdistinct : (digit.take base.toNat).Nodup) (m : Chars) (i : Word) (b : ℤ) :
    ∃ m' s,
      (∀ fuel ≥ 32, unumToStrBuf fuel m i digit base b = .ok (b + s.length, m')) ∧
      s = text digit base.toNat i.toNat ∧
      Holds m' b s ∧
      (∀ a, a < b ∨ b + s.length ≤ a → m' a = m a) ∧
      (i = 0 → s = digit.take 1) ∧
      (i ≠ 0 → s.head? ≠ digit[0]?) ∧
      read digit base.toNat s = some i.toNat := by
  have hb := two_le_toNat hbase
  refine ⟨_, text digit base.toNat i.toNat,
    fun fuel hfuel => unumToStrBuf_eq hb hlen hfuel m i b, rfl, holds_place m b _,
    fun a ha => place_outside ha, ?_, fun hi => ?_, read_text hb hlen hdistinct i.toNat⟩
  · rintro rfl
    exact text_zero (by omega) hlen
  · have hnat : i.toNat ≠ 0 := fun h => hi (BitVec.eq_of_toNat_eq h)
    exact head_text hb hlen hdistinct hnat

/-- The string of `uint_to_str`. -/
theorem uintToStr_writes (m : Chars) (i : Word) (b : ℤ) :
    ∃ m' s,
      (∀ fuel ≥ 32, uintToStr fuel m i b = .ok (b, m')) ∧
      IsString m' b s ∧ read decimalDigits 10 s = some i.toNat := by
  have heos : EOS ∉ text decimalDigits 10 i.toNat := fun hmem =>
    decimalDigits_spec.eos
      (mem_text decimalDigits_spec.two_le decimalDigits_spec.length hmem)
  exact ⟨_, _, fun fuel hfuel => uintToStr_eq hfuel m i b, terminated_place heos m b,
    read_text decimalDigits_spec.two_le decimalDigits_spec.length decimalDigits_spec.distinct _⟩

/-- The string determines the number it has been made from. -/
theorem uintToStr_injective
    {fuel : ℕ} {m₁ m₂ m₁' m₂' : Chars} {i₁ i₂ : Word} {b₁ b₂ : ℤ} {s : List Char}
    (hfuel : 32 ≤ fuel)
    (h₁ : uintToStr fuel m₁ i₁ b₁ = .ok (b₁, m₁'))
    (h₂ : uintToStr fuel m₂ i₂ b₂ = .ok (b₂, m₂'))
    (hs₁ : IsString m₁' b₁ s) (hs₂ : IsString m₂' b₂ s) :
    i₁ = i₂ := by
  have hread : ∀ {m m' : Chars} {i : Word} {b : ℤ},
      uintToStr fuel m i b = .ok (b, m') → IsString m' b s →
        read decimalDigits 10 s = some i.toNat := by
    intro m m' i b h hs
    obtain ⟨m'', s', hrun, hs', hvalue⟩ := uintToStr_writes m i b
    obtain ⟨-, rfl⟩ := Prod.mk.inj (Except.ok.inj ((hrun fuel hfuel).symm.trans h))
    rw [hs.unique hs', hvalue]
  have heq := (hread h₁ hs₁).symm.trans (hread h₂ hs₂)
  exact BitVec.eq_of_toNat_eq (Option.some.inj heq)

/--
`unum_to_str_buf` writes the numeral of a number from the given address on, changes no other
byte and returns the address behind the numeral, which reads as the number; the string
of `uint_to_str` reads as the number, and different numbers have different strings.
-/
theorem unsigned_conversions
    (hbase : 2 ≤ base.toInt) (hlen : base.toNat ≤ digit.length)
    (hdistinct : (digit.take base.toNat).Nodup) :
    (∀ m i b, ∃ m' s,
      (∀ fuel ≥ 32, unumToStrBuf fuel m i digit base b = .ok (b + s.length, m')) ∧
      s = text digit base.toNat i.toNat ∧
      Holds m' b s ∧
      (∀ a, a < b ∨ b + s.length ≤ a → m' a = m a) ∧
      (i = 0 → s = digit.take 1) ∧
      (i ≠ 0 → s.head? ≠ digit[0]?) ∧
      read digit base.toNat s = some i.toNat) ∧
    (∀ m i b, ∃ m' s,
      (∀ fuel ≥ 32, uintToStr fuel m i b = .ok (b, m')) ∧
      IsString m' b s ∧ read decimalDigits 10 s = some i.toNat) ∧
    ∀ fuel ≥ 32, ∀ m₁ m₂ i₁ i₂ b₁ b₂ m₁' m₂' s,
      uintToStr fuel m₁ i₁ b₁ = .ok (b₁, m₁') → uintToStr fuel m₂ i₂ b₂ = .ok (b₂, m₂') →
      IsString m₁' b₁ s → IsString m₂' b₂ s → i₁ = i₂ := by
  refine ⟨unumToStrBuf_writes hbase hlen hdistinct, uintToStr_writes, ?_⟩
  intro fuel hfuel m₁ m₂ i₁ i₂ b₁ b₂ m₁' m₂' s h₁ h₂ hs₁ hs₂
  exact uintToStr_injective hfuel h₁ h₂ hs₁ hs₂

/-- The greatest `unsigned int` in base 2, written from the address 1 on. -/
theorem unsigned_conversions_greatest :
    ∃ m' s, unumToStrBuf 32 (fun _ => EOS) 0xffffffff binaryDigits 2 1 =
        .ok (1 + s.length, m') ∧
      Holds m' 1 s ∧ m' 0 = EOS ∧ read binaryDigits 2 s = some 0xffffffff := by
  have hbase : 2 ≤ (2 : Word).toInt := by decide
  have hlen : (2 : Word).toNat ≤ binaryDigits.length := by decide
  have hdistinct : (binaryDigits.take (2 : Word).toNat).Nodup := by decide
  obtain ⟨m', s, hrun, -, hs, houtside, -, -, hvalue⟩ :=
    (unsigned_conversions hbase hlen hdistinct).1 (fun _ => EOS) 0xffffffff 1
  exact ⟨m', s, hrun 32 le_rfl, hs, houtside 0 (Or.inl (by decide)), hvalue⟩

end Results

end Bikaya
