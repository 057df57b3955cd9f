import Mathlib.Data.Nat.Digits.Lemmas

/-!
# Numerals over a table of digits

The text of a number in a base is the list of its digits, the highest first, each replaced
by its entry in a table; a number below the base is a single digit, and every other number
is the text of its quotient followed by one more digit.  A text is read back by looking its
characters up in the table.

**Results.**
* `text_induction`: the induction on the digits.
* `length_text_le`, `mem_text`, `head_text`: the shape of a text.
* `read_text`, `readSigned_signedText`: a text is read back.
-/

namespace Numerals

universe u

variable {α : Type u}

/-- The digits of a number, the highest first; the number 0 has the digit 0. -/
def numeral (b n : ℕ) : List ℕ :=
  if n = 0 then [0] else (Nat.digits b n).reverse

/-- The numeral written with the entries of the table. -/
def text (digit : List α) (b n : ℕ) : List α :=
  (numeral b n).filterMap (fun d => digit[d]?)

/-- The text of an integer: a sign in front of the text of a negative number. -/
def signedText (minus : α) (digit : List α) (b : ℕ) (z : ℤ) : List α :=
  if z < 0 then minus :: text digit b z.natAbs else text digit b z.natAbs

section Reading

variable [DecidableEq α]

/-- One more character is read; only the first `b` entries of the table are digits. -/
def readDigit (digit : List α) (b v : ℕ) (c : α) : Option ℕ :=
  ((digit.take b).idxOf? c).map (fun d => v * b + d)

/-- The number a text stands for; `none` if it is empty or has another character. -/
def read (digit : List α) (b : ℕ) : List α → Option ℕ
  | [] => none
  | c :: s => (c :: s).foldlM (readDigit digit b) 0

/-- The integer a text stands for. -/
def readSigned (minus : α) (digit : List α) (b : ℕ) : List α → Option ℤ
  | [] => none
  | c :: s =>
      if c = minus then (read digit b s).map (fun v : ℕ => -(v : ℤ))
      else (read digit b (c :: s)).map (fun v : ℕ => (v : ℤ))

end Reading

section Digits

variable {digit : List α} {b n : ℕ} {c : α}

theorem numeral_of_lt
    (h : n < b) :
    numeral b n = [n] := by
  unfold numeral
  split_ifs with hn
  · rw [hn]
  · rw [Nat.digits_of_lt b n hn h, List.reverse_singleton]

theorem numeral_of_le
    (hb : 2 ≤ b) (h : b ≤ n) :
    numeral b n = numeral b (n / b) ++ [n % b] := by
  have hn : 0 < n := by omega
  have hquot : n / b ≠ 0 := (Nat.div_pos h (by omega)).ne'
  simp only [numeral, hn.ne', hquot, if_false]
  rw [Nat.digits_def' hb hn, List.reverse_cons]

/-- A number below the base is a single digit. -/
theorem text_of_lt
    (h : n < b) (hc : digit[n]? = some c) :
    text digit b n = [c] := by
  simp [text, numeral_of_lt h, hc]

/-- The last digit is the remainder, and the others are the text of the quotient. -/
theorem text_of_le
    (hb : 2 ≤ b) (h : b ≤ n) (hc : digit[n % b]? = some c) :
    text digit b n = text digit b (n / b) ++ [c] := by
  simp [text, numeral_of_le hb h, hc]

/-- Induction along the digits, from the highest to the lowest. -/
theorem text_induction
    {motive : ℕ → List α → Prop} (hb : 2 ≤ b) (hlen : b ≤ digit.length)
    (one : ∀ n c, n < b → digit[n]? = some c → motive n [c])
    (more : ∀ n c, b ≤ n → digit[n % b]? = some c → motive (n / b) (text digit b (n / b)) →
      motive n (text digit b (n / b) ++ [c]))
    (n : ℕ) :
    motive n (text digit b n) := by
  induction n using Nat.strong_induction_on with
  | _ n ih =>
      rcases lt_or_ge n b with h | h
      · have hc := List.getElem?_eq_getElem (lt_of_lt_of_le h hlen)
        rw [text_of_lt h hc]
        exact one n _ h hc
      · have hmod : n % b < digit.length :=
          lt_of_lt_of_le (Nat.mod_lt n (by omega)) hlen
        have hc := List.getElem?_eq_getElem hmod
        rw [text_of_le hb h hc]
        exact more n _ h hc (ih _ (Nat.div_lt_self (by omega) hb))

theorem text_ne_nil
    (hb : 2 ≤ b) (hlen : b ≤ digit.length) (n : ℕ) :
    text digit b n ≠ [] := by
  induction n using text_induction hb hlen with
  | one n c h hc =>
      exact List.cons_ne_nil _ _
  | more n c h hc ih =>
      exact List.append_ne_nil_of_right_ne_nil _ (List.cons_ne_nil _ _)

/-- A number below a power of the base has at most that many digits. -/
theorem length_text_le
    {k : ℕ} (hb : 2 ≤ b) (hlen : b ≤ digit.length) (hk : 0 < k) (h : n < b ^ k) :
    (text digit b n).length ≤ k := by
  induction n using text_induction hb hlen generalizing k with
  | one n c hn hc =>
      exact hk
  | more n c hn hc ih =>
      obtain ⟨k, rfl⟩ : ∃ j, k = j + 1 := ⟨k - 1, by omega⟩
      have hquot : n / b < b ^ k := by
        rw [Nat.div_lt_iff_lt_mul (by omega), ← pow_succ]
        exact h
      have hpos : 0 < k := by
        rcases Nat.eq_zero_or_pos k with rfl | hpos
        · rw [zero_add, pow_one] at h
          omega
        · exact hpos
      rw [List.length_append, List.length_singleton]
      exact Nat.succ_le_succ (ih hpos hquot)

/-- The characters of a text are digits. -/
theorem mem_text
    (hb : 2 ≤ b) (hlen : b ≤ digit.length) (hc : c ∈ text digit b n) :
    c ∈ digit.take b := by
  have hdigit : ∀ d c, d < b → digit[d]? = some c → c ∈ digit.take b := by
    intro d c hd hc
    rw [← List.getElem?_take_of_lt hd] at hc
    exact List.mem_of_getElem? hc
  induction n using text_induction hb hlen with
  | one n c' hn hc' =>
      obtain rfl := List.mem_singleton.mp hc
      exact hdigit n c hn hc'
  | more n c' hn hc' ih =>
      rcases List.mem_append.mp hc with h | h
      · exact ih h
      · obtain rfl := List.mem_singleton.mp h
        exact hdigit (n % b) c (Nat.mod_lt n (by omega)) hc'

/-- Two places of the table with the same entry, the entries being distinct. -/
theorem eq_of_getElem?
    {d e : ℕ} (hdistinct : (digit.take b).Nodup) (hd : d < b) (he : e < b)
    (hc : digit[d]? = some c) (hc' : digit[e]? = some c) :
    d = e := by
  rw [← List.getElem?_take_of_lt hd] at hc
  rw [← List.getElem?_take_of_lt he] at hc'
  obtain ⟨hlt, -⟩ := List.getElem?_eq_some_iff.mp hc
  exact (List.getElem?_inj hlt hdistinct).mp (hc.trans hc'.symm)

/-- The text of a number other than 0 does not start with the digit 0. -/
theorem head_text
    (hb : 2 ≤ b) (hlen : b ≤ digit.length) (hdistinct : (digit.take b).Nodup) (hn : n ≠ 0) :
    (text digit b n).head? ≠ digit[0]? := by
  induction n using text_induction hb hlen with
  | one n c h hc =>
      intro hzero
      exact hn (eq_of_getElem? hdistinct h (by omega) hc hzero.symm)
  | more n c h hc ih =>
      have hquot : n / b ≠ 0 := (Nat.div_pos h (by omega)).ne'
      rw [List.head?_append_of_ne_nil _ (text_ne_nil hb hlen (n / b))]
      exact ih hquot

end Digits

section RoundTrip

variable [DecidableEq α] {minus : α} {digit : List α} {b n : ℕ} {c : α}

theorem readDigit_of_getElem?
    {d : ℕ} (hdistinct : (digit.take b).Nodup) (hd : d < b) (hc : digit[d]? = some c) (v : ℕ) :
    readDigit digit b v c = some (v * b + d) := by
  have htake : (digit.take b)[d]? = some c := by
    rw [List.getElem?_take_of_lt hd, hc]
  obtain ⟨hlt, rfl⟩ := List.getElem?_eq_some_iff.mp htake
  have hidx : (digit.take b).idxOf? (digit.take b)[d] = some d := by
    refine List.idxOf?_eq_some_iff.mpr ⟨hlt, rfl, fun j hj heq => ?_⟩
    have := (List.Nodup.getElem_inj_iff hdistinct).mp heq
    omega
  rw [readDigit, hidx, Option.map_some]

/-- Reading continues after a part that has been read. -/
theorem read_append_singleton
    {s : List α} (hs : s ≠ []) (c : α) :
    read digit b (s ++ [c]) = (read digit b s).bind (fun v => readDigit digit b v c) := by
  cases s with
  | nil =>
      exact absurd rfl hs
  | cons c' s =>
      simp [read, Option.bind_assoc]

/-- The text of a number stands for it. -/
theorem read_text
    (hb : 2 ≤ b) (hlen : b ≤ digit.length) (hdistinct : (digit.take b).Nodup) (n : ℕ) :
    read digit b (text digit b n) = some n := by
  induction n using text_induction hb hlen with
  | one n c h hc =>
      simp [read, readDigit_of_getElem? hdistinct h hc]
  | more n c h hc ih =>
      have hmod : n % b < b := Nat.mod_lt n (by omega)
      rw [read_append_singleton (text_ne_nil hb hlen _), ih, Option.bind_some,
        readDigit_of_getElem? hdistinct hmod hc, Nat.div_add_mod']

/-- The text of an integer stands for it, if the sign is not a digit. -/
theorem readSigned_signedText
    (hb : 2 ≤ b) (hlen : b ≤ digit.length) (hdistinct : (digit.take b).Nodup)
    (hminus : minus ∉ digit.take b) (z : ℤ) :
    readSigned minus digit b (signedText minus digit b z) = some z := by
  have hread := read_text hb hlen hdistinct z.natAbs
  unfold signedText
  split_ifs with hz
  · rw [readSigned, if_pos rfl, hread, Option.map_some]
    congr 1
    omega
  · cases htext : text digit b z.natAbs with
    | nil =>
        exact absurd htext (text_ne_nil hb hlen _)
    | cons c s =>
        have hc : c ≠ minus := by
          rintro rfl
          exact hminus (mem_text hb hlen (htext ▸ List.mem_cons_self))
        rw [readSigned, if_neg hc, ← htext, hread, Option.map_some]
        congr 1
        omega

end RoundTrip

end Numerals
