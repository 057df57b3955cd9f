import Mathlib.Data.BitVec
import Mathlib.Data.List.Infix

/-!
# Words made of fields

A word with several fields, each given by its mask; no bit belongs to two fields.  Fields
written one after the other keep the value that was written last, and no other bit changes.
Some bits may be ignored: nobody relies on them.

**Results.**
* `performed_append`, `lastValue_append`: a sequence of writes.
* `agree_or`, `agree_or_not_iff`: a field set by an or, and by an or with a complement.
* `holds_prefixes_iff`: when every initial part of a sequence of writes leaves the fields
  as they were written last.
-/

namespace BitFields

universe u v w

variable {n : ℕ} {ι : Type u}

/-- The word with the bits of the mask taken from `value`. -/
def assign (mask value x : BitVec n) : BitVec n :=
  (x &&& ~~~mask) ||| (value &&& mask)

/-- The words agree, the ignored bits apart. -/
def Agree (ignored x y : BitVec n) : Prop :=
  ∀ i < n, ignored.getLsbD i = false → x.getLsbD i = y.getLsbD i

/-- The word after the requests, each of which names a field and a value. -/
def performed (mask : ι → BitVec n) (x : BitVec n) (requests : List (ι × BitVec n)) : BitVec n :=
  requests.foldl (fun x r => assign (mask r.1) r.2 x) x

/-- The value that was requested last for the field. -/
def lastValue [DecidableEq ι] (f : ι) (requests : List (ι × BitVec n)) : Option (BitVec n) :=
  ((requests.filter (fun r => r.1 = f)).getLast?).map Prod.snd

/--
The word `y` holds in each field the value requested last, or the one of `x`, and
outside the fields it is the word `x`, the ignored bits apart.
-/
structure Holds
    [DecidableEq ι] (mask : ι → BitVec n) (ignored x : BitVec n)
    (requests : List (ι × BitVec n)) (y : BitVec n) : Prop where
  field : ∀ f, y &&& mask f = (lastValue f requests).getD x &&& mask f
  rest : ∀ i < n, (∀ f, (mask f).getLsbD i = false) → ignored.getLsbD i = false →
    y.getLsbD i = x.getLsbD i

section Words

variable {mask value ignored x y z : BitVec n}

@[simp] theorem getLsbD_assign (mask value x : BitVec n) (i : ℕ) :
    (assign mask value x).getLsbD i =
      if mask.getLsbD i = true then value.getLsbD i else x.getLsbD i := by
  by_cases hi : i < n
  · simp only [assign, BitVec.getLsbD_or, BitVec.getLsbD_and, BitVec.getLsbD_not, hi, decide_true]
    cases mask.getLsbD i <;> simp
  · simp [BitVec.getLsbD_of_ge _ _ (not_lt.mp hi)]

/-- Writing ones is a disjunction, and writing zeros a conjunction. -/
theorem or_eq_assign (mask x : BitVec n) : x ||| mask = assign mask mask x := by
  refine BitVec.eq_of_getLsbD_eq (fun i _ => ?_)
  rw [getLsbD_assign, BitVec.getLsbD_or]
  cases mask.getLsbD i <;> simp

theorem and_not_eq_assign (mask x : BitVec n) : x &&& ~~~mask = assign mask 0 x := by
  simp [assign]

/-- Two words without a common bit. -/
theorem getLsbD_of_and_eq_zero
    (h : x &&& y = 0) {i : ℕ} (hi : y.getLsbD i = true) :
    x.getLsbD i = false := by
  have hbit : (x &&& y).getLsbD i = false := by
    rw [h]
    exact BitVec.getLsbD_zero
  rwa [BitVec.getLsbD_and, hi, Bool.and_true] at hbit

theorem Agree.refl (ignored x : BitVec n) : Agree ignored x x :=
  fun _ _ _ => rfl

theorem Agree.symm (h : Agree ignored x y) : Agree ignored y x :=
  fun i hi hignored => (h i hi hignored).symm

theorem Agree.trans (h : Agree ignored x y) (h' : Agree ignored y z) : Agree ignored x z :=
  fun i hi hignored => (h i hi hignored).trans (h' i hi hignored)

theorem Agree.assign
    (h : Agree ignored x y) (mask value : BitVec n) :
    Agree ignored (assign mask value x) (assign mask value y) := by
  intro i hi hignored
  rw [getLsbD_assign, getLsbD_assign, h i hi hignored]

/-- The ignored bits may be set. -/
theorem agree_or (ignored x : BitVec n) : Agree ignored (x ||| ignored) x := by
  intro i _ hignored
  rw [BitVec.getLsbD_or, hignored, Bool.or_false]

/--
Setting all the bits outside the mask, instead of those inside, is harmless exactly if
every bit is set already, the ignored ones apart.
-/
theorem agree_or_not_iff :
    Agree ignored (x ||| ~~~mask) (assign mask mask x) ↔ x ||| ignored = BitVec.allOnes n := by
  have hbit : ∀ i < n, ignored.getLsbD i = false →
      ((x ||| ~~~mask).getLsbD i = (assign mask mask x).getLsbD i ↔ x.getLsbD i = true) := by
    intro i hi _
    rw [getLsbD_assign, BitVec.getLsbD_or, BitVec.getLsbD_not]
    simp only [hi, decide_true, Bool.true_and]
    cases mask.getLsbD i <;> cases x.getLsbD i <;> simp
  constructor
  · intro h
    refine BitVec.eq_of_getLsbD_eq (fun i hi => ?_)
    rw [BitVec.getLsbD_or, BitVec.getLsbD_allOnes, decide_eq_true hi]
    cases hignored : ignored.getLsbD i with
    | true =>
        simp
    | false =>
        rw [(hbit i hi hignored).mp (h i hi hignored), Bool.or_false]
  · intro h i hi hignored
    refine (hbit i hi hignored).mpr ?_
    have hones : (x ||| ignored).getLsbD i = true := by
      rw [h, BitVec.getLsbD_allOnes, decide_eq_true hi]
    rwa [BitVec.getLsbD_or, hignored, Bool.or_false] at hones

end Words

section Requests

variable [DecidableEq ι] {mask : ι → BitVec n} {ignored x y : BitVec n}
variable {requests : List (ι × BitVec n)}

omit [DecidableEq ι] in
theorem performed_append (r : ι × BitVec n) :
    performed mask x (requests ++ [r]) = assign (mask r.1) r.2 (performed mask x requests) := by
  simp [performed]

theorem lastValue_append (f : ι) (r : ι × BitVec n) :
    lastValue f (requests ++ [r]) = if r.1 = f then some r.2 else lastValue f requests := by
  unfold lastValue
  rw [List.filter_append]
  split_ifs with hf
  · simp [hf]
  · simp [hf]

/-- The bits of a field come from the last request, if there is one. -/
theorem getLsbD_performed
    (hdisjoint : ∀ f g, f ≠ g → mask f &&& mask g = 0) {f : ι} {i : ℕ}
    (hi : (mask f).getLsbD i = true) :
    (performed mask x requests).getLsbD i = ((lastValue f requests).getD x).getLsbD i := by
  induction requests using List.reverseRecOn with
  | nil =>
      rfl
  | append_singleton requests r ih =>
      rw [performed_append, lastValue_append, getLsbD_assign]
      by_cases hf : r.1 = f
      · rw [hf, hi, if_pos rfl, if_pos rfl, Option.getD_some]
      · rw [getLsbD_of_and_eq_zero (hdisjoint r.1 f hf) hi, if_neg Bool.false_ne_true,
          if_neg hf, ih]

omit [DecidableEq ι] in
/-- The bits outside all fields do not change. -/
theorem getLsbD_performed_of_rest
    {i : ℕ} (hi : ∀ f, (mask f).getLsbD i = false) :
    (performed mask x requests).getLsbD i = x.getLsbD i := by
  induction requests using List.reverseRecOn with
  | nil =>
      rfl
  | append_singleton requests r ih =>
      rw [performed_append, getLsbD_assign, hi, if_neg Bool.false_ne_true, ih]

/-- A word holds what was requested exactly if it agrees with the requests performed. -/
theorem holds_iff
    (hdisjoint : ∀ f g, f ≠ g → mask f &&& mask g = 0) (hignored : ∀ f, ignored &&& mask f = 0) :
    Holds mask ignored x requests y ↔ Agree ignored y (performed mask x requests) := by
  constructor
  · intro h i hi hnot
    by_cases hf : ∃ f, (mask f).getLsbD i = true
    · obtain ⟨f, hf⟩ := hf
      have hfield := congrArg (fun y => y.getLsbD i) (h.field f)
      simp only [BitVec.getLsbD_and, hf, Bool.and_true] at hfield
      rw [hfield, getLsbD_performed hdisjoint hf]
    · have hrest : ∀ f, (mask f).getLsbD i = false := by
        intro f
        exact Bool.eq_false_iff.mpr (fun hmask => hf ⟨f, hmask⟩)
      rw [h.rest i hi hrest hnot, getLsbD_performed_of_rest hrest]
  · intro h
    refine ⟨fun f => BitVec.eq_of_getLsbD_eq (fun i hi => ?_), fun i hi hrest hnot => ?_⟩
    · rw [BitVec.getLsbD_and, BitVec.getLsbD_and]
      cases hf : (mask f).getLsbD i with
      | false =>
          rw [Bool.and_false, Bool.and_false]
      | true =>
          have hnot : ignored.getLsbD i = false := getLsbD_of_and_eq_zero (hignored f) hf
          rw [h i hi hnot, getLsbD_performed hdisjoint hf]
    · rw [h i hi hnot, getLsbD_performed_of_rest hrest]

variable {σ : Type v} {κ : Type w}

/--
A system with a word and calls that request something of its fields.  If a call does
what it requests exactly under the condition `C`, then the word holds what was requested
after every initial part of a list of calls exactly if each call meets its condition.
-/
theorem holds_prefixes_iff
    (hdisjoint : ∀ f g, f ≠ g → mask f &&& mask g = 0) (hignored : ∀ f, ignored &&& mask f = 0)
    (word : σ → BitVec n) (request : κ → ι × BitVec n) (next : σ → κ → σ) {C : κ → σ → Prop}
    (hstep : ∀ c s, Agree ignored (word (next s c))
      (assign (mask (request c).1) (request c).2 (word s)) ↔ C c s)
    (s : σ) (calls : List κ) :
    (∀ l, l <+: calls → Holds mask ignored (word s) (l.map request) (word (l.foldl next s))) ↔
      ∀ l c, l ++ [c] <+: calls → C c (l.foldl next s) := by
  induction calls using List.reverseRecOn with
  | nil =>
      refine ⟨fun _ l c h => absurd (List.prefix_nil.mp h) (by simp), fun _ l h => ?_⟩
      rw [List.prefix_nil.mp h]
      exact (holds_iff hdisjoint hignored).mpr (Agree.refl _ _)
  | append_singleton calls c ih =>
      -- the last call, given that everything was right before it
      have hlast : Agree ignored (word (calls.foldl next s))
            (performed mask (word s) (calls.map request)) →
          (Holds mask ignored (word s) ((calls ++ [c]).map request)
              (word ((calls ++ [c]).foldl next s)) ↔
            C c (calls.foldl next s)) := by
        intro hbefore
        rw [holds_iff hdisjoint hignored, List.map_append, List.map_singleton, performed_append,
          List.foldl_append, List.foldl_cons, List.foldl_nil, ← hstep]
        have hassign := hbefore.assign (mask (request c).1) (request c).2
        exact ⟨fun h => h.trans hassign.symm, fun h => h.trans hassign⟩
      constructor
      · intro h l c' hl
        have hcalls : ∀ l, l <+: calls →
            Holds mask ignored (word s) (l.map request) (word (l.foldl next s)) :=
          fun l hl => h l (hl.trans (List.prefix_append calls [c]))
        rcases List.prefix_concat_iff.mp hl with heq | hl
        · obtain ⟨rfl, hc⟩ := List.append_inj' heq rfl
          obtain rfl : c' = c := List.singleton_inj.mp hc
          have hbefore := (holds_iff hdisjoint hignored).mp (hcalls l (List.prefix_refl l))
          exact (hlast hbefore).mp (h _ (List.prefix_refl _))
        · exact ih.mp hcalls l c' hl
      · intro h l hl
        have hcalls := ih.mpr (fun l c' hl => h l c' (hl.trans (List.prefix_append calls [c])))
        rcases List.prefix_concat_iff.mp hl with rfl | hl
        · have hbefore := (holds_iff hdisjoint hignored).mp (hcalls calls (List.prefix_refl calls))
          exact (hlast hbefore).mpr (h calls c (List.prefix_refl _))
        · exact hcalls l hl

end Requests

end BitFields
