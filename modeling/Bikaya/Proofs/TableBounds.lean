import Bikaya.Proofs.DeviceQueues
import Bikaya.Proofs.PassUp

/-!
# Bikaya: the tables indexed by system calls

SPECPASSUP computes two indices of `spec_areas` from the type code, and WAITIO computes a
cell of `dev_w_lists` from the address of a device register and the number of a sub-device.
Neither looks at the result before it is used.

**Plan.**  The indices are computed with 32-bit integers, as the source does, and the table
says whether it has such an entry.  The coordinates of a device register are quotients and
remainders of its offset from the first one (`coordinates_iff`).

**Results.**
* `specEntries_ok_iff`, `specEntries_eq_iff`: which type codes stay inside the array, and
  which two of them share their entries.
* `coordinates_iff`: which addresses belong to a device.
* `syscall_tables_iff`: both tables, for all the arguments of the system calls.
-/

namespace Bikaya

/-- The old and the new entry of `spec_areas` that a type code denotes. -/
def specEntries (arg1 : Word) : Except Halt (Fin 6 × Fin 6) := do
  let old ← specIndex (specTypeCode arg1 * 2 + OLD)
  let new ← specIndex (specTypeCode arg1 * 2 + NEW)
  .ok (old, new)

namespace Kernel

variable {A : Arch}

/-- SPECPASSUP on the entries of the running process. -/
def specPassupAt (k : Kernel A) (entries : Fin 6 × Fin 6) (arg2 arg3 : Word) :
    Except Halt (Kernel A) :=
  let current := k.runningProc
  if k.specAreas current entries.2 = 0 ∧ k.specAreas current entries.1 = 0 then
    .ok
      { k with
        specAreas := Function.update k.specAreas current
          (Function.update (Function.update (k.specAreas current) entries.1 arg2) entries.2 arg3) }
  else
    (k.terminateProc (some current)).map Prod.snd

/-- The type code matters through the entries only. -/
theorem specPassup_entries (k : Kernel A) (arg1 arg2 arg3 : Word) :
    k.specPassup arg1 arg2 arg3 =
      specEntries arg1 >>= fun entries => k.specPassupAt entries arg2 arg3 := by
  unfold specPassup specEntries
  cases specIndex (specTypeCode arg1 * 2 + OLD) with
  | error e =>
      rfl
  | ok old =>
      cases specIndex (specTypeCode arg1 * 2 + NEW) with
      | error e =>
          rfl
      | ok new =>
          rfl

end Kernel

section SpecAreas

theorem specIndex_of_lt {i : Word} (h : i.toNat < 6) : specIndex i = .ok ⟨i.toNat, h⟩ :=
  dif_pos h

theorem lt_of_specIndex {i : Word} {j : Fin 6} (h : specIndex i = .ok j) : i.toNat = j := by
  unfold specIndex at h
  split_ifs at h with hi
  exact congrArg Fin.val (Except.ok.inj h)

/-- The multiplication drops the highest bit of the type code. -/
theorem toNat_specSlot (c : Word) :
    (c * 2 + OLD).toNat = 2 * (c.toNat % 2 ^ 31) + 1 ∧
      (c * 2 + NEW).toNat = 2 * (c.toNat % 2 ^ 31) := by
  constructor <;> bv_omega

theorem specEntries_iff {arg1 : Word} {entries : Fin 6 × Fin 6} :
    specEntries arg1 = .ok entries ↔
      (entries.1 : ℕ) = 2 * ((specTypeCode arg1).toNat % 2 ^ 31) + 1 ∧
        (entries.2 : ℕ) = 2 * ((specTypeCode arg1).toNat % 2 ^ 31) := by
  obtain ⟨hold, hnew⟩ := toNat_specSlot (specTypeCode arg1)
  constructor
  · intro h
    obtain ⟨old, hi, h⟩ := ok_of_bind h
    obtain ⟨new, hj, h⟩ := ok_of_bind h
    obtain rfl := Except.ok.inj h
    exact ⟨(lt_of_specIndex hi).symm.trans hold, (lt_of_specIndex hj).symm.trans hnew⟩
  · rintro ⟨h1, h2⟩
    have hlt1 := entries.1.isLt
    have hlt2 := entries.2.isLt
    have hi := specIndex_of_lt (i := specTypeCode arg1 * 2 + OLD) (by omega)
    have hj := specIndex_of_lt (i := specTypeCode arg1 * 2 + NEW) (by omega)
    simp only [specEntries, hi, hj, ok_bind]
    congr 1
    exact Prod.ext (Fin.ext (hold.trans h1.symm)) (Fin.ext (hnew.trans h2.symm))

/-- The reordering of the type codes permutes 0, 1, 2 and nothing else. -/
theorem specTypeCode_mod (arg1 : Word) :
    (specTypeCode arg1).toNat % 2 ^ 31 < 3 ↔ arg1.toNat % 2 ^ 31 < 3 := by
  unfold specTypeCode
  split_ifs with h1 h2
  · subst h1
    decide
  · subst h2
    decide
  · exact Iff.rfl

/-- A type code denotes entries of the table exactly if its lower 31 bits are 0, 1 or 2. -/
theorem specEntries_ok_iff (arg1 : Word) :
    (∃ entries, specEntries arg1 = .ok entries) ↔ arg1.toNat % 2 ^ 31 < 3 := by
  rw [← specTypeCode_mod]
  constructor
  · rintro ⟨entries, h⟩
    have := (specEntries_iff.mp h).1
    have := entries.1.isLt
    omega
  · intro h
    exact ⟨(⟨2 * ((specTypeCode arg1).toNat % 2 ^ 31) + 1, by omega⟩,
      ⟨2 * ((specTypeCode arg1).toNat % 2 ^ 31), by omega⟩), specEntries_iff.mpr ⟨rfl, rfl⟩⟩

/-- Two type codes denote the same entries exactly if they agree but for the highest bit. -/
theorem specEntries_eq_iff
    {a b : Word} {entries : Fin 6 × Fin 6} (ha : specEntries a = .ok entries) :
    specEntries b = .ok entries ↔
      (specTypeCode a).toNat % 2 ^ 31 = (specTypeCode b).toNat % 2 ^ 31 := by
  have hslots := specEntries_iff.mp ha
  rw [specEntries_iff]
  omega

end SpecAreas

section DeviceCells

theorem devCell_iff {type num : Word} :
    (∃ d, devCell type num = some d) ↔ type.toNat < 6 ∧ num.toNat < 8 := by
  unfold devCell
  have htype : (∃ t, ExtDevType.ofNat? type.toNat = some t) ↔ type.toNat < 6 := by
    generalize type.toNat = n
    constructor
    · rintro ⟨t, ht⟩
      unfold ExtDevType.ofNat? at ht
      split at ht <;> first
        | omega
        | exact absurd ht (by simp)
    · intro hn
      interval_cases n <;> exact ⟨_, rfl⟩
  cases ht : ExtDevType.ofNat? type.toNat with
  | none =>
      have hnot : ¬ type.toNat < 6 := by
        rw [← htype, ht]
        simp
      simp [hnot]
  | some t =>
      have hlt : type.toNat < 6 := htype.mp ⟨t, ht⟩
      by_cases hnum : num.toNat < 8
      · simp [hnum, hlt]
      · simp [hnum]

/-- A signed number in a word is small exactly if it is not negative, and small. -/
theorem toNat_ofInt_lt
    {z : ℤ} {b : ℕ} (hlo : -2 ^ 31 ≤ z) (hhi : z < 2 ^ 31) (hb : b ≤ 2 ^ 31) :
    (BitVec.ofInt 32 z).toNat < b ↔ 0 ≤ z ∧ z < b := by
  rw [BitVec.toNat_ofInt]
  push_cast
  omega

/-- The row of the cell: the line without the internal ones, and the sub-device. -/
theorem getExtDevType_ofInt {l : ℤ} (hlo : -2 ^ 30 ≤ l) (hhi : l < 2 ^ 30) (subdev : Word) :
    getExtDevType (BitVec.ofInt 32 (l + 3)) subdev =
      if l = 4 then 4 + subdev else BitVec.ofInt 32 l := by
  have hsub : BitVec.ofInt 32 (l + 3) - BitVec.ofNat 32 (N_IL - N_EXT_IL) = BitVec.ofInt 32 l := by
    rw [BitVec.ofInt_add]
    exact BitVec.add_sub_cancel _ _
  have hterm : BitVec.ofInt 32 (l + 3) = BitVec.ofNat 32 IL_TERMINAL ↔ l = 4 := by
    constructor
    · intro h
      have hnat := congrArg BitVec.toNat h
      rw [BitVec.toNat_ofInt] at hnat
      have hseven : (BitVec.ofNat 32 IL_TERMINAL).toNat = 7 := rfl
      rw [hseven] at hnat
      push_cast at hnat
      omega
    · rintro rfl
      rfl
  unfold getExtDevType
  simp only [hsub, hterm]
  split_ifs with hl
  · subst hl
    rfl
  · rfl

/--
The instance and the row of a register at the distance `x`.  The division truncates, so
that the 15 bytes in front of the first register belong to it.
-/
theorem coordinates_iff {x : ℤ} (hlo : -2 ^ 32 < x) (hhi : x < 2 ^ 31) (subdev : Word) :
    (getExtDevType (BitVec.ofInt 32 ((x.tdiv 16).tdiv 8 + 3)) subdev).toNat < 6 ∧
        (BitVec.ofInt 32 ((x.tdiv 16).tmod 8)).toNat < 8 ↔
      (-16 < x ∧ x < 512) ∨ (512 ≤ x ∧ x < 640 ∧ (4 + subdev).toNat < 6) ∨
        (640 ≤ x ∧ x < 768) := by
  -- the truncating divisions by the Euclidean ones
  have hdiv : (0 ≤ x ∧ (x.tdiv 16).tdiv 8 = x / 16 / 8 ∧ (x.tdiv 16).tmod 8 = x / 16 % 8) ∨
      (x < 0 ∧ (x.tdiv 16).tdiv 8 = -(-x / 16 / 8) ∧ (x.tdiv 16).tmod 8 = -(-x / 16 % 8)) := by
    rcases le_or_gt 0 x with hpos | hneg
    · refine Or.inl ⟨hpos, ?_, ?_⟩
      · rw [Int.tdiv_eq_ediv_of_nonneg hpos, Int.tdiv_eq_ediv_of_nonneg (by omega)]
      · rw [Int.tdiv_eq_ediv_of_nonneg hpos, Int.tmod_eq_emod_of_nonneg (by omega)]
    · have hquot : x.tdiv 16 = -(-x / 16) := by
        rw [← Int.tdiv_eq_ediv_of_nonneg (by omega), Int.neg_tdiv, neg_neg]
      refine Or.inr ⟨hneg, ?_, ?_⟩
      · rw [hquot, Int.neg_tdiv, Int.tdiv_eq_ediv_of_nonneg (by omega)]
      · rw [hquot, Int.neg_tmod, Int.tmod_eq_emod_of_nonneg (by omega)]
  generalize (x.tdiv 16).tdiv 8 = l at hdiv ⊢
  generalize (x.tdiv 16).tmod 8 = r at hdiv ⊢
  rw [getExtDevType_ofInt (by omega) (by omega),
    toNat_ofInt_lt (b := 8) (by omega) (by omega) (by decide)]
  split_ifs with hl
  · omega
  · rw [toNat_ofInt_lt (b := 6) (by omega) (by omega) (by decide)]
    omega

variable (A : Arch)

/-- The distance of a register from the first device register. -/
def Arch.devOffset (devReg : Word) : ℤ :=
  devReg.toInt - A.devRegStart

/--
The addresses and sub-devices that select a cell of the table: the registers of the
lines before the terminals, the terminals with a sub-device, which is added to the row,
and the 128 bytes behind the terminals.
-/
def InsideDevices (devReg subdev : Word) : Prop :=
  (-16 < A.devOffset devReg ∧ A.devOffset devReg < 512) ∨
    (512 ≤ A.devOffset devReg ∧ A.devOffset devReg < 640 ∧ (4 + subdev).toNat < 6) ∨
    (640 ≤ A.devOffset devReg ∧ A.devOffset devReg < 768)

instance (devReg subdev : Word) : Decidable (InsideDevices A devReg subdev) :=
  inferInstanceAs (Decidable (_ ∨ _ ∨ _))

theorem waitCell_iff (devReg subdev : Word) :
    (∃ d, Kernel.waitCell A devReg subdev = some d) ↔ InsideDevices A devReg subdev := by
  have hlo : -2 ^ 31 ≤ devReg.toInt := devReg.le_toInt
  have hhi : devReg.toInt < 2 ^ 31 := devReg.toInt_lt
  have hstart := A.devRegStart_nonneg
  have hend := A.devRegEnd_lt
  unfold Kernel.waitCell
  rw [devCell_iff]
  refine coordinates_iff (x := A.devOffset devReg) ?_ ?_ subdev
  · unfold Arch.devOffset
    omega
  · unfold Arch.devOffset
    omega

end DeviceCells

section Calls

variable (A : Arch)

/-- SPECPASSUP reads and writes two entries of the caller's `spec_areas`, and no other. -/
def SpecPassupInside (arg1 : Word) : Prop :=
  ∀ (k : Kernel A) (arg2 arg3 : Word), ∃ entries : Fin 6 × Fin 6,
    k.specPassup arg1 arg2 arg3 = k.specPassupAt entries arg2 arg3

/-- WAITIO does nothing, or it uses a cell of `dev_w_lists`. -/
def WaitIoInside (devReg subdev : Word) : Prop :=
  ∀ (k : Kernel A) (m : IntModel) (command tod : Word),
    k.waitIo m command devReg subdev tod = .ok k ∨
      ∃ d : Dev, k.waitIo m command devReg subdev tod = .ok (k.waitDev m command devReg d tod)

theorem specPassupInside_iff (arg1 : Word) :
    SpecPassupInside A arg1 ↔ arg1.toNat % 2 ^ 31 < 3 := by
  rw [← specEntries_ok_iff]
  constructor
  · intro h
    -- a kernel whose areas are not set does not terminate the caller
    obtain ⟨entries, heq⟩ := h (Kernel.bss fun _ => 0) 0 0
    rw [Kernel.specPassup_entries] at heq
    have hok : ∃ k, (Kernel.bss (A := A) fun _ => 0).specPassupAt entries 0 0 = .ok k := by
      unfold Kernel.specPassupAt
      exact ⟨_, if_pos ⟨rfl, rfl⟩⟩
    obtain ⟨k, hk⟩ := hok
    obtain ⟨entries', hentries, -⟩ := ok_of_bind (heq.trans hk)
    exact ⟨entries', hentries⟩
  · rintro ⟨entries, hentries⟩ k arg2 arg3
    refine ⟨entries, ?_⟩
    rw [Kernel.specPassup_entries, hentries, ok_bind]

theorem waitIoInside_iff (devReg subdev : Word) :
    WaitIoInside A devReg subdev ↔ InsideDevices A devReg subdev := by
  rw [← waitCell_iff]
  constructor
  · intro h
    obtain ⟨k, hk⟩ : ∃ k, (Kernel.bss (A := A) fun _ => 0).exec .int32
        (.waitIo 0 devReg subdev 0) = .ok k := by
      rcases h (Kernel.bss fun _ => 0) .int32 0 0 with heq | ⟨d, heq⟩
      · exact ⟨_, heq⟩
      · exact ⟨_, heq⟩
    obtain ⟨d, hcell, -⟩ := Kernel.exec_waitIo hk
    exact ⟨d, hcell⟩
  · rintro ⟨d, hcell⟩ k m command tod
    unfold Kernel.waitCell at hcell
    refine Or.inr ⟨d, ?_⟩
    delta Kernel.waitIo
    rw [hcell]

/--
The arguments with which SPECPASSUP and WAITIO stay inside the tables.  A type code is
good exactly if its lower 31 bits are 0, 1 or 2, two good type codes denote different
entries exactly if they differ, once reordered, in the lower 31 bits, and WAITIO uses a
cell of the table exactly for the registers and sub-devices of `InsideDevices`.
-/
theorem syscall_tables_iff :
    (∀ arg1, SpecPassupInside A arg1 ↔ arg1.toNat % 2 ^ 31 < 3) ∧
      (∀ a b ea eb, a ≠ b → specEntries a = .ok ea → specEntries b = .ok eb →
        (ea ≠ eb ↔ (specTypeCode a).toNat % 2 ^ 31 ≠ (specTypeCode b).toNat % 2 ^ 31)) ∧
      (∀ devReg subdev, WaitIoInside A devReg subdev ↔ InsideDevices A devReg subdev) := by
  refine ⟨specPassupInside_iff A, fun a b ea eb _ ha hb => not_congr ?_, waitIoInside_iff A⟩
  rw [← specEntries_eq_iff ha, hb]
  exact ⟨fun heq => by rw [heq], fun heq => (Except.ok.inj heq).symm⟩

theorem syscall_tables_printer :
    SpecPassupInside umps 2 ∧
      (∃ ea eb, specEntries 0 = .ok ea ∧ specEntries 1 = .ok eb ∧ ea ≠ eb) ∧
      WaitIoInside umps 0x100001d0 0 :=
  ⟨((syscall_tables_iff umps).1 2).mpr (by decide),
    ⟨_, _, rfl, rfl, ((syscall_tables_iff umps).2.1 0 1 _ _ (by decide) rfl rfl).mpr (by decide)⟩,
    ((syscall_tables_iff umps).2.2 0x100001d0 0).mpr (Or.inl (by decide))⟩

/--
The type code 3 leaves `spec_areas`, the type codes 0 and 2 ^ 31 denote the same entries,
and the address 0 selects no cell of `dev_w_lists`.
-/
theorem syscall_tables_left :
    ¬ SpecPassupInside umps 3 ∧
      (∃ entries, specEntries 0 = .ok entries ∧ specEntries 0x80000000 = .ok entries) ∧
      ¬ WaitIoInside umps 0 0 := by
  refine ⟨fun h => ?_, ⟨_, rfl, rfl⟩, fun h => ?_⟩
  · exact absurd ((specPassupInside_iff umps 3).mp h) (by decide)
  · exact absurd ((waitIoInside_iff umps 0 0).mp h) (by decide)

end Calls

end Bikaya
