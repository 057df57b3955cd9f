import Bikaya.Core.Memory
import Bikaya.Library.BitFields

/-!
# Bikaya: what the code does to the states in memory

`memcpy` is described for all pointers, overlapping ranges included.  The setters do to the
`state_t` at an address what they do to a processor state, and leave the rest of the memory
alone; so does the initialization of the new areas, whatever the memory contains.

**Plan.**  `Implements` relates code on the bytes to a function on processor states: what
is read from the place afterwards is the function of what was read before, and no byte
outside changes.  It composes, so that the sequences of setters are read off.  Memory is
accessed by 32-bit addresses, which wrap around.

**Results.**
* `memcpy_exact`: the copy for all pointers and lengths, and when it is right.
* `implements_initNewArea`: one new area, with the fields that it keeps.
* `initialize_new_areas`: the four new areas, for every content of the memory.
-/

namespace Bikaya
namespace Mps

open ByteMemory

variable {order : ByteOrder} {mem mem' : Ram} {dst src s s' : Word}

section Memcpy

theorem memcpy_eq (bytes : Word) (hdst : dst ≠ 0) (hsrc : src ≠ 0) :
    memcpy mem dst src bytes = .ok (dst, copyForward mem dst src bytes.toNat) :=
  if_pos ⟨hsrc, hdst⟩

/--
`memcpy` stops the machine if a pointer is NULL.  Otherwise it writes to the destination
only, and each of its bytes is the byte of the source at the offset taken modulo the distance
from the source up to the destination.  So it copies every content correctly if and only if
the destination does not begin inside the source.
-/
theorem memcpy_exact (dst src bytes : Word) :
    (∀ mem, memcpy mem dst src bytes = .error (.panic "") ↔ dst = 0 ∨ src = 0) ∧
    (dst ≠ 0 → src ≠ 0 → ∀ mem, ∃ mem', memcpy mem dst src bytes = .ok (dst, mem') ∧
      ∀ x, mem' x =
        if (x - dst).toNat < bytes.toNat then
          mem (src + BitVec.ofNat 32 ((x - dst).toNat % (dst - src).toNat))
        else mem x) ∧
    (dst ≠ 0 → src ≠ 0 →
      ((∀ mem mem', memcpy mem dst src bytes = .ok (dst, mem') →
          ∀ i < bytes.toNat, mem' (dst + BitVec.ofNat 32 i) = mem (src + BitVec.ofNat 32 i)) ↔
        (dst = src ∨ bytes.toNat ≤ (dst - src).toNat))) := by
  have hbytes : bytes.toNat ≤ 2 ^ 32 := bytes.isLt.le
  refine ⟨fun mem => ?_, fun hdst hsrc mem => ?_, fun hdst hsrc => ⟨fun h => ?_, ?_⟩⟩
  · unfold memcpy
    split_ifs with hnull
    · exact ⟨fun h => absurd h (by simp), fun h => absurd h (not_or.mpr ⟨hnull.2, hnull.1⟩)⟩
    · simp only [true_iff]
      by_contra hne
      exact hnull ⟨fun h => hne (Or.inr h), fun h => hne (Or.inl h)⟩
  · exact ⟨_, memcpy_eq bytes hdst hsrc, fun x => copyForward_apply hbytes x⟩
  · -- a memory with one mark, at the beginning of the source
    by_contra hplain
    obtain ⟨hne, hlt⟩ := not_or.mp hplain
    rw [not_le] at hlt
    have hcopy := h (fun x => if x = src then 1 else 0) _ (memcpy_eq bytes hdst hsrc) _ hlt
    rw [copyForward_apply hbytes, if_pos (inRange_offset dst hlt hbytes),
      toNat_offset dst (dst - src).isLt, Nat.mod_self, add_offset] at hcopy
    simp [hne] at hcopy
  · rintro hplain mem mem' heq i hi
    rw [memcpy_eq bytes hdst hsrc] at heq
    obtain rfl := congrArg Prod.snd (Except.ok.inj heq)
    exact copyForward_plain hplain hi hbytes

end Memcpy

section Setters

/-- The bytes of a `state_t`. -/
abbrev InState (s x : Word) : Prop :=
  ByteMemory.InRange s 140 x

/-- Two states in memory that do not overlap. -/
abbrev StatesApart (s s' : Word) : Prop :=
  Apart s 140 s' 140

theorem loadState_storeReg (mem : Ram) (s : Word) (r : Reg) (v : Word) :
    loadState order (storeReg order mem s r v) s = Function.update (loadState order mem s) r v :=
  loadRecord_storeField order stateLayout (by decide) v

theorem storeReg_outside {x : Word} (hx : ¬ InState s x) (r : Reg) (v : Word) :
    storeReg order mem s r v x = mem x :=
  storeField_outside order stateLayout (by decide) hx v

theorem loadState_eq (h : ∀ x, InState s x → mem' x = mem x) :
    loadState order mem' s = loadState order mem s :=
  loadRecord_eq order stateLayout (by decide) h

/--
A function on the `state_t` at an address does the same as a function on processor states,
and writes nowhere else.
-/
structure Implements (order : ByteOrder) (f : Ram → Ram) (s : Word)
    (g : MpsState → MpsState) : Prop where
  inside : ∀ mem, loadState order (f mem) s = g (loadState order mem s)
  outside : ∀ mem x, ¬ InState s x → f mem x = mem x

theorem Implements.comp
    {f f' : Ram → Ram} {g g' : MpsState → MpsState}
    (h : Implements order f s g) (h' : Implements order f' s g') :
    Implements order (fun mem => f' (f mem)) s (fun st => g' (g st)) where
  inside := fun mem => by rw [h'.inside, h.inside]
  outside := fun mem x hx => (h'.outside (f mem) x hx).trans (h.outside mem x hx)

/-- The other states in memory. -/
theorem Implements.apart
    {f : Ram → Ram} {g : MpsState → MpsState} (h : Implements order f s g)
    (hs : StatesApart s s') (mem : Ram) :
    loadState order (f mem) s' = loadState order mem s' :=
  loadState_eq (fun x hx => h.outside mem x (hs.symm x hx))

theorem implements_storeReg (r : Reg) (v : Word) :
    Implements order (fun mem => storeReg order mem s r v) s
      (fun st => Function.update st r v) where
  inside := fun mem => loadState_storeReg mem s r v
  outside := fun _ _ hx => storeReg_outside hx r v

theorem implements_setPc (ptr : Word) :
    Implements order (fun mem => setPcAt order mem s ptr) s (fun st => setPc st ptr) :=
  (implements_storeReg .pc_epc ptr).comp (implements_storeReg (.gpr 24) ptr)

theorem implements_setSp (spVal : Word) :
    Implements order (fun mem => setSpAt order mem s spVal) s (fun st => setSp st spVal) :=
  implements_storeReg (.gpr 26) spVal

/-- A setter that changes the status register only. -/
theorem implements_storeStatus
    {set : MpsState → Word → MpsState} (on : Word)
    (hset : ∀ st, set st on = setStatus st (set st on .status)) :
    Implements order (fun mem => storeStatus order set mem s on) s (fun st => set st on) where
  inside := fun mem => by
    rw [storeStatus, loadState_storeReg]
    exact (hset _).symm
  outside := fun _ _ hx => storeReg_outside hx _ _

theorem implements_setKernelMode (on : Word) :
    Implements order (fun mem => setKernelModeAt order mem s on) s
      (fun st => setKernelMode st on) := by
  refine implements_storeStatus on (fun st => ?_)
  unfold setKernelMode
  split_ifs <;> simp [setStatus]

theorem implements_setVirtualMem (on : Word) :
    Implements order (fun mem => setVirtualMemAt order mem s on) s
      (fun st => setVirtualMem st on) := by
  refine implements_storeStatus on (fun st => ?_)
  simp [setVirtualMem, setStatus]

theorem implements_setIntervalTimerInterrupts (on : Word) :
    Implements order (fun mem => setIntervalTimerInterruptsAt order mem s on) s
      (fun st => setIntervalTimerInterrupts st on) := by
  refine implements_storeStatus on (fun st => ?_)
  unfold setIntervalTimerInterrupts
  split_ifs <;> simp [setStatus]

theorem implements_setOtherInterrupts (on : Word) :
    Implements order (fun mem => setOtherInterruptsAt order mem s on) s
      (fun st => setOtherInterrupts st on) := by
  refine implements_storeStatus on (fun st => ?_)
  unfold setOtherInterrupts
  split_ifs <;> simp [setStatus]

end Setters

section Areas

/-- The bits of the status register that `init_new_area` clears. -/
abbrev handlerMask : Word :=
  STATUS_KUc ||| STATUS_VMc ||| STATUS_IM_MASK

/-- The state in which a handler starts. -/
def handlerState (ramTop : Word) (st : MpsState) (handler : Word) : MpsState :=
  setPc (setSp (setStatus st (st .status &&& ~~~handlerMask)) ramTop) handler

/-- What the four setters leave in the status register together. -/
theorem status_cleared (st : MpsState) :
    setOtherInterrupts
        (setIntervalTimerInterrupts (setVirtualMem (setKernelMode st 1) 0) 0) 0 =
      setStatus st (st .status &&& ~~~handlerMask) := by
  have hmask : ~~~STATUS_KUc &&& (~~~STATUS_VMc &&& (~~~(STATUS_IM IL_TIMER) &&&
      ~~~(STATUS_IM_MASK &&& ~~~(STATUS_IM IL_TIMER)))) = ~~~handlerMask := by
    decide
  have hone : ((1 : Word) = 0) = False := by simp
  have hshift : ∀ w : Word, w ||| (0 : Word) <<< STATUS_VMc_BIT = w := fun w => BitVec.or_zero
  simp only [setOtherInterrupts, setIntervalTimerInterrupts, setVirtualMem, setKernelMode,
    setBits, ne_eq, not_true_eq_false, if_false, hone, not_false_eq_true, if_true,
    setStatus, Function.update_self, Function.update_idem, hshift, BitVec.and_assoc, hmask]

/-- `init_new_area` makes a state in which a handler runs with all interrupts masked. -/
theorem implements_initNewArea (ramTop handler : Word) :
    Implements order (fun mem => initNewArea order ramTop mem s handler) s
      (fun st => handlerState ramTop st handler) := by
  have h : Implements order _ s _ := ((((((implements_setKernelMode 1).comp
    (implements_setVirtualMem 0)).comp (implements_setIntervalTimerInterrupts 0)).comp
    (implements_setOtherInterrupts 0)).comp (implements_setSp ramTop)).comp
    (implements_setPc handler))
  refine ⟨fun mem => (h.inside mem).trans ?_, h.outside⟩
  rw [handlerState, ← status_cleared]

/-- `AREA_BASE` is the beginning of the old area of the interrupts. -/
theorem area_toNat (newOld : Word) (t : ExcType) (h : newOld = NEW ∨ newOld = OLD) :
    (area newOld t).toNat = 0x20000000 + (7 - 2 * t.toNat - newOld.toNat) * 140 := by
  rcases h with rfl | rfl <;> cases t <;> rfl

/-- The eight areas do not overlap. -/
theorem areas_apart
    {age age' : Word} {t t' : ExcType} (h : age = NEW ∨ age = OLD) (h' : age' = NEW ∨ age' = OLD)
    (hne : ¬ (age = age' ∧ t = t')) :
    StatesApart (area age t) (area age' t') := by
  have hdist : (area age t).toNat + 140 ≤ (area age' t').toNat ∨
      (area age' t').toNat + 140 ≤ (area age t).toNat := by
    rw [area_toNat age t h, area_toNat age' t' h']
    rcases h with rfl | rfl <;> rcases h' with rfl | rfl <;> cases t <;> cases t' <;>
      first
        | exact absurd ⟨rfl, rfl⟩ hne
        | decide
  have hend : ∀ age t, age = NEW ∨ age = OLD → (area age t).toNat + 140 ≤ 2 ^ 32 := by
    rintro age t (rfl | rfl) <;> cases t <;> decide
  rcases hdist with hle | hle
  · exact apart_of_le hle (hend age' t' h')
  · exact (apart_of_le hle (hend age t h)).symm

/-- The initialization of several new areas, one after the other. -/
theorem initNewArea_foldl
    (order : ByteOrder) (ramTop : Word) (mem : Ram) (handler : ExcType → Word) {ts : List ExcType}
    (hts : ts.Nodup) :
    (∀ t ∈ ts,
      loadState order
          (ts.foldl (fun mem t => initNewArea order ramTop mem (area NEW t) (handler t)) mem)
          (area NEW t) =
        handlerState ramTop (loadState order mem (area NEW t)) (handler t)) ∧
    (∀ x, (∀ t ∈ ts, ¬ InState (area NEW t) x) →
      ts.foldl (fun mem t => initNewArea order ramTop mem (area NEW t) (handler t)) mem x =
        mem x) := by
  induction ts generalizing mem with
  | nil =>
      exact ⟨fun t ht => absurd ht List.not_mem_nil, fun x _ => rfl⟩
  | cons t ts ih =>
      obtain ⟨hnot, hnd⟩ := List.nodup_cons.mp hts
      obtain ⟨hload, hout⟩ := ih (initNewArea order ramTop mem (area NEW t) (handler t)) hnd
      have himp : Implements order _ (area NEW t) _ := implements_initNewArea ramTop (handler t)
      have hne : ∀ t' ∈ ts, t ≠ t' := by
        rintro t' ht' rfl
        exact hnot ht'
      have hapart : ∀ t' ∈ ts, StatesApart (area NEW t) (area NEW t') :=
        fun t' ht' => areas_apart (Or.inl rfl) (Or.inl rfl) (fun h => hne t' ht' h.2)
      refine ⟨fun t' ht' => ?_, fun x hx => ?_⟩
      · rcases List.mem_cons.mp ht' with rfl | ht'
        · rw [List.foldl_cons, ← himp.inside mem]
          exact loadState_eq (fun x hx => hout x (fun t' ht' hx' => hapart t' ht' x hx hx'))
        · rw [List.foldl_cons, hload t' ht', himp.apart (hapart t' ht')]
      · rw [List.foldl_cons, hout x (fun t' ht' => hx t' (List.mem_cons_of_mem t ht')),
          himp.outside mem x (hx t List.mem_cons_self)]

/-- The new areas, in the order in which they are initialized. -/
abbrev newAreas : List ExcType := [.INT, .SYS, .TLB, .PRG]

theorem mem_newAreas (t : ExcType) : t ∈ newAreas := by
  cases t <;> decide

theorem initializeNewAreas_outside
    (ramTop : Word) (handler : ExcType → Word) {x : Word} (hx : ∀ t, ¬ InState (area NEW t) x) :
    initializeNewAreas order ramTop mem handler x = mem x :=
  (initNewArea_foldl order ramTop mem handler (show newAreas.Nodup by decide)).2 x (fun t _ => hx t)

/--
`initialize_new_areas` for any content of the memory: each new area gets the state in which
its handler runs in kernel mode on the kernel's stack, without virtual memory and with all
interrupts masked, and keeps its other registers and status bits; no byte outside the four
new areas changes, so the old areas do not.
-/
theorem initialize_new_areas
    (order : ByteOrder) (ramTop : Word) (mem : Ram) (handler : ExcType → Word) :
    (∀ t, loadState order (initializeNewAreas order ramTop mem handler) (area NEW t) =
      handlerState ramTop (loadState order mem (area NEW t)) (handler t)) ∧
    (∀ x, (∀ t, ¬ InState (area NEW t) x) → initializeNewAreas order ramTop mem handler x = mem x) ∧
    (∀ t, loadState order (initializeNewAreas order ramTop mem handler) (area OLD t) =
      loadState order mem (area OLD t)) := by
  obtain ⟨hload, -⟩ := initNewArea_foldl order ramTop mem handler (show newAreas.Nodup by decide)
  have hout : ∀ x, (∀ t, ¬ InState (area NEW t) x) →
      initializeNewAreas order ramTop mem handler x = mem x :=
    fun x hx => initializeNewAreas_outside ramTop handler hx
  refine ⟨fun t => hload t (mem_newAreas t), hout,
    fun t => loadState_eq (fun x hx => hout x (fun t' hx' => ?_))⟩
  exact areas_apart (Or.inl rfl) (Or.inr rfl) (fun h => absurd h.1 (by decide)) x hx' hx

end Areas

end Mps
end Bikaya
