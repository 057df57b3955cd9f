import Bikaya.Core.MemoryHandler
import Bikaya.Proofs.StateFrames
import Bikaya.Proofs.StateMemory

/-!
# Bikaya: the states of the kernel in memory

The states of the PCBs and the old areas do not overlap.  So a store to one of them
replaces one processor state of the machine, a store outside all of them replaces none, and
code that writes to no processor state does to the machine in memory what it does to the
machine.

**Plan.**  The addresses of the PCBs are those of a linkage, which keeps them apart and
behind the areas; no store to one of the states then reaches another one.  `Assigns` says
that a piece of code makes the state at an address a given one and changes no other byte;
the copies and the setters do.  `Shows` relates a memory to the machine whose states it
has, and to the memory of user code.

**Results.**
* `memcpy_assigns`, `implements_storeState`: the ways to write a state.
* `Shows.store_pcb`, `Shows.store_old`: what they do to the machine.
* `Shows.store_user`, `Shows.store_word`: the writes outside the states.
-/

namespace Bikaya

open ByteMemory

namespace Mps

variable {L : Linkage} {order : ByteOrder} {mem mem' : Ram} {s s' x : Word}

section Places

theorem pcbState_toNat (p : Proc) : (L.pcbState p).toNat = (L.pcbAddr p).toNat + 28 := by
  have hfits := L.pcbAddr_fits p
  have hoff : (28 : Word).toNat = 28 := rfl
  rw [Linkage.pcbState, BitVec.toNat_add, hoff, Nat.mod_eq_of_lt]
  rw [PCB_T_SIZE] at hfits
  omega

/-- The state of a PCB ends before the PCB does. -/
theorem pcbState_fits (p : Proc) : (L.pcbState p).toNat + 140 ≤ 2 ^ 32 := by
  have hfits := L.pcbAddr_fits p
  rw [PCB_T_SIZE] at hfits
  rw [pcbState_toNat]
  omega

theorem pcbState_ne_zero (p : Proc) : L.pcbState p ≠ 0 := by
  intro h
  have hzero := congrArg BitVec.toNat h
  rw [pcbState_toNat] at hzero
  exact absurd hzero (Nat.succ_ne_zero _)

theorem area_ne_zero (t : ExcType) : area OLD t ≠ 0 := by
  cases t <;> decide

/-- The states of two PCBs. -/
theorem pcbStates_apart {p q : Proc} (hne : p ≠ q) :
    StatesApart (L.pcbState p) (L.pcbState q) := by
  have hapart := L.pcbAddr_apart p q hne
  rw [PCB_T_SIZE] at hapart
  rcases hapart with hle | hle
  · exact apart_of_le (by rw [pcbState_toNat, pcbState_toNat]; omega) (pcbState_fits q)
  · exact (apart_of_le (by rw [pcbState_toNat, pcbState_toNat]; omega) (pcbState_fits p)).symm

/-- The PCBs lie behind the areas. -/
theorem area_pcbState_apart {age : Word} (hage : age = NEW ∨ age = OLD) (t : ExcType) (p : Proc) :
    StatesApart (area age t) (L.pcbState p) := by
  have hbehind := L.pcbAddr_behind p
  refine apart_of_le ?_ (pcbState_fits p)
  rw [area_toNat age t hage, pcbState_toNat]
  rcases hage with rfl | rfl <;> cases t <;> simp [ExcType.toNat] <;> omega

theorem oldArea_apart (t : ExcType) (p : Proc) : StatesApart (area OLD t) (L.pcbState p) :=
  area_pcbState_apart (Or.inr rfl) t p

theorem mem_kernelStates :
    s ∈ L.kernelStates ↔ (∃ p, s = L.pcbState p) ∨ ∃ t, s = area OLD t := by
  simp only [Linkage.kernelStates, List.mem_append, List.mem_map]
  constructor
  · rintro (⟨p, -, rfl⟩ | ⟨t, -, rfl⟩)
    · exact Or.inl ⟨p, rfl⟩
    · exact Or.inr ⟨t, rfl⟩
  · rintro (⟨p, rfl⟩ | ⟨t, rfl⟩)
    · exact Or.inl ⟨p, Proc.mem_all p, rfl⟩
    · exact Or.inr ⟨t, by cases t <;> decide, rfl⟩

theorem inKernel_pcbState {p : Proc} (hx : InState (L.pcbState p) x) : L.InKernel x :=
  ⟨_, mem_kernelStates.mpr (Or.inl ⟨p, rfl⟩), hx⟩

theorem inKernel_area {t : ExcType} (hx : InState (area OLD t) x) : L.InKernel x :=
  ⟨_, mem_kernelStates.mpr (Or.inr ⟨t, rfl⟩), hx⟩

/-- The range has no byte of a state of the kernel. -/
def Linkage.OutsideKernel (L : Linkage) (a : Word) (n : ℕ) : Prop :=
  ∀ x, ByteMemory.InRange a n x → ¬ L.InKernel x

/-- A range in front of the areas, or behind the PCBs. -/
theorem outsideKernel_of_toNat
    {a : Word} {n : ℕ}
    (h : a.toNat + n ≤ 0x20000000 ∨
      (∀ p, (L.pcbAddr p).toNat + PCB_T_SIZE ≤ a.toNat) ∧ a.toNat + n ≤ 2 ^ 32) :
    L.OutsideKernel a n := by
  rintro x hx ⟨s, hs, hxs⟩
  have hplace : 0x20000000 ≤ s.toNat ∧
      (s.toNat + 140 ≤ 0x20000460 ∨ ∃ p, s.toNat + 140 ≤ (L.pcbAddr p).toNat + PCB_T_SIZE) := by
    rcases mem_kernelStates.mp hs with ⟨p, rfl⟩ | ⟨t, rfl⟩
    · have hbehind := L.pcbAddr_behind p
      rw [pcbState_toNat, PCB_T_SIZE]
      exact ⟨by omega, Or.inr ⟨p, by omega⟩⟩
    · rw [area_toNat OLD t (Or.inr rfl)]
      cases t <;> simp [ExcType.toNat]
  rcases h with h | ⟨hpcbs, hend⟩
  · refine apart_of_le (h.trans hplace.1) ?_ x hx hxs
    rcases hplace.2 with hle | ⟨p, hle⟩
    · omega
    · exact hle.trans (L.pcbAddr_fits p)
  · refine apart_of_le ?_ hend x hxs hx
    have hfirst := L.pcbAddr_behind .idle
    have hidle := hpcbs .idle
    rcases hplace.2 with hle | ⟨p, hle⟩
    · omega
    · exact hle.trans (hpcbs p)

end Places

section Stores

/-- The second memory is the first one with the state at `s` replaced by `st`. -/
structure Assigns (order : ByteOrder) (mem mem' : Ram) (s : Word) (st : MpsState) : Prop where
  inside : loadState order mem' s = st
  outside : ∀ x, ¬ InState s x → mem' x = mem x

theorem Implements.assigns
    {f : Ram → Ram} {g : MpsState → MpsState} (h : Implements order f s g) (mem : Ram) :
    Assigns order mem (f mem) s (g (loadState order mem s)) :=
  ⟨h.inside mem, h.outside mem⟩

theorem Assigns.apart {st : MpsState} (h : Assigns order mem mem' s st) (hs : StatesApart s s') :
    loadState order mem' s' = loadState order mem s' :=
  loadState_eq (fun x hx => h.outside x (hs.symm x hx))

/-- Registers that are assigned one after the other. -/
theorem implements_storeRegs (l : List Reg) (v : Reg → Word) :
    Implements order (fun mem => l.foldl (fun mem r => storeReg order mem s r (v r)) mem) s
      (fun st r => if r ∈ l then v r else st r) := by
  induction l with
  | nil =>
      exact ⟨fun mem => rfl, fun mem x _ => rfl⟩
  | cons r l ih =>
      have h := (implements_storeReg r (v r)).comp ih
      refine ⟨fun mem => (h.inside mem).trans ?_, h.outside⟩
      funext r'
      by_cases hr : r' = r
      · subst hr
        simp
      · simp [hr]

theorem mem_allRegs (r : Reg) : r ∈ allRegs := by
  cases r <;> simp [allRegs]

/-- The hardware's store. -/
theorem implements_storeState (st : MpsState) :
    Implements order (fun mem => storeState order mem s st) s (fun _ => st) := by
  have h : Implements order _ s _ := implements_storeRegs allRegs st
  refine ⟨fun mem => (h.inside mem).trans ?_, h.outside⟩
  funext r
  rw [if_pos (mem_allRegs r)]

/-- `reset_state`. -/
theorem implements_resetState :
    Implements order (fun mem => resetStateAt order mem s) s (fun _ _ => 0) := by
  have hfold : ∀ l : List Reg, (∀ r, r ∈ l) →
      Implements order (fun mem => l.foldl (fun mem r => storeReg order mem s r 0) mem) s
        (fun _ _ => 0) := by
    intro l hl
    have h : Implements order _ s _ := implements_storeRegs l (fun _ => 0)
    refine ⟨fun mem => (h.inside mem).trans ?_, h.outside⟩
    funext r
    rw [if_pos (hl r)]
  have hall := hfold
    ([.pc_epc, .hi, .entry_hi, .cause, .status, .lo] ++ (List.finRange 29).map Reg.gpr)
    (fun r => by cases r <;> simp)
  simp only [List.foldl_append, List.foldl_cons, List.foldl_nil, List.foldl_map] at hall
  exact hall

/-- A state is copied. -/
theorem memcpy_assigns
    (order : ByteOrder) (mem : Ram) {dst src : Word} (hdst : dst ≠ 0) (hsrc : src ≠ 0)
    (hapart : StatesApart dst src) :
    ∃ mem', memcpy mem dst src STATE_T_SIZE = .ok (dst, mem') ∧
      Assigns order mem mem' dst (loadState order mem src) :=
  ⟨_, memcpy_eq STATE_T_SIZE hdst hsrc,
    loadRecord_copyForward order stateLayout (by decide) hapart.plain,
    fun _ hx => copyForward_outside (by decide) hx⟩

theorem storeWord_outside {a w : Word} (hx : ¬ ByteMemory.InRange a 4 x) :
    storeWord order mem a w x = mem x :=
  order.store_outside w hx

/-- A word outside the states of the kernel. -/
theorem storeWord_kernel {a w : Word} (ha : L.OutsideKernel a 4) (hx : L.InKernel x) :
    storeWord order mem a w x = mem x :=
  storeWord_outside (fun h => ha x h hx)

/-- The word stored depends on the bytes around it only where they remain. -/
theorem storeWord_congr {a w : Word} (h : mem x = mem' x) :
    storeWord order mem a w x = storeWord order mem' a w x := by
  unfold storeWord Codec.store
  split_ifs
  · rfl
  · exact h

end Stores

end Mps

namespace MemoryMachine

open Mps

variable {L : Linkage} {order : ByteOrder} {X : MemoryMachine L order} {M : Machine L.arch}
variable {user user' mem : Ram}

/-- The machine, and the memory outside the states of the kernel. -/
structure Shows (X : MemoryMachine L order) (M : Machine L.arch) (user : Ram) : Prop where
  machine : X.machine = M
  user : ∀ x, ¬ L.InKernel x → X.mem x = user x

theorem pS_apply (X : MemoryMachine L order) (p : Proc) :
    X.machine.kernel.pS p = loadState order X.mem (L.pcbState p) :=
  congrFun X.pS_eq p

theorem oldArea_apply (X : MemoryMachine L order) (t : ExcType) :
    X.machine.oldArea t = loadState order X.mem (area OLD t) :=
  congrFun X.oldArea_eq t

theorem Shows.oldArea (h : X.Shows M user) (t : ExcType) :
    loadState order X.mem (area OLD t) = M.oldArea t := by
  rw [← X.oldArea_apply, h.machine]

theorem Shows.pS (h : X.Shows M user) (p : Proc) :
    loadState order X.mem (L.pcbState p) = M.kernel.pS p := by
  rw [← X.pS_apply, h.machine]

/-- A state that user code hands over. -/
theorem Shows.userState {s : Word} (h : X.Shows M user) (hs : L.OutsideKernel s 140) :
    loadState order X.mem s = loadState order user s :=
  loadState_eq (fun x hx => h.user x (hs x hx))

/-- What the memory shows, with its states taken from there. -/
theorem reading_machine
    (hpS : ∀ p, loadState order mem (L.pcbState p) = M.kernel.pS p)
    (hold : ∀ t, loadState order mem (area OLD t) = M.oldArea t) :
    (reading order M mem).machine = M := by
  have h1 : (fun p => loadState order mem (L.pcbState p)) = M.kernel.pS := funext hpS
  have h2 : (fun t => loadState order mem (area OLD t)) = M.oldArea := funext hold
  simp only [reading, h1, h2]

section Rules

/-- The kernel's data are replaced, and the processor states are read again. -/
theorem Shows.onKernel_reading (h : X.Shows M user) (f : Kernel L.arch → Kernel L.arch) :
    (X.onKernel f).Shows
      { M with kernel := { f M.kernel with pS := M.kernel.pS } } user := by
  refine ⟨?_, h.user⟩
  have hpS : (fun p => loadState order X.mem (L.pcbState p)) = M.kernel.pS := funext h.pS
  have hold : (fun t => loadState order X.mem (area OLD t)) = M.oldArea := funext h.oldArea
  simp only [MemoryMachine.onKernel, MemoryMachine.onMachine, reading, h.machine, hpS, hold]

/-- Code that writes to no processor state. -/
theorem Shows.onMachine
    {f : Machine L.arch → Machine L.arch} (h : X.Shows M user)
    (hpS : (f M).kernel.pS = M.kernel.pS) (hold : (f M).oldArea = M.oldArea) :
    (X.onMachine f).Shows (f M) user := by
  refine ⟨?_, h.user⟩
  rw [MemoryMachine.onMachine, h.machine]
  exact reading_machine (fun p => by rw [h.pS, hpS]) (fun t => by rw [h.oldArea, hold])

theorem Shows.onKernel
    {f : Kernel L.arch → Kernel L.arch} (h : X.Shows M user)
    (hpS : (f M.kernel).pS = M.kernel.pS) :
    (X.onKernel f).Shows { M with kernel := f M.kernel } user :=
  h.onMachine (f := fun M => { M with kernel := f M.kernel }) hpS rfl

/-- A store to the state of a PCB. -/
theorem Shows.store_pcb
    {p : Proc} {st : MpsState} (h : X.Shows M user)
    (hstore : Assigns order X.mem mem (L.pcbState p) st) :
    (X.withMem mem).Shows
      { M with kernel := { M.kernel with pS := Function.update M.kernel.pS p st } } user := by
  refine ⟨?_, fun x hx => ?_⟩
  · rw [MemoryMachine.withMem, h.machine]
    refine reading_machine (M := { M with
      kernel := { M.kernel with pS := Function.update M.kernel.pS p st } })
      (fun q => ?_) (fun t => ?_)
    · by_cases hq : q = p
      · subst hq
        rw [hstore.inside]
        exact (Function.update_self q st M.kernel.pS).symm
      · rw [hstore.apart (pcbStates_apart (Ne.symm hq)), h.pS]
        exact (Function.update_of_ne hq st M.kernel.pS).symm
    · rw [hstore.apart (oldArea_apart t p).symm, h.oldArea]
  · exact (hstore.outside x (fun hin => hx (inKernel_pcbState hin))).trans (h.user x hx)

/-- A store to an old area. -/
theorem Shows.store_old
    {t : ExcType} {st : MpsState} (h : X.Shows M user)
    (hstore : Assigns order X.mem mem (area OLD t) st) :
    (X.withMem mem).Shows (M.setArea t st) user := by
  refine ⟨?_, fun x hx => ?_⟩
  · rw [MemoryMachine.withMem, h.machine]
    refine reading_machine (M := M.setArea t st) (fun p => ?_) (fun t' => ?_)
    · rw [hstore.apart (oldArea_apart t p), h.pS]
      rfl
    · by_cases ht : t' = t
      · subst ht
        rw [hstore.inside]
        exact (Function.update_self t' st M.oldArea).symm
      · have hapart : StatesApart (area OLD t) (area OLD t') :=
          areas_apart (Or.inr rfl) (Or.inr rfl) (fun h => ht h.2.symm)
        rw [hstore.apart hapart, h.oldArea]
        exact (Function.update_of_ne ht st M.oldArea).symm
  · exact (hstore.outside x (fun hin => hx (inKernel_area hin))).trans (h.user x hx)

/-- A setter that works on the state of a PCB. -/
theorem Shows.set_pcb
    {p : Proc} {f : Ram → Ram} {g : MpsState → MpsState} (h : X.Shows M user)
    (hset : Implements order f (L.pcbState p) g) :
    (X.withMem (f X.mem)).Shows
      { M with
        kernel := { M.kernel with pS := Function.update M.kernel.pS p (g (M.kernel.pS p)) } }
      user := by
  rw [← h.pS]
  exact h.store_pcb (hset.assigns X.mem)

/-- A setter that works on an old area. -/
theorem Shows.set_old
    {t : ExcType} {f : Ram → Ram} {g : MpsState → MpsState} (h : X.Shows M user)
    (hset : Implements order f (area OLD t) g) :
    (X.withMem (f X.mem)).Shows (M.setArea t (g (M.oldArea t))) user := by
  rw [← h.oldArea]
  exact h.store_old (hset.assigns X.mem)

/-- A store outside the states of the kernel. -/
theorem Shows.store_user
    (h : X.Shows M user) (hkernel : ∀ x, L.InKernel x → mem x = X.mem x)
    (huser : ∀ x, ¬ L.InKernel x → mem x = user' x) :
    (X.withMem mem).Shows M user' := by
  refine ⟨?_, huser⟩
  rw [MemoryMachine.withMem, h.machine]
  refine reading_machine (fun p => ?_) (fun t => ?_)
  · rw [← h.pS]
    exact loadState_eq (fun x hx => hkernel x (inKernel_pcbState hx))
  · rw [← h.oldArea]
    exact loadState_eq (fun x hx => hkernel x (inKernel_area hx))

/-- A word that is written through a pointer. -/
theorem Shows.store_word {a : Word} (h : X.Shows M user) (ha : L.OutsideKernel a 4) (w : Word) :
    (X.withMem (storeWord order X.mem a w)).Shows M (storeWord order user a w) :=
  h.store_user (fun _ hx => storeWord_kernel ha hx)
    (fun x hx => storeWord_congr (h.user x hx))

end Rules

end MemoryMachine
end Bikaya
