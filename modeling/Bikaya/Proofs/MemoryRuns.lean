import Bikaya.Proofs.MemoryHandlers
import Mathlib.Tactic.IntervalCases

/-!
# Bikaya: runs on the memory

The boot sets up the processor states in memory as it does in the machine, whatever lies in
the rest of the memory.  So from the launch on the machine on its memory resumes at every
entry the process that the machine resumes, from an address where its state lies, and stops
when the machine stops.

**Plan.**  At the launch the states of the PCBs are cleared as in `.bss`, and the rest of
the memory is arbitrary.  `Follows` is the relation along the boot, where there is no
machine yet; from the launch on it is that of `MemoryStates.lean`.

**Results.**
* `bikayaLaunch_agrees`: the launch.
* `states_in_memory`: every run of the machine is one of the machine on its memory, and the
  next entry has the same outcome.

The states of the example lie in a table of PCBs behind the areas.
-/

namespace Bikaya

open ByteMemory Lockstep TransitionSystem

namespace Mps

variable {L : Linkage} {order : ByteOrder} {mem : Ram} {s : Word}

/-- A store that is made on a condition. -/
theorem Implements.ite
    {f : Ram → Ram} {g : MpsState → MpsState} (c : Prop) [Decidable c]
    (h : Implements order f s g) :
    Implements order (fun mem => if c then f mem else mem) s
      (fun st => if c then g st else st) where
  inside := fun mem => by
    split_ifs
    · exact h.inside mem
    · rfl
  outside := fun mem x hx => by
    split_ifs
    · exact h.outside mem x hx
    · rfl

/-- Bits that are set in the status register. -/
theorem implements_orStatus (bits : Word) :
    Implements order
      (fun mem => storeReg order mem s .status (loadState order mem s .status ||| bits)) s
      (fun st => setStatus st (st .status ||| bits)) where
  inside := fun mem => loadState_storeReg mem s .status _
  outside := fun _ _ hx => storeReg_outside hx .status _

theorem implements_populateMode (data : ProcInitData) :
    Implements order (fun mem => populateModeAt order mem s data) s
      (fun st => populateMode st data) :=
  (((implements_setVirtualMem 0).comp ((implements_orStatus STATUS_KUp).ite (data.kmOn = 0))).comp
    ((implements_orStatus STATUS_VMp).ite (data.vmOn ≠ 0))).comp
    ((implements_orStatus STATUS_IEp).ite (data.timerIntOn ≠ 0 ∨ data.otherIntsOn ≠ 0))

/-- The processor state that `populate_pcb` makes out of the one in the PCB. -/
def populated (L : Linkage) (p : Proc) (data : ProcInitData) (st : MpsState) : MpsState :=
  let st := setPc st data.method
  let st := setSp st (L.arch.ramTop - L.arch.frameSize * BitVec.ofNat 32 (p.index + 1))
  let st := setIntervalTimerInterrupts st data.timerIntOn
  let st := setOtherInterrupts st data.otherIntsOn
  populateMode st data

theorem implements_populateState (p : Proc) (data : ProcInitData) :
    Implements order (fun mem => populateStateAt order L mem p data) (L.pcbState p)
      (populated L p data) :=
  ((((implements_setPc data.method).comp (implements_setSp _)).comp
    (implements_setIntervalTimerInterrupts data.timerIntOn)).comp
    (implements_setOtherInterrupts data.otherIntsOn)).comp (implements_populateMode data)

/-- A memory full of zeros contains cleared states. -/
theorem loadState_zero (s : Word) :
    loadState littleEndian (fun _ => 0) s = fun _ => 0 := by
  funext r
  show (0 : BitVec 8) ++ (0 : BitVec 8) ++ (0 : BitVec 8) ++ (0 : BitVec 8) = (0 : BitVec 32)
  rfl

end Mps

namespace MemoryMachine

open Mps

variable {L : Linkage} {order : ByteOrder} {i : IntModel}
variable {X : MemoryMachine L order} {M : Machine L.arch} {user : Ram}

section Boot

theorem Shows.populatePcb (h : X.Shows M user) (p : Proc) (data : ProcInitData) :
    (X.populatePcb p data).Shows { M with kernel := M.kernel.populatePcb p data } user :=
  (h.set_pcb (implements_populateState p data)).onKernel (f := fun k =>
    { k with
      priority := Function.update k.priority p data.priority
      originalPriority := Function.update k.originalPriority p data.priority }) rfl

/-- A kernel that is set up in memory. -/
def Follows (M : Machine L.arch) (user : Ram) (X : MemoryMachine L order) (k : Kernel L.arch) :
    Prop :=
  X.Shows { M with kernel := k } user

theorem addStartingProc_agrees
    {k : Kernel L.arch} (h : Follows M user X k) (data : ProcInitData) :
    Agree (Follows M user) (X.addStartingProc data) (k.addStartingProc data) := by
  obtain ⟨hproc, halloc⟩ := Shows.allocPcb h
  unfold MemoryMachine.addStartingProc Kernel.addStartingProc
  cases hX : X.allocPcb with
  | mk r X₁ =>
      cases hM : k.allocPcb with
      | mk r' k₁ =>
          simp only [hX, hM] at hproc halloc
          obtain rfl : r = r' := hproc
          cases r with
          | none =>
              exact Agree.error _
          | some p =>
              exact Agree.ok ((halloc.populatePcb p data).onKernel (f := fun k =>
                { k with readyQueue := insertProcQ k.priority k.readyQueue p }) rfl)

theorem initScheduler_agrees
    {k : Kernel L.arch} (h : Follows M user X k) (startingProcs : List ProcInitData) :
    Agree (Follows M user) (X.initScheduler startingProcs) (k.initScheduler startingProcs) := by
  have hinit := (h.onKernel (Kernel.initPcbs_pS k)).onKernel
    (f := fun k => { k with asl := k.asl.init, readyQueue := [] }) rfl
  refine (Agree.foldlM (fun _ _ data hX => addStartingProc_agrees hX data) startingProcs
    hinit).bind (fun X₁ k₁ h₁ => Agree.ok ?_)
  exact ((h₁.set_pcb implements_resetState).populatePcb .idle (Kernel.idleProcData L.arch)).onKernel
    (f := fun k => { k with wForCmdSem := fun _ => 1, wForRes := fun _ => none }) rfl

theorem launch_pS {k k' : Kernel L.arch} {tod : Word × Word} (h : k.launch tod = .ok k') :
    k'.pS = k.pS := by
  unfold Kernel.launch at h
  split at h
  · exact absurd h (by simp)
  · rw [← Except.ok.inj h]
    rfl

/-- The launch, when the storage of the PCBs is cleared at first. -/
theorem bikayaLaunch_agrees
    {mem : Ram} (sem : SemAddr → Int) (startingProcs : List ProcInitData)
    (clockTicks : Word) (tod : Word × Word) (handler : ExcType → Word)
    (hclear : ∀ p, loadState order mem (L.pcbState p) = fun _ => 0) :
    Agree (Concludes (initializeNewAreas order L.ramTop mem handler))
      (bikayaLaunch L order sem startingProcs clockTicks tod handler mem)
      (Machine.bikayaLaunch sem startingProcs clockTicks tod
        (fun t => loadState order mem (area OLD t))) := by
  have hpcb : ∀ p x, InState (L.pcbState p) x →
      initializeNewAreas order L.ramTop mem handler x = mem x :=
    fun p x hx => initializeNewAreas_outside L.ramTop handler
      (fun t hx' => area_pcbState_apart (Or.inl rfl) t p x hx' hx)
  have hold : ∀ t x, InState (area OLD t) x →
      initializeNewAreas order L.ramTop mem handler x = mem x :=
    fun t x hx => initializeNewAreas_outside L.ramTop handler
      (fun t' hx' => areas_apart (Or.inl rfl) (Or.inr rfl)
        (fun h => absurd h.1 (by decide)) x hx' hx)
  have hstart : Follows (L := L)
      (unlaunched sem clockTicks (fun t => loadState order mem (area OLD t)))
      (initializeNewAreas order L.ramTop mem handler)
      (reading order (unlaunched sem clockTicks (fun t => loadState order mem (area OLD t)))
        (initializeNewAreas order L.ramTop mem handler)) (Kernel.bss sem) := by
    refine ⟨reading_machine (fun p => ?_) (fun t => loadState_eq (hold t)), fun _ _ => rfl⟩
    rw [loadState_eq (hpcb p), hclear p]
    rfl
  refine (initScheduler_agrees hstart startingProcs).bind (fun X k h => ?_)
  have hkernel : X.machine.kernel = k := by rw [h.machine]
  unfold launch
  rw [hkernel]
  refine (Agree.self (fun _ hlaunch => launch_pS hlaunch)).bind ?_
  rintro k' _ ⟨rfl, hpS⟩
  have hdone := h.onKernel (f := fun _ => k') hpS
  exact Agree.ok (hdone.concludes (hdone.pS _))

end Boot

section Runs

/-- The step relation of the machine on its memory. -/
def Step (i : IntModel) (X : MemoryMachine L order) (e : MemoryEntry L order)
    (X' : MemoryMachine L order) : Prop :=
  ∃ reply s, X.enter i e = .ok (X', reply, s)

/--
The processor states may live in memory.  From the launch on, for every content of user
memory at every entry, the machine on its memory makes the transition that the machine
makes: it gives the same reply, and the address it gives to `LDST` is one where the state
lies that the machine resumes.  User memory changes where the reply is written and where a
state is passed up to, and nowhere else.  At the next entry it does again, or stops for
the same reason.
-/
theorem states_in_memory
    {M : ℕ → Machine L.arch} {e : ℕ → MemoryEntry L order} {n : ℕ} {r₀ : Resumed L.arch}
    {sem : SemAddr → Int} {startingProcs : List ProcInitData} {clockTicks : Word}
    {tod : Word × Word}
    (handler : ExcType → Word) {mem : Ram}
    (hclear : ∀ p, loadState order mem (L.pcbState p) = fun _ => 0)
    (hlaunch : Machine.bikayaLaunch sem startingProcs clockTicks tod
      (fun t => loadState order mem (area OLD t)) = .ok (M 0, r₀))
    (hrun : IsRun (Machine.Step i) M (fun j => (e j).toEntry) n)
    (hproper : ∀ j < n, Proper (M j) (e j).toException) :
    ∃ X : ℕ → MemoryMachine L order,
      (∃ s, bikayaLaunch L order sem startingProcs clockTicks tod handler mem = .ok (X 0, s) ∧
        Concludes (initializeNewAreas order L.ramTop mem handler) (X 0, s) (M 0, r₀)) ∧
      (∀ j < n, ∃ reply r s, (M j).enter i (e j).toEntry = .ok (M (j + 1), reply, r) ∧
        (X j).enter i (e j) = .ok (X (j + 1), reply, s) ∧
        Concludes
          (storeReply order L (e j).user ((e j).adjusted L.arch.arg1) ((e j).adjusted L.arch.arg2)
            ((e j).adjusted L.arch.arg3) reply)
          (X (j + 1), s) (M (j + 1), r)) ∧
      ∀ e' : MemoryEntry L order, Proper (M n) e'.toException →
        Agree
          (Outcome e'.user (e'.adjusted L.arch.arg1) (e'.adjusted L.arch.arg2)
            (e'.adjusted L.arch.arg3))
          ((X n).enter i e') ((M n).enter i e'.toEntry) := by
  have hfollow : ∀ (X : MemoryMachine L order) (M : Machine L.arch) (e : MemoryEntry L order)
      (M' : Machine L.arch), X.machine = M → True → Proper M e.toException →
      Machine.Step i M e.toEntry M' → ∃ X', Step i X e X' ∧ X'.machine = M' := by
    rintro X M e M' hX - hproper ⟨-, reply, r, henter⟩
    have hagree := enter_agrees (i := i) hX hproper
    rw [henter] at hagree
    obtain ⟨⟨X', out⟩, heq, hout⟩ := hagree.of_ok
    exact ⟨X', ⟨out.1, out.2, heq⟩, hout.concludes.machine⟩
  have hfirst := bikayaLaunch_agrees sem startingProcs clockTicks tod handler
    hclear
  rw [hlaunch] at hfirst
  obtain ⟨⟨X₀, s₀⟩, hlaunch', hX₀⟩ := hfirst.of_ok
  have hrun₀ : IsRun (fun M (e : MemoryEntry L order) M' => Machine.Step i M e.toEntry M') M e n :=
    hrun
  obtain ⟨X, rfl, hrun', hX⟩ := follows_run hrun₀ hproper trivial (fun _ _ _ _ _ _ => trivial)
    hfollow hX₀.machine
  refine ⟨X, ⟨s₀, hlaunch', hX₀⟩, fun j hj => ?_, fun e' hproper' =>
    enter_agrees (hX n le_rfl) hproper'⟩
  obtain ⟨-, reply, r, henter⟩ := hrun j hj
  have hagree := enter_agrees (i := i) (hX j hj.le) (hproper j hj)
  obtain ⟨reply', s, henter'⟩ := hrun' j hj
  rw [henter, henter'] at hagree
  have hout := Agree.ok_iff.mp hagree
  obtain rfl : reply' = reply := hout.reply
  exact ⟨reply', r, s, henter, henter', hout.concludes⟩

/-- A system call, when user code has cleared its memory. -/
def zeroCall (number arg1 arg2 arg3 : Word) : MemoryEntry tableLinkage littleEndian where
  toEntry := Machine.syscallMps number arg1 arg2 arg3 0
  user := fun _ => 0
  stateAt_eq := by
    funext a
    exact (loadState_zero a).symm

/-- A process creates another one and asks for its pid. -/
def creationEntries : List (MemoryEntry tableLinkage littleEndian) :=
  [zeroCall 2 0x20030000 5 0x20030200, zeroCall 8 0x20030204 0x20030208 0]

/-- The run of the entries; after the last one nothing happens. -/
abbrev creationRun (j : ℕ) : Machine umps :=
  states (Machine.next .int32) (Machine.launchMps [2, 1] 1000)
    (creationEntries.map (fun e => e.toEntry)) j

abbrev creationEntry (j : ℕ) : MemoryEntry tableLinkage littleEndian :=
  creationEntries.getD j (zeroCall 0 0 0 0)

theorem creationEntries_isRun :
    IsRun (Machine.Step .int32) creationRun (fun j => (creationEntry j).toEntry) 2 := by
  have hrun : IsRun (Machine.Step .int32) creationRun
      (fun j => (creationEntries.map (fun e => e.toEntry)).getD j (zeroCall 0 0 0 0).toEntry) 2 :=
    Machine.isRun_of_accepts _ (by decide +kernel)
  intro j hj
  interval_cases j
  · exact hrun 0 (by decide)
  · exact hrun 1 (by decide)

/-- User memory behind the table of the PCBs. -/
theorem outsideKernel_tableLinkage
    {a : Word} {n : ℕ} (ha : 0x20020000 ≤ a.toNat) (hend : a.toNat + n ≤ 2 ^ 32) :
    tableLinkage.OutsideKernel a n := by
  refine outsideKernel_of_toNat (Or.inr ⟨fun p => ?_, hend⟩)
  have hindex := index_le p
  have haddr : (tableLinkage.pcbAddr p).toNat = 0x20010000 + 224 * p.index := tableAddr_toNat p
  rw [haddr, PCB_T_SIZE]
  omega

theorem creationEntries_proper (j : ℕ) (hj : j < 2) :
    Proper (creationRun j) (creationEntry j).toException := by
  interval_cases j
  · refine ⟨fun _ _ => ⟨by decide, outsideKernel_tableLinkage (by decide) (by decide)⟩,
      fun _ a ha => ?_, fun hpass => ?_⟩
    · obtain rfl := List.mem_singleton.mp ha
      exact outsideKernel_tableLinkage (by decide) (by decide)
    · exact absurd hpass.1 (by decide +kernel)
  · refine ⟨fun h2 _ => absurd h2 (by decide), fun _ a ha => ?_, fun hpass => ?_⟩
    · rcases List.mem_pair.mp ha with rfl | rfl
      · exact outsideKernel_tableLinkage (by decide) (by decide)
      · exact outsideKernel_tableLinkage (by decide) (by decide)
    · exact absurd hpass.1 (by decide +kernel)

/-- The machine on its memory creates the process too, out of a memory full of zeros. -/
theorem states_in_memory_creationEntries :
    ∃ X : ℕ → MemoryMachine tableLinkage littleEndian,
      (∃ s, bikayaLaunch tableLinkage littleEndian (fun _ => 0) ([2, 1].map Kernel.plainProc)
        1000 (0, 0) (fun _ => 0x20001000) (fun _ => 0) = .ok (X 0, s)) ∧
      ∀ j < 2, ∃ reply r s,
        (creationRun j).enter .int32 (creationEntry j).toEntry =
          .ok (creationRun (j + 1), reply, r) ∧
        (X j).enter .int32 (creationEntry j) = .ok (X (j + 1), reply, s) ∧
        Loads littleEndian (X (j + 1)).mem s r := by
  have hlaunch : Machine.bikayaLaunch (fun _ => 0) ([2, 1].map Kernel.plainProc) 1000 (0, 0)
      (fun _ => State.reset) = .ok (Machine.launchMps [2, 1] 1000, _) :=
    Machine.bikayaLaunch_launchMps 1000 (by decide) (by decide)
  have hareas : (fun _ => State.reset : ExcType → State umps) =
      fun t => loadState littleEndian (fun _ => 0) (area OLD t) :=
    funext (fun t => (loadState_zero (area OLD t)).symm)
  rw [hareas] at hlaunch
  obtain ⟨X, ⟨s, hX₀, -⟩, hX, -⟩ := states_in_memory (fun _ => 0x20001000)
    (fun p => loadState_zero (tableLinkage.pcbState p)) hlaunch creationEntries_isRun
    creationEntries_proper
  refine ⟨X, ⟨s, hX₀⟩, fun j hj => ?_⟩
  obtain ⟨reply, r, s, henter, henter', hdone⟩ := hX j hj
  exact ⟨reply, r, s, henter, henter', hdone.loads⟩

end Runs

end MemoryMachine
end Bikaya
