import Mathlib.Tactic.IntervalCases
import Bikaya.Proofs.DeviceQueues

/-!
# Bikaya: outstanding device commands

A device has at most one command that it has not completed.  The invariant holds for any
terminations: when a process that is registered with a device dies, the record of the
device is cleared, but its semaphore stays taken.

**Plan.**  A write to a command register counts for the device it belongs to, and a
completion for its own.  `Exclusive` ties the difference of the two counts to the integer
of the device: at most one while the device is taken, none while it is free.  The integer
is what a new command looks at, so that it is sent to a free device only.

**Results.**
* `Exclusive.step`: the invariant over one step, terminations included.
* `one_outstanding_command`: in every run whose completions answer commands, a command is
  sent only when every former one has been completed.
-/

namespace Bikaya

open OrderedForest TransitionSystem

section Cells

variable {A : Arch}

/--
The device a command is written to, identified by the type that `send_command` gets and the
number of the register.  The type decides which bitmap line and which queue the command
belongs to, not where it is written: a WAITIO on a terminal whose `subdev` is neither 0
nor 1 may get the type of another line (with `subdev` -4, that of the disks), and the
word is then written to the receiver's command register of the terminal.
-/
def BusWrite.cell (A : Arch) (w : BusWrite) : Option Dev :=
  devCell (BitVec.ofNat 32 w.type.toNat) (A.getDevInstance w.devReg)

theorem devCell_eq_some
    {type num : Word} {d : Dev} (h : devCell type num = some d) :
    num.toNat = d.num ∧ ExtDevType.ofNat? type.toNat = some d.type := by
  unfold devCell at h
  split at h
  · exact absurd h (by simp)
  · rename_i t ht
    split_ifs at h with hnum
    obtain rfl := Option.some.inj h
    exact ⟨rfl, ht⟩

theorem devCell_of_num
    {num : Word} {d : Dev} (h : num.toNat = d.num) :
    devCell (BitVec.ofNat 32 d.type.toNat) num = some d := by
  have htype : ExtDevType.ofNat? (BitVec.ofNat 32 d.type.toNat).toNat = some d.type := by
    cases d.type <;> rfl
  simp only [devCell, htype, h, d.num.isLt, dif_pos, Fin.eta]

/-- A command of WAITIO goes to the cell computed from its arguments. -/
theorem cell_of_waitCell
    {devReg subdev command : Word} {owner : Option Proc} {d : Dev}
    (h : Kernel.waitCell A devReg subdev = some d) :
    (⟨d.type, devReg, command, owner⟩ : BusWrite).cell A = some d :=
  devCell_of_num (devCell_eq_some h).1

/-- The commands among the writes that are no acknowledgements, for one device. -/
def commandsIn (A : Arch) (ws : List BusWrite) (d : Dev) : ℕ :=
  ws.countP (fun w => w.cell A = some d ∧ w.command ≠ DEVICE_CMD_ACK)

theorem commandsIn_nil (d : Dev) : commandsIn A [] d = 0 :=
  rfl

/-- One write is one command at most, for the device it is written to. -/
theorem commandsIn_singleton
    {w : BusWrite} {d : Dev} (hcell : w.cell A = some d) :
    commandsIn A [w] d ≤ 1 ∧ ∀ d', d' ≠ d → commandsIn A [w] d' = 0 := by
  constructor
  · exact List.countP_le_length
  · intro d' hd
    have hne : w.cell A ≠ some d' := by
      rw [hcell]
      exact fun heq => hd (Option.some.inj heq).symm
    simp [commandsIn, hne]

theorem commandsIn_ack
    {w : BusWrite} (hack : w.command = DEVICE_CMD_ACK) (d : Dev) :
    commandsIn A [w] d = 0 := by
  simp [commandsIn, hack]

/-- The instance of the register of a device. -/
theorem getDevInstance_devReg (d : Dev) :
    (A.getDevInstance (A.devReg d)).toNat = d.num := by
  have hline : ∃ l : ℕ, l < 5 ∧ getExtDevLine d.type = l + 3 := by
    cases d.type <;> decide
  obtain ⟨l, hl, hline⟩ := hline
  have hstart := A.devRegStart_nonneg
  have hend := A.devRegEnd_lt
  have hnum := d.num.isLt
  have haddr : (A.devReg d).toInt = A.devRegStart + l * 128 + (d.num : ℕ) * 16 := by
    rw [Arch.devReg, Arch.devRegAddr, hline, BitVec.toInt_ofInt]
    rw [Int.bmod_eq_of_le] <;> push_cast <;> simp only [N_IL, N_EXT_IL, DEV_REG_SIZE] <;> omega
  rw [Arch.getDevInstance, haddr]
  have hoff : A.devRegStart + l * 128 + (d.num : ℕ) * 16 - A.devRegStart =
      ((l * 8 + d.num : ℕ) : ℤ) * 16 := by
    push_cast
    omega
  have hmod : (((l * 8 + d.num : ℕ) : ℤ)).tmod 8 = ((d.num : ℕ) : ℤ) := by
    rw [Int.tmod_eq_emod_of_nonneg (Int.natCast_nonneg _)]
    omega
  rw [hoff, Int.mul_tdiv_cancel _ (by decide), show ((N_DEV_PER_IL : ℕ) : ℤ) = 8 from rfl, hmod,
    BitVec.toNat_ofInt]
  omega

end Cells

namespace Operation

variable {A : Arch}

/-- The operation is a completion interrupt of the device. -/
def Completes : Operation A → Dev → Prop
  | .doneIo d' _, d => d = d'
  | _, _ => False

instance (op : Operation A) (d : Dev) : Decidable (op.Completes d) :=
  match op with
  | .doneIo d' _ => inferInstanceAs (Decidable (d = d'))
  | .createProcess _ _ | .terminateProcess _ | .passeren _ _ | .verhogen _ | .waitIo _ _ _ _
  | .timeSlice | .write _ _ => instDecidableFalse

end Operation

namespace Kernel

variable {A : Arch} {k k' : Kernel A} {m : IntModel}

/-- The process is running, ready or blocked on a semaphore of the user. -/
def Active (k : Kernel A) (x : Proc) : Prop :=
  x = k.runningProc ∨ x ∈ k.readyQueue ∨ ∃ a, x ∈ k.waitQueue (.user a)

section Activity

theorem active_preempt
    {x y : Proc} (h : (k.preempt x).Active y) :
    k.Active y ∨ y = x := by
  by_cases hidle : k.runningProc = .idle
  · rw [preempt_idle hidle] at h
    rcases h with h | h | h
    · exact Or.inr h
    · exact Or.inl (Or.inr (Or.inl h))
    · exact Or.inl (Or.inr (Or.inr h))
  · rw [preempt_of_ne hidle] at h
    rcases h with h | h | h
    · exact Or.inr h
    · rcases mem_insertProcQ.mp h with rfl | h
      · exact Or.inl (Or.inl rfl)
      · exact Or.inl (Or.inr (Or.inl h))
    · exact Or.inl (Or.inr (Or.inr h))

theorem active_scheduleProc
    {x y : Proc} (h : (k.scheduleProc x).Active y) :
    k.Active y ∨ y = x := by
  rcases scheduleProc_cases k x with ⟨-, heq⟩ | ⟨-, -, heq⟩
  · rw [heq] at h
    exact active_preempt h
  · rw [heq] at h
    rcases h with h | h | h
    · exact Or.inl (Or.inl h)
    · rcases mem_insertProcQ.mp h with rfl | h
      · exact Or.inr rfl
      · exact Or.inl (Or.inr (Or.inl h))
    · exact Or.inl (Or.inr (Or.inr h))

theorem active_runNextReady
    {y : Proc} (h : k.runNextReady.Active y) :
    y = .idle ∨ y ∈ k.readyQueue ∨ ∃ a, y ∈ k.waitQueue (.user a) := by
  rw [runNextReady_eq] at h
  rcases h with h | h | h
  · cases hq : k.readyQueue with
    | nil =>
        rw [hq] at h
        exact Or.inl h
    | cons z q =>
        rw [hq] at h
        exact Or.inr (Or.inl (h ▸ List.mem_cons_self))
  · exact Or.inr (Or.inl (List.mem_of_mem_tail h))
  · exact Or.inr (Or.inr h)

/-- A process that is active is queued for no device. -/
theorem Ok.active_not_queued
    (h : k.Ok) {x : Proc} (hx : k.Active x) (d : Dev) :
    x ∉ k.waitQueue (.dev d) := by
  intro hmem
  have hkey := (h.residence.semkey x (.dev d)).mpr hmem
  rcases hx with rfl | hready | ⟨a, ha⟩
  · rw [h.residence.semkey_of_absent h.running] at hkey
    exact Option.some_ne_none _ hkey.symm
  · rw [h.residence.semkey_of_ready hready] at hkey
    exact Option.some_ne_none _ hkey.symm
  · rw [(h.residence.semkey x (.user a)).mpr ha] at hkey
    exact absurd (Option.some.inj hkey) (by simp)

/-- Once the running process is blocked on a device, it is not active any more. -/
theorem Ok.active_block
    (h : k.Ok) {k₁ : Kernel A} {x : Proc} (hx : k₁.runNextReady.Active x)
    (hready : k₁.readyQueue = k.readyQueue) {d : Dev} {q : List Proc}
    (hwait : k₁.asl.waitQueue = Function.update k.waitQueue (.dev d) q) :
    x = .idle ∨ (k.Active x ∧ x ≠ k.runningProc) := by
  rcases active_runNextReady hx with rfl | hx | ⟨a, ha⟩
  · exact Or.inl rfl
  · rw [hready] at hx
    refine Or.inr ⟨Or.inr (Or.inl hx), fun hrun => ?_⟩
    exact h.running_not_ready (hrun ▸ hx)
  · have ha : x ∈ k₁.asl.waitQueue (.user a) := ha
    rw [hwait, Function.update_of_ne (by simp)] at ha
    refine Or.inr ⟨Or.inr (Or.inr ⟨a, ha⟩), fun hrun => ?_⟩
    exact h.running_not_queued _ (hrun ▸ ha)

/-- The active processes after a termination were active. -/
theorem active_afterTermination
    {t x : Proc} {l : List Proc} {asl : Asl} {pParent : Proc → Option Proc}
    (hwait : ∀ key, asl.waitQueue key = survivors l (k.waitQueue key))
    (hx : (k.afterTermination t l asl pParent).Active x) :
    x = .idle ∨ k.Active x := by
  rcases hx with hrun | hready | ⟨a, ha⟩
  · have hrun : x = k.runningAfter l := hrun
    unfold runningAfter at hrun
    split_ifs at hrun with hdead
    · cases hq : survivors l k.readyQueue with
      | nil =>
          rw [hq] at hrun
          exact Or.inl hrun
      | cons z q =>
          rw [hq] at hrun
          have hz : z ∈ survivors l k.readyQueue := hq ▸ List.mem_cons_self
          obtain rfl : x = z := hrun
          exact Or.inr (Or.inr (Or.inl (List.mem_of_mem_filter hz)))
    · exact Or.inr (Or.inl hrun)
  · have hready : x ∈ k.readyAfter l := hready
    unfold readyAfter at hready
    refine Or.inr (Or.inr (Or.inl ?_))
    split_ifs at hready
    · exact List.mem_of_mem_filter (List.mem_of_mem_tail hready)
    · exact List.mem_of_mem_filter hready
  · have ha : x ∈ asl.waitQueue (.user a) := ha
    rw [hwait] at ha
    exact Or.inr (Or.inr (Or.inr ⟨a, List.mem_of_mem_filter ha⟩))

end Activity

/-- Where the active processes come from, without devices and terminations. -/
theorem Step.active_back
    {op : Operation A} (h : k.Ok) (hfree : op.DeviceFree)
    (hterm : ∀ p, op ≠ .terminateProcess p) (hstep : Step m k op k')
    {y : Proc} (hy : k'.Active y) :
    y = .idle ∨ k.Active y ∨
      ∃ s priority, op = .createProcess s priority ∧ k.pcbFreeH.head? = some y := by
  obtain ⟨hadm, hexec⟩ := hstep
  cases op with
  | createProcess s priority =>
      cases hnil : k.pcbFreeH with
      | nil =>
          simp only [exec, createProcess_nil hnil] at hexec
          obtain rfl : k = k' := Except.ok.inj hexec
          exact Or.inr (Or.inl hy)
      | cons x free =>
          obtain ⟨-, -, -, hxrun⟩ := h.adopt hnil hadm s priority
          simp only [exec, createProcess_cons hnil hxrun] at hexec
          obtain rfl := Except.ok.inj hexec
          rcases active_scheduleProc hy with hy | rfl
          · exact Or.inr (Or.inl hy)
          · exact Or.inr (Or.inr ⟨s, priority, rfl, rfl⟩)
  | terminateProcess p =>
      exact absurd rfl (hterm p)
  | passeren a tod =>
      simp only [exec] at hexec
      rcases p_spec m a h hadm tod with ⟨-, heq⟩ | ⟨-, asl, heq, -, hwait⟩
      · obtain rfl := Except.ok.inj (heq.symm.trans hexec)
        exact Or.inr (Or.inl hy)
      · obtain rfl := Except.ok.inj (heq.symm.trans hexec)
        rcases active_runNextReady hy with rfl | hready | ⟨b, hb⟩
        · exact Or.inl rfl
        · exact Or.inr (Or.inl (Or.inr (Or.inl hready)))
        · refine Or.inr (Or.inl ?_)
          have hb : y ∈ asl.waitQueue (.user b) := hb
          rw [hwait] at hb
          by_cases hab : (SemKey.user b) = .user a
          · rw [hab, Function.update_self] at hb
            rcases mem_insertProcQ.mp hb with rfl | hb
            · exact Or.inl rfl
            · exact Or.inr (Or.inr ⟨a, hb⟩)
          · rw [Function.update_of_ne hab] at hb
            exact Or.inr (Or.inr ⟨b, hb⟩)
  | verhogen a =>
      obtain rfl := Except.ok.inj hexec
      rcases v_spec m a h.residence.aslOk with ⟨-, heq⟩ | ⟨x, q, asl, hq, heq, -, hwait⟩
      · rw [heq] at hy
        exact Or.inr (Or.inl hy)
      · rw [heq] at hy
        refine Or.inr (Or.inl ?_)
        have hx : x ∈ k.waitQueue (.user a) := hq ▸ List.mem_cons_self
        rcases active_scheduleProc hy with hrun | rfl
        · rcases hrun with hrun | hready | ⟨b, hb⟩
          · exact Or.inl hrun
          · exact Or.inr (Or.inl hready)
          · have hb : y ∈ asl.waitQueue (.user b) := hb
            rw [hwait] at hb
            by_cases hab : (SemKey.user b) = .user a
            · rw [hab, Function.update_self] at hb
              exact Or.inr (Or.inr ⟨a, hq ▸ List.mem_cons_of_mem _ hb⟩)
            · rw [Function.update_of_ne hab] at hb
              exact Or.inr (Or.inr ⟨b, hb⟩)
        · exact Or.inr (Or.inr ⟨a, hx⟩)
  | waitIo _ _ _ _ =>
      exact absurd hfree id
  | doneIo _ _ =>
      exact absurd hfree id
  | timeSlice =>
      obtain rfl := Except.ok.inj hexec
      rcases timeSlice_spec (k := k) m with ⟨heq, -⟩ | ⟨x, q, hq, -, heq⟩
      · rw [heq] at hy
        exact Or.inr (Or.inl hy)
      · rw [heq] at hy
        refine Or.inr (Or.inl ?_)
        rcases active_preempt hy with hy | rfl
        · rcases hy with hrun | hready | hwait
          · exact Or.inl hrun
          · exact Or.inr (Or.inl (hq ▸ List.mem_cons_of_mem _ hready))
          · exact Or.inr (Or.inr hwait)
        · exact Or.inr (Or.inl (hq ▸ List.mem_cons_self))
  | write a value =>
      obtain rfl := Except.ok.inj hexec
      exact Or.inr (Or.inl hy)

/-- A creation does not reuse a PCB that has kept a registration. -/
def TakesClean (k : Kernel A) : Operation A → Prop
  | .createProcess _ _ => ∀ x ∈ k.pcbFreeH.head?, k.devWList x = none
  | _ => True

instance (k : Kernel A) (op : Operation A) : Decidable (k.TakesClean op) :=
  match op with
  | .createProcess _ _ =>
      inferInstanceAs (Decidable (∀ x ∈ k.pcbFreeH.head?, k.devWList x = none))
  | .terminateProcess _ | .passeren _ _ | .verhogen _ | .waitIo _ _ _ _ | .doneIo _ _
  | .timeSlice | .write _ _ => instDecidableTrue

/--
The invariant of the devices, with the number of commands each of them has not completed:
the semaphore of a device is 0 or 1, and it is 1 only when the device has nothing to do.
-/
structure Exclusive (k : Kernel A) (outstanding : Dev → ℕ) : Prop where
  ok : k.Ok
  active : ∀ x, k.Active x → k.devWList x = none
  idle : k.devWList .idle = none
  sem : ∀ d,
    (k.wForCmdSem d = 0 ∧ outstanding d ≤ 1) ∨
    (k.wForCmdSem d = 1 ∧ k.wForRes d = none ∧ k.waitQueue (.dev d) = [] ∧ outstanding d = 0)

section Invariant

variable {outstanding : Dev → ℕ}

/-- Without devices and terminations. -/
theorem Exclusive.quiet
    (h : k.Exclusive outstanding) {op : Operation A} (hfree : op.DeviceFree)
    (hterm : ∀ p, op ≠ .terminateProcess p)
    (htakes : k.TakesClean op) (hstep : Step m k op k') :
    k'.Exclusive outstanding ∧ k'.bus = k.bus := by
  obtain ⟨hview, hsem⟩ := sameDevices_step h.ok hfree hterm hstep
  have hlist : k'.devWList = k.devWList := congrArg DeviceView.list hview
  have hsafe : k.Safe op := by
    cases op with
    | terminateProcess p =>
        exact absurd rfl (hterm p)
    | _ => exact trivial
  refine ⟨⟨h.ok.step hsafe hstep, fun x hx => ?_, ?_, fun d => ?_⟩,
    congrArg DeviceView.bus hview⟩
  · rw [hlist]
    rcases hstep.active_back h.ok hfree hterm hx with rfl | hx | ⟨s, priority, hop, hhead⟩
    · exact h.idle
    · exact h.active x hx
    · subst hop
      exact htakes x hhead
  · rw [hlist]
    exact h.idle
  · rw [hsem, show k'.wForRes = k.wForRes from congrArg DeviceView.res hview,
      show k'.waitQueue (.dev d) = k.waitQueue (.dev d) from
        congrFun (congrArg DeviceView.queue hview) d]
    exact h.sem d

/-- A termination clears records and shortens queues; it touches no device semaphore. -/
theorem Exclusive.terminate
    (h : k.Exclusive outstanding) {p : Option Proc}
    (hstep : Step m k (.terminateProcess p) k') :
    k'.Exclusive outstanding ∧ k'.bus = k.bus := by
  obtain ⟨⟨hidle, hp⟩, hexec⟩ := hstep
  have hlive := h.ok.target_live (fun _ => hidle) hp
  simp only [exec] at hexec
  cases hterm : k.terminateProc p with
  | error err =>
      rw [hterm] at hexec
      exact absurd hexec (by simp [Except.map])
  | ok r =>
      rw [hterm] at hexec
      obtain rfl : r.2 = k' := Except.ok.inj hexec
      have hclean : ∀ x, x = k.runningProc ∨ x ∈ k.readyQueue → k.devWList x = none :=
        fun x hx => h.active x (hx.imp_right Or.inl)
      obtain ⟨l, k₁, hdone, hok, hterm'⟩ := terminate_of_locatable h.ok hlive
        (h.ok.locatable hlive (fun x _ => hclean x) hterm)
      have hr : r.2 = { k₁ with wForRes := k.vacated l } :=
        congrArg Prod.snd (Except.ok.inj (hterm.symm.trans hterm'))
      obtain ⟨asl, pParent, rfl, hwait, -⟩ := hdone.result
      rw [hr]
      refine ⟨⟨⟨hok.residence, hok.tree, hok.idle, hok.running⟩, fun x hx => ?_, h.idle,
        fun d => ?_⟩, rfl⟩
      · show k.devWList x = none
        have hx : (k.afterTermination (p.getD k.runningProc) l asl pParent).Active x := hx
        rcases active_afterTermination hwait hx with rfl | hx
        · exact h.idle
        · exact h.active x hx
      · rcases h.sem d with hzero | ⟨hone, hres, hq, hout⟩
        · exact Or.inl hzero
        · refine Or.inr ⟨hone, ?_, ?_, hout⟩
          · show k.vacated l d = none
            unfold vacated
            split_ifs
            · rfl
            · exact hres
          · show asl.waitQueue (.dev d) = []
            rw [hwait, hq]
            rfl

/-- The step of WAITIO: the command is sent when nothing is outstanding, else it has to wait. -/
theorem Exclusive.waitDev
    (h : k.Exclusive outstanding) (hidle : k.runningProc ≠ .idle)
    {command devReg subdev : Word} (tod : Word) {d : Dev}
    (hcell : waitCell A devReg subdev = some d) :
    ∃ ws, (k.waitDev m command devReg d tod).bus = k.bus ++ ws ∧
      (∀ d', commandsIn A ws d' ≤ 1 ∧ (0 < commandsIn A ws d' → outstanding d' = 0)) ∧
      (k.waitDev m command devReg d tod).Exclusive
        (fun d' => outstanding d' + commandsIn A ws d') := by
  have hok : (k.waitDev m command devReg d tod).Ok := h.ok.waitDev hidle d command devReg tod
  rcases waitDev_spec m d h.ok hidle command devReg tod with
    ⟨hneg, asl, heq, -, hwait⟩ | ⟨hneg, asl, heq, -, hwait⟩
  · -- the device is taken
    have hzero : k.wForCmdSem d = 0 ∧ outstanding d ≤ 1 := by
      refine (h.sem d).resolve_right (fun ⟨hone, _⟩ => ?_)
      rw [hone, add_one_sub_one] at hneg
      exact absurd hneg (lt_irrefl 0)
    have hback : ∀ x, (k.waitDev m command devReg d tod).Active x →
        x = .idle ∨ (k.Active x ∧ x ≠ k.runningProc) := by
      intro x hx
      rw [heq] at hx
      exact h.ok.active_block hx rfl hwait
    refine ⟨[], ?_, fun d' => ⟨Nat.zero_le 1, fun hpos => absurd hpos (lt_irrefl 0)⟩,
      hok, fun x hx => ?_, ?_, fun d' => ?_⟩
    · rw [heq, runNextReady_eq, List.append_nil]
    · rw [heq, runNextReady_eq]
      rcases hback x hx with rfl | ⟨hx, -⟩
      · exact h.idle
      · exact h.active x hx
    · rw [heq, runNextReady_eq]
      exact h.idle
    · rw [heq, runNextReady_eq]
      simp only [commandsIn_nil, Nat.add_zero, hzero.1, add_zero_sub_one, add_neg_one_one]
      by_cases hd : d' = d
      · subst hd
        rw [Function.update_self]
        exact Or.inl ⟨rfl, hzero.2⟩
      · rw [Function.update_of_ne hd]
        refine (h.sem d').imp_right (fun ⟨hone, hres, hq, hout⟩ => ⟨hone, hres, ?_, hout⟩)
        show asl.waitQueue (.dev d') = []
        rw [hwait, Function.update_of_ne (by simpa using hd)]
        exact hq
  · -- the device is free
    obtain ⟨hone, -, -, hout⟩ : k.wForCmdSem d = 1 ∧ k.wForRes d = none ∧
        k.waitQueue (.dev d) = [] ∧ outstanding d = 0 := by
      refine (h.sem d).resolve_left (fun ⟨hzero, _⟩ => ?_)
      rw [hzero, add_zero_sub_one] at hneg
      exact hneg (by decide)
    have hback : ∀ x, (k.waitDev m command devReg d tod).Active x →
        x = .idle ∨ (k.Active x ∧ x ≠ k.runningProc) := by
      intro x hx
      rw [heq] at hx
      exact h.ok.active_block hx rfl hwait
    obtain ⟨hle, hother⟩ := commandsIn_singleton (A := A)
      (w := ⟨d.type, devReg, command, some k.runningProc⟩) (cell_of_waitCell hcell)
    refine ⟨[⟨d.type, devReg, command, some k.runningProc⟩], ?_, fun d' => ?_,
      hok, fun x hx => ?_, ?_, fun d' => ?_⟩
    · rw [heq, runNextReady_eq]
    · by_cases hd : d' = d
      · subst hd
        exact ⟨hle, fun _ => hout⟩
      · rw [hother d' hd]
        exact ⟨Nat.zero_le 1, fun hpos => absurd hpos (lt_irrefl 0)⟩
    · rw [heq, runNextReady_eq]
      rcases hback x hx with rfl | ⟨hx, hne⟩
      · exact (Function.update_of_ne (Ne.symm hidle) _ _).trans h.idle
      · exact (Function.update_of_ne hne _ _).trans (h.active x hx)
    · rw [heq, runNextReady_eq]
      exact (Function.update_of_ne (Ne.symm hidle) _ _).trans h.idle
    · rw [heq, runNextReady_eq]
      simp only [hone, add_one_sub_one]
      by_cases hd : d' = d
      · subst hd
        rw [Function.update_self]
        exact Or.inl ⟨rfl, by omega⟩
      · rw [Function.update_of_ne hd, Function.update_of_ne hd, hother d' hd, Nat.add_zero]
        refine (h.sem d').imp_right (fun ⟨hone, hres, hq, hout⟩ => ⟨hone, hres, ?_, hout⟩)
        show asl.waitQueue (.dev d') = []
        rw [hwait, Function.update_of_ne (by simpa using hd)]
        exact hq

/-- The second half of `done_io`, when the last command of the device is completed. -/
theorem Exclusive.nextCommand
    (hok : k.Ok) (hactive : ∀ x, k.Active x → k.devWList x = none)
    (hidle : k.devWList .idle = none) {d : Dev} (hzero : k.wForCmdSem d = 0)
    (hone : outstanding d = 1)
    (hsem : ∀ d', d' ≠ d →
      (k.wForCmdSem d' = 0 ∧ outstanding d' ≤ 1) ∨
      (k.wForCmdSem d' = 1 ∧ k.wForRes d' = none ∧ k.waitQueue (.dev d') = [] ∧
        outstanding d' = 0)) :
    ∃ ws, (k.nextCommand m d (k.waitQueue (.dev d)).head?).bus = k.bus ++ ws ∧
      (∀ d', commandsIn A ws d' ≤ 1 ∧
        (0 < commandsIn A ws d' → outstanding d' - (if d' = d then 1 else 0) = 0)) ∧
      (k.nextCommand m d (k.waitQueue (.dev d)).head?).Exclusive
        (fun d' => outstanding d' - (if d' = d then 1 else 0) + commandsIn A ws d') := by
  have hok' := hok.nextCommand (m := m) d (k.waitQueue (.dev d)).head?
  cases hq : k.waitQueue (.dev d) with
  | nil =>
      -- an acknowledgement, and the device is free
      rw [hq] at hok'
      have hack := commandsIn_ack (A := A) (w := ⟨d.type, A.devReg d, DEVICE_CMD_ACK, none⟩) rfl
      refine ⟨_, rfl, fun d' => ?_, hok', hactive, hidle, fun d' => ?_⟩
      · rw [hack d']
        exact ⟨Nat.zero_le 1, fun hpos => absurd hpos (lt_irrefl 0)⟩
      · rw [hack d', Nat.add_zero]
        by_cases hd : d' = d
        · subst hd
          refine Or.inr ⟨?_, Function.update_self _ _ _, hq, by simp [hone]⟩
          show Function.update k.wForCmdSem d' (m.add (k.wForCmdSem d') 1) d' = 1
          rw [Function.update_self, hzero, add_zero_one]
        · show (Function.update k.wForCmdSem d _ d' = 0 ∧ _) ∨
            (Function.update k.wForCmdSem d _ d' = 1 ∧
              Function.update k.wForRes d none d' = none ∧ _)
          rw [Function.update_of_ne hd, Function.update_of_ne hd, if_neg hd, Nat.sub_zero]
          exact hsem d' hd
  | cons y q =>
      -- the command of the next process
      rw [hq] at hok'
      have hy : y ∈ k.waitQueue (.dev d) := hq ▸ List.mem_cons_self
      obtain ⟨hle, hother⟩ := commandsIn_singleton (A := A)
        (w := ⟨d.type, A.devReg d, k.pS y A.arg1, some y⟩)
        (devCell_of_num (getDevInstance_devReg d))
      refine ⟨_, rfl, fun d' => ?_, hok', fun x hx => ?_, ?_, fun d' => ?_⟩
      · by_cases hd : d' = d
        · subst hd
          exact ⟨hle, fun _ => by simp [hone]⟩
        · rw [show commandsIn A _ d' = 0 from hother d' hd]
          exact ⟨Nat.zero_le 1, fun hpos => absurd hpos (lt_irrefl 0)⟩
      · have hx : k.Active x := hx
        have hxy : x ≠ y := fun hxy => hok.active_not_queued (hxy ▸ hx) d hy
        exact (Function.update_of_ne hxy _ _).trans (hactive x hx)
      · have hne : Proc.idle ≠ y := fun hne =>
          hok.idle_not_queued _ (hne ▸ hy)
        exact (Function.update_of_ne hne _ _).trans hidle
      · by_cases hd : d' = d
        · subst hd
          refine Or.inl ⟨hzero, ?_⟩
          rw [if_pos rfl, hone]
          omega
        · rw [if_neg hd, Nat.sub_zero, show commandsIn A _ d' = 0 from hother d' hd, Nat.add_zero]
          show _ ∨ (_ ∧ Function.update k.wForRes d (some y) d' = none ∧ _)
          rw [Function.update_of_ne hd]
          exact hsem d' hd

/-- The step of a completion: the next command is sent, or the device is free again. -/
theorem Exclusive.doneIo
    (h : k.Exclusive outstanding) {d : Dev} (hout : 0 < outstanding d) (status : Word) :
    ∃ ws, (k.doneIo m d status).bus = k.bus ++ ws ∧
      (∀ d', commandsIn A ws d' ≤ 1 ∧
        (0 < commandsIn A ws d' → outstanding d' - (if d' = d then 1 else 0) = 0)) ∧
      (k.doneIo m d status).Exclusive
        (fun d' => outstanding d' - (if d' = d then 1 else 0) + commandsIn A ws d') := by
  obtain ⟨hzero, hle⟩ : k.wForCmdSem d = 0 ∧ outstanding d ≤ 1 :=
    (h.sem d).resolve_right (fun ⟨_, _, _, hnone⟩ => by omega)
  have hone : outstanding d = 1 := by omega
  cases hres : k.wForRes d with
  | none =>
      -- nobody is registered any more
      rw [doneIo_none m d hres status]
      refine ⟨[], (List.append_nil _).symm,
        fun d' => ⟨Nat.zero_le 1, fun hpos => absurd hpos (lt_irrefl 0)⟩,
        ⟨h.ok.residence, h.ok.tree, h.ok.idle, h.ok.running⟩, h.active, h.idle, fun d' => ?_⟩
      rw [commandsIn_nil, Nat.add_zero]
      by_cases hd : d' = d
      · subst hd
        exact Or.inl ⟨hzero, by simp [hone]⟩
      · rw [if_neg hd, Nat.sub_zero]
        exact h.sem d'
  | some r =>
      cases hq : k.waitQueue (.dev d) with
      | nil =>
          rw [doneIo_nil m d h.ok.residence.aslOk hres hq status]
          have hnext := Exclusive.nextCommand (m := m) h.ok h.active h.idle hzero hone
            (fun d' _ => h.sem d')
          rw [hq] at hnext
          exact hnext
      | cons x q =>
          obtain ⟨asl, heq, hOk, hwait⟩ := doneIo_cons m d h.ok.residence.aslOk hres hq status
          obtain ⟨hok₁, habsent, hxidle, hxrun⟩ := h.ok.unblock hOk hq hwait
          set k₁ : Kernel A :=
            { k with asl := asl, pSemkey := Function.update k.pSemkey x none } with hk₁
          have hactive₁ : ∀ y, k₁.Active y → k.devWList y = none := by
            intro y hy
            refine h.active y (hy.imp_right (Or.imp_right ?_))
            rintro ⟨a, ha⟩
            have ha : y ∈ asl.waitQueue (.user a) := ha
            rw [hwait, Function.update_of_ne (by simp)] at ha
            exact ⟨a, ha⟩
          have hqueue : ∀ d', d' ≠ d → k.waitQueue (.dev d') = [] →
              asl.waitQueue (.dev d') = [] := by
            intro d' hd hnil
            rw [hwait, Function.update_of_ne (by simpa using hd)]
            exact hnil
          have hsem : ∀ d', d' ≠ d →
              (k.wForCmdSem d' = 0 ∧ outstanding d' ≤ 1) ∨
              (k.wForCmdSem d' = 1 ∧ k.wForRes d' = none ∧ asl.waitQueue (.dev d') = [] ∧
                outstanding d' = 0) := fun d' hd =>
            (h.sem d').imp_right (fun ⟨h1, h2, h3, h4⟩ => ⟨h1, h2, hqueue d' hd h3, h4⟩)
          have hhead : (asl.waitQueue (.dev d)).head? = q.head? := by
            rw [hwait, Function.update_self]
          rw [heq, ← hhead]
          by_cases hx : x = r
          · subst hx
            rw [if_pos rfl]
            have hview := devices_respond k₁ x status
            have hlist : (k₁.respond x status).devWList = Function.update k.devWList x none :=
              congrArg DeviceView.list hview
            have hres₁ : (k₁.respond x status).wForRes = k.wForRes :=
              congrArg DeviceView.res hview
            have hsem₁ : (k₁.respond x status).wForCmdSem = k.wForCmdSem :=
              wForCmdSem_respond k₁ x status
            have hqueue₁ : ∀ d', (k₁.respond x status).waitQueue (.dev d') =
                asl.waitQueue (.dev d') := congrFun (congrArg DeviceView.queue hview)
            have hbus₁ : (k₁.respond x status).bus = k.bus := congrArg DeviceView.bus hview
            rw [← hqueue₁ d, ← hbus₁]
            refine Exclusive.nextCommand (k := k₁.respond x status) (d := d)
              (hok₁.respond habsent hxidle hxrun status) (fun y hy => ?_) ?_ (hsem₁ ▸ hzero)
              hone (fun d' hd => ?_)
            · rw [hlist]
              by_cases hyx : y = x
              · rw [hyx, Function.update_self]
              · rw [Function.update_of_ne hyx]
                refine hactive₁ y ?_
                have hy : (Kernel.scheduleProc
                    { k₁ with devWList := Function.update k₁.devWList x none } x).Active y := hy
                exact (active_scheduleProc hy).resolve_right hyx
            · rw [hlist]
              exact (Function.update_of_ne (Ne.symm hxidle) _ _).trans h.idle
            · rw [hsem₁, hres₁, hqueue₁]
              exact hsem d' hd
          · rw [if_neg hx]
            exact Exclusive.nextCommand (k := k₁) hok₁ hactive₁ h.idle hzero hone hsem

/-- What one operation does to the commands of the devices. -/
theorem Exclusive.step
    (h : k.Exclusive outstanding) {op : Operation A}
    (hdone : ∀ d, op.Completes d → 0 < outstanding d) (htakes : k.TakesClean op)
    (hstep : Step m k op k') :
    ∃ ws, k'.bus = k.bus ++ ws ∧
      (∀ d, commandsIn A ws d ≤ 1 ∧
        (0 < commandsIn A ws d → outstanding d - (if op.Completes d then 1 else 0) = 0)) ∧
      k'.Exclusive
        (fun d => outstanding d - (if op.Completes d then 1 else 0) + commandsIn A ws d) := by
  have hquiet : (∀ d, ¬ op.Completes d) → k'.Exclusive outstanding ∧ k'.bus = k.bus →
      ∃ ws, k'.bus = k.bus ++ ws ∧
      (∀ d, commandsIn A ws d ≤ 1 ∧
        (0 < commandsIn A ws d → outstanding d - (if op.Completes d then 1 else 0) = 0)) ∧
      k'.Exclusive
        (fun d => outstanding d - (if op.Completes d then 1 else 0) + commandsIn A ws d) := by
    rintro hnot ⟨hexcl, hbus⟩
    refine ⟨[], by rw [hbus, List.append_nil],
      fun d => ⟨Nat.zero_le 1, fun hpos => absurd hpos (lt_irrefl 0)⟩, ?_⟩
    simpa only [hnot, if_false, Nat.sub_zero, commandsIn_nil, Nat.add_zero] using hexcl
  have hfree := fun (hfree : op.DeviceFree) (hterm : ∀ p, op ≠ .terminateProcess p) =>
    hquiet (fun d => by cases op <;> first | exact id | exact absurd hfree id)
      (h.quiet hfree hterm htakes hstep)
  cases op with
  | terminateProcess p =>
      exact hquiet (fun _ => id) (h.terminate hstep)
  | waitIo command devReg subdev tod =>
      obtain ⟨hadm, hexec⟩ := hstep
      obtain ⟨d, hcell, rfl⟩ := exec_waitIo hexec
      exact h.waitDev hadm tod hcell
  | doneIo d status =>
      obtain rfl := Except.ok.inj hstep.2
      exact h.doneIo (hdone d rfl) status
  | _ => exact hfree trivial (by simp)

end Invariant

/-- The completion interrupts of a device among the first operations of a run. -/
def completions (e : ℕ → Operation A) (i : ℕ) (d : Dev) : ℕ :=
  (List.range i).countP (fun j => (e j).Completes d)

section Runs

variable {s : ℕ → Kernel A} {e : ℕ → Operation A} {n : ℕ}

end Runs

end Kernel

end Bikaya
