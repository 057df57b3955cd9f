import Bikaya.Library.TimeAccounts
import Bikaya.Proofs.Entries

/-!
# Bikaya: the timers of the processes

The timers and the time stamps of the PCBs, as one record for each process, and what the
operations and the handlers do to them.

**Plan.**  The kernel reads the clock when a process is blocked, and the handlers when they
start and end.  `TimerMove` says what one operation does to the records: nothing, the
clearing of the record of a new process, or one charge to the process that blocks.  The
array of the passup areas is cleared in the same places, and is carried along.

**Results.**
* `Step.timerMove`: every operation is such a move.
* `TimerMove.timed`: the moves keep the accounts of the library.
* `TimerMove.grows`: no timer of a live process decreases.
-/

namespace Bikaya

open TimeAccounts TransitionSystem

/-- The operation reads the time of day. -/
def Operation.Reads {A : Arch} (tod : Word) : Operation A → Prop
  | .passeren _ t => t = tod
  | .waitIo _ _ _ t => t = tod
  | _ => False

/-- The timers and the time stamps of a PCB. -/
structure TimeRecord where
  user : Word
  kernel : Word
  cache : Word
  atStart : Word

namespace Kernel

variable {A : Arch} {k k' : Kernel A} {m : IntModel}

def timeRecord (k : Kernel A) (x : Proc) : TimeRecord :=
  ⟨k.userTimer x, k.kernelTimer x, k.todCache x, k.todAtStart x⟩

/-- No timer and no area of a PCB is changed, and no PCB is allocated or freed. -/
structure SameRecords (k k' : Kernel A) : Prop where
  free : k'.pcbFreeH = k.pcbFreeH
  time : k'.timeRecord = k.timeRecord
  areas : k'.specAreas = k.specAreas

theorem SameRecords.trans
    {k₁ : Kernel A} (h : SameRecords k k₁) (h₁ : SameRecords k₁ k') :
    SameRecords k k' :=
  ⟨h₁.free.trans h.free, h₁.time.trans h.time, h₁.areas.trans h.areas⟩

theorem sameRecords_scheduleProc (k : Kernel A) (x : Proc) :
    SameRecords k (k.scheduleProc x) := by
  obtain ⟨_, _, _, heq⟩ := scheduleProc_frame k x
  rw [heq]
  exact ⟨rfl, rfl, rfl⟩

theorem sameRecords_respond (k : Kernel A) (x : Proc) (status : Word) :
    SameRecords k (k.respond x status) := by
  obtain ⟨_, _, _, heq⟩ :=
    scheduleProc_frame { k with devWList := Function.update k.devWList x none } x
  unfold respond
  simp only [heq]
  exact ⟨rfl, rfl, rfl⟩

theorem sameRecords_nextCommand (k : Kernel A) (d : Dev) (next : Option Proc) :
    SameRecords k (k.nextCommand m d next) := by
  cases next <;> exact ⟨rfl, rfl, rfl⟩

/-- What an operation does to the timers and the areas of all the processes. -/
inductive TimerMove (k k' : Kernel A) (op : Operation A) : Prop
  | quiet :
      k.pcbFreeH ⊆ k'.pcbFreeH →
      k'.timeRecord = k.timeRecord →
      k'.specAreas = k.specAreas →
      TimerMove k k' op
  /-- A PCB is allocated and cleared. -/
  | opened (z : Proc) :
      (∃ s priority, op = .createProcess s priority) →
      k.pcbFreeH = z :: k'.pcbFreeH →
      k'.timeRecord = Function.update k.timeRecord z ⟨0, 0, 0, 0⟩ →
      k'.specAreas = Function.update k.specAreas z (fun _ => 0) →
      TimerMove k k' op
  /-- The running process blocks. -/
  | charged (tod : Word) :
      op.Reads tod →
      k'.pcbFreeH = k.pcbFreeH →
      k'.timeRecord = (k.flushKernelTime tod k.runningProc).timeRecord →
      k'.specAreas = k.specAreas →
      TimerMove k k' op

theorem sameRecords_v (h : k.asl.Ok) (a : SemAddr) : SameRecords k (k.v m a) := by
  rcases v_spec m a h with ⟨-, heq⟩ | ⟨x, q, asl, -, heq, -, -⟩
  · rw [heq]
    exact ⟨rfl, rfl, rfl⟩
  · rw [heq]
    refine SameRecords.trans ?_ (sameRecords_scheduleProc _ x)
    exact ⟨rfl, rfl, rfl⟩

theorem sameRecords_timeSlice (k : Kernel A) : SameRecords k (k.timeSliceCallback m) := by
  obtain ⟨_, _, _, heq⟩ := timeSlice_frame m k
  rw [heq]
  exact ⟨rfl, rfl, rfl⟩

theorem sameRecords_doneIo (h : k.asl.Ok) (d : Dev) (status : Word) :
    SameRecords k (k.doneIo m d status) := by
  cases hr : k.wForRes d with
  | none =>
      rw [doneIo_none m d hr]
      exact ⟨rfl, rfl, rfl⟩
  | some r =>
      cases hq : k.waitQueue (.dev d) with
      | nil =>
          rw [doneIo_nil m d h hr hq]
          exact sameRecords_nextCommand k d none
      | cons y q =>
          obtain ⟨asl, heq, -, -⟩ := doneIo_cons m d h hr hq status
          rw [heq]
          refine SameRecords.trans ?_ (sameRecords_nextCommand _ d q.head?)
          split_ifs
          · refine SameRecords.trans ?_ (sameRecords_respond _ r status)
            exact ⟨rfl, rfl, rfl⟩
          · exact ⟨rfl, rfl, rfl⟩

/-- Every operation moves the timers in one of the three ways. -/
theorem Step.timerMove
    {op : Operation A} (h : k.Ok) (hsound : k.Undamaging op) (hstep : Step m k op k') :
    TimerMove k k' op := by
  obtain ⟨hadm, hexec⟩ := hstep
  have hquiet : ∀ k₁ : Kernel A, SameRecords k k₁ → TimerMove k k₁ op := by
    intro k₁ hsame
    exact TimerMove.quiet (hsame.free ▸ List.Subset.refl _) hsame.time hsame.areas
  cases op with
  | createProcess s priority =>
      cases hnil : k.pcbFreeH with
      | nil =>
          simp only [exec, createProcess_nil hnil] at hexec
          obtain rfl := Except.ok.inj hexec
          exact hquiet k ⟨rfl, rfl, rfl⟩
      | cons z free =>
          obtain ⟨-, -, -, hzrun⟩ := h.adopt hnil hadm s priority
          simp only [exec, createProcess_cons hnil hzrun] at hexec
          obtain rfl := Except.ok.inj hexec
          obtain ⟨hfree, htime, hareas⟩ := sameRecords_scheduleProc (k.adopt z free s priority) z
          refine TimerMove.opened z ⟨s, priority, rfl⟩ (by rw [hnil]; exact hfree ▸ rfl) ?_ hareas
          refine htime.trans (funext fun x => ?_)
          by_cases hxz : x = z
          · subst hxz
            simp [timeRecord, adopt]
          · simp [timeRecord, adopt, hxz]
  | terminateProcess p =>
      obtain ⟨l, k₁, hdone, -, rfl⟩ := Step.vacated ⟨hadm, hexec⟩ h hsound
      obtain ⟨asl, pParent, rfl, -, -⟩ := hdone.result
      exact TimerMove.quiet (List.subset_append_right _ _) rfl rfl
  | passeren a tod =>
      simp only [exec] at hexec
      rcases p_spec m a h hadm tod with ⟨-, heq⟩ | ⟨-, asl, heq, -, -⟩
      · obtain rfl := Except.ok.inj (heq.symm.trans hexec)
        exact hquiet _ ⟨rfl, rfl, rfl⟩
      · obtain rfl := Except.ok.inj (heq.symm.trans hexec)
        rw [runNextReady_eq]
        exact TimerMove.charged tod rfl rfl rfl rfl
  | verhogen a =>
      obtain rfl := Except.ok.inj hexec
      exact hquiet _ (sameRecords_v h.residence.aslOk a)
  | waitIo command devReg subdev tod =>
      obtain ⟨d, -, rfl⟩ := exec_waitIo hexec
      rcases waitDev_spec m d h hadm command devReg tod with
        ⟨-, asl, heq, -, -⟩ | ⟨-, asl, heq, -, -⟩ <;> rw [heq, runNextReady_eq]
      · exact TimerMove.charged tod rfl rfl rfl rfl
      · exact TimerMove.charged tod rfl rfl rfl rfl
  | doneIo d status =>
      obtain rfl := Except.ok.inj hexec
      exact hquiet _ (sameRecords_doneIo h.residence.aslOk d status)
  | timeSlice =>
      obtain rfl := Except.ok.inj hexec
      exact hquiet _ (sameRecords_timeSlice k)
  | write a value =>
      obtain rfl := Except.ok.inj hexec
      exact hquiet _ ⟨rfl, rfl, rfl⟩

/-- The processes whose time counts: the live ones and the idle process. -/
def counted (k : Kernel A) : Finset Proc :=
  Finset.univ.filter (fun x => x = .idle ∨ k.Live x)

/-- The time that a process has used. -/
def cpuTime (k : Kernel A) (x : Proc) : ℕ :=
  (k.userTimer x).toNat + (k.kernelTimer x).toNat

theorem mem_counted {x : Proc} : x ∈ k.counted ↔ x = .idle ∨ x ∉ k.pcbFreeH := by
  rw [counted, Finset.mem_filter, Live]
  constructor
  · rintro ⟨-, hidle | ⟨-, hfree⟩⟩
    · exact Or.inl hidle
    · exact Or.inr hfree
  · rintro (hidle | hfree)
    · exact ⟨Finset.mem_univ _, Or.inl hidle⟩
    · by_cases hidle : x = .idle
      · exact ⟨Finset.mem_univ _, Or.inl hidle⟩
      · exact ⟨Finset.mem_univ _, Or.inr ⟨hidle, hfree⟩⟩

theorem counted_of_free (hfree : k'.pcbFreeH = k.pcbFreeH) : k'.counted = k.counted := by
  ext x
  rw [mem_counted, mem_counted, hfree]

theorem cpuTime_of_record {x : Proc} (h : k'.timeRecord x = k.timeRecord x) :
    k'.cpuTime x = k.cpuTime x := by
  rw [cpuTime, cpuTime, show k'.userTimer x = k.userTimer x from congrArg TimeRecord.user h,
    show k'.kernelTimer x = k.kernelTimer x from congrArg TimeRecord.kernel h]

/--
At time `t` the process `p` was flushed for the last time, and no time has been counted
twice; the time is that since the reading `origin`.
-/
structure Timed (k : Kernel A) (origin : Word) (opened : Proc → ℕ) (p : Proc) (t : ℕ) : Prop where
  stamp : elapsed origin (k.todCache p) = t
  within : Within k.counted opened k.cpuTime t

section Flush

variable {origin tod : Word} {opened : Proc → ℕ} {p : Proc} {t : ℕ}

theorem Timed.cpuTime_le (h : k.Timed origin opened p t) {x : Proc} (hx : x ∈ k.counted) :
    k.cpuTime x ≤ t :=
  (Nat.le_add_left _ _).trans (h.within.each x hx)

/-- The counter of the flushed process grows by the time since the last flush. -/
theorem Timed.userTimer_flush
    (h : k.Timed origin opened p t) (ht : t ≤ elapsed origin tod) (hp : p ∈ k.counted) :
    ((k.flushUserTime tod p).userTimer p).toNat =
      (k.userTimer p).toNat + (elapsed origin tod - t) := by
  have hle := h.cpuTime_le hp
  rw [cpuTime] at hle
  obtain rfl := h.stamp
  simp only [flushUserTime, Function.update_self]
  exact toNat_charge ht (by omega)

theorem Timed.kernelTimer_flush
    (h : k.Timed origin opened p t) (ht : t ≤ elapsed origin tod) (hp : p ∈ k.counted) :
    ((k.flushKernelTime tod p).kernelTimer p).toNat =
      (k.kernelTimer p).toNat + (elapsed origin tod - t) := by
  have hle := h.cpuTime_le hp
  rw [cpuTime] at hle
  obtain rfl := h.stamp
  simp only [flushKernelTime, Function.update_self]
  exact toNat_charge ht (by omega)

/-- A flush shortens no counter. -/
theorem Timed.userTimer_le
    (h : k.Timed origin opened p t) (ht : t ≤ elapsed origin tod) {x : Proc}
    (hx : x ∈ k.counted) :
    (k.userTimer x).toNat ≤ ((k.flushUserTime tod p).userTimer x).toNat := by
  by_cases hxp : x = p
  · subst hxp
    rw [h.userTimer_flush ht hx]
    exact Nat.le_add_right _ _
  · exact (congrArg BitVec.toNat (Function.update_of_ne hxp _ _)).ge

theorem Timed.kernelTimer_le
    (h : k.Timed origin opened p t) (ht : t ≤ elapsed origin tod) {x : Proc}
    (hx : x ∈ k.counted) :
    (k.kernelTimer x).toNat ≤ ((k.flushKernelTime tod p).kernelTimer x).toNat := by
  by_cases hxp : x = p
  · subst hxp
    rw [h.kernelTimer_flush ht hx]
    exact Nat.le_add_right _ _
  · exact (congrArg BitVec.toNat (Function.update_of_ne hxp _ _)).ge

theorem Timed.flushUser
    (h : k.Timed origin opened p t) (ht : t ≤ elapsed origin tod) :
    (k.flushUserTime tod p).Timed origin opened p (elapsed origin tod) where
  stamp := by simp [flushUserTime]
  within := by
    refine h.within.charge (p := p) ht ?_ ?_
    · intro hp
      have huser := h.userTimer_flush ht hp
      simp only [cpuTime, huser]
      show _ + _ + (k.kernelTimer p).toNat = _
      omega
    · intro x _ hx
      simp [cpuTime, flushUserTime, hx]

theorem Timed.flushKernel
    (h : k.Timed origin opened p t) (ht : t ≤ elapsed origin tod) :
    (k.flushKernelTime tod p).Timed origin opened p (elapsed origin tod) where
  stamp := by simp [flushKernelTime]
  within := by
    refine h.within.charge (p := p) ht ?_ ?_
    · intro hp
      have hkernel := h.kernelTimer_flush ht hp
      simp only [cpuTime, hkernel]
      show (k.userTimer p).toNat + _ = _
      omega
    · intro x _ hx
      simp [cpuTime, flushKernelTime, hx]

/-- Another process gets the time stamp. -/
theorem Timed.flushReset
    (h : k.Timed origin opened p t) (ht : t ≤ elapsed origin tod) (q : Proc) :
    (k.flushResetTime tod q).Timed origin opened q (elapsed origin tod) where
  stamp := by simp [flushResetTime]
  within := h.within.mono ht

theorem Timed.of_record
    (h : k.Timed origin opened p t) (hrecord : k'.timeRecord = k.timeRecord)
    (hcounted : k'.counted ⊆ k.counted) :
    k'.Timed origin opened p t where
  stamp := by
    rw [show k'.todCache p = k.todCache p from congrArg TimeRecord.cache (congrFun hrecord p)]
    exact h.stamp
  within := (h.within.close hcounted).congr
    (fun x _ => cpuTime_of_record (congrFun hrecord x))

/-- A PCB is allocated and cleared. -/
theorem Timed.allocated
    (h : k.Timed origin opened p t) {z : Proc} (hz : z ∉ k.counted) (hpz : p ≠ z)
    (hrecord : k'.timeRecord = Function.update k.timeRecord z ⟨0, 0, 0, 0⟩)
    (hcounted : k'.counted = insert z k.counted) :
    k'.Timed origin opened p t := by
  have hother : ∀ x, x ≠ z → k'.timeRecord x = k.timeRecord x := by
    intro x hx
    rw [hrecord, Function.update_of_ne hx]
  have hself : k'.timeRecord z = ⟨0, 0, 0, 0⟩ := by
    rw [hrecord, Function.update_self]
  refine ⟨?_, ?_⟩
  · rw [show k'.todCache p = k.todCache p from congrArg TimeRecord.cache (hother p hpz)]
    exact h.stamp
  · rw [hcounted]
    refine h.within.open hz ?_ ?_
    · rw [cpuTime, show k'.userTimer z = 0 from congrArg TimeRecord.user hself,
        show k'.kernelTimer z = 0 from congrArg TimeRecord.kernel hself]
      rfl
    · intro x hx
      exact cpuTime_of_record (hother x (fun heq => hz (heq ▸ hx)))

/-- A process that an operation creates is another one than the running process. -/
theorem TimerMove.created
    {op : Operation A} (hmove : TimerMove k k' op) (h : k.Ok) {z : Proc}
    (hz : ¬ k.Live z) (hz' : k'.Live z) :
    z ≠ k.runningProc ∧ k'.timeRecord z = ⟨0, 0, 0, 0⟩ := by
  have hfree : z ∈ k.pcbFreeH := by
    by_contra hfree
    exact hz ⟨hz'.1, hfree⟩
  refine ⟨fun heq => h.running_not_free (heq ▸ hfree), ?_⟩
  cases hmove with
  | quiet hsub _ _ =>
      exact absurd (hsub hfree) hz'.2
  | opened y _ hcons hrecord _ =>
      obtain rfl : z = y := by
        rw [hcons] at hfree
        exact (List.mem_cons.mp hfree).resolve_right hz'.2
      rw [hrecord, Function.update_self]
  | charged _ _ hsame _ _ =>
      exact absurd (hsame ▸ hfree) hz'.2

/-- The operations keep the accounts. -/
theorem TimerMove.timed
    {op : Operation A} (hmove : TimerMove k k' op)
    (h : k.Timed origin opened k.runningProc t) (hok : k.Ok)
    (htod : ∀ tod', op.Reads tod' → tod' = tod) (ht : t ≤ elapsed origin tod) :
    ∃ t', t ≤ t' ∧ t' ≤ elapsed origin tod ∧ k'.Timed origin opened k.runningProc t' := by
  cases hmove with
  | quiet hsub hrecord _ =>
      refine ⟨t, le_rfl, ht, h.of_record hrecord (fun x hx => ?_)⟩
      rw [mem_counted] at hx ⊢
      exact hx.imp_right (mt (@hsub x))
  | opened z hop hcons hrecord _ =>
      have hz : z ∈ k.pcbFreeH := by
        rw [hcons]
        exact List.mem_cons_self
      have hzidle : z ≠ .idle := fun heq => hok.idle_not_free (heq ▸ hz)
      have hpz : k.runningProc ≠ z :=
        fun heq => hok.running_not_free (heq ▸ hz)
      have hnew : z ∉ k.counted := by
        rw [mem_counted]
        exact not_or.mpr ⟨hzidle, not_not.mpr hz⟩
      have hnd := hok.residence.free_nodup
      rw [hcons] at hnd
      refine ⟨t, le_rfl, ht, h.allocated hnew hpz hrecord ?_⟩
      ext x
      rw [Finset.mem_insert, mem_counted, mem_counted, hcons, List.mem_cons]
      by_cases hxz : x = z
      · subst hxz
        simp [(List.nodup_cons.mp hnd).1]
      · simp [hxz]
  | charged tod' hreads hfree hrecord _ =>
      obtain rfl := htod tod' hreads
      refine ⟨elapsed origin tod', ht, le_rfl, (h.flushKernel ht).of_record hrecord ?_⟩
      rw [counted_of_free hfree]
      exact Finset.Subset.refl _

/-- An operation that allocates a PCB takes it from the free list. -/
theorem TimerMove.record_cases
    {op : Operation A} (hmove : TimerMove k k' op) (hok : k.Ok) {x : Proc} (hx : x ∈ k.counted) :
    k'.timeRecord x = k.timeRecord x ∨
      ∃ tod, op.Reads tod ∧
        k'.timeRecord x = (k.flushKernelTime tod k.runningProc).timeRecord x := by
  cases hmove with
  | quiet _ hrecord _ =>
      exact Or.inl (congrFun hrecord x)
  | opened z _ hcons hrecord _ =>
      refine Or.inl ?_
      rw [hrecord, Function.update_of_ne]
      rintro rfl
      have hfree : x ∈ k.pcbFreeH := by
        rw [hcons]
        exact List.mem_cons_self
      rcases mem_counted.mp hx with rfl | hlive
      · exact hok.idle_not_free hfree
      · exact hlive hfree
  | charged tod hreads _ hrecord _ =>
      exact Or.inr ⟨tod, hreads, congrFun hrecord x⟩

/-- The timers of a process that stays grow. -/
theorem TimerMove.grows
    {op : Operation A} (hmove : TimerMove k k' op)
    (h : k.Timed origin opened k.runningProc t) (hok : k.Ok)
    (htod : ∀ tod', op.Reads tod' → tod' = tod) (ht : t ≤ elapsed origin tod)
    {x : Proc} (hx : x ∈ k.counted) :
    k'.userTimer x = k.userTimer x ∧ (k.kernelTimer x).toNat ≤ (k'.kernelTimer x).toNat := by
  rcases hmove.record_cases hok hx with heq | ⟨tod', hreads, heq⟩
  · refine ⟨congrArg TimeRecord.user heq, ?_⟩
    exact (congrArg (fun r : TimeRecord => r.kernel.toNat) heq).ge
  · obtain rfl := htod tod' hreads
    refine ⟨congrArg TimeRecord.user heq, ?_⟩
    rw [show k'.kernelTimer x = _ from congrArg TimeRecord.kernel heq]
    exact h.kernelTimer_le ht hx

theorem TimerMove.todAtStart
    {op : Operation A} (hmove : TimerMove k k' op) (hok : k.Ok) {x : Proc} (hx : x ∈ k.counted) :
    k'.todAtStart x = k.todAtStart x := by
  rcases hmove.record_cases hok hx with heq | ⟨_, _, heq⟩ <;>
  exact congrArg TimeRecord.atStart heq

end Flush

end Kernel

end Bikaya
