import Bikaya.Library.CountingSemaphore
import Bikaya.Proofs.DeviceQueues
import Bikaya.Proofs.Semaphores

/-!
# Bikaya: mutual exclusion

The processes that hold a unit of a user semaphore, followed through a run: the one whose P
is granted becomes a holder, the one that executes V stops being one, and the dead hold
nothing.  If only holders execute V then no more processes hold a unit than there are
units, whatever else happens in the kernel; with one unit this is mutual exclusion.

**Plan.**  `semaphore` reads a semaphore of the kernel and its holders as the counting
semaphore of the library, and `Step.semaphore_move` says that every step is a move of it.
`Disciplined` and `Careful` are promises of user code, not of the kernel: that only holders
execute V, and that nobody takes a unit twice or dies with one.

**Results.**
* `Step.semaphore_move`: P, V and terminations as moves of the library's semaphore.
* `Step.holders_live`: the holders are alive.
* `mutual_exclusion`: along every run there are no more holders than units, and a process
  waits only while all of them are held.
-/

namespace Bikaya

open CountingSemaphore TransitionSystem

namespace Kernel

variable {A : Arch} {k k' : Kernel A} {m : IntModel} {a : SemAddr}

/-- The holders after an operation. -/
def nextHolders (a : SemAddr) (k : Kernel A) (op : Operation A) (k' : Kernel A)
    (H : Finset Proc) : Finset Proc :=
  match op with
  | .passeren b _ =>
      if b = a ∧ k.runningProc ∉ k'.waiters a then insert k.runningProc H else H
  | .verhogen b =>
      if b = a then
        H.erase k.runningProc ∪ ((k.waiters a).filter (fun x => x ∉ k'.waiters a)).toFinset
      else H
  | .terminateProcess _ => H.filter (fun x => k'.Live x)
  | _ => H

/-- The processes that hold a unit of the semaphore at each moment of a run. -/
def holders (a : SemAddr) (s : ℕ → Kernel A) (e : ℕ → Operation A) : ℕ → Finset Proc
  | 0 => ∅
  | i + 1 => nextHolders a (s i) (e i) (s (i + 1)) (holders a s e i)

/-- The semaphore at the address `a`, held by `H`. -/
def semaphore (k : Kernel A) (a : SemAddr) (H : Finset Proc) : Semaphore Proc :=
  ⟨k.sem a, k.waiters a, H⟩

/-- The lock discipline: only holders execute V. -/
def Disciplined (k : Kernel A) (a : SemAddr) (H : Finset Proc) (op : Operation A) : Prop :=
  op = .verhogen a → k.runningProc ∈ H

/-- Nobody asks for a second unit, and no holder is terminated. -/
def Careful (k : Kernel A) (a : SemAddr) (H : Finset Proc) (op : Operation A) (k' : Kernel A) :
    Prop :=
  (∀ tod, op = .passeren a tod → k.runningProc ∉ H) ∧ (op.Terminates → ∀ x ∈ H, k'.Live x)

section Steps

variable {H : Finset Proc}

/-- Scheduling touches neither the integers nor the waiting queues. -/
theorem semaphore_scheduleProc (k : Kernel A) (x : Proc) :
    (k.scheduleProc x).semaphore a H = k.semaphore a H := by
  obtain ⟨hsem, hwait⟩ := scheduleProc_sem k x
  simp only [semaphore, waiters, hsem, hwait]

theorem semaphore_setSem (k : Kernel A) (n : Int) :
    { k with sem := Function.update k.sem a n }.semaphore a H = ⟨n, k.waiters a, H⟩ := by
  simp only [semaphore, Function.update_self]
  rfl

/-- A waiting queue other than that of `a` has changed. -/
theorem semaphore_update
    {k₁ : Kernel A} {key : SemKey} {q : List Proc} (hkey : key ≠ .user a)
    (hsem : k₁.sem a = k.sem a) (hwait : k₁.waitQueue = Function.update k.waitQueue key q) :
    k₁.semaphore a H = k.semaphore a H := by
  simp only [semaphore, waiters, hsem, hwait, Function.update_of_ne (Ne.symm hkey)]

theorem semaphore_doneIo (h : k.Ok) (d : Dev) (status : Word) :
    (k.doneIo m d status).semaphore a H = k.semaphore a H := by
  have hnext : ∀ (k : Kernel A) (next : Option Proc),
      (k.nextCommand m d next).semaphore a H = k.semaphore a H := by
    intro k next
    cases next <;> rfl
  cases hr : k.wForRes d with
  | none =>
      rw [doneIo_none m d hr]
      rfl
  | some r =>
      cases hq : k.waitQueue (.dev d) with
      | nil =>
          rw [doneIo_nil m d h.residence.aslOk hr hq, hnext]
      | cons x q =>
          obtain ⟨asl, hdone, -, hwait⟩ := doneIo_cons m d h.residence.aslOk hr hq status
          have hkeep : ({ k with asl := asl, pSemkey := Function.update k.pSemkey x none } :
              Kernel A).semaphore a H = k.semaphore a H :=
            semaphore_update (by simp) rfl hwait
          rw [hdone, hnext]
          split_ifs
          · exact (semaphore_scheduleProc _ r).trans hkeep
          · exact hkeep

/-- An operation that is neither P, nor V, nor a write, nor a termination. -/
theorem Step.semaphore_eq
    {op : Operation A} (hstep : Step m k op k') (h : k.Ok)
    (hp : ∀ tod, op ≠ .passeren a tod) (hv : op ≠ .verhogen a)
    (hwrite : ∀ value, op ≠ .write a value) (hterm : ¬ op.Terminates) :
    k'.semaphore a H = k.semaphore a H := by
  obtain ⟨hadm, hexec⟩ := hstep
  cases op with
  | createProcess s priority =>
      cases hfree : k.pcbFreeH with
      | nil =>
          simp only [exec, createProcess_nil hfree] at hexec
          rw [← show k = k' from Except.ok.inj hexec]
      | cons x free =>
          obtain ⟨-, -, -, hxrun⟩ := h.adopt hfree hadm s priority
          simp only [exec, createProcess_cons hfree hxrun] at hexec
          rw [← show (k.adopt x free s priority).scheduleProc x = k' from Except.ok.inj hexec,
            semaphore_scheduleProc]
          rfl
  | terminateProcess p =>
      exact absurd trivial hterm
  | passeren b tod =>
      have hba : a ≠ b := fun hab => hp tod (by rw [hab])
      have hkey : SemKey.user b ≠ .user a := fun hk => hba (SemKey.user.inj hk).symm
      simp only [exec] at hexec
      rcases p_spec m b h hadm tod with ⟨-, heq⟩ | ⟨-, asl, heq, -, hwait⟩
      · rw [Except.ok.inj (hexec.symm.trans heq)]
        simp only [semaphore, Function.update_of_ne hba]
        rfl
      · rw [Except.ok.inj (hexec.symm.trans heq), runNextReady_eq]
        exact semaphore_update hkey (Function.update_of_ne hba _ _) hwait
  | verhogen b =>
      have hba : a ≠ b := fun hab => hv (by rw [hab])
      have hkey : SemKey.user b ≠ .user a := fun hk => hba (SemKey.user.inj hk).symm
      rw [← show k.v m b = k' from Except.ok.inj hexec]
      rcases v_spec m b h.residence.aslOk with ⟨-, heq⟩ | ⟨x, q, asl, -, heq, -, hwait⟩
      · rw [heq]
        simp only [semaphore, Function.update_of_ne hba]
        rfl
      · rw [heq, semaphore_scheduleProc]
        exact semaphore_update hkey (Function.update_of_ne hba _ _) hwait
  | waitIo command devReg subdev tod =>
      obtain ⟨d, -, rfl⟩ := exec_waitIo hexec
      rcases waitDev_spec m d h hadm command devReg tod with
        ⟨-, asl, heq, -, hwait⟩ | ⟨-, asl, heq, -, hwait⟩
      · rw [heq, runNextReady_eq]
        exact semaphore_update (by simp) rfl hwait
      · rw [heq, runNextReady_eq]
        exact semaphore_update (by simp) rfl hwait
  | doneIo d status =>
      rw [← show k.doneIo m d status = k' from Except.ok.inj hexec]
      exact semaphore_doneIo h d status
  | timeSlice =>
      rw [← show k.timeSliceCallback m = k' from Except.ok.inj hexec]
      obtain ⟨priority, ready, running, heq⟩ := timeSlice_frame m k
      rw [heq]
      rfl
  | write b value =>
      have hba : a ≠ b := fun hab => hwrite value (by rw [hab])
      rw [← show { k with sem := Function.update k.sem b value } = k' from
        Except.ok.inj hexec]
      simp only [semaphore, Function.update_of_ne hba]
      rfl

/-- P: a unit is taken, or the running process waits. -/
theorem passeren_move
    {tod : Word} (h : k.Ok) (hidle : k.runningProc ≠ .idle) (hnonneg : 0 ≤ k.sem a)
    (hmax : m = .int32 → k.sem a ≤ INT_MAX) (hp : k.p m a tod = .ok k') :
    ∃ act, Semaphore.Move (k.semaphore a H) act
        (k'.semaphore a (nextHolders a k (.passeren a tod) k' H)) ∧
      (k.runningProc ∉ H → act.Clean (k.semaphore a H)) := by
  have hdec : m.add (k.sem a) (-1) = k.sem a - 1 :=
    IntModel.add_eq (fun _ => by omega) (fun hm => by have := hmax hm; omega)
  have hinc : m.add (k.sem a - 1) 1 = k.sem a :=
    (IntModel.add_eq (fun _ => by omega) (fun hm => by have := hmax hm; omega)).trans (by omega)
  have hqueued : k.runningProc ∉ k.waiters a := h.running_not_queued _
  rcases p_spec m a h hidle tod with ⟨hpos, heq⟩ | ⟨hneg, asl, heq, -, hwait⟩
  · rw [hdec] at hpos heq
    obtain rfl := Except.ok.inj (hp.symm.trans heq)
    refine ⟨.acquire k.runningProc, ?_, id⟩
    have hmove := Semaphore.Move.acquire (s := k.semaphore a H) (p := k.runningProc)
      (show 0 < k.sem a by omega) hqueued
    rw [nextHolders, if_pos ⟨rfl, hqueued⟩, semaphore_setSem]
    exact hmove
  · rw [hdec] at hneg
    rw [hdec, hinc, runNextReady_eq] at heq
    have hzero : k.sem a = 0 := by omega
    have hk' := Except.ok.inj (hp.symm.trans heq)
    have hval : k'.sem a = k.sem a := by
      rw [hk']
      exact Function.update_self _ _ _
    have hqueue : k'.waiters a = insertProcQ k.priority (k.waiters a) k.runningProc := by
      rw [hk']
      show asl.waitQueue (.user a) = _
      rw [hwait, Function.update_self]
    have hperm : (k'.waiters a).Perm (k.runningProc :: k.waiters a) := by
      rw [hqueue]
      exact insertProcQ_perm _ _ _
    refine ⟨.block k.runningProc, ?_, id⟩
    have hmove := Semaphore.Move.block (s := k.semaphore a H) hzero hqueued hperm
    rw [nextHolders, if_neg (fun hnot => hnot.2 (hperm.mem_iff.mpr List.mem_cons_self))]
    simpa only [semaphore, hval] using hmove

/-- V of a holder: its unit is given back, or handed over. -/
theorem verhogen_move
    (h : k.Ok) (hnonneg : 0 ≤ k.sem a) (hmax : m = .int32 → k.sem a < INT_MAX)
    (hholder : k.runningProc ∈ H) :
    ∃ act, Semaphore.Move (k.semaphore a H) act
        ((k.v m a).semaphore a (nextHolders a k (.verhogen a) (k.v m a) H)) ∧
      act.Clean (k.semaphore a H) := by
  have hinc : m.add (k.sem a) 1 = k.sem a + 1 :=
    IntModel.add_eq (fun _ => by omega) (fun hm => by have := hmax hm; omega)
  have hdec : m.add (k.sem a + 1) (-1) = k.sem a :=
    (IntModel.add_eq (fun _ => by omega) (fun hm => by have := hmax hm; omega)).trans (by omega)
  rcases v_spec m a h.residence.aslOk with ⟨hempty, heq⟩ | ⟨x, q, asl, hq, heq, -, hwait⟩
  · have hempty : k.waiters a = [] := hempty
    rw [hinc] at heq
    refine ⟨.release k.runningProc, ?_, trivial⟩
    have hmove := Semaphore.Move.release (s := k.semaphore a H) hholder hempty
    have hholders : nextHolders a k (.verhogen a) (k.v m a) H = H.erase k.runningProc := by
      rw [nextHolders, if_pos rfl, hempty]
      simp
    rw [hholders, heq, semaphore_setSem]
    exact hmove
  · have hq : k.waiters a = x :: q := hq
    rw [hinc, hdec, Function.update_eq_self] at heq
    have hsem := semaphore_scheduleProc (a := a) (H := ∅)
      { k with
        asl := asl
        pSemkey := Function.update k.pSemkey x none
        priority := raisePriorities m
          (Function.update k.priority x (k.originalPriority x)) q } x
    rw [← heq] at hsem
    have hval : (k.v m a).sem a = k.sem a := congrArg Semaphore.value hsem
    have hrest : (k.v m a).waiters a = q := by
      refine (congrArg Semaphore.waiting hsem).trans ?_
      show asl.waitQueue (.user a) = q
      rw [hwait, Function.update_self]
    have hwoken : (k.waiters a).filter (fun y => y ∉ q) = [x] := by
      rw [hq, List.filter_cons_of_pos (by simpa using h.head_notMem hq),
        List.filter_eq_nil_iff.mpr (by simp)]
    have hholders : nextHolders a k (.verhogen a) (k.v m a) H =
        insert x (H.erase k.runningProc) := by
      rw [nextHolders, if_pos rfl, hrest, hwoken]
      ext y
      simp
    refine ⟨.handOver k.runningProc x, ?_, trivial⟩
    have hmove := Semaphore.Move.handOver (s := k.semaphore a H) (x := x) (q := q) hholder
      (by rw [show (k.semaphore a H).waiting = x :: q from hq])
    rw [hholders]
    simpa only [semaphore, hval, hrest] using hmove

/-- A termination: the dead neither wait nor hold. -/
theorem terminate_move
    {p : Option Proc} (hstep : Step m k (.terminateProcess p) k') (h : k.Ok)
    (hsound : k.Undamaging (.terminateProcess p)) (hlive : ∀ x ∈ H, k.Live x) :
    ∃ act, Semaphore.Move (k.semaphore a H) act
        (k'.semaphore a (nextHolders a k (.terminateProcess p) k' H)) ∧
      ((∀ x ∈ H, k'.Live x) → act.Clean (k.semaphore a H)) := by
  obtain ⟨l, k₁, hterm, -, rfl⟩ := hstep.vacated h hsound
  have hdead : ∀ x ∈ H, { k₁ with wForRes := k.vacated l }.Live x ↔ x ∉ l.toFinset := by
    intro x hx
    rw [List.mem_toFinset]
    exact (hterm.live_iff x).trans (and_iff_right (hlive x hx))
  refine ⟨.abandon l.toFinset, ?_, fun hspare x hx => (hdead x hx).mp (hspare x hx)⟩
  have hmove : Semaphore.Move (k.semaphore a H) (.abandon l.toFinset) _ := Semaphore.Move.abandon
  have hholders : nextHolders a k (.terminateProcess p) { k₁ with wForRes := k.vacated l } H =
      H.filter (fun x => x ∉ l.toFinset) := Finset.filter_congr hdead
  obtain ⟨asl, pParent, rfl, hwait, -⟩ := hterm.result
  rw [hholders]
  simpa only [semaphore, waiters, waitQueue, afterTermination, hwait, survivors,
    List.mem_toFinset] using hmove

/-- One operation of a run with the lock discipline, as an action of the semaphore. -/
theorem Step.semaphore_move
    {op : Operation A} {c : ℤ} (hstep : Step m k op k') (h : k.Ok) (hsound : k.Undamaging op)
    (hbounded : (k.semaphore a H).Bounded c) (hmax : m = .int32 → c ≤ INT_MAX)
    (hwrite : ∀ value, op ≠ .write a value) (hholder : k.Disciplined a H op)
    (hlive : ∀ x ∈ H, k.Live x) :
    ∃ act, Semaphore.Move (k.semaphore a H) act (k'.semaphore a (nextHolders a k op k' H)) ∧
      (k.Careful a H op k' → act.Clean (k.semaphore a H)) := by
  have hnonneg : 0 ≤ k.sem a := hbounded.nonneg
  have hcapacity : k.sem a + H.card ≤ c := hbounded.capacity
  by_cases hpass : ∃ tod, op = .passeren a tod
  · obtain ⟨tod, rfl⟩ := hpass
    obtain ⟨act, hmove, hclean⟩ := passeren_move (H := H) h hstep.1 hnonneg
      (fun hm => by have := hmax hm; omega) hstep.2
    exact ⟨act, hmove, fun hcareful => hclean (hcareful.1 tod rfl)⟩
  · by_cases hver : op = .verhogen a
    · subst hver
      have hmem : k.runningProc ∈ H := hholder rfl
      have hpos : 0 < H.card := Finset.card_pos.mpr ⟨_, hmem⟩
      rw [← show k.v m a = k' from Except.ok.inj hstep.2]
      obtain ⟨act, hmove, hclean⟩ := verhogen_move (m := m) h hnonneg
        (fun hm => by have := hmax hm; omega) hmem
      exact ⟨act, hmove, fun _ => hclean⟩
    · by_cases hterm : op.Terminates
      · cases op with
        | terminateProcess p =>
            obtain ⟨act, hmove, hclean⟩ := terminate_move (a := a) hstep h hsound hlive
            exact ⟨act, hmove, fun hcareful => hclean (hcareful.2 trivial)⟩
        | _ => exact absurd hterm id
      · refine ⟨.stay, ?_, fun _ => trivial⟩
        have hholders : nextHolders a k op k' H = H := by
          cases op with
          | passeren b tod =>
              exact if_neg (fun hb => hpass ⟨tod, by rw [hb.1]⟩)
          | verhogen b =>
              exact if_neg (fun hb => hver (by rw [hb]))
          | terminateProcess p =>
              exact absurd trivial hterm
          | _ => rfl
        rw [hholders, hstep.semaphore_eq h (fun tod htod => hpass ⟨tod, htod⟩) hver hwrite hterm]
        exact .stay

/-- The holders are alive. -/
theorem Step.holders_live
    {op : Operation A} (hstep : Step m k op k') (h : k.Ok) (hlive : ∀ x ∈ H, k.Live x) :
    ∀ x ∈ nextHolders a k op k' H, k'.Live x := by
  intro x hx
  cases op with
  | passeren b tod =>
      have hmono : k.Live x → k'.Live x := hstep.live_mono h (by simp)
      rw [nextHolders] at hx
      split_ifs at hx
      · rcases Finset.mem_insert.mp hx with rfl | hx
        · exact hmono (h.running_live hstep.1)
        · exact hmono (hlive x hx)
      · exact hmono (hlive x hx)
  | verhogen b =>
      have hmono : k.Live x → k'.Live x := hstep.live_mono h (by simp)
      rw [nextHolders] at hx
      split_ifs at hx
      · rcases Finset.mem_union.mp hx with hx | hx
        · exact hmono (hlive x (Finset.mem_of_mem_erase hx))
        · rw [List.mem_toFinset] at hx
          exact hmono (h.live_of_queued (List.mem_of_mem_filter hx))
      · exact hmono (hlive x hx)
  | terminateProcess p =>
      exact (Finset.mem_filter.mp hx).2
  | _ =>
      exact hstep.live_mono h (by simp) (hlive x hx)

end Steps

section Runs

variable {s : ℕ → Kernel A} {e : ℕ → Operation A} {n : ℕ}

/--
Mutual exclusion.  In every run that writes to the semaphore by P and V only, in which only
holders execute V and no termination meets a stale registration: the holders are alive, and
there are never more of them than units.  If moreover no process asks for a second unit and
no holder is terminated then a process waits only while all the units are held.
-/
theorem mutual_exclusion
    (hboot : (s 0).Booted) (hrun : IsRun (Step m) s e n)
    (hsound : ∀ i < n, (s i).Undamaging (e i))
    (hpos : 0 ≤ (s 0).sem a) (hmax : m = .int32 → (s 0).sem a ≤ INT_MAX)
    (hwrite : ∀ i < n, ∀ value, e i ≠ .write a value)
    (hholder : ∀ i < n, (s i).Disciplined a (holders a s e i) (e i)) :
    ∀ i ≤ n,
      (∀ x ∈ holders a s e i, (s i).Live x) ∧
      ((holders a s e i).card : ℤ) ≤ (s 0).sem a ∧
      ((∀ j < i, (s j).Careful a (holders a s e j) (e j) (s (j + 1))) →
        (s i).waiters a ≠ [] → ((holders a s e i).card : ℤ) = (s 0).sem a) := by
  have hok : ∀ i ≤ n, (s i).Ok :=
    hrun.invariant_of hsound hboot.fresh.ok (fun _ _ _ h hC hstep => h.step_of_undamaging hC hstep)
  have hempty : (s 0).waiters a = [] := hboot.fresh.noWaiters _
  have hlive : ∀ i ≤ n, ∀ x ∈ holders a s e i, (s i).Live x := by
    intro i
    induction i with
    | zero =>
        exact fun _ x hx => absurd hx (Finset.notMem_empty x)
    | succ i ih =>
        exact fun hi => (hrun i hi).holders_live (hok i (by omega)) (ih (by omega))
  have hbounded : ∀ i ≤ n, ((s i).semaphore a (holders a s e i)).Bounded ((s 0).sem a) := by
    intro i
    induction i with
    | zero =>
        exact fun _ => ⟨hpos, fun hne => absurd hempty hne, by simp [semaphore, holders]⟩
    | succ i ih =>
        intro hi
        obtain ⟨act, hmove, -⟩ := (hrun i hi).semaphore_move (hok i (by omega)) (hsound i hi)
          (ih (by omega)) hmax (hwrite i hi) (hholder i hi) (hlive i (by omega))
        exact (ih (by omega)).move hmove
  have hexhaustive : ∀ i ≤ n,
      (∀ j < i, (s j).Careful a (holders a s e j) (e j) (s (j + 1))) →
      ((s i).semaphore a (holders a s e i)).Exhaustive ((s 0).sem a) := by
    intro i
    induction i with
    | zero =>
        intro _ _
        refine ⟨?_, fun x _ => Finset.notMem_empty x, by simp [semaphore, holders]⟩
        rw [show ((s 0).semaphore a (holders a s e 0)).waiting = [] from hempty]
        exact List.nodup_nil
    | succ i ih =>
        intro hi hcareful
        obtain ⟨act, hmove, hclean⟩ := (hrun i hi).semaphore_move (hok i (by omega)) (hsound i hi)
          (hbounded i (by omega)) hmax (hwrite i hi) (hholder i hi) (hlive i (by omega))
        exact (ih (by omega) (fun j hj => hcareful j (by omega))).move hmove
          (hclean (hcareful i (by omega)))
  exact fun i hi => ⟨hlive i hi, (hbounded i hi).card_le, fun hcareful hwait =>
    (hexhaustive i hi hcareful).card_eq (hbounded i hi) hwait⟩

/-- Two processes use a mutex: the second one waits for it, and gets it. -/
def mutexHistory : List (Operation umps) :=
  [.passeren mutexMps 0, .timeSlice, .passeren mutexMps 0, .verhogen mutexMps]

abbrev mutexRun (i : ℕ) : Kernel umps :=
  states (next .int32) (bootMpsWith (fun _ => 1) [1, 2]) mutexHistory i

abbrev mutexOperation (i : ℕ) : Operation umps :=
  mutexHistory.getD i .timeSlice

theorem mutexHistory_isRun : IsRun (Step .int32) mutexRun mutexOperation 4 :=
  isRun_of_accepts (by decide +kernel)

/-- While the second process waits, exactly one process holds the mutex. -/
theorem mutual_exclusion_mutexHistory :
    ((holders mutexMps mutexRun mutexOperation 3).card : ℤ) = (mutexRun 0).sem mutexMps := by
  refine (mutual_exclusion (bootMpsWith_booted _ (by decide) (by decide)) mutexHistory_isRun
    (fun i hi => ?_) (by decide +kernel) (fun _ => by decide +kernel) (fun i hi value => ?_)
    (fun i hi hver => ?_) 3 (by decide)).2.2 (fun j hj => ⟨fun tod hpass => ?_, fun hterm => ?_⟩)
    (by decide +kernel)
  · interval_cases i <;> exact trivial
  · interval_cases i <;> simp [mutexOperation, mutexHistory]
  · interval_cases i
    · exact absurd hver (by simp [mutexOperation, mutexHistory])
    · exact absurd hver (by simp [mutexOperation, mutexHistory])
    · exact absurd hver (by simp [mutexOperation, mutexHistory])
    · decide +kernel
  · interval_cases j
    · decide +kernel
    · exact absurd hpass (by simp [mutexOperation, mutexHistory])
    · decide +kernel
  · interval_cases j <;> exact absurd hterm id

end Runs

end Kernel

end Bikaya
