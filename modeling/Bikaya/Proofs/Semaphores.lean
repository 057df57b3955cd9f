import Mathlib.Tactic.IntervalCases
import Bikaya.Proofs.Conservation

/-!
# Bikaya: semaphore accounting

The integer of a semaphore, the processes waiting on it, and the history of the operations
on it agree: no unit is lost or created, and processes wait only while the integer is 0.

**Plan.**  `released` and `granted` count the units in the history of a run.  P and V
change the integer and the queue by one together (`passeren_accounting`,
`verhogen_accounting`), and all other operations leave the integer alone
(`other_accounting`).  The integer is an `int` of the model, so that a V at the greatest
one is an overflow.

**Results.**
* `step_accounting`: the balance over one step.
* `semaphore_accounting`: the balance, and the emptiness of the queue of a positive
  integer, in every state of a run.
* `semaphore_overflow`: the V that overflows.
-/

namespace Bikaya

open TransitionSystem

/-- The greatest value of the machine's `int`. -/
abbrev INT_MAX : Int := 2147483647

/-- Additions that do not overflow are additions. -/
theorem IntModel.add_eq
    {m : IntModel} {a b : Int}
    (hlo : m = .int32 → -2147483648 ≤ a + b) (hhi : m = .int32 → a + b ≤ INT_MAX) :
    m.add a b = a + b := by
  cases m with
  | unbounded =>
      rfl
  | int32 =>
      refine Int.bmod_eq_of_le ?_ ?_
      · have := hlo rfl
        omega
      · have := hhi rfl
        unfold INT_MAX at this
        omega

namespace Kernel

variable {A : Arch} {k k' : Kernel A} {m : IntModel}

/-- The waiting queue of a user semaphore. -/
abbrev waiters (k : Kernel A) (a : SemAddr) : List Proc :=
  k.waitQueue (.user a)

/-- What an operation adds to the units of the semaphore: one for each V. -/
def released (a : SemAddr) : Operation A → Int
  | .verhogen b => if b = a then 1 else 0
  | _ => 0

/--
How many P operations on the semaphore are granted: the P of the caller if it is
not waiting afterwards, and the P of each process that a V dequeues.
-/
def granted (a : SemAddr) (k : Kernel A) (op : Operation A) (k' : Kernel A) : Int :=
  match op with
  | .passeren b _ => if b = a ∧ k.runningProc ∉ k'.waiters a then 1 else 0
  | .verhogen b =>
      if b = a then ((k.waiters a).filter (fun x => x ∉ k'.waiters a)).length else 0
  | _ => 0

theorem granted_nonneg (a : SemAddr) (k : Kernel A) (op : Operation A) (k' : Kernel A) :
    0 ≤ granted a k op k' := by
  unfold granted
  split
  · split_ifs <;> decide
  · split_ifs
    · exact Int.natCast_nonneg _
    · exact le_rfl
  · exact le_rfl

theorem released_of_ne
    {a : SemAddr} {op : Operation A} (hv : op ≠ .verhogen a) :
    released a op = 0 := by
  cases op with
  | verhogen b =>
      have hba : b ≠ a := fun hba => hv (by rw [hba])
      simp [released, hba]
  | _ => rfl

theorem granted_of_ne
    {a : SemAddr} {op : Operation A} (hp : ∀ tod, op ≠ .passeren a tod)
    (hv : op ≠ .verhogen a) :
    granted a k op k' = 0 := by
  cases op with
  | verhogen b =>
      have hba : b ≠ a := fun hba => hv (by rw [hba])
      simp [granted, hba]
  | passeren b tod =>
      have hba : b ≠ a := fun hba => hp tod (by rw [hba])
      simp [granted, hba]
  | _ => rfl

/-- The integer of the semaphore agrees with its waiting queue. -/
structure SemOk (k : Kernel A) (a : SemAddr) : Prop where
  nonneg : 0 ≤ k.sem a
  blocked : k.waiters a ≠ [] → k.sem a = 0

theorem scheduleProc_sem (k : Kernel A) (x : Proc) :
    (k.scheduleProc x).sem = k.sem ∧ (k.scheduleProc x).waitQueue = k.waitQueue := by
  obtain ⟨priority, ready, running, heq⟩ := scheduleProc_frame k x
  rw [heq]
  exact ⟨rfl, rfl⟩

section Steps

variable {a : SemAddr}

/-- P on the semaphore. -/
theorem passeren_accounting
    (h : k.Ok) (hsem : k.SemOk a) (hmax : m = .int32 → k.sem a ≤ INT_MAX)
    (hidle : k.runningProc ≠ .idle) {tod : Word} (hp : k.p m a tod = .ok k') :
    k'.SemOk a ∧ k'.sem a = k.sem a - granted a k (.passeren a tod) k' := by
  have hdec : m.add (k.sem a) (-1) = k.sem a - 1 :=
    IntModel.add_eq (fun _ => by have := hsem.nonneg; omega) (fun hm => by have := hmax hm; omega)
  have hinc : m.add (k.sem a - 1) 1 = k.sem a :=
    (IntModel.add_eq (fun _ => by have := hsem.nonneg; omega)
      (fun hm => by have := hmax hm; omega)).trans (by omega)
  rcases p_spec m a h hidle tod with ⟨hpos, heq⟩ | ⟨hneg, asl, heq, -, hwait⟩
  · -- granted at once: the integer was positive, so nobody waits
    rw [hdec] at hpos heq
    have hk' := Except.ok.inj (hp.symm.trans heq)
    have hval : k'.sem a = k.sem a - 1 := by
      rw [hk']
      exact Function.update_self _ _ _
    have hempty : k.waiters a = [] := by
      by_contra hne
      have := hsem.blocked hne
      omega
    have hempty' : k'.waiters a = [] := by
      rw [hk']
      exact hempty
    have hnot : k.runningProc ∉ k'.waiters a := by
      rw [hempty']
      exact List.not_mem_nil
    refine ⟨⟨by rw [hval]; omega, fun hne => absurd hempty' hne⟩, ?_⟩
    rw [granted, if_pos ⟨rfl, hnot⟩]
    exact hval
  · -- the caller waits: the integer was 0, and is 0 again
    rw [hdec] at hneg
    rw [hdec, hinc] at heq
    have hk' := Except.ok.inj (hp.symm.trans heq)
    rw [runNextReady_eq] at hk'
    have hzero : k.sem a = 0 := by
      have := hsem.nonneg
      omega
    have hval : k'.sem a = k.sem a := by
      rw [hk']
      exact Function.update_self _ _ _
    have hqueue : k'.waiters a = insertProcQ k.priority (k.waiters a) k.runningProc := by
      rw [hk']
      show asl.waitQueue (.user a) = _
      rw [hwait, Function.update_self]
    refine ⟨⟨by rw [hval]; exact hsem.nonneg, fun _ => hval.trans hzero⟩, ?_⟩
    rw [hval, granted, if_neg, sub_zero]
    rintro ⟨-, hnot⟩
    rw [hqueue] at hnot
    exact hnot (mem_insertProcQ.mpr (Or.inl rfl))

/-- V on the semaphore. -/
theorem verhogen_accounting
    (h : k.Ok) (hsem : k.SemOk a) (hmax : m = .int32 → k.sem a < INT_MAX) :
    (k.v m a).SemOk a ∧
      (k.v m a).sem a = k.sem a + 1 - granted a k (.verhogen a) (k.v m a) := by
  have hinc : m.add (k.sem a) 1 = k.sem a + 1 :=
    IntModel.add_eq (fun _ => by have := hsem.nonneg; omega) (fun hm => by have := hmax hm; omega)
  have hdec : m.add (k.sem a + 1) (-1) = k.sem a :=
    (IntModel.add_eq (fun _ => by have := hsem.nonneg; omega)
      (fun hm => by have := hmax hm; omega)).trans (by omega)
  rcases v_spec m a h.residence.aslOk with ⟨hempty, heq⟩ | ⟨x, q, asl, hq, heq, -, hwait⟩
  · rw [hinc] at heq
    rw [heq]
    refine ⟨⟨?_, fun hne => absurd hempty hne⟩, ?_⟩
    · show 0 ≤ Function.update k.sem a (k.sem a + 1) a
      rw [Function.update_self]
      have := hsem.nonneg
      omega
    · show Function.update k.sem a (k.sem a + 1) a = _
      rw [Function.update_self, granted, if_pos rfl, show k.waiters a = [] from hempty]
      simp
  · -- the unit goes to the first waiting process
    rw [hinc, hdec] at heq
    obtain ⟨hsame, hqueue⟩ := scheduleProc_sem
      { k with
        sem := Function.update k.sem a (k.sem a)
        asl := asl
        pSemkey := Function.update k.pSemkey x none
        priority := raisePriorities m
          (Function.update k.priority x (k.originalPriority x)) q } x
    rw [← heq] at hsame hqueue
    have hval : (k.v m a).sem a = k.sem a := by
      rw [hsame]
      exact Function.update_self _ _ _
    have hrest : (k.v m a).waiters a = q := by
      show (k.v m a).waitQueue (.user a) = q
      rw [hqueue]
      show asl.waitQueue (.user a) = q
      rw [hwait, Function.update_self]
    have hzero : k.sem a = 0 := hsem.blocked (by rw [show k.waiters a = x :: q from hq]; simp)
    have hnodup : (k.waiters a).Nodup := h.residence.wait_nodup _
    rw [show k.waiters a = x :: q from hq] at hnodup
    have hwoken : (k.waiters a).filter (fun y => y ∉ (k.v m a).waiters a) = [x] := by
      rw [hrest, show k.waiters a = x :: q from hq]
      have hxq := (List.nodup_cons.mp hnodup).1
      rw [List.filter_cons_of_pos (by simpa using hxq)]
      rw [List.filter_eq_nil_iff.mpr (by simp)]
    refine ⟨⟨by rw [hval]; exact hsem.nonneg, fun _ => hval.trans hzero⟩, ?_⟩
    rw [hval, granted, if_pos rfl, hwoken]
    simp

/-- An operation that is neither P nor V on the semaphore leaves its integer alone. -/
theorem other_accounting
    (h : k.Conserving) (hsem : k.SemOk a) {op : Operation A}
    (hstep : Step m k op k') (hfree : op.DeviceFree)
    (hp : ∀ tod, op ≠ .passeren a tod) (hv : op ≠ .verhogen a)
    (hwrite : ∀ value, op ≠ .write a value) :
    k'.SemOk a ∧ k'.sem a = k.sem a := by
  have hkeep : k'.sem a = k.sem a → (k'.waiters a).Sublist (k.waiters a) →
      k'.SemOk a ∧ k'.sem a = k.sem a := by
    intro hval hsub
    refine ⟨⟨hval ▸ hsem.nonneg, fun hne => hval.trans (hsem.blocked ?_)⟩, hval⟩
    intro hempty
    rw [hempty] at hsub
    exact hne (List.sublist_nil.mp hsub)
  have hsched : ∀ (k₁ : Kernel A) (x : Proc), k' = k₁.scheduleProc x →
      k₁.sem a = k.sem a → k₁.waiters a = k.waiters a → k'.SemOk a ∧ k'.sem a = k.sem a := by
    intro k₁ x heq hval hqueue
    obtain ⟨hsem', hqueue'⟩ := scheduleProc_sem k₁ x
    rw [← heq] at hsem' hqueue'
    refine hkeep ((congrFun hsem' a).trans hval) ?_
    show (k'.waitQueue (.user a)).Sublist _
    rw [hqueue']
    exact (List.Sublist.refl _).trans (hqueue ▸ List.Sublist.refl _)
  obtain ⟨hadm, hexec⟩ := hstep
  cases op with
  | createProcess s priority =>
      cases hnil : k.pcbFreeH with
      | nil =>
          simp only [exec, createProcess_nil hnil] at hexec
          obtain rfl : k = k' := Except.ok.inj hexec
          exact hkeep rfl (List.Sublist.refl _)
      | cons x free =>
          obtain ⟨-, -, -, hxrun⟩ := h.ok.adopt hnil hadm s priority
          simp only [exec, createProcess_cons hnil hxrun] at hexec
          exact hsched _ x (Except.ok.inj hexec).symm rfl rfl
  | terminateProcess p =>
      obtain ⟨l, k₁, hterm, hdone, -⟩ :=
        h.terminate (h.ok.target_live (fun _ => hadm.1) hadm.2)
      simp only [exec, hterm] at hexec
      obtain rfl : k₁ = k' := Except.ok.inj hexec
      obtain ⟨asl, pParent, rfl, hwait, -⟩ := hdone.result
      refine hkeep rfl ?_
      show (asl.waitQueue (.user a)).Sublist _
      rw [hwait]
      exact List.filter_sublist
  | passeren b tod =>
      have hba : a ≠ b := fun hab => hp tod (by rw [hab])
      have hkey : SemKey.user a ≠ .user b := fun hk => hba (SemKey.user.inj hk)
      simp only [exec] at hexec
      rcases p_spec m b h.ok hadm tod with ⟨-, heq⟩ | ⟨-, asl, heq, -, hwait⟩
      · obtain rfl := Except.ok.inj (hexec.symm.trans heq)
        exact hkeep (Function.update_of_ne hba _ _) (List.Sublist.refl _)
      · have hk' := Except.ok.inj (hexec.symm.trans heq)
        rw [runNextReady_eq] at hk'
        refine hkeep (by rw [hk']; exact Function.update_of_ne hba _ _) ?_
        rw [hk']
        show (asl.waitQueue (.user a)).Sublist _
        rw [hwait, Function.update_of_ne hkey]
  | verhogen b =>
      have hba : a ≠ b := fun hab => hv (by rw [hab])
      have hkey : SemKey.user a ≠ .user b := fun hk => hba (SemKey.user.inj hk)
      simp only [exec] at hexec
      obtain rfl := Except.ok.inj hexec
      rcases v_spec m b h.ok.residence.aslOk with ⟨-, heq⟩ | ⟨x, q, asl, hq, heq, -, hwait⟩
      · rw [heq]
        rw [heq] at hkeep
        exact hkeep (Function.update_of_ne hba _ _) (List.Sublist.refl _)
      · refine hsched _ x heq (Function.update_of_ne hba _ _) ?_
        show asl.waitQueue (.user a) = _
        rw [hwait, Function.update_of_ne hkey]
  | timeSlice =>
      simp only [exec] at hexec
      obtain rfl := Except.ok.inj hexec
      obtain ⟨priority, ready, running, heq⟩ := timeSlice_frame m k
      rw [heq] at hkeep ⊢
      exact hkeep rfl (List.Sublist.refl _)
  | write b value =>
      have hba : a ≠ b := fun hab => hwrite value (by rw [hab])
      simp only [exec] at hexec
      obtain rfl := Except.ok.inj hexec
      exact hkeep (Function.update_of_ne hba _ _) (List.Sublist.refl _)
  | waitIo _ _ _ _ =>
      exact absurd hfree id
  | doneIo _ _ =>
      exact absurd hfree id

end Steps

/-- One step: the units of the semaphore are accounted for. -/
theorem step_accounting
    {a : SemAddr} (h : k.Conserving) (hsem : k.SemOk a)
    (hmax : m = .int32 → k.sem a ≤ INT_MAX) {op : Operation A}
    (hstep : Step m k op k') (hfree : op.DeviceFree) (hwrite : ∀ value, op ≠ .write a value)
    (hv : op = .verhogen a → m = .int32 → k.sem a < INT_MAX) :
    k'.SemOk a ∧ k'.sem a = k.sem a + (released a op - granted a k op k') := by
  by_cases hpass : ∃ tod, op = .passeren a tod
  · obtain ⟨tod, rfl⟩ := hpass
    obtain ⟨hok, hval⟩ := passeren_accounting h.ok hsem hmax hstep.1 hstep.2
    refine ⟨hok, ?_⟩
    rw [hval, released_of_ne (by simp)]
    omega
  · by_cases hver : op = .verhogen a
    · subst hver
      obtain rfl : k.v m a = k' := Except.ok.inj hstep.2
      obtain ⟨hok, hval⟩ := verhogen_accounting h.ok hsem (hv rfl)
      refine ⟨hok, ?_⟩
      rw [hval, released, if_pos rfl]
      omega
    · have hp : ∀ tod, op ≠ .passeren a tod := fun tod htod => hpass ⟨tod, htod⟩
      obtain ⟨hok, hval⟩ := other_accounting h hsem hstep hfree hp hver hwrite
      refine ⟨hok, ?_⟩
      rw [hval, released_of_ne hver, granted_of_ne hp hver]
      omega

section Claims

variable {s : ℕ → Kernel A} {e : ℕ → Operation A} {n : ℕ}

/--
Semaphore accounting, over every run without device I/O in which only P and V
write to the semaphore and no V is executed at the greatest `int`: the integer is
its initial value plus the V executed minus the P granted, it is never negative,
and processes wait only while it is 0.
-/
theorem semaphore_accounting
    (hboot : (s 0).Booted) (hrun : IsRun (Step m) s e n)
    (hfree : ∀ i < n, (e i).DeviceFree)
    {a : SemAddr} (hpos : 0 ≤ (s 0).sem a) (hint : m = .int32 → (s 0).sem a ≤ INT_MAX)
    (hwrite : ∀ i < n, ∀ value, e i ≠ .write a value)
    (hv : ∀ i < n, e i = .verhogen a → m = .int32 → (s i).sem a < INT_MAX) :
    ∀ i ≤ n,
      0 ≤ (s i).sem a ∧
      (s i).sem a = (s 0).sem a + ∑ j ∈ Finset.range i, released a (e j) -
        ∑ j ∈ Finset.range i, granted a (s j) (e j) (s (j + 1)) ∧
      ((s i).waiters a ≠ [] → (s i).sem a = 0) ∧
      ((s 0).sem a = 1 →
        ∑ j ∈ Finset.range i, granted a (s j) (e j) (s (j + 1)) ≤
          ∑ j ∈ Finset.range i, released a (e j) + 1) ∧
      (∀ j < i, ∀ p, e j = .terminateProcess p → (s (j + 1)).sem a = (s j).sem a) := by
  have hcons := conserving_of_run hboot hrun hfree
  have hstart : (s 0).SemOk a :=
    ⟨hpos, fun hne => absurd (hboot.fresh.noWaiters _) hne⟩
  -- the invariant: the semaphore is in order, and its integer is an `int`
  have hinv : ∀ i ≤ n, (s i).SemOk a ∧ (m = .int32 → (s i).sem a ≤ INT_MAX) := by
    intro i
    induction i with
    | zero =>
        exact fun _ => ⟨hstart, hint⟩
    | succ i ih =>
        intro hi
        obtain ⟨hsem, hmax⟩ := ih (by omega)
        obtain ⟨hsem', hval⟩ := step_accounting (hcons i (by omega)) hsem hmax
          (hrun i (by omega)) (hfree i (by omega)) (hwrite i (by omega)) (hv i (by omega))
        refine ⟨hsem', fun hm => ?_⟩
        have hgr := granted_nonneg a (s i) (e i) (s (i + 1))
        by_cases hver : e i = .verhogen a
        · have := hv i (by omega) hver hm
          have hrel : released a (e i) = 1 := by
            rw [hver]
            exact if_pos rfl
          omega
        · have := hmax hm
          have hrel := released_of_ne hver
          omega
  have hstep : ∀ i < n, (s (i + 1)).sem a = (s i).sem a +
      (released a (e i) - granted a (s i) (e i) (s (i + 1))) :=
    fun i hi => (step_accounting (hcons i (by omega)) (hinv i (by omega)).1 (hinv i (by omega)).2
      (hrun i hi) (hfree i hi) (hwrite i hi) (hv i hi)).2
  have hbalance := balance (fun k : Kernel A => k.sem a) hstep
  intro i hi
  have hval := hbalance i hi
  rw [Finset.sum_sub_distrib] at hval
  obtain ⟨hsem, -⟩ := hinv i hi
  have hnonneg := hsem.nonneg
  refine ⟨hnonneg, by omega, hsem.blocked, fun hone => by omega, ?_⟩
  · intro j hj p hterm
    have := hstep j (by omega)
    rw [hterm] at this
    simpa [released, granted] using this

theorem semaphore_accounting_creationHistory :
    (states (next .int32) (bootMps [1, 2]) creationHistory 4).sem ⟨4, by decide⟩ =
      (states (next .int32) (bootMps [1, 2]) creationHistory 0).sem ⟨4, by decide⟩ +
        ∑ j ∈ Finset.range 4, released ⟨4, by decide⟩ (creationHistory.getD j .timeSlice) -
        ∑ j ∈ Finset.range 4, granted ⟨4, by decide⟩
          (states (next .int32) (bootMps [1, 2]) creationHistory j)
          (creationHistory.getD j .timeSlice)
          (states (next .int32) (bootMps [1, 2]) creationHistory (j + 1)) :=
  (semaphore_accounting (bootMps_booted (by decide) (by decide))
    creationHistory_isRun (by decide)
    (by decide +kernel) (fun _ => by decide +kernel)
    (fun i hi value => by
      have : i < 5 := hi
      interval_cases i <;> simp [creationHistory])
    (fun i hi _ _ => by
      have : i < 5 := hi
      interval_cases i <;> decide +kernel)
    4 (by decide)).2.1

/-- At the greatest `int` a V overflows, and leaves the semaphore negative. -/
theorem semaphore_overflow :
    (bootMpsWith (fun _ => INT_MAX) [1]).Booted ∧
      IsRun (Step .int32)
        (states (next .int32) (bootMpsWith (fun _ => INT_MAX) [1]) [.verhogen ⟨4, by decide⟩])
        (fun i => [.verhogen ⟨4, by decide⟩].getD i .timeSlice) 1 ∧
      0 ≤ (bootMpsWith (fun _ => INT_MAX) [1]).sem ⟨4, by decide⟩ ∧
      ¬ 0 ≤ (states (next .int32) (bootMpsWith (fun _ => INT_MAX) [1])
        [.verhogen ⟨4, by decide⟩] 1).sem ⟨4, by decide⟩ :=
  ⟨bootMpsWith_booted _ (by decide) (by decide),
    isRun_of_accepts (by decide +kernel), by decide +kernel, by decide +kernel⟩

end Claims

end Kernel

end Bikaya
