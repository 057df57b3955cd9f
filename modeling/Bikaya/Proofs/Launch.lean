import Bikaya.Proofs.Entries

/-!
# Bikaya: the launch of the system

`bikaya_launch` for every list of starting processes.  The processes get the entries of the
table in the order of their data and run in the stable order of their priorities; a list
that is empty or too long stops the machine with a message.

**Plan.**  `startEntries` is the table of the starting processes, and `startOrder` its
stable sort.  `Populated` follows the loop that adds them; the first one that does not fit
stops it (`foldlM_overflow`).  Insertion by priority sorts, and an idle processor is
launched with the first of the ready queue.

**Results.**
* `Booting.readyQueue_eq`: the ready queue of a booted kernel.
* `launch_outcome`: the outcome of `bikaya_launch` for every list of starting processes,
  the two panics with their messages included.
-/

namespace Bikaya

open StableInsert AgingQueue

variable {A : Arch}

/-- The state that `populate_pcb` leaves in a cleared PCB. -/
def initialState (A : Arch) (index : ℕ) (data : ProcInitData) : State A :=
  let s := A.setPc State.reset data.method
  let s := A.setSp s (A.ramTop - A.frameSize * BitVec.ofNat 32 (index + 1))
  let s := A.setIntervalTimerInterrupts s data.timerIntOn
  let s := A.setOtherInterrupts s data.otherIntsOn
  A.populateMode s data

/-- The entries of the table that `n` starting processes get. -/
def startEntries (n : ℕ) : List Proc :=
  ((List.finRange MAXPROC).take n).map .pcb

/-- The priority in the data of a starting process. -/
def startPriority (startingProcs : List ProcInitData) (p : Proc) : Int :=
  (startingProcs[p.index]?).elim 0 ProcInitData.priority

/-- The starting processes by decreasing priority, those of one priority in the given order. -/
def startOrder (startingProcs : List ProcInitData) : List Proc :=
  (startEntries startingProcs.length).mergeSort
    (fun x y => decide (startPriority startingProcs y ≤ startPriority startingProcs x))

theorem mem_startEntries {n : ℕ} {x : Proc} :
    x ∈ startEntries n ↔ ∃ i : Fin MAXPROC, x = .pcb i ∧ (i : ℕ) < n := by
  simp only [startEntries, List.mem_map, List.mem_take_iff_getElem, List.getElem_finRange]
  constructor
  · rintro ⟨i, ⟨j, hj, rfl⟩, rfl⟩
    refine ⟨_, rfl, ?_⟩
    simp at hj ⊢
    omega
  · rintro ⟨i, rfl, hi⟩
    exact ⟨i, ⟨i, by simp; omega, Fin.ext rfl⟩, rfl⟩

theorem startEntries_nodup (n : ℕ) : (startEntries n).Nodup := by
  refine List.Nodup.map (fun i j h => Proc.pcb.inj h) ?_
  exact (List.nodup_finRange _).sublist (List.take_sublist _ _)

/-- The entries stand in the order of their indices. -/
theorem precedes_startEntries
    {n : ℕ} {x y : Proc} (hx : x ∈ startEntries n) (hy : y ∈ startEntries n)
    (hxy : x.index < y.index) :
    Precedes (startEntries n) x y := by
  have hsorted : (startEntries n).Pairwise (fun x y => x.index < y.index) := by
    refine List.Pairwise.map _ (fun i j hij => ?_)
      ((List.pairwise_lt_finRange MAXPROC).sublist (List.take_sublist n _))
    exact hij
  rcases precedes_or_precedes hx hy (fun heq => absurd hxy (by rw [heq]; exact lt_irrefl _))
    with h | h
  · exact h
  · have hyx : y.index < x.index := List.pairwise_iff_forall_sublist.mp hsorted h
    omega

namespace Kernel

variable {k k' : Kernel A} {sem : SemAddr → Int} {startingProcs : List ProcInitData}

/-- The PCBs of the first starting processes hold their data, and nothing else is touched. -/
structure Populated (k : Kernel A) (sem : SemAddr → Int) (startingProcs : List ProcInitData) :
    Prop where
  priority : ∀ (i : Fin MAXPROC) data, startingProcs[(i : ℕ)]? = some data →
    k.priority (.pcb i) = data.priority
  state : ∀ (i : Fin MAXPROC) data, startingProcs[(i : ℕ)]? = some data →
    k.pS (.pcb i) = initialState A i data
  sem : k.sem = sem
  okbuf : k.okbuf = []

/-- One more starting process. -/
theorem Populated.addStartingProc
    (h : k.Populated sem startingProcs) (hboot : k.Booting startingProcs.length)
    (hlen : startingProcs.length < MAXPROC) {data : ProcInitData}
    (hadd : k.addStartingProc data = .ok k') :
    k'.Populated sem (startingProcs ++ [data]) := by
  set x : Proc := .pcb ⟨startingProcs.length, hlen⟩ with hx
  have hfree : k.pcbFreeH =
      x :: ((List.finRange MAXPROC).drop (startingProcs.length + 1)).map .pcb := by
    rw [hboot.free, List.drop_eq_getElem_cons (by simpa using hlen)]
    simp [hx]
  rw [Kernel.addStartingProc, allocPcb, hfree] at hadd
  obtain rfl := Except.ok.inj hadd
  -- the entry of the new process, and those before it
  have hcases : ∀ (i : Fin MAXPROC) d, (startingProcs ++ [data])[(i : ℕ)]? = some d →
      (Proc.pcb i = x ∧ d = data) ∨
        (Proc.pcb i ≠ x ∧ startingProcs[(i : ℕ)]? = some d) := by
    intro i d hd
    rcases lt_trichotomy (i : ℕ) startingProcs.length with hlt | heq | hgt
    · rw [List.getElem?_append_left hlt] at hd
      refine Or.inr ⟨fun hix => ?_, hd⟩
      have hval : (i : ℕ) = startingProcs.length := congrArg Fin.val (Proc.pcb.inj hix)
      omega
    · rw [heq, List.getElem?_append_right le_rfl, Nat.sub_self] at hd
      exact Or.inl ⟨congrArg Proc.pcb (Fin.ext heq), (Option.some.inj hd).symm⟩
    · rw [List.getElem?_eq_none (by simp; omega)] at hd
      exact absurd hd (by simp)
  constructor
  · intro i d hd
    rcases hcases i d hd with ⟨hix, rfl⟩ | ⟨hix, hd⟩
    · rw [hix]
      exact Function.update_self _ _ _
    · refine Eq.trans ?_ (h.priority i d hd)
      exact (Function.update_of_ne hix _ _).trans (Function.update_of_ne hix _ _)
  · intro i d hd
    rcases hcases i d hd with ⟨hix, rfl⟩ | ⟨hix, hd⟩
    · have hindex : (i : ℕ) = startingProcs.length := congrArg Proc.index hix
      rw [hix, hindex]
      simp [populatePcb, initialState, hx, Proc.index]
    · refine Eq.trans ?_ (h.state i d hd)
      exact (Function.update_of_ne hix _ _).trans (Function.update_of_ne hix _ _)
  · exact h.sem
  · exact h.okbuf

/-- All the starting processes. -/
theorem Populated.foldlM
    (rest : List ProcInitData) :
    ∀ {k : Kernel A} {startingProcs : List ProcInitData}, k.Populated sem startingProcs →
      k.Booting startingProcs.length → (startingProcs ++ rest).length ≤ MAXPROC →
      ∃ k', rest.foldlM Kernel.addStartingProc k = .ok k' ∧
        k'.Populated sem (startingProcs ++ rest) ∧ k'.Booting (startingProcs ++ rest).length := by
  induction rest with
  | nil =>
      intro k startingProcs h hboot _
      exact ⟨k, rfl, by rwa [List.append_nil], by rwa [List.append_nil]⟩
  | cons data rest ih =>
      intro k startingProcs h hboot hlen
      have hlt : startingProcs.length < MAXPROC := by
        rw [List.length_append, List.length_cons] at hlen
        omega
      obtain ⟨k₁, hadd, hboot₁⟩ := hboot.addStartingProc hlt data
      have h₁ := h.addStartingProc hboot hlt hadd
      rw [show startingProcs ++ data :: rest = (startingProcs ++ [data]) ++ rest by simp] at hlen ⊢
      obtain ⟨k₂, hfold, h₂, hboot₂⟩ :=
        ih h₁ (by rwa [List.length_append]) hlen
      refine ⟨k₂, ?_, h₂, hboot₂⟩
      rw [List.foldlM_cons, hadd]
      exact hfold

/-- The ready queue before the launch. -/
theorem Booting.readyQueue_eq
    (hboot : k.Booting startingProcs.length) (h : k.Populated sem startingProcs) :
    k.readyQueue = startOrder startingProcs := by
  have hready : ∀ x, x ∈ k.readyQueue ↔ x ∈ startEntries startingProcs.length := by
    intro x
    rw [hboot.ready, mem_startEntries]
  have hpriority : ∀ x ∈ k.readyQueue, startPriority startingProcs x = k.priority x := by
    intro x hx
    obtain ⟨i, rfl, hi⟩ := (hboot.ready x).mp hx
    have hdata := List.getElem?_eq_getElem hi
    rw [h.priority i _ hdata]
    simp [startPriority, Proc.index, hdata]
  refine eq_mergeSort_of_stable (startEntries_nodup _) ?_ ?_ (fun x y hxy hkey => ?_)
  · exact (List.perm_ext_iff_of_nodup hboot.nodup (startEntries_nodup _)).mpr hready
  · exact (SameOrder.of_eq hpriority).nonIncreasing hboot.sorted
  · have hx := hxy.left_mem
    have hy := hxy.right_mem
    rw [hpriority x hx, hpriority y hy] at hkey
    exact precedes_startEntries ((hready x).mp hx) ((hready y).mp hy) (hboot.inOrder x y hxy hkey)

/-- The boot ends with the set-up of the idle process and of the devices, and the launch. -/
theorem boot_eq
    {k₁ : Kernel A} {r : Proc} {q : List Proc} (tod : Word × Word)
    (hfold : startingProcs.foldlM Kernel.addStartingProc
      { (bss sem : Kernel A).initPcbs with
        asl := (bss sem : Kernel A).initPcbs.asl.init
        readyQueue := [] } = .ok k₁)
    (hq : k₁.readyQueue = r :: q) :
    boot sem startingProcs tod = .ok
      { { k₁ with pS := Function.update k₁.pS .idle State.reset }.populatePcb .idle
          (idleProcData A) with
        wForCmdSem := fun _ => 1
        wForRes := fun _ => none
        readyQueue := q
        runningProc := r
        todAtStart := Function.update k₁.todAtStart r tod.1
        todCache := Function.update k₁.todCache r tod.2 } := by
  simp only [boot, initScheduler, hfold, bind, Except.bind, launch, populatePcb, hq]
  rfl

theorem populated_start (sem : SemAddr → Int) :
    Populated
      { (bss sem : Kernel A).initPcbs with
        asl := (bss sem : Kernel A).initPcbs.asl.init
        readyQueue := [] } sem [] := by
  rw [initPcbs_eq]
  exact ⟨fun _ _ h => absurd h (by simp), fun _ _ h => absurd h (by simp), rfl, rfl⟩

/-- The table has no entry for one more starting process. -/
theorem foldlM_overflow
    (hlen : MAXPROC < startingProcs.length) :
    startingProcs.foldlM Kernel.addStartingProc
      { (bss sem : Kernel A).initPcbs with
        asl := (bss sem : Kernel A).initPcbs.asl.init
        readyQueue := [] } =
      .error (.panic "ERROR: The maximum number of processes has been reached!") := by
  have hfirst : (startingProcs.take MAXPROC).length = MAXPROC := by
    rw [List.length_take]
    omega
  obtain ⟨k, hfold, hboot⟩ := Booting.foldlM (A := A) (startingProcs.take MAXPROC)
    (Booting.start sem) (by rw [hfirst, Nat.zero_add])
  rw [hfirst, Nat.zero_add] at hboot
  have hfree : k.pcbFreeH = [] := by
    rw [hboot.free]
    simp
  obtain ⟨data, rest, hrest⟩ : ∃ data rest, startingProcs.drop MAXPROC = data :: rest := by
    refine ⟨_, _, List.drop_eq_getElem_cons hlen⟩
  rw [← List.take_append_drop MAXPROC startingProcs, List.foldlM_append, hfold, hrest]
  simp only [bind, Except.bind, List.foldlM_cons, Kernel.addStartingProc, allocPcb, hfree]

end Kernel

namespace Machine

/-- A system that has been launched with the given starting processes. -/
structure LaunchedWith (startingProcs : List ProcInitData) (sem : SemAddr → Int)
    (clockTicks : Word) (tod : Word × Word) (M : Machine A) (r : Resumed A) : Prop where
  order : M.kernel.runningProc :: M.kernel.readyQueue = startOrder startingProcs
  priority : ∀ (i : Fin MAXPROC) data, startingProcs[(i : ℕ)]? = some data →
    M.kernel.priority (.pcb i) = data.priority ∧ M.kernel.originalPriority (.pcb i) = data.priority
  state : ∀ (i : Fin MAXPROC) data, startingProcs[(i : ℕ)]? = some data →
    M.kernel.pS (.pcb i) = initialState A i data
  free : M.kernel.pcbFreeH = ((List.finRange MAXPROC).drop startingProcs.length).map .pcb
  idle : M.kernel.pS .idle = initialState A MAXPROC (Kernel.idleProcData A)
  loaded : r = .proc M.kernel.runningProc (M.kernel.pS M.kernel.runningProc)
  timer : M.intervalTimer = clockTicks ∧ M.clockTicksPerTimeSlice = clockTicks
  stamp : M.kernel.todCache M.kernel.runningProc = tod.2 ∧
    M.kernel.todAtStart = Function.update (fun _ => 0) M.kernel.runningProc tod.1
  sem : M.kernel.sem = sem
  okbuf : M.kernel.okbuf = []
  fresh : M.kernel.Fresh

/--
The launch, for every list of starting processes.  An empty list and one longer than the
table stop the machine, each with its message.  Any other list is launched: the first
process in the stable order of the priorities runs, the others are ready in this order,
each with its own entry of the table and the state its data asks for.
-/
theorem launch_outcome
    (sem : SemAddr → Int) (startingProcs : List ProcInitData) (clockTicks : Word)
    (tod : Word × Word) (areas : ExcType → State A) :
    (startingProcs = [] →
      bikayaLaunch sem startingProcs clockTicks tod areas =
        .error (.panic "Impossible to launch the system, no processes in the ready queue")) ∧
    (MAXPROC < startingProcs.length →
      bikayaLaunch sem startingProcs clockTicks tod areas =
        .error (.panic "ERROR: The maximum number of processes has been reached!")) ∧
    (1 ≤ startingProcs.length → startingProcs.length ≤ MAXPROC →
      ∃ M r, bikayaLaunch sem startingProcs clockTicks tod areas = .ok (M, r) ∧
        LaunchedWith startingProcs sem clockTicks tod M r) := by
  refine ⟨?_, fun hlen => ?_, fun hpos hlen => ?_⟩
  · rintro rfl
    rw [bikayaLaunch_eq, Kernel.boot, Kernel.initScheduler]
    rfl
  · rw [bikayaLaunch_eq, Kernel.boot, Kernel.initScheduler]
    simp only [Kernel.foldlM_overflow hlen]
    rfl
  · obtain ⟨k, hfold, hdata, hboot⟩ :=
      Kernel.Populated.foldlM startingProcs (Kernel.populated_start (A := A) sem)
        (Kernel.Booting.start sem) (by simpa using hlen)
    rw [List.nil_append] at hdata hboot
    have horder := hboot.readyQueue_eq hdata
    cases hq : k.readyQueue with
    | nil =>
        have : (Proc.pcb 0) ∈ k.readyQueue := (hboot.ready _).mpr ⟨0, rfl, hpos⟩
        rw [hq] at this
        exact absurd this List.not_mem_nil
    | cons x q =>
        have heq := Kernel.boot_eq tod hfold hq
        obtain ⟨k', hboot', hfresh, hstamp⟩ :=
          Kernel.boot_spec (A := A) sem startingProcs tod hpos hlen
        obtain rfl := Except.ok.inj (hboot'.symm.trans heq)
        have hnot : ∀ i : Fin MAXPROC, Proc.pcb i ≠ .idle := by simp
        refine ⟨_, _, by rw [bikayaLaunch_eq, hboot']; rfl, ?_⟩
        constructor
        · rw [← horder, hq]
        · intro i data hi
          have hpriority := hdata.priority i data hi
          -- the idle process is set up last
          constructor
          · show Function.update k.priority .idle (Kernel.idleProcData A).priority (.pcb i) = _
            rw [Function.update_of_ne (hnot i), hpriority]
          · show Function.update k.originalPriority .idle (Kernel.idleProcData A).priority
              (.pcb i) = _
            rw [Function.update_of_ne (hnot i), ← hboot.priority, hpriority]
        · intro i data hi
          rw [← hdata.state i data hi]
          simp [Kernel.populatePcb]
        · exact hboot.free
        · simp [Kernel.populatePcb, initialState, Proc.index]
        · rfl
        · exact ⟨rfl, rfl⟩
        · exact hstamp
        · exact hdata.sem
        · exact hdata.okbuf
        · exact hfresh

/-- Of two processes with the greatest priority the first one runs. -/
theorem launch_outcome_equalPriorities :
    ∃ M r, bikayaLaunch (A := umps) (fun _ => 0) ([1, 2, 2].map Kernel.plainProc) 1000 0
        (fun _ => State.reset) = .ok (M, r) ∧
      M.kernel.runningProc :: M.kernel.readyQueue = [.pcb 1, .pcb 2, .pcb 0] := by
  obtain ⟨M, r, hlaunch, hwith⟩ :=
    (launch_outcome (A := umps) (fun _ => 0) ([1, 2, 2].map Kernel.plainProc) 1000 0
      (fun _ => State.reset)).2.2 (by decide) (by decide)
  refine ⟨M, r, hlaunch, ?_⟩
  rw [hwith.order]
  exact (eq_mergeSort_of_stable (startEntries_nodup 3) (by decide) (by decide)
    (by unfold Precedes; decide +kernel)).symm

end Machine

end Bikaya
