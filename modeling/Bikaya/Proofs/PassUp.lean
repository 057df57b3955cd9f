import Bikaya.Proofs.Containment
import Bikaya.Proofs.CpuTime

/-!
# Bikaya: the exceptions that are passed up

A process registers areas for the exceptions of one type with SPECPASSUP.  The module
relates the later exceptions of the process to its registrations, without devices.

**Plan.**  SPECPASSUP fills a pair of addresses for one type of exceptions, and the pair is
all that the handlers look at.  `passupAreas` reads the pair by the indices that the source
computes (`specIndex_eq`).  `AreaStep` says what one entry does to the pairs: they are
cleared with a new process, filled by a registration, and kept otherwise; it is derived
from the moves of `Timers.lean`, which say who writes the array.  A registration of a type
that has its pair already kills the process, so there is one registration at most in the
life of a process, `RegisteredBy`.

Without devices every termination finds its victims, so that the entry that kills a process
does return.

**Results.**
* `enter_specPassup`, `enter_registered`: a registration fills the pair, and a second one
  kills the process.
* `areas_of_run`: the pair of a process is that of its registration, or it is empty.
* `passup_state_machine`: in every state of a run an unserved exception is passed up, with
  the registered areas, if and only if its process has registered them; otherwise it kills
  the process.
-/

namespace Bikaya

open Kernel OrderedForest TransitionSystem

/-- The exception type that a type code of SPECPASSUP stands for. -/
def passupType (arg1 : Word) : Option ExcType :=
  if arg1 = 0 then some .SYS
  else if arg1 = 1 then some .TLB
  else if arg1 = 2 then some .PRG
  else none

namespace Kernel

variable {A : Arch} {k k' : Kernel A} {m : IntModel}

/-- The old area and the new area of a process for one type. -/
def passupAreas (k : Kernel A) (x : Proc) (t : ExcType) : Word × Word :=
  (k.getPassupArea OLD t x, k.getPassupArea NEW t x)

theorem passupAreas_congr {x : Proc} (h : k'.specAreas x = k.specAreas x) :
    k'.passupAreas x = k.passupAreas x := by
  funext t
  simp only [passupAreas, getPassupArea, h]

theorem passupAreas_cleared {x : Proc} (h : k.specAreas x = fun _ => 0) (t : ExcType) :
    k.passupAreas x t = (0, 0) := by
  cases t <;> simp [passupAreas, getPassupArea, h, specIndex, ExcType.toNat]

theorem isPassupSet_iff {x : Proc} {t : ExcType} :
    k.isPassupSet t x = true ↔ (k.passupAreas x t).1 ≠ 0 ∧ (k.passupAreas x t).2 ≠ 0 := by
  simp only [isPassupSet, passupAreas, Bool.and_eq_true, decide_eq_true_eq]
  exact And.comm

/-- The slots that SPECPASSUP computes are those that the handlers read. -/
theorem specIndex_eq {arg1 : Word} {t : ExcType} (ht : passupType arg1 = some t) :
    ∃ old new : Fin 6,
      specIndex (specTypeCode arg1 * 2 + OLD) = .ok old ∧
      specIndex (specTypeCode arg1 * 2 + NEW) = .ok new ∧
      (∀ (k : Kernel A) (x : Proc), k.passupAreas x t = (k.specAreas x old, k.specAreas x new)) ∧
      ∀ (k k' : Kernel A) (x : Proc) (arg2 arg3 : Word),
        k'.specAreas x = Function.update (Function.update (k.specAreas x) old arg2) new arg3 →
        k'.passupAreas x = Function.update (k.passupAreas x) t (arg2, arg3) := by
  unfold passupType at ht
  split_ifs at ht with h0 h1 h2 <;> subst arg1 <;> obtain rfl := Option.some.inj ht
  · refine ⟨1, 0, rfl, rfl, fun k x => rfl, fun k k' x arg2 arg3 hk => funext fun t => ?_⟩
    cases t <;> simp [passupAreas, getPassupArea, specIndex, ExcType.toNat, hk]
  · refine ⟨5, 4, rfl, rfl, fun k x => rfl, fun k k' x arg2 arg3 hk => funext fun t => ?_⟩
    cases t <;> simp [passupAreas, getPassupArea, specIndex, ExcType.toNat, hk]
  · refine ⟨3, 2, rfl, rfl, fun k x => rfl, fun k k' x arg2 arg3 hk => funext fun t => ?_⟩
    cases t <;> simp [passupAreas, getPassupArea, specIndex, ExcType.toNat, hk]

/-- SPECPASSUP sets areas that are not set; else it terminates the running process. -/
theorem specPassup_eq {arg1 : Word} {t : ExcType} (ht : passupType arg1 = some t)
    (arg2 arg3 : Word) :
    (k.passupAreas k.runningProc t = (0, 0) ∧
      ∃ k', k.specPassup arg1 arg2 arg3 = .ok k' ∧
        k' = { k with specAreas := k'.specAreas } ∧
        (∀ x ≠ k.runningProc, k'.passupAreas x = k.passupAreas x) ∧
        k'.passupAreas k.runningProc =
          Function.update (k.passupAreas k.runningProc) t (arg2, arg3)) ∨
    (k.passupAreas k.runningProc t ≠ (0, 0) ∧
      k.specPassup arg1 arg2 arg3 =
        (k.terminateProc (some k.runningProc)).map Prod.snd) := by
  obtain ⟨old, new, hold, hnew, hareas, hset⟩ := specIndex_eq (A := A) ht
  have hfree : k.passupAreas k.runningProc t = (0, 0) ↔
      k.specAreas k.runningProc new = 0 ∧ k.specAreas k.runningProc old = 0 := by
    rw [hareas, Prod.mk.injEq]
    exact And.comm
  simp only [specPassup, hold, hnew, bind, Except.bind]
  by_cases h : k.specAreas k.runningProc new = 0 ∧ k.specAreas k.runningProc old = 0
  · refine Or.inl ⟨hfree.mpr h, _, if_pos h, rfl, fun x hx => passupAreas_congr ?_,
      hset _ _ _ _ _ ?_⟩
    · exact Function.update_of_ne hx _ _
    · exact Function.update_self _ _ _
  · exact Or.inr ⟨mt hfree.mp h, if_neg h⟩

end Kernel

namespace Machine

variable {A : Arch} {m : IntModel} {M M' : Machine A} {e : Entry A}

section Conservation

/-- Without registrations, every termination is safe. -/
theorem safe_of_conserving (h : M.kernel.Conserving) (op : Operation A) : M.kernel.Safe op := by
  cases op with
  | terminateProcess p =>
      exact fun x _ _ => h.unregistered x
  | _ => exact trivial

theorem started_conserving (h : M.kernel.Conserving) : (M.started e).Conserving :=
  ⟨started_ok h.ok, h.accounted, h.unregistered⟩

theorem Conserving.enter
    {reply : Reply} {r : Resumed A} (h : M.kernel.Conserving)
    (hidle : M.kernel.runningProc = .idle → e.type = .INT)
    (hfree : ∀ op ∈ M.operations e.toException, op.DeviceFree)
    (henter : M.enter m e = .ok (M', reply, r)) :
    M'.kernel.Conserving := by
  obtain ⟨k, hentered⟩ := enter_spec henter
  refine Kernel.Conserving.of_core ?_ hentered.core
  refine hentered.executes.rule Kernel.Conserving h.ok hidle (fun op _ => safe_of_conserving h op)
    (started_conserving h) ?_
  intro k₁ op k₂ hk hstep hmem _
  obtain ⟨k', hexec, hcons⟩ := hk.exec (m := m) hstep.1 (hfree op hmem)
  obtain rfl := Except.ok.inj (hexec.symm.trans hstep.2)
  exact hcons

/-- Every state of a run without devices keeps all processes in their places. -/
theorem conserving_of_entries
    {M : ℕ → Machine A} {e : ℕ → Entry A} {n : ℕ} {r₀ : Resumed A}
    (hlaunch : (M 0).Launched r₀) (hrun : IsRun (Step m) M e n)
    (hfree : ∀ i < n, ∀ op ∈ (M i).operations (e i).toException, op.DeviceFree) :
    ∀ i ≤ n, (M i).kernel.Conserving := by
  have hstep : ∀ (M : Machine A) (e : Entry A) (M' : Machine A), M.kernel.Conserving →
      (∀ op ∈ M.operations e.toException, op.DeviceFree) → Step m M e M' →
      M'.kernel.Conserving := by
    rintro M e M' h hfree ⟨hidle, reply, r, henter⟩
    exact Conserving.enter h hidle hfree henter
  exact hrun.invariant_of hfree hlaunch.booted.1.fresh.conserving hstep

end Conservation

section Registrations

/-- The running process `x` executes a SPECPASSUP for the type `t`. -/
def Registers (M : Machine A) (e : Exception A) (x : Proc) (t : ExcType) : Prop :=
  M.kernel.runningProc = x ∧ e.syscall = some 7 ∧ passupType (e.adjusted A.arg1) = some t

/-- The old area and the new area that a SPECPASSUP is called with. -/
def givenAreas (e : Exception A) : Word × Word :=
  (e.adjusted A.arg2, e.adjusted A.arg3)

/-- A SPECPASSUP has a type code and two areas. -/
def WellFormed (e : Exception A) : Prop :=
  e.syscall = some 7 →
    (passupType (e.adjusted A.arg1)).isSome ∧ (givenAreas e).1 ≠ 0 ∧ (givenAreas e).2 ≠ 0

/-- What an entry does to the areas of the processes that are alive after it. -/
structure AreaStep (M : Machine A) (e : Entry A) (M' : Machine A) : Prop where
  created : ∀ x t, ¬ M.kernel.Live x → M'.kernel.Live x → M'.kernel.passupAreas x t = (0, 0)
  kept : ∀ x t, M.kernel.Live x → M'.kernel.Live x → ¬ M.Registers e.toException x t →
    M'.kernel.passupAreas x t = M.kernel.passupAreas x t
  registered : ∀ x t, M.kernel.Live x → M'.kernel.Live x → M.Registers e.toException x t →
    M.kernel.passupAreas x t = (0, 0) ∧
      M'.kernel.passupAreas x t = givenAreas e.toException

theorem concluded_specAreas {e : Exception A} (k : Kernel A) (st : State A) :
    (M.concluded e k st).1.kernel.specAreas = k.specAreas := by
  by_cases hrun : k.runningProc = M.kernel.runningProc
  · rw [concluded_same st hrun]
    rfl
  · rw [concluded_other st hrun]
    rfl

/-- An entry after which no process is alive that has registered areas. -/
theorem areaStep_of_move
    (hno : ∀ x t, M'.kernel.Live x → ¬ M.Registers e.toException x t)
    {k : Kernel A} {op : Operation A}
    (hmove : TimerMove (M.started e) k op) (hfree : M'.kernel.pcbFreeH = k.pcbFreeH)
    (hareas : M'.kernel.specAreas = k.specAreas) :
    AreaStep M e M' := by
  have hsame : k.specAreas = (M.started e).specAreas → (M.started e).pcbFreeH ⊆ k.pcbFreeH →
      AreaStep M e M' := by
    intro heq hsub
    have hold : ∀ x, M'.kernel.Live x → M.kernel.Live x :=
      fun x hx => ⟨hx.1, fun hmem => hx.2 (hfree ▸ hsub hmem)⟩
    refine ⟨fun x t hx hx' => absurd (hold x hx') hx, fun x t _ _ _ => ?_,
      fun x t _ hx' hreg => absurd hreg (hno x t hx')⟩
    refine congrFun (passupAreas_congr ?_) t
    rw [hareas, heq]
    rfl
  cases hmove with
  | quiet hsub _ heq =>
      exact hsame heq hsub
  | charged tod _ hfree' _ heq =>
      exact hsame heq (hfree' ▸ List.Subset.refl _)
  | opened z _ hcons _ heq =>
      have hz : ¬ M.kernel.Live z := fun hz => hz.2 (by
        rw [show M.kernel.pcbFreeH = _ from hcons]
        exact List.mem_cons_self)
      refine ⟨fun x t hx hx' => ?_, fun x t hx _ _ => ?_,
        fun x t _ hx' hreg => absurd hreg (hno x t hx')⟩
      · have hmem : x ∈ (M.started e).pcbFreeH := by
          by_contra hmem
          exact hx ⟨hx'.1, hmem⟩
        obtain rfl : x = z := by
          rw [hcons] at hmem
          exact (List.mem_cons.mp hmem).resolve_right (fun hmem => hx'.2 (hfree ▸ hmem))
        refine passupAreas_cleared ?_ t
        rw [hareas, heq, Function.update_self]
      · refine congrFun (passupAreas_congr ?_) t
        rw [hareas, heq, Function.update_of_ne (fun hxz : x = z => hz (hxz ▸ hx))]
        rfl

/-- The SPECPASSUP case of `consume_syscall`. -/
theorem enter_specPassup (hsys : e.syscall = some 7) :
    M.enter m e =
      ((M.started e).specPassup (e.adjusted A.arg1) (e.adjusted A.arg2) (e.adjusted A.arg3)).map
        (fun k => (((M.userWrites e.memory).concluded e.toException k e.adjusted).1, .none,
          ((M.userWrites e.memory).concluded e.toException k e.adjusted).2)) := by
  obtain ⟨-, -, hnumber⟩ := syscall_eq_some hsys
  refine (handle_syscall (m := m) (M := M.userWrites e.memory) hsys (by decide)).trans ?_
  simp only [consumeSyscall, ← hnumber]
  change Except.map _ ((M.started e).specPassup _ _ _ >>= _) = _
  cases (M.started e).specPassup (e.adjusted A.arg1) (e.adjusted A.arg2) (e.adjusted A.arg3) <;>
    rfl

/-- A SPECPASSUP for a type that has areas terminates the caller. -/
theorem enter_registered
    (h : M.kernel.Conserving) (hidle : M.kernel.runningProc ≠ .idle) {t : ExcType}
    (hreg : M.Registers e.toException M.kernel.runningProc t)
    (hset : M.kernel.passupAreas M.kernel.runningProc t ≠ (0, 0)) :
    ∃ dead k, (M.started e).Terminated M.kernel.runningProc dead k ∧
      M.enter m e =
        .ok (((M.userWrites e.memory).concluded e.toException k e.adjusted).1, .none,
          ((M.userWrites e.memory).concluded e.toException k e.adjusted).2) := by
  obtain ⟨-, hsys, ht⟩ := hreg
  obtain ⟨dead, k, hterm, hdead, -⟩ := (started_conserving (e := e) h).terminate
    (p := some M.kernel.runningProc) (h.ok.running_live hidle)
  refine ⟨dead, k, hdead, ?_⟩
  rcases specPassup_eq (k := M.started e) ht (e.adjusted A.arg2) (e.adjusted A.arg3) with
    ⟨hclear, -⟩ | ⟨-, hkill⟩
  · exact absurd hclear hset
  · rw [enter_specPassup hsys, hkill,
      show (M.started e).terminateProc (some (M.started e).runningProc) = _ from hterm]
    rfl

/-- A process that a SPECPASSUP does not kill has its areas set. -/
theorem areaStep_of_specPassup
    (h : M.kernel.Conserving) (hidle : M.kernel.runningProc ≠ .idle)
    (hsys : e.syscall = some 7) (hwell : WellFormed e.toException)
    {reply : Reply} {r : Resumed A} (henter : M.enter m e = .ok (M', reply, r)) :
    AreaStep M e M' := by
  obtain ⟨t, ht⟩ := Option.isSome_iff_exists.mp (hwell hsys).1
  have hother : ∀ {x t'}, M.Registers e.toException x t' → M.kernel.runningProc = x ∧ t = t' :=
    fun hreg => ⟨hreg.1, Option.some.inj (ht.symm.trans hreg.2.2)⟩
  by_cases hset : M.kernel.passupAreas M.kernel.runningProc t = (0, 0)
  · rcases specPassup_eq (k := M.started e) ht (e.adjusted A.arg2) (e.adjusted A.arg3) with
      ⟨-, k, hok, hframe, hkept, hnew⟩ | ⟨hset', -⟩
    · rw [enter_specPassup hsys, hok] at henter
      obtain ⟨-, hout⟩ := outcome_inj henter
      obtain rfl := congrArg Prod.fst hout
      have hareas : ∀ x, ((M.userWrites e.memory).concluded e.toException k
          e.adjusted).1.kernel.passupAreas x = k.passupAreas x :=
        fun x => passupAreas_congr (congrFun (concluded_specAreas k _) x)
      have hlive : ∀ x, ((M.userWrites e.memory).concluded e.toException k
          e.adjusted).1.kernel.Live x ↔ M.kernel.Live x := by
        intro x
        rw [live_of_core (concluded_core k _), hframe]
        exact Iff.rfl
      refine ⟨fun x t' hx hx' => absurd ((hlive x).mp hx') hx, fun x t' _ _ hno => ?_,
        fun x t' _ _ hreg => ?_⟩
      · rw [hareas]
        by_cases hx : x = M.kernel.runningProc
        · subst hx
          rw [show k.passupAreas M.kernel.runningProc = _ from hnew, Function.update_of_ne]
          · rfl
          · rintro rfl
            exact hno ⟨rfl, hsys, ht⟩
        · rw [hkept x hx]
          rfl
      · obtain ⟨rfl, rfl⟩ := hother hreg
        rw [hareas, show k.passupAreas M.kernel.runningProc = _ from hnew, Function.update_self]
        exact ⟨hset, rfl⟩
    · exact absurd hset hset'
  · obtain ⟨dead, k, hdead, henter'⟩ := enter_registered (m := m) h hidle ⟨rfl, hsys, ht⟩ hset
    obtain rfl := congrArg Prod.fst (Except.ok.inj (henter'.symm.trans henter))
    have hfree := congrArg pcbFreeH (concluded_core (M := M.userWrites e.memory)
      (e := e.toException) k e.adjusted)
    have hmove : TimerMove (M.started e) k .timeSlice := by
      obtain ⟨asl, pParent, rfl, -, -⟩ := hdead.result
      exact TimerMove.quiet (List.subset_append_right _ _) rfl rfl
    refine areaStep_of_move (fun x t' hx hreg => ?_) hmove hfree (concluded_specAreas k _)
    obtain ⟨rfl, -⟩ := hother hreg
    obtain ⟨-, hgone⟩ := (hdead.live_iff _).mp ((live_of_core (concluded_core k _) _).mp hx)
    exact hgone ((hdead.mem _).mpr (Below.refl _))

theorem enter_areaStep
    {reply : Reply} {r : Resumed A} (h : M.kernel.Conserving)
    (hidle : M.kernel.runningProc = .idle → e.type = .INT) (hwell : WellFormed e.toException)
    (henter : M.enter m e = .ok (M', reply, r)) :
    AreaStep M e M' := by
  by_cases hsys : e.syscall = some 7
  · refine areaStep_of_specPassup h (fun hrun => ?_) hsys hwell henter
    exact absurd ((hidle hrun).symm.trans (syscall_eq_some hsys).1) (by simp)
  · have hno : ∀ x t, M'.kernel.Live x → ¬ M.Registers e.toException x t :=
      fun _ _ _ hreg => hsys hreg.2.1
    rcases handle_cases henter with ⟨k, st, hhandling, hM'⟩ | ⟨k, t, hup, -, hM'⟩
    · obtain ⟨k₁, areas, hops, rfl, hareas⟩ := hhandling.ops
      obtain rfl : areas = k₁.specAreas := hareas hsys
      obtain ⟨op, hmove, -⟩ := (executes_of_execAll hops).timerMove h.ok hidle
        (fun op _ => safe_of_conserving h op)
      obtain rfl := congrArg Prod.fst hM'
      have hfree := congrArg pcbFreeH (concluded_core (M := M.userWrites e.memory)
        (e := e.toException) k₁ st)
      exact areaStep_of_move hno hmove hfree (concluded_specAreas k₁ st)
    · obtain rfl := congrArg Prod.fst hM'
      have hmove : TimerMove (M.started e) (M.started e) .timeSlice :=
        TimerMove.quiet (List.Subset.refl _) rfl rfl
      refine areaStep_of_move hno hmove ?_ ?_
      · cases hup with
        | unserved ht _ => cases t <;> rfl
        | breakpoint _ _ => rfl
      · cases hup with
        | unserved ht _ => cases t <;> rfl
        | breakpoint _ _ => rfl

end Registrations

section Outcomes

/-- The exception is passed up with these areas, and the kernel keeps its state. -/
def PassesUp (m : IntModel) (M : Machine A) (e : Entry A) (areas : Word × Word) : Prop :=
  ∃ M', M.enter m e = .ok (M', .none, .passup areas.1 areas.2 e.adjusted) ∧
    M'.kernel.core = (M.userWrites e.memory).kernel.core ∧
    M'.kernel.pS = M.kernel.pS ∧ M'.kernel.specAreas = M.kernel.specAreas

/-- An exception is passed up with the areas that are set for its type. -/
theorem passesUp_of_set
    {t : ExcType} (ht : e.unserved = some t)
    (hset : M.kernel.isPassupSet t M.kernel.runningProc = true) :
    M.PassesUp m e (M.kernel.passupAreas M.kernel.runningProc t) := by
  refine ⟨((M.userWrites e.memory).passed e.toException
    ((M.userWrites e.memory).passedKernel e.toException t) t).1, ?_, ?_, ?_, ?_⟩
  · rw [enter_unserved ht, if_pos hset]
    cases t <;> rfl
  all_goals cases t <;> rfl

/-- An exception that is passed up found areas. -/
theorem PassesUp.isSet
    {areas : Word × Word} (h : M.PassesUp m e areas) {t : ExcType} (ht : e.unserved = some t) :
    M.kernel.isPassupSet t M.kernel.runningProc = true := by
  by_contra hset
  obtain ⟨M', henter, -⟩ := h
  rw [enter_unserved ht, if_neg hset] at henter
  cases hterm : (M.started e).terminateProc (some M.kernel.runningProc) with
  | error err =>
      rw [hterm] at henter
      exact absurd henter (by simp [Except.map])
  | ok res =>
      rw [hterm] at henter
      obtain ⟨-, hout⟩ := outcome_inj henter
      have hr := congrArg Prod.snd hout
      by_cases hrun : res.2.runningProc = M.kernel.runningProc
      · rw [concluded_same (M := M.userWrites e.memory) _ hrun] at hr
        exact absurd hr (by simp)
      · rw [concluded_other (M := M.userWrites e.memory) _ hrun] at hr
        exact absurd hr (by simp)

end Outcomes

section Runs

variable {M : ℕ → Machine A} {e : ℕ → Entry A} {n : ℕ} {r₀ : Resumed A}

/-- As its entry `l` the process `x`, alive from then to `i`, registered areas for `t`. -/
def RegisteredBy (M : ℕ → Machine A) (e : ℕ → Entry A) (i : ℕ) (x : Proc) (t : ExcType)
    (l : ℕ) : Prop :=
  l < i ∧ (M l).Registers (e l).toException x t ∧ ∀ j, l ≤ j → j ≤ i → (M j).kernel.Live x

theorem registeredBy_succ {i l : ℕ} {x : Proc} {t : ExcType} :
    RegisteredBy M e (i + 1) x t l ↔
      (M (i + 1)).kernel.Live x ∧
        (RegisteredBy M e i x t l ∨
          l = i ∧ (M i).kernel.Live x ∧ (M i).Registers (e i).toException x t) := by
  constructor
  · rintro ⟨hl, hreg, hlive⟩
    refine ⟨hlive (i + 1) hl.le le_rfl, ?_⟩
    rcases Nat.lt_succ_iff_lt_or_eq.mp hl with hlt | rfl
    · exact Or.inl ⟨hlt, hreg, fun j hj hji => hlive j hj (by omega)⟩
    · exact Or.inr ⟨rfl, hlive l le_rfl (by omega), hreg⟩
  · rintro ⟨hx, ⟨hl, hreg, hlive⟩ | ⟨rfl, hxl, hreg⟩⟩
    · refine ⟨by omega, hreg, fun j hj hji => ?_⟩
      rcases Nat.le_succ_iff.mp hji with hle | rfl
      · exact hlive j hj hle
      · exact hx
    · refine ⟨by omega, hreg, fun j hj hji => ?_⟩
      rcases Nat.le_succ_iff.mp hji with hle | rfl
      · rwa [Nat.le_antisymm hle hj]
      · exact hx

/-- The areas of a process are those it has registered, and those it has not are clear. -/
theorem areas_of_run
    (hlaunch : (M 0).Launched r₀) (hrun : IsRun (Step m) M e n)
    (hfree : ∀ i < n, ∀ op ∈ (M i).operations (e i).toException, op.DeviceFree)
    (hwell : ∀ i < n, WellFormed (e i).toException) :
    ∀ i ≤ n, ∀ x, (M i).kernel.Live x → ∀ t,
      (∀ l, RegisteredBy M e i x t l →
        (M i).kernel.passupAreas x t = givenAreas (e l).toException) ∧
      ((∀ l, ¬ RegisteredBy M e i x t l) → (M i).kernel.passupAreas x t = (0, 0)) := by
  have hcons := conserving_of_entries hlaunch hrun hfree
  intro i
  induction i with
  | zero =>
      intro _ x _ t
      refine ⟨fun l hl => absurd hl.1 (by omega), fun _ => ?_⟩
      exact passupAreas_cleared (hlaunch.booted.1.fresh.specAreas x) t
  | succ i ih =>
      intro hi x hx t
      obtain ⟨hidle, reply, r, henter⟩ := hrun i hi
      have hstep := enter_areaStep (hcons i (by omega)) hidle (hwell i hi) henter
      by_cases hlive : (M i).kernel.Live x
      · obtain ⟨hset, hclear⟩ := ih (by omega) x hlive t
        by_cases hreg : (M i).Registers (e i).toException x t
        · -- whoever survives a SPECPASSUP had not registered before
          obtain ⟨hzero, hgiven⟩ := hstep.registered x t hlive hx hreg
          have hfirst : ∀ l, ¬ RegisteredBy M e i x t l := by
            intro l hl
            have hnonzero := (hwell l (by have := hl.1; omega) hl.2.1.2.1).2.1
            rw [← hset l hl, hzero] at hnonzero
            exact hnonzero rfl
          refine ⟨fun l hl => ?_, fun hnone => ?_⟩
          · obtain ⟨-, hl | ⟨rfl, -⟩⟩ := registeredBy_succ.mp hl
            · exact absurd hl (hfirst l)
            · exact hgiven
          · exact absurd (registeredBy_succ.mpr ⟨hx, Or.inr ⟨rfl, hlive, hreg⟩⟩) (hnone i)
        · rw [hstep.kept x t hlive hx hreg]
          refine ⟨fun l hl => ?_, fun hnone => hclear (fun l hl => ?_)⟩
          · obtain ⟨-, hl | ⟨-, -, hno⟩⟩ := registeredBy_succ.mp hl
            · exact hset l hl
            · exact absurd hno hreg
          · exact hnone l (registeredBy_succ.mpr ⟨hx, Or.inl hl⟩)
      · refine ⟨fun l hl => ?_, fun _ => hstep.created x t hlive hx⟩
        exact absurd (hl.2.2 i (by have := hl.1; omega) (by omega)) hlive

/--
In the runs without devices an exception that the nucleus does not serve is passed up,
with the areas that the running process itself has registered for its type; where there
are none, it kills the process and its descendants.  The areas of a process last as long
as the process, which does not survive a second registration for the same type.
-/
theorem passup_state_machine
    (hlaunch : (M 0).Launched r₀) (hrun : IsRun (Step m) M e n)
    (hfree : ∀ i < n, ∀ op ∈ (M i).operations (e i).toException, op.DeviceFree)
    (hwell : ∀ i < n, WellFormed (e i).toException) :
    ∀ i ≤ n,
      (∀ (ex : Entry A) (t : ExcType), ex.unserved = some t →
        (M i).kernel.runningProc ≠ .idle →
        ((∃ areas, (M i).PassesUp m ex areas) ↔
          ∃ l, RegisteredBy M e i (M i).kernel.runningProc t l) ∧
        (∀ l, RegisteredBy M e i (M i).kernel.runningProc t l →
          (M i).PassesUp m ex (givenAreas (e l).toException)) ∧
        ((∀ l, ¬ RegisteredBy M e i (M i).kernel.runningProc t l) →
          (M i).KillsCaller m ex)) ∧
      (∀ x t l, RegisteredBy M e i x t l →
        (M i).kernel.passupAreas x t = givenAreas (e l).toException) ∧
      ∀ (ex : Entry A) (t : ExcType) (l : ℕ),
        (M i).Registers ex.toException (M i).kernel.runningProc t →
        RegisteredBy M e i (M i).kernel.runningProc t l →
        (M i).KillsCaller m ex := by
  intro i hi
  have hcons := conserving_of_entries hlaunch hrun hfree i hi
  have hareas := areas_of_run hlaunch hrun hfree hwell i hi
  have hgiven : ∀ x t l, RegisteredBy M e i x t l →
      (M i).kernel.passupAreas x t = givenAreas (e l).toException ∧
        (givenAreas (e l).toException).1 ≠ 0 ∧ (givenAreas (e l).toException).2 ≠ 0 := by
    intro x t l hl
    have hlive := hl.2.2 i hl.1.le le_rfl
    exact ⟨(hareas x hlive t).1 l hl, (hwell l (by have := hl.1; omega) hl.2.1.2.1).2⟩
  refine ⟨fun ex t ht hidle => ?_, fun x t l hl => (hgiven x t l hl).1,
    fun ex t l hreg hl => ?_⟩
  · have hpass : ∀ l, RegisteredBy M e i (M i).kernel.runningProc t l →
        (M i).PassesUp m ex (givenAreas (e l).toException) := by
      intro l hl
      obtain ⟨heq, hnonzero⟩ := hgiven _ t l hl
      rw [← heq] at hnonzero ⊢
      exact passesUp_of_set ht (isPassupSet_iff.mpr hnonzero)
    have hclear := (hareas _ (hcons.ok.running_live hidle) t).2
    have hno : (∀ l, ¬ RegisteredBy M e i (M i).kernel.runningProc t l) →
        ¬ (M i).kernel.isPassupSet t (M i).kernel.runningProc = true := by
      intro hnone hset
      rw [isPassupSet_iff, hclear hnone] at hset
      exact hset.1 rfl
    refine ⟨⟨fun ⟨areas, hup⟩ => ?_, fun ⟨l, hl⟩ => ⟨_, hpass l hl⟩⟩, hpass, fun hnone => ?_⟩
    · by_contra hnone
      exact hno (not_exists.mp hnone) (hup.isSet ht)
    · refine (killsCaller_iff hcons.ok hidle ht (by simpa using hno hnone)).mpr ?_
      exact fun x hx => (hcons.removable (hcons.ok.running_live hidle) x hx).locatable
  · obtain ⟨heq, hnonzero, -⟩ := hgiven _ t l hl
    have hset : (M i).kernel.passupAreas (M i).kernel.runningProc t ≠ (0, 0) := by
      rw [heq]
      exact fun hzero => hnonzero (congrArg Prod.fst hzero)
    obtain ⟨dead, k, hdead, henter⟩ :=
      enter_registered (m := m) hcons (hl.2.2 i hl.1.le le_rfl).1 hreg hset
    exact ⟨_, _, _, dead, henter, (killsRunning_concluded k _ dead).mpr hdead.killsRunning⟩

end Runs

section Example

/-- A process registers areas for TLB exceptions, then for syscalls. -/
def passupEntries : List (Entry umps) :=
  [syscallMps 7 1 0x100 0x200 0, syscallMps 7 0 0x300 0x400 0]

abbrev passupRun (i : ℕ) : Machine umps :=
  states (next .int32) (launchMps [1] 1000) passupEntries i

abbrev passupEntry (i : ℕ) : Entry umps :=
  passupEntries.getD i (syscallMps 8 0 0 0 0)

theorem passupEntries_isRun : IsRun (Step .int32) passupRun passupEntry 2 :=
  isRun_of_accepts _ (by decide +kernel)

/-- Its next TLB exception finds the areas of the first call. -/
theorem passup_state_machine_passupEntries :
    (passupRun 2).PassesUp .int32 { syscallMps 0 0 0 0 0 with type := .TLB }
      (0x100, 0x200) := by
  refine ((passup_state_machine (launchMps_launched 1000 (by decide) (by decide))
    passupEntries_isRun (fun i hi => ?_) (fun i hi => ?_) 2 le_rfl).1 _ .TLB rfl
    (by decide +kernel)).2.1 0 ⟨by decide, ⟨by decide +kernel, by decide +kernel,
      by decide +kernel⟩, fun j _ hj => ?_⟩
  · interval_cases i <;> decide +kernel
  · interval_cases i <;> exact fun _ => by decide +kernel
  · interval_cases j <;> decide +kernel

end Example

end Machine

end Bikaya
