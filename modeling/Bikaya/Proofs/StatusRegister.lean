import Bikaya.Core.SystemMps
import Bikaya.Library.BitFields

/-!
# Bikaya: the setters of the uMPS status register

Four setters share the status word.  Three of them write their own field, and set the
global interrupt enable at most; `set_kernel_mode` with the argument 0 sets every bit but
its own.

**Plan.**  A call of a setter is a request for one field.  The library has when a sequence
of writes leaves the fields as they were requested last; here each setter is shown to write
its own field only, up to the ignored bit, except for one.

**Results.**
* `call_agree_iff`: what one call of a setter does.
* `status_setters_iff`: a sequence of calls sets what was asked for if and only if none of
  them switches the kernel mode off, but for a word whose bits are all set.
* `kernel_mode_stays_on`: the call that does not.
-/

namespace Bikaya
namespace Mps

open BitFields

/-- The parts of the status register that have a setter. -/
inductive StatusField where
  | kernelMode
  | virtualMem
  | intervalTimer
  | otherInterrupts
deriving DecidableEq

/-- The bits of a field. -/
def StatusField.mask : StatusField → Word
  | .kernelMode => STATUS_KUc
  | .virtualMem => STATUS_VMc
  | .intervalTimer => STATUS_IM IL_TIMER
  | .otherInterrupts => STATUS_IM_MASK &&& ~~~(STATUS_IM IL_TIMER)

/-- A call of one of the setters with the argument `on`, which is 0 or 1. -/
structure SetterCall where
  field : StatusField
  on : Bool
deriving DecidableEq

/-- The argument of a call as a word. -/
def SetterCall.argument (c : SetterCall) : Word :=
  if c.on then 1 else 0

/-- What a call does to the processor state. -/
def call (s : MpsState) (c : SetterCall) : MpsState :=
  match c.field with
  | .kernelMode => setKernelMode s c.argument
  | .virtualMem => setVirtualMem s c.argument
  | .intervalTimer => setIntervalTimerInterrupts s c.argument
  | .otherInterrupts => setOtherInterrupts s c.argument

/-- The bits a call asks for: the kernel mode is on when its bit is 0. -/
def SetterCall.bits (c : SetterCall) : Word :=
  match c.field with
  | .kernelMode => if c.on then 0 else STATUS_KUc
  | field => if c.on then field.mask else 0

/-- The field a call is for, and the bits it asks for. -/
def SetterCall.request (c : SetterCall) : StatusField × Word :=
  (c.field, c.bits)

theorem mask_disjoint : ∀ f g : StatusField, f ≠ g → f.mask &&& g.mask = 0 := by
  intro f g hfg
  cases f <;> cases g <;> first
    | exact absurd rfl hfg
    | decide

theorem mask_enable (f : StatusField) : STATUS_IEc &&& f.mask = 0 := by
  cases f <;> decide

@[simp] theorem setStatus_status (s : MpsState) (w : Word) : setStatus s w .status = w :=
  Function.update_self _ _ _

/-- A setter that turns the bits of its field on, and the global bit with them. -/
theorem agree_set (mask w : Word) :
    Agree STATUS_IEc (w ||| mask ||| STATUS_IEc) (assign mask mask w) := by
  rw [← or_eq_assign]
  exact agree_or STATUS_IEc (w ||| mask)

/-- A setter that turns the bits of its field off. -/
theorem agree_clear (mask w : Word) :
    Agree STATUS_IEc (w &&& ~~~mask) (assign mask 0 w) := by
  rw [and_not_eq_assign]
  exact Agree.refl _ _

theorem agree_setVirtualMem (s : MpsState) (on : Bool) :
    Agree STATUS_IEc (call s ⟨.virtualMem, on⟩ .status)
      (assign STATUS_VMc (if on = true then STATUS_VMc else 0) (s .status)) := by
  cases on <;> exact Agree.refl _ _

/--
A call does what it asks for; only `set_kernel_mode` with the argument 0 does so on
condition that all the bits are set already, the global interrupt enable apart.
-/
theorem call_agree_iff (c : SetterCall) (s : MpsState) :
    Agree STATUS_IEc (call s c .status)
        (assign c.request.1.mask c.request.2 (s .status)) ↔
      (c = ⟨.kernelMode, false⟩ → s .status ||| STATUS_IEc = BitVec.allOnes 32) := by
  obtain ⟨field, on⟩ := c
  cases field with
  | kernelMode =>
      cases on with
      | false =>
          exact agree_or_not_iff.trans ⟨fun h _ => h, fun h => h rfl⟩
      | true =>
          exact ⟨fun _ h => absurd h (by decide), fun _ => agree_clear STATUS_KUc (s .status)⟩
  | virtualMem =>
      refine ⟨fun _ h => absurd h (by simp), fun _ => ?_⟩
      cases on <;> exact agree_setVirtualMem s _
  | intervalTimer =>
      refine ⟨fun _ h => absurd h (by simp), fun _ => ?_⟩
      cases on with
      | false =>
          exact agree_clear (STATUS_IM IL_TIMER) (s .status)
      | true =>
          exact agree_set (STATUS_IM IL_TIMER) (s .status)
  | otherInterrupts =>
      refine ⟨fun _ h => absurd h (by simp), fun _ => ?_⟩
      cases on with
      | false =>
          exact agree_clear (STATUS_IM_MASK &&& ~~~(STATUS_IM IL_TIMER)) (s .status)
      | true =>
          exact agree_set (STATUS_IM_MASK &&& ~~~(STATUS_IM IL_TIMER)) (s .status)

/--
After every initial part of a sequence of calls the status word has in each field what the
last call for it asked for, and no other bit has changed but the global interrupt
enable, exactly if every `set_kernel_mode` with the argument 0 finds all the bits set, the
global interrupt enable apart.
-/
theorem status_setters_iff (s : MpsState) (calls : List SetterCall) :
    (∀ l, l <+: calls →
        Holds StatusField.mask STATUS_IEc (s .status) (l.map SetterCall.request)
          (l.foldl call s .status)) ↔
      ∀ l, l ++ [⟨.kernelMode, false⟩] <+: calls →
        l.foldl call s .status ||| STATUS_IEc = BitVec.allOnes 32 := by
  rw [holds_prefixes_iff mask_disjoint mask_enable (fun s : MpsState => s .status)
    SetterCall.request call call_agree_iff]
  exact ⟨fun h l hl => h l _ hl rfl, fun h l c hl hc => h l (hc ▸ hl)⟩

/-- A single `set_kernel_mode(0)` on a cleared state leaves the kernel mode on. -/
theorem kernel_mode_stays_on :
    call (fun _ => 0) ⟨.kernelMode, false⟩ .status = 0xfffffffd ∧
      ¬ Holds StatusField.mask STATUS_IEc 0 [SetterCall.request ⟨.kernelMode, false⟩]
        (call (fun _ => 0) ⟨.kernelMode, false⟩ .status) := by
  refine ⟨by decide, fun h => ?_⟩
  exact absurd (h.field .kernelMode) (by decide)

end Mps
end Bikaya
