import Bikaya.Proofs.Registers

/-!
# Bikaya: the delivery of the completions on the devices

A completion of a device, followed through the interrupt that serves it.  The registers are
read when the code reads them, so the question is what is left of the completion when the
scan comes to its line.

**Plan.**  A message is printed on one transmitter only, hence a completion of any other
device is still there (`raises_reads_of_ne`).  For that transmitter, `earlier` lists the
completions that the scan comes to before.  If each of them has a registered process then
nothing is printed, and the status is as it was (`status_atConsole`); if one has none, then
the message acknowledges the transmitter (`not_done_atConsole`) and the scan, which asks a
terminal for its status, passes over it.

**Results.**
* `completion_delivered_iff`: when an interrupt delivers a completion, for every state of
  the devices and of the kernel's lists.
* `completion_delivered_outputDone`: a printer and a terminal served in one interrupt.
* `completions_undelivered`: a terminal with an error, and a terminal behind a message.
-/

namespace Bikaya

open TransitionSystem

namespace Devices

variable {A : Arch} {D : Devices} {m : IntModel}

section Delivery

variable {x : Kernel A × D.State} {d : Dev}

/-- The completions that come before the one of the transmitter of the messages. -/
def earlier (D : Devices) (s : D.State) : List Dev :=
  (D.irq s).completions.takeWhile (· ≠ console)

theorem raises_reads
    (h : D.raised x.2 d = true)
    (hafter : getExtDevLine d.type = IL_TERMINAL → D.raised (D.afterLines m x).2 d = true) :
    (D.reads m x).Raises d := by
  by_cases hterm : getExtDevLine d.type = IL_TERMINAL
  · constructor
    · simp only [reads, if_pos hterm]
      exact D.pending_of_raised _ d (hafter hterm)
    · simp only [reads, if_pos hterm]
      exact D.bitmap_of_raised _ d (hafter hterm)
  · constructor
    · simp only [reads, if_neg hterm]
      exact D.pending_of_raised x.2 d h
    · simp only [reads, if_neg hterm]
      exact D.bitmap_of_raised x.2 d h

/-- A completion of another device is still there when the scan comes to its line. -/
theorem raises_reads_of_ne (h : D.raised x.2 d = true) (hne : d ≠ console) :
    (D.reads m x).Raises d := by
  refine raises_reads h fun hterm => ?_
  rw [afterLines_sameBut.raised d (by simpa [hne] using not_mem_lines hterm)]
  exact h

theorem foldl_wForRes {ds : List Dev} (hd : d ∉ ds) :
    (ds.foldl (D.doneIo m) x).1.wForRes d = x.1.wForRes d := by
  induction ds generalizing x with
  | nil =>
      rfl
  | cons d' ds ih =>
      rw [List.foldl_cons, ih fun hmem => hd (List.mem_cons_of_mem d' hmem)]
      exact doneIo_wForRes fun heq => hd (heq ▸ List.mem_cons_self)

theorem afterLines_wForRes (hd : getExtDevLine d.type = IL_TERMINAL) :
    (D.afterLines m x).1.wForRes d = x.1.wForRes d := by
  rw [afterLines_eq, foldl_wForRes (not_mem_lines hd), afterTimer_wForRes]

theorem afterLines_of_registered (hreg : ∀ d ∈ D.lines x.2, x.1.wForRes d ≠ none) :
    D.SameBut (· ∈ D.lines x.2) x.2 (D.afterLines m x).2 := by
  have h := foldl_sameBut_of_registered (D := D) (m := m) (x := D.afterTimer m x)
    (lines_nodup (D.irq x.2) (fun _ => id) (by decide)) fun d hd => by
      rw [afterTimer_wForRes]
      exact hreg d hd
  rwa [afterTimer_snd, ← afterLines_eq] at h

/-- The completions before the transmitter's one: those of the lines, then the terminals'. -/
theorem earlier_eq (hraised : D.raised x.2 console = true) (hdone : D.Done x.2 console) :
    D.earlier x.2 = D.lines x.2 ++
      ((subdevs (D.bitmap x.2 IL_TERMINAL)).takeWhile (· ≠ console)).filter (D.Done x.2 ·) := by
  have hlines : ∀ d ∈ D.lines x.2, decide (d ≠ console) = true := by
    intro d hd
    have hne : d ≠ console := fun heq => console_not_mem_lines (fun _ => id) (heq ▸ hd)
    simpa using hne
  have hterminals : (D.irq x.2).terminals =
      (subdevs (D.bitmap x.2 IL_TERMINAL)).filter (D.Done x.2 ·) :=
    if_pos (D.pending_of_raised x.2 console hraised)
  rw [earlier, Irq.completions, List.takeWhile_append_of_pos hlines, hterminals,
    List.takeWhile_filter]
  congr 3
  funext d
  by_cases hd : d = console
  · subst hd
    simp [hdone]
  · simp [hd]

theorem beforeConsole_of_registered (hreg : ∀ d ∈ D.lines x.2, x.1.wForRes d ≠ none) :
    D.beforeConsole m x =
      (subdevs (D.bitmap x.2 IL_TERMINAL)).takeWhile (· ≠ console) := by
  rw [beforeConsole, (afterLines_of_registered hreg).bitmap IL_TERMINAL]
  exact fun d hd hterm => not_mem_lines hterm hd

theorem console_not_mem_beforeConsole : console ∉ D.beforeConsole m x := by
  intro hmem
  have h := List.all_eq_true.mp List.all_takeWhile console hmem
  simp at h

theorem beforeConsole_nodup : (D.beforeConsole m x).Nodup :=
  (subdevs_nodup _).sublist (List.takeWhile_sublist _)

/-- The sub-devices that are served before the transmitter. -/
theorem atConsole_eq :
    D.atConsole m x = ((D.beforeConsole m x).filter (D.Done (D.afterLines m x).2 ·)).foldl
      (D.doneIo m) (D.afterLines m x) :=
  consumeSubdevs_eq beforeConsole_nodup console_not_mem_beforeConsole

theorem type_of_mem_beforeConsole (hd : d ∈ D.beforeConsole m x) :
    getExtDevLine d.type = IL_TERMINAL :=
  type_of_mem_subdevs ((List.takeWhile_sublist _).subset hd)

/-- With registered processes on the other lines, the terminals are served as they were. -/
theorem served_of_registered (hreg : ∀ d ∈ D.lines x.2, x.1.wForRes d ≠ none) :
    (D.beforeConsole m x).filter (D.Done (D.afterLines m x).2 ·) =
      ((subdevs (D.bitmap x.2 IL_TERMINAL)).takeWhile (· ≠ console)).filter (D.Done x.2 ·) := by
  rw [← beforeConsole_of_registered (m := m) hreg]
  refine List.filter_congr fun d hd => ?_
  have hstatus := (afterLines_of_registered (m := m) hreg).status d
    (not_mem_lines (type_of_mem_beforeConsole hd))
  exact decide_eq_decide.mpr (by rw [Registers.Done, Registers.Done, hstatus])

/-- Nobody prints before the scan comes to the transmitter. -/
theorem status_atConsole
    (hraised : D.raised x.2 console = true) (hdone : D.Done x.2 console)
    (hreg : ∀ d ∈ D.earlier x.2, x.1.wForRes d ≠ none) :
    D.raised (D.afterLines m x).2 console = true ∧
      D.status (D.atConsole m x).2 console = D.status x.2 console := by
  rw [earlier_eq hraised hdone] at hreg
  have hlines := afterLines_of_registered (m := m)
    fun d hd => hreg d (List.mem_append_left _ hd)
  have hcons : console ∉ D.lines x.2 := not_mem_lines rfl
  have hserved := foldl_sameBut_of_registered (D := D) (m := m) (x := D.afterLines m x)
    (beforeConsole_nodup.filter (D.Done (D.afterLines m x).2 ·)) fun d hd => by
      have hterm := type_of_mem_beforeConsole (List.mem_of_mem_filter hd)
      rw [served_of_registered fun d hd => hreg d (List.mem_append_left _ hd)] at hd
      rw [afterLines_wForRes hterm]
      exact hreg d (List.mem_append_right _ hd)
  rw [← atConsole_eq] at hserved
  refine ⟨(hlines.raised console hcons).trans hraised, ?_⟩
  rw [hserved.status console fun hmem =>
    console_not_mem_beforeConsole (List.mem_of_mem_filter hmem)]
  exact hlines.status console hcons

/-- Somebody prints, and the transmitter is not done any more. -/
theorem not_done_atConsole
    (hraised : D.raised x.2 console = true) (hdone : D.Done x.2 console)
    (hnone : ∃ d ∈ D.earlier x.2, x.1.wForRes d = none) :
    ¬ D.Done (D.atConsole m x).2 console := by
  rw [earlier_eq hraised hdone] at hnone
  rw [atConsole_eq]
  refine not_done_foldl (beforeConsole_nodup.filter _)
    (fun hmem => console_not_mem_beforeConsole (List.mem_of_mem_filter hmem)) ?_
  by_cases hlines : ∃ d ∈ D.lines x.2, x.1.wForRes d = none
  · obtain ⟨d, hd, hd'⟩ := hlines
    left
    rw [afterLines_eq]
    refine not_done_foldl (lines_nodup _ (fun _ => id) (by decide)) (not_mem_lines rfl)
      (Or.inr ⟨d, hd, ?_⟩)
    rw [afterTimer_wForRes]
    exact hd'
  · have hreg : ∀ d ∈ D.lines x.2, x.1.wForRes d ≠ none :=
      fun d hd hd' => hlines ⟨d, hd, hd'⟩
    obtain ⟨d, hd, hd'⟩ := hnone
    rcases List.mem_append.mp hd with hd | hd
    · exact absurd hd' (hreg d hd)
    · rw [← served_of_registered (m := m) hreg] at hd
      refine Or.inr ⟨d, hd, ?_⟩
      rw [afterLines_wForRes (type_of_mem_beforeConsole (List.mem_of_mem_filter hd))]
      exact hd'

/-- The terminals are served by their status. -/
theorem done_of_mem
    {irq : Irq} (hterm : getExtDevLine d.type = IL_TERMINAL) (hmem : d ∈ irq.completions) :
    irq.status d &&& DEV_STATUS_MASK = TERM_ST_DONE := by
  rcases List.mem_append.mp hmem with hline | hterminal
  · obtain ⟨line, hline, hd⟩ := List.mem_flatMap.mp hline
    rw [← type_of_mem_line hline hd, hterm] at hline
    exact absurd hline (by decide)
  · exact (Irq.mem_terminals.mp hterminal).2.2.2

/-- So the completion of the transmitter is lost with a message. -/
theorem console_not_served
    (hraised : D.raised x.2 console = true) (hdone : D.Done x.2 console)
    (hnone : ∃ d ∈ D.earlier x.2, x.1.wForRes d = none) :
    console ∉ (D.reads m x).completions :=
  fun hmem => not_done_atConsole hraised hdone hnone (done_of_mem rfl hmem)

/--
A pending completion of a device whose registered process is the first of its queue: the
interrupt delivers it, whatever the status is and whatever else is pending, but for two
cases.  A terminal must have the status that the scan asks for; and no message may be
printed before the scan comes to the transmitter that the messages go to.
-/
theorem completion_delivered_iff
    {k : Kernel A} {s : D.State} {r : Proc} {q : List Proc}
    (h : k.Ok) (hr : k.wForRes d = some r) (hq : k.waitQueue (.dev d) = r :: q)
    (hraised : D.raised s d = true) :
    Kernel.Delivered k (D.irq s) d r q.head? (D.consumeInterrupts m (k, s)).1 ↔
      (getExtDevLine d.type = IL_TERMINAL → D.Done s d) ∧
        (d = console → ∀ d' ∈ D.earlier s, k.wForRes d' ≠ none) := by
  rw [consumeInterrupts_reads]
  constructor
  · intro hdelivered
    have hmem := hdelivered.mem_completions h hr hq
    have hstatus : D.status s d = (D.reads m (k, s)).status d :=
      hdelivered.status.symm.trans (Kernel.delivered_of_mem (m := m) h hr hq hmem).status
    have hdone : getExtDevLine d.type = IL_TERMINAL → D.Done s d := by
      intro hterm
      rw [Registers.Done, hstatus]
      exact done_of_mem hterm hmem
    refine ⟨hdone, ?_⟩
    rintro rfl d' hd' hnone
    exact console_not_served (x := (k, s)) hraised (hdone rfl) ⟨d', hd', hnone⟩ hmem
  · rintro ⟨hdone, hreg⟩
    have hread : (D.reads m (k, s)).Raises d ∧
        (D.reads m (k, s)).status d = D.status s d := by
      by_cases hd : d = console
      · subst hd
        obtain ⟨hafter, hstatus⟩ :=
          status_atConsole (m := m) (x := (k, s)) hraised (hdone rfl) (hreg rfl)
        exact ⟨raises_reads hraised fun _ => hafter, hstatus⟩
      · refine ⟨raises_reads_of_ne hraised hd, ?_⟩
        simp only [reads, if_neg hd]
    have hmem : d ∈ (D.reads m (k, s)).completions := by
      rw [hread.1.mem_completions, hread.2]
      exact hdone
    exact (Kernel.delivered_of_mem h hr hq hmem).of_status hread.2.symm

end Delivery

end Devices

section Example

/-- Devices that do what they are told: their statuses, and the completions not answered. -/
structure PlainState where
  timer : Bool
  status : Dev → Word
  raised : Dev → Bool

namespace PlainState

def onLine (s : PlainState) (line : Nat) (n : Fin 8) : Bool :=
  [ExtDevType.DISK, .TAPE, .NETW, .PRIN, .TERM_TX, .TERM_RX].any
    (fun t => getExtDevLine t = line && s.raised ⟨t, n⟩)

def set (s : PlainState) (d : Dev) (status : Word) (raised : Bool) : PlainState :=
  { s with
    status := Function.update s.status d status
    raised := Function.update s.raised d raised }

/-- An acknowledged device is ready, and one with a command is busy. -/
def write (s : PlainState) (d : Dev) (w : Word) : PlainState :=
  s.set d (if w = DEVICE_CMD_ACK then DEVICE_ST_READY else Devices.DEVICE_ST_BUSY) false

/-- A busy device completes its command. -/
def wait (s : PlainState) (d : Dev) : PlainState :=
  if s.status d = Devices.DEVICE_ST_BUSY then s.set d TERM_ST_DONE true else s

end PlainState

def plainRegisters : Registers where
  State := PlainState
  pending s line := (line = IL_TIMER && s.timer) || (List.finRange 8).any (s.onLine line)
  bitmap s line := Nat.ofBits (s.onLine line)
  status := PlainState.status
  raised := PlainState.raised

theorem onLine_of_raised {s : PlainState} {d : Dev} (h : s.raised d = true) :
    s.onLine (getExtDevLine d.type) d.num = true := by
  refine List.any_eq_true.mpr ⟨d.type, by cases d.type <;> decide, ?_⟩
  simpa using h

theorem set_sameBut (s : PlainState) (d : Dev) (status : Word) (raised : Bool) :
    plainRegisters.SameBut (· = d) s (s.set d status raised) := by
  have hline : ∀ line, (∀ d', d' = d → getExtDevLine d'.type ≠ line) →
      (s.set d status raised).onLine line = s.onLine line := by
    intro line hline
    funext n
    rw [PlainState.onLine, PlainState.onLine]
    congr 1
    funext t
    by_cases ht : getExtDevLine t = line
    · have hne : (⟨t, n⟩ : Dev) ≠ d := fun heq => hline ⟨t, n⟩ heq ht
      simp [PlainState.set, hne]
    · simp [ht]
  refine ⟨fun d' hd' => Function.update_of_ne hd' _ _,
    fun d' hd' => Function.update_of_ne hd' _ _, fun line h => ?_, fun line h => ?_⟩
  · simp only [plainRegisters, hline line h]
    rfl
  · simp only [plainRegisters, hline line h]

theorem wait_sameBut (s : PlainState) (d : Dev) :
    plainRegisters.SameBut (· = d) s (s.wait d) := by
  unfold PlainState.wait
  split_ifs
  · exact set_sameBut s d _ true
  · exact Registers.SameBut.refl (R := plainRegisters) _ s

def plainDevices : Devices where
  toRegisters := plainRegisters
  write := PlainState.write
  wait := PlainState.wait
  pending_of_raised s d h := by
    simp only [plainRegisters, Bool.or_eq_true]
    exact Or.inr (List.any_eq_true.mpr ⟨d.num, List.mem_finRange _, onLine_of_raised h⟩)
  bitmap_of_raised s d h := by
    simp only [plainRegisters]
    rw [Nat.testBit_ofBits_lt _ _ d.num.isLt]
    exact onLine_of_raised h
  write_sameBut s d w := set_sameBut s d _ false
  wait_sameBut s d := wait_sameBut s d
  status_ack s d := by
    have hstatus : (s.write d DEVICE_CMD_ACK).status d = DEVICE_ST_READY :=
      Function.update_self d _ _
    show (s.write d DEVICE_CMD_ACK).status d &&& DEV_STATUS_MASK ≠ TERM_ST_DONE
    rw [hstatus]
    decide

/-- Completions of these devices, with their statuses; the other devices are ready. -/
def completed (completions : List (Dev × Word)) : PlainState where
  timer := false
  status d := (completions.lookup d).getD DEVICE_ST_READY
  raised d := (completions.lookup d).isSome

/-- A process prints, and another one writes to a terminal. -/
def outputHistory : List (Operation umps) :=
  [.waitIo 2 0x100001d0 0 0, .waitIo 0x4102 0x10000250 0 0]

abbrev outputRun (i : ℕ) : Kernel umps :=
  states (Kernel.next .int32) (Kernel.bootMps [2, 1]) outputHistory i

theorem outputRun_ok : (outputRun 2).Ok := by
  have hrun : IsRun (Kernel.Step .int32) outputRun (fun i => outputHistory.getD i .timeSlice) 2 :=
    Kernel.isRun_of_accepts (by decide +kernel)
  refine (Kernel.sparing_of_run (Kernel.bootMps_booted (by decide) (by decide)) hrun
    (fun i hi => ?_) 2 le_rfl).ok
  interval_cases i <;> exact trivial

/-- The printer is done with an error, and the terminal is done. -/
abbrev outputDone : PlainState :=
  completed [(⟨.PRIN, 0⟩, 4), (⟨.TERM_TX, 0⟩, 5)]

/-- Both processes are resumed. -/
theorem completion_delivered_outputDone :
    Kernel.Delivered (outputRun 2) (plainDevices.irq outputDone) ⟨.PRIN, 0⟩ (.pcb 0) none
        (plainDevices.consumeInterrupts .int32 (outputRun 2, outputDone)).1 ∧
      Kernel.Delivered (outputRun 2) (plainDevices.irq outputDone) ⟨.TERM_TX, 0⟩ (.pcb 1) none
        (plainDevices.consumeInterrupts .int32 (outputRun 2, outputDone)).1 := by
  constructor
  · exact (Devices.completion_delivered_iff (D := plainDevices) outputRun_ok (q := [])
      (by decide +kernel) (by decide +kernel) (by decide)).mpr
      ⟨fun hterm => absurd hterm (by decide), fun hconsole => absurd hconsole (by decide)⟩
  · exact (Devices.completion_delivered_iff (D := plainDevices) outputRun_ok (q := [])
      (by decide +kernel) (by decide +kernel) (by decide)).mpr
      ⟨fun _ => show (5 : Word) &&& DEV_STATUS_MASK = TERM_ST_DONE by decide,
        fun hconsole => absurd hconsole (by decide)⟩

/-- The terminal is done with an error. -/
abbrev outputError : PlainState :=
  completed [(⟨.PRIN, 0⟩, 4), (⟨.TERM_TX, 0⟩, 4)]

/-- A process writes to terminal 1. -/
def messageHistory : List (Operation umps) :=
  [.waitIo 0x4102 0x10000260 0 0]

abbrev messageRun (i : ℕ) : Kernel umps :=
  states (Kernel.next .int32) (Kernel.bootMps [2, 1]) messageHistory i

theorem messageRun_ok : (messageRun 1).Ok := by
  have hrun :
      IsRun (Kernel.Step .int32) messageRun (fun i => messageHistory.getD i .timeSlice) 1 :=
    Kernel.isRun_of_accepts (by decide +kernel)
  refine (Kernel.sparing_of_run (Kernel.bootMps_booted (by decide) (by decide)) hrun
    (fun i hi => ?_) 1 le_rfl).ok
  interval_cases i
  exact trivial

/-- Terminal 1 is done, and a printer that nobody waits for. -/
abbrev messageDone : PlainState :=
  completed [(⟨.PRIN, 0⟩, 1), (Devices.console, 5)]

/--
The terminal is done with an error: its process stays blocked, and nothing is sent.  And
terminal 1 is done without one, but the message about the printer comes first: its
process stays blocked too.
-/
theorem completions_undelivered :
    ((outputRun 2).Ok ∧ (outputRun 2).wForRes ⟨.TERM_TX, 0⟩ = some (.pcb 1) ∧
      (outputRun 2).waitQueue (.dev ⟨.TERM_TX, 0⟩) = [.pcb 1] ∧
      plainDevices.raised outputError ⟨.TERM_TX, 0⟩ = true ∧
      (plainDevices.consumeInterrupts .int32 (outputRun 2, outputError)).1.waitQueue
        (.dev ⟨.TERM_TX, 0⟩) = [.pcb 1] ∧
      plainDevices.raised (plainDevices.consumeInterrupts .int32
        (outputRun 2, outputError)).2 ⟨.TERM_TX, 0⟩ = true ∧
      (∀ w ∈ (outputRun 2).sent
          (plainDevices.consumeInterrupts .int32 (outputRun 2, outputError)).1,
        w.cell umps ≠ some ⟨.TERM_TX, 0⟩) ∧
      ¬ Kernel.Delivered (outputRun 2) (plainDevices.irq outputError) ⟨.TERM_TX, 0⟩ (.pcb 1)
        none (plainDevices.consumeInterrupts .int32 (outputRun 2, outputError)).1) ∧
    ((messageRun 1).Ok ∧ (messageRun 1).wForRes Devices.console = some (.pcb 0) ∧
      (messageRun 1).waitQueue (.dev Devices.console) = [.pcb 0] ∧
      plainDevices.raised messageDone Devices.console = true ∧
      plainDevices.Done messageDone Devices.console ∧
      ¬ Kernel.Delivered (messageRun 1) (plainDevices.irq messageDone) Devices.console
        (.pcb 0) none
        (plainDevices.consumeInterrupts .int32 (messageRun 1, messageDone)).1) := by
  have hdone : plainDevices.Done messageDone Devices.console :=
    show (5 : Word) &&& DEV_STATUS_MASK = TERM_ST_DONE by decide
  refine ⟨⟨outputRun_ok, by decide +kernel, by decide +kernel, by decide, by decide +kernel,
    by decide +kernel, by decide +kernel, fun hdelivered => ?_⟩,
    messageRun_ok, by decide +kernel, by decide +kernel, by decide, hdone,
    fun hdelivered => ?_⟩
  · exact absurd hdelivered.resumed (by decide +kernel)
  · rw [Devices.consumeInterrupts_reads] at hdelivered
    refine Devices.console_not_served (D := plainDevices) (m := .int32)
      (x := (messageRun 1, messageDone)) (by decide) hdone
      ⟨⟨.PRIN, 0⟩, by decide +kernel, by decide +kernel⟩ ?_
    exact hdelivered.mem_completions messageRun_ok (by decide +kernel) (q := [])
      (by decide +kernel)

end Example

end Bikaya
