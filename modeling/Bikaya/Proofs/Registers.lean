import Bikaya.Core.Registers
import Bikaya.Proofs.Deliveries

/-!
# Bikaya: the completions on the device registers

The handler reads the registers one after the other, and writes to the devices in between.

**Plan.**  A completion with a registered process writes to its own device, and one without
prints a message, which writes to one transmitter.  `SameBut` says which devices a step may
have changed, and the scan composes it: when the handler comes to a device whose own turn
it is, the device is as it was, unless a message has changed it.  The registration of a
device is changed by its own completion only, so that it is known before the scan which of
the completions will print.

`reads` collects what the handler reads of each register at the time when it does.  On
these readings the work on the kernel's data is the one of `Interrupts.lean`, in which the
registers come all at once; the proofs about runs are made there.

**Results.**
* `doneIo_sameBut_of_registered`, `doneIo_sameBut_of_not_registered`: what one completion
  changes.
* `not_done_addokbuf`: a transmitter that was done is not done any more after a message.
* `consumeInterrupts_reads`: the interrupt on the devices is that on the readings.
-/

namespace Bikaya

open TransitionSystem

namespace Registers.SameBut

variable {R : Registers} {ds ds' : Dev → Prop} {s s' s'' : R.State}

theorem refl (ds : Dev → Prop) (s : R.State) : R.SameBut ds s s :=
  ⟨fun _ _ => rfl, fun _ _ => rfl, fun _ _ => rfl, fun _ _ => rfl⟩

theorem mono (h : R.SameBut ds s s') (hsub : ∀ d, ds d → ds' d) : R.SameBut ds' s s' where
  status d hd := h.status d (fun hds => hd (hsub d hds))
  raised d hd := h.raised d (fun hds => hd (hsub d hds))
  pending line hline := h.pending line (fun d hds => hline d (hsub d hds))
  bitmap line hline := h.bitmap line (fun d hds => hline d (hsub d hds))

theorem trans (h : R.SameBut ds s s') (h' : R.SameBut ds s' s'') : R.SameBut ds s s'' where
  status d hd := (h'.status d hd).trans (h.status d hd)
  raised d hd := (h'.raised d hd).trans (h.raised d hd)
  pending line hline := (h'.pending line hline).trans (h.pending line hline)
  bitmap line hline := (h'.bitmap line hline).trans (h.bitmap line hline)

end Registers.SameBut

/-- The masked status is the one that the scan of the terminals asks for. -/
def Registers.Done (R : Registers) (s : R.State) (d : Dev) : Prop :=
  R.status s d &&& DEV_STATUS_MASK = TERM_ST_DONE

instance (R : Registers) (s : R.State) (d : Dev) : Decidable (R.Done s d) :=
  inferInstanceAs (Decidable (_ = _))

namespace Kernel

variable {A : Arch} {m : IntModel}

theorem removeBlocked_wForRes (k : Kernel A) (key : SemKey) :
    (k.removeBlocked key).2.wForRes = k.wForRes := by
  unfold removeBlocked
  split
  · rfl
  · split <;> rfl

/-- A completion concerns the registration of its own device. -/
theorem doneIo_wForRes
    (k : Kernel A) {d d' : Dev} (hd : d' ≠ d) (status : Word) :
    (k.doneIo m d status).wForRes d' = k.wForRes d' := by
  have hrespond : ∀ (k : Kernel A) x, (k.respond x status).wForRes = k.wForRes :=
    fun k x => congrArg DeviceView.res (devices_respond k x status)
  have hnext : ∀ (k : Kernel A) next, (k.nextCommand m d next).wForRes d' = k.wForRes d' := by
    intro k next
    cases next <;> exact Function.update_of_ne hd _ _
  have hremove := congrFun (removeBlocked_wForRes k (.dev d)) d'
  unfold doneIo
  split
  · rfl
  · simp only [hnext]
    split_ifs
    · rw [hrespond, hremove]
    · exact hremove

theorem timeSlice_wForRes (k : Kernel A) :
    (k.timeSliceCallback m).wForRes = k.wForRes := by
  obtain ⟨priority, ready, running, heq⟩ := timeSlice_frame m k
  rw [heq]

end Kernel

namespace Devices

variable {A : Arch} {D : Devices} {m : IntModel}

section Console

/-- A character is printed, or the transmitter is left alone. -/
theorem termPutchar_cases (s : D.State) (term : Fin 8) (c : Char) :
    ((D.termPutchar s term c).2 = s ∧ ¬ D.Done s ⟨.TERM_TX, term⟩) ∨
      ∃ w, (D.termPutchar s term c).2 =
        D.write (D.wait (D.write s ⟨.TERM_TX, term⟩ w) ⟨.TERM_TX, term⟩) ⟨.TERM_TX, term⟩
          DEVICE_CMD_ACK := by
  simp only [termPutchar]
  split_ifs with hstat
  · exact Or.inl ⟨rfl, hstat.2⟩
  · exact Or.inr ⟨_, rfl⟩
  · exact Or.inr ⟨_, rfl⟩

theorem termPutchar_sameBut (s : D.State) (term : Fin 8) (c : Char) :
    D.SameBut (· = ⟨.TERM_TX, term⟩) s (D.termPutchar s term c).2 := by
  rcases termPutchar_cases s term c with ⟨heq, -⟩ | ⟨w, heq⟩
  · rw [heq]
    exact .refl _ s
  · rw [heq]
    exact ((D.write_sameBut _ _ _).trans (D.wait_sameBut _ _)).trans (D.write_sameBut _ _ _)

theorem not_done_termPutchar (s : D.State) (term : Fin 8) (c : Char) :
    ¬ D.Done (D.termPutchar s term c).2 ⟨.TERM_TX, term⟩ := by
  rcases termPutchar_cases s term c with ⟨heq, hdone⟩ | ⟨w, heq⟩
  · rw [heq]
    exact hdone
  · rw [heq]
    exact D.status_ack _ _

theorem termPutstr_sameBut (term : Fin 8) (str : List Char) (s : D.State) :
    D.SameBut (· = ⟨.TERM_TX, term⟩) s (D.termPutstr term s str) := by
  induction str generalizing s with
  | nil =>
      exact .refl _ s
  | cons c str ih =>
      have hchar := termPutchar_sameBut s term c
      rw [termPutstr]
      split_ifs
      · exact hchar
      · exact hchar.trans (ih _)

theorem not_done_termPutstr
    {term : Fin 8} {s : D.State} (str : List Char) (h : ¬ D.Done s ⟨.TERM_TX, term⟩) :
    ¬ D.Done (D.termPutstr term s str) ⟨.TERM_TX, term⟩ := by
  induction str generalizing s with
  | nil =>
      exact h
  | cons c str ih =>
      rw [termPutstr]
      split_ifs
      · exact not_done_termPutchar s term c
      · exact ih (not_done_termPutchar s term c)

theorem addokbuf_sameBut (s : D.State) (strp : String) :
    D.SameBut (· = console) s (D.addokbuf s strp) :=
  termPutstr_sameBut SYS_TERM strp.toList s

/-- A message takes the completion of the transmitter away. -/
theorem not_done_addokbuf (s : D.State) :
    ¬ D.Done (D.addokbuf s Kernel.unexpectedInterrupt) console := by
  obtain ⟨c, str, hstr⟩ :=
    List.exists_cons_of_ne_nil (show Kernel.unexpectedInterrupt.toList ≠ [] by
      simp [Kernel.unexpectedInterrupt])
  rw [addokbuf, hstr, termPutstr]
  split_ifs
  · exact not_done_termPutchar s SYS_TERM c
  · exact not_done_termPutstr str (not_done_termPutchar s SYS_TERM c)

end Console

section Completions

variable {x : Kernel A × D.State} {d : Dev} {ds : List Dev}

theorem doneIo_fst : (D.doneIo m x d).1 = x.1.doneIo m d (D.status x.2 d) := by
  unfold doneIo
  split <;> rfl

theorem doneIo_wForRes {d' : Dev} (hd : d' ≠ d) :
    (D.doneIo m x d).1.wForRes d' = x.1.wForRes d' := by
  rw [doneIo_fst, Kernel.doneIo_wForRes _ hd]

theorem writes_sameBut (d : Dev) (ws : List BusWrite) (s : D.State) :
    D.SameBut (· = d) s (ws.foldl (fun s w => D.write s d w.command) s) := by
  induction ws generalizing s with
  | nil =>
      exact .refl _ s
  | cons w ws ih =>
      exact (D.write_sameBut s d w.command).trans (ih _)

/-- The completion for a registered process writes to its device. -/
theorem doneIo_sameBut_of_registered (h : x.1.wForRes d ≠ none) :
    D.SameBut (· = d) x.2 (D.doneIo m x d).2 := by
  unfold doneIo
  split
  · next hnone =>
    exact absurd hnone h
  · exact writes_sameBut d _ x.2

/-- The completion without one writes to the transmitter that the messages go to. -/
theorem doneIo_sameBut_of_not_registered (h : x.1.wForRes d = none) :
    D.SameBut (· = console) x.2 (D.doneIo m x d).2 ∧ ¬ D.Done (D.doneIo m x d).2 console := by
  simp only [doneIo, h]
  exact ⟨addokbuf_sameBut x.2 _, not_done_addokbuf x.2⟩

theorem doneIo_sameBut :
    D.SameBut (fun d' => d' = d ∨ d' = console) x.2 (D.doneIo m x d).2 := by
  by_cases h : x.1.wForRes d = none
  · exact (doneIo_sameBut_of_not_registered h).1.mono fun _ => Or.inr
  · exact (doneIo_sameBut_of_registered h).mono fun _ => Or.inl

/-- The completions of a list of devices, one after the other. -/
theorem foldl_sameBut :
    D.SameBut (fun d => d ∈ ds ∨ d = console) x.2 (ds.foldl (D.doneIo m) x).2 := by
  induction ds generalizing x with
  | nil =>
      exact .refl _ x.2
  | cons d ds ih =>
      refine (doneIo_sameBut.mono ?_).trans (ih.mono ?_)
      · rintro d' (rfl | hd')
        · exact Or.inl List.mem_cons_self
        · exact Or.inr hd'
      · exact fun _ => Or.imp_left (List.mem_cons_of_mem d)

/-- The rest of the list is registered as it was. -/
theorem registered_tail
    {d' : Dev} (hnodup : (d :: ds).Nodup) (hd' : d' ∈ ds) :
    (D.doneIo m x d).1.wForRes d' = x.1.wForRes d' :=
  doneIo_wForRes (fun heq => (List.nodup_cons.mp hnodup).1 (heq ▸ hd'))

/-- With registered processes only, nothing is printed. -/
theorem foldl_sameBut_of_registered
    (hnodup : ds.Nodup) (hreg : ∀ d ∈ ds, x.1.wForRes d ≠ none) :
    D.SameBut (· ∈ ds) x.2 (ds.foldl (D.doneIo m) x).2 := by
  induction ds generalizing x with
  | nil =>
      exact .refl _ x.2
  | cons d ds ih =>
      have hd := doneIo_sameBut_of_registered (m := m) (hreg d List.mem_cons_self)
      have htail := ih (x := D.doneIo m x d) hnodup.of_cons fun d' hd' => by
        rw [registered_tail hnodup hd']
        exact hreg d' (List.mem_cons_of_mem d hd')
      exact (hd.mono fun d' hd' => hd' ▸ List.mem_cons_self).trans
        (htail.mono fun d' => List.mem_cons_of_mem d)

/-- One device without a registered process, and the transmitter is not done any more. -/
theorem not_done_foldl
    (hnodup : ds.Nodup) (hcons : console ∉ ds)
    (h : ¬ D.Done x.2 console ∨ ∃ d ∈ ds, x.1.wForRes d = none) :
    ¬ D.Done (ds.foldl (D.doneIo m) x).2 console := by
  induction ds generalizing x with
  | nil =>
      exact h.resolve_right (by simp)
  | cons d ds ih =>
      refine ih hnodup.of_cons (fun hmem => hcons (List.mem_cons_of_mem d hmem)) ?_
      by_cases hd : x.1.wForRes d = none
      · exact Or.inl (doneIo_sameBut_of_not_registered hd).2
      · have hne : console ≠ d := fun heq => hcons (heq ▸ List.mem_cons_self)
        rcases h with hdone | ⟨d', hd', hnone⟩
        · refine Or.inl fun hdone' => hdone ?_
          rwa [Registers.Done, (doneIo_sameBut_of_registered hd).status console hne] at hdone'
        · rcases List.mem_cons.mp hd' with rfl | hd'
          · exact absurd hnone hd
          · exact Or.inr ⟨d', hd', (registered_tail hnodup hd').trans hnone⟩

/-- The kernel's part, with the statuses of the devices before. -/
theorem foldl_fst
    {status : Dev → Word} (hnodup : ds.Nodup) (hcons : console ∉ ds)
    (hstatus : ∀ d ∈ ds, D.status x.2 d = status d) :
    (ds.foldl (D.doneIo m) x).1 = ds.foldl (fun k d => k.doneIo m d (status d)) x.1 := by
  induction ds generalizing x with
  | nil =>
      rfl
  | cons d ds ih =>
      rw [List.foldl_cons, List.foldl_cons, ← hstatus d List.mem_cons_self, ← doneIo_fst]
      refine ih hnodup.of_cons (fun hmem => hcons (List.mem_cons_of_mem d hmem))
        fun d' hd' => ?_
      rw [doneIo_sameBut.status d' ?_]
      · exact hstatus d' (List.mem_cons_of_mem d hd')
      · rintro (rfl | rfl)
        · exact (List.nodup_cons.mp hnodup).1 hd'
        · exact hcons (List.mem_cons_of_mem d hd')

end Completions

section Scan

variable {x : Kernel A × D.State} {irq : Irq} {d : Dev}

theorem line_nodup (irq : Irq) (line : Nat) : (irq.line line).Nodup := by
  unfold Irq.line
  split_ifs
  · cases Kernel.lineType line with
    | none =>
        exact List.nodup_nil
    | some t =>
        exact ((List.nodup_finRange 8).filter _).map fun n n' heq => congrArg Dev.num heq
  · exact List.nodup_nil

/-- The devices on a line other than the terminals' one. -/
theorem type_of_mem_line {line : Nat} (hline : line ∈ [3, 4, 5, 6]) (hd : d ∈ irq.line line) :
    getExtDevLine d.type = line :=
  (Irq.lineType_eq_some hline d.type).mp (Irq.mem_line.mp hd).2.1

theorem lines_nodup
    (irq : Irq) {lines : List Nat} (hsub : ∀ line ∈ lines, line ∈ [3, 4, 5, 6])
    (hnodup : lines.Nodup) :
    (lines.flatMap irq.line).Nodup := by
  refine List.nodup_flatMap.mpr ⟨fun line _ => line_nodup irq line, ?_⟩
  refine hnodup.pairwise_of_forall_ne fun line hline line' hline' hne => ?_
  intro d hd hd'
  exact hne ((type_of_mem_line (hsub line hline) hd).symm.trans
    (type_of_mem_line (hsub line' hline') hd'))

theorem console_not_mem_lines
    {lines : List Nat} (hsub : ∀ line ∈ lines, line ∈ [3, 4, 5, 6]) :
    console ∉ lines.flatMap irq.line := by
  intro hmem
  obtain ⟨line, hline, hd⟩ := List.mem_flatMap.mp hmem
  have hline := hsub line hline
  rw [← type_of_mem_line hline hd] at hline
  exact absurd hline (by decide)

/-- A line is scanned as it is read. -/
theorem consumeLine_eq
    {line : Nat} (hpending : D.pending x.2 line = irq.pending line)
    (hbitmap : D.bitmap x.2 line = irq.bitmap line) :
    D.consumeLine m x line = (irq.line line).foldl (D.doneIo m) x := by
  unfold consumeLine Irq.line
  rw [hpending, hbitmap]
  split_ifs
  · cases Kernel.lineType line with
    | none =>
        rfl
    | some t =>
        rw [List.foldl_map]
  · rfl

/-- The scan of one line leaves the other lines as they were. -/
theorem consumeLines_eq
    {lines : List Nat} (hsub : ∀ line ∈ lines, line ∈ [3, 4, 5, 6]) (hnodup : lines.Nodup)
    (hpending : ∀ line ∈ lines, D.pending x.2 line = irq.pending line)
    (hbitmap : ∀ line ∈ lines, D.bitmap x.2 line = irq.bitmap line) :
    lines.foldl (D.consumeLine m) x = (lines.flatMap irq.line).foldl (D.doneIo m) x := by
  induction lines generalizing x with
  | nil =>
      rfl
  | cons line lines ih =>
      have hline := hsub line List.mem_cons_self
      rw [List.foldl_cons, List.flatMap_cons, List.foldl_append,
        consumeLine_eq (hpending line List.mem_cons_self) (hbitmap line List.mem_cons_self)]
      have hother : ∀ line' ∈ lines, ∀ d, (d ∈ irq.line line ∨ d = console) →
          getExtDevLine d.type ≠ line' := by
        rintro line' hline' d (hd | rfl) rfl
        · rw [type_of_mem_line hline hd] at hline'
          exact (List.nodup_cons.mp hnodup).1 hline'
        · exact absurd (hsub _ (List.mem_cons_of_mem line hline')) (by decide)
      refine ih (fun line' hline' => hsub line' (List.mem_cons_of_mem line hline'))
        hnodup.of_cons (fun line' hline' => ?_) fun line' hline' => ?_
      · rw [foldl_sameBut.pending line' (hother line' hline')]
        exact hpending line' (List.mem_cons_of_mem line hline')
      · rw [foldl_sameBut.bitmap line' (hother line' hline')]
        exact hbitmap line' (List.mem_cons_of_mem line hline')

/-- The sub-devices of the terminals in a bitmap, in the order of the scan. -/
def subdevs (bitmap : Nat) : List Dev :=
  (Kernel.pendingDevs bitmap).flatMap (fun n => [⟨.TERM_RX, n⟩, ⟨.TERM_TX, n⟩])

theorem subdevs_nodup (bitmap : Nat) : (subdevs bitmap).Nodup := by
  have hall : ((List.finRange 8).flatMap
      (fun n => [(⟨.TERM_RX, n⟩ : Dev), ⟨.TERM_TX, n⟩])).Nodup := by decide
  exact hall.sublist (List.filter_sublist.flatMap _)

theorem type_of_mem_subdevs {bitmap : Nat} (hd : d ∈ subdevs bitmap) :
    getExtDevLine d.type = IL_TERMINAL := by
  obtain ⟨n, -, hn⟩ := List.mem_flatMap.mp hd
  rcases List.mem_pair.mp hn with rfl | rfl <;> rfl

theorem consumeSubdev_of_done (h : D.Done x.2 d) :
    D.consumeSubdev m x d = D.doneIo m x d :=
  if_pos h

theorem consumeSubdev_of_not_done (h : ¬ D.Done x.2 d) : D.consumeSubdev m x d = x :=
  if_neg h

theorem consumeSubdev_sameBut :
    D.SameBut (fun d' => d' = d ∨ d' = console) x.2 (D.consumeSubdev m x d).2 := by
  by_cases hdone : D.Done x.2 d
  · rw [consumeSubdev_of_done hdone]
    exact doneIo_sameBut
  · rw [consumeSubdev_of_not_done hdone]
    exact .refl _ x.2

/-- The other sub-devices of a list keep their status. -/
theorem status_tail
    {ds : List Dev} {d' : Dev} (hnodup : (d :: ds).Nodup) (hd' : d' ∈ ds) (hcons : d' ≠ console) :
    D.status (D.consumeSubdev m x d).2 d' = D.status x.2 d' := by
  refine consumeSubdev_sameBut.status d' ?_
  rintro (rfl | rfl)
  · exact (List.nodup_cons.mp hnodup).1 hd'
  · exact hcons rfl

/-- The sub-devices that are done keep their status until they are served. -/
theorem consumeSubdevs_eq
    {ds : List Dev} (hnodup : ds.Nodup) (hcons : console ∉ ds) :
    ds.foldl (D.consumeSubdev m) x = (ds.filter (D.Done x.2 ·)).foldl (D.doneIo m) x := by
  induction ds generalizing x with
  | nil =>
      rfl
  | cons d ds ih =>
      have hcons' : console ∉ ds := fun hmem => hcons (List.mem_cons_of_mem d hmem)
      have hsame : ds.filter (D.Done (D.consumeSubdev m x d).2 ·) = ds.filter (D.Done x.2 ·) := by
        refine List.filter_congr fun d' hd' => ?_
        have hstatus := status_tail (D := D) (m := m) (x := x) hnodup hd'
          fun heq => hcons' (heq ▸ hd')
        exact decide_eq_decide.mpr (by rw [Registers.Done, Registers.Done, hstatus])
      rw [List.foldl_cons, ih hnodup.of_cons hcons', hsame]
      by_cases hdone : D.Done x.2 d
      · rw [List.filter_cons_of_pos (by simpa using hdone), List.foldl_cons,
          consumeSubdev_of_done hdone]
      · rw [List.filter_cons_of_neg (by simpa using hdone), consumeSubdev_of_not_done hdone]

theorem consumeSubdev_fst (hstatus : D.status x.2 d = irq.status d) :
    (D.consumeSubdev m x d).1 = Kernel.consumeSubdev m irq x.1 d := by
  unfold consumeSubdev Kernel.consumeSubdev
  rw [hstatus]
  split_ifs
  · rw [doneIo_fst, hstatus]
  · rfl

theorem consumeSubdevs_fst
    {ds : List Dev} (hnodup : ds.Nodup) (hcons : console ∉ ds)
    (hstatus : ∀ d ∈ ds, D.status x.2 d = irq.status d) :
    (ds.foldl (D.consumeSubdev m) x).1 = ds.foldl (Kernel.consumeSubdev m irq) x.1 := by
  induction ds generalizing x with
  | nil =>
      rfl
  | cons d ds ih =>
      have hcons' : console ∉ ds := fun hmem => hcons (List.mem_cons_of_mem d hmem)
      rw [List.foldl_cons, List.foldl_cons,
        ← consumeSubdev_fst (hstatus d List.mem_cons_self)]
      refine ih hnodup.of_cons hcons' fun d' hd' => ?_
      rw [status_tail hnodup hd' fun heq => hcons' (heq ▸ hd')]
      exact hstatus d' (List.mem_cons_of_mem d hd')

/-- The transmitter of the messages is read when the scan comes to it. -/
theorem terminals_fst
    {ds : List Dev} (hnodup : ds.Nodup)
    (hstatus : ∀ d ∈ ds, d ≠ console → D.status x.2 d = irq.status d)
    (hcons : D.status ((ds.takeWhile (· ≠ console)).foldl (D.consumeSubdev m) x).2 console =
      irq.status console) :
    (ds.foldl (D.consumeSubdev m) x).1 = ds.foldl (Kernel.consumeSubdev m irq) x.1 := by
  induction ds generalizing x with
  | nil =>
      rfl
  | cons d ds ih =>
      rw [List.foldl_cons, List.foldl_cons]
      by_cases hd : d = console
      · subst hd
        rw [List.takeWhile_cons_of_neg (by simp), List.foldl_nil] at hcons
        rw [← consumeSubdev_fst hcons]
        have hnot := (List.nodup_cons.mp hnodup).1
        refine consumeSubdevs_fst hnodup.of_cons hnot fun d' hd' => ?_
        have hne : d' ≠ console := fun heq => hnot (heq ▸ hd')
        rw [status_tail hnodup hd' hne]
        exact hstatus d' (List.mem_cons_of_mem _ hd') hne
      · rw [List.takeWhile_cons_of_pos (by simpa using hd)] at hcons
        rw [← consumeSubdev_fst (hstatus d List.mem_cons_self hd)]
        refine ih hnodup.of_cons (fun d' hd' hne => ?_) hcons
        rw [status_tail hnodup hd' hne]
        exact hstatus d' (List.mem_cons_of_mem d hd') hne

end Scan

section Reads

variable {x : Kernel A × D.State} {d : Dev}

/-- The interval timer. -/
def afterTimer (D : Devices) (m : IntModel) (x : Kernel A × D.State) : Kernel A × D.State :=
  if D.pending x.2 IL_TIMER then (x.1.timeSliceCallback m, x.2) else x

/-- The lines before the one of the terminals. -/
def afterLines (D : Devices) (m : IntModel) (x : Kernel A × D.State) : Kernel A × D.State :=
  [3, 4, 5, 6].foldl (D.consumeLine m) (D.afterTimer m x)

/-- The sub-devices before the transmitter of the messages. -/
def beforeConsole (D : Devices) (m : IntModel) (x : Kernel A × D.State) : List Dev :=
  (subdevs (D.bitmap (D.afterLines m x).2 IL_TERMINAL)).takeWhile (· ≠ console)

/-- The scan has come to this transmitter. -/
def atConsole (D : Devices) (m : IntModel) (x : Kernel A × D.State) : Kernel A × D.State :=
  (D.beforeConsole m x).foldl (D.consumeSubdev m) (D.afterLines m x)

/--
What the handler reads during an interrupt: the line of the terminals after the others,
and the transmitter of the messages when the scan comes to it.
-/
def reads (D : Devices) (m : IntModel) (x : Kernel A × D.State) : Irq where
  pending line :=
    D.pending (if line = IL_TERMINAL then (D.afterLines m x).2 else x.2) line
  bitmap line :=
    D.bitmap (if line = IL_TERMINAL then (D.afterLines m x).2 else x.2) line
  status d := D.status (if d = console then (D.atConsole m x).2 else x.2) d

/-- The devices of the other lines that have a completion pending. -/
abbrev lines (D : Devices) (s : D.State) : List Dev :=
  [3, 4, 5, 6].flatMap (D.irq s).line

theorem afterTimer_snd : (D.afterTimer m x).2 = x.2 := by
  unfold afterTimer
  split_ifs <;> rfl

theorem afterTimer_wForRes : (D.afterTimer m x).1.wForRes = x.1.wForRes := by
  unfold afterTimer
  split_ifs
  · exact Kernel.timeSlice_wForRes x.1
  · rfl

theorem lines_reads : [3, 4, 5, 6].flatMap (D.reads m x).line = D.lines x.2 := by
  rfl

theorem afterLines_eq :
    D.afterLines m x = (D.lines x.2).foldl (D.doneIo m) (D.afterTimer m x) := by
  refine consumeLines_eq (fun _ => id) (by decide) (fun _ _ => ?_) fun _ _ => ?_
  · rw [afterTimer_snd]
    rfl
  · rw [afterTimer_snd]
    rfl

theorem consumeInterrupts_eq :
    D.consumeInterrupts m x =
      if D.pending (D.afterLines m x).2 IL_TERMINAL then
        (subdevs (D.bitmap (D.afterLines m x).2 IL_TERMINAL)).foldl (D.consumeSubdev m)
          (D.afterLines m x)
      else D.afterLines m x := by
  rw [subdevs, List.foldl_flatMap]
  rfl

/-- The lines before the terminals change their own devices and the transmitter only. -/
theorem afterLines_sameBut :
    D.SameBut (fun d => d ∈ D.lines x.2 ∨ d = console) x.2 (D.afterLines m x).2 := by
  have h : D.SameBut (fun d => d ∈ D.lines x.2 ∨ d = console) (D.afterTimer m x).2
      ((D.lines x.2).foldl (D.doneIo m) (D.afterTimer m x)).2 := foldl_sameBut
  rwa [afterTimer_snd, ← afterLines_eq] at h

theorem not_mem_lines (hd : getExtDevLine d.type = IL_TERMINAL) : d ∉ D.lines x.2 := by
  intro hmem
  obtain ⟨line, hline, hd'⟩ := List.mem_flatMap.mp hmem
  rw [← type_of_mem_line hline hd', hd] at hline
  exact absurd hline (by decide)

/--
The interrupt on the devices is that of the registers as they are read: what holds for
every content of the registers holds on the devices.
-/
theorem consumeInterrupts_reads :
    (D.consumeInterrupts m x).1 = x.1.consumeInterrupts m (D.reads m x) := by
  have hlines : (D.afterLines m x).1 =
      [3, 4, 5, 6].foldl (Kernel.consumeLine m (D.reads m x)) (D.afterTimer m x).1 := by
    rw [Kernel.consumeLines_eq, lines_reads, afterLines_eq]
    refine foldl_fst (lines_nodup _ (fun _ => id) (by decide))
      (console_not_mem_lines fun _ => id) fun d hd => ?_
    rw [afterTimer_snd]
    have hne : d ≠ console := fun heq => console_not_mem_lines (fun _ => id) (heq ▸ hd)
    simp only [reads, if_neg hne]
  have htimer : (D.afterTimer m x).1 =
      if (D.reads m x).pending IL_TIMER then x.1.timeSliceCallback m else x.1 := by
    unfold afterTimer
    exact apply_ite Prod.fst _ _ _
  rw [consumeInterrupts_eq, Kernel.consumeInterrupts, ← htimer, ← hlines]
  show _ = if D.pending (D.afterLines m x).2 IL_TERMINAL then _ else _
  have hstatus : ∀ d ∈ subdevs (D.bitmap (D.afterLines m x).2 IL_TERMINAL), d ≠ console →
      D.status (D.afterLines m x).2 d = (D.reads m x).status d := by
    intro d hd hne
    have hterm := type_of_mem_subdevs hd
    rw [afterLines_sameBut.status d (by simpa [hne] using not_mem_lines hterm)]
    simp only [reads, if_neg hne]
  split_ifs
  · rw [terminals_fst (subdevs_nodup _) hstatus rfl, subdevs, List.foldl_flatMap]
    rfl
  · rfl

end Reads

end Devices

end Bikaya
