import Bikaya.Proofs.Removal

/-!
# Bikaya: termination of a subtree

`terminateProc` kills the subtree of its target.  The module proves the effect of the
visits on the lists of processes, and assembles the effect of a termination as one update
of the kernel.

**Plan.**  A visit finds its process by the key of its semaphore, or by its registration,
or as running or ready (`Locatable`), and takes it out of that place.  What is left of a
queue after the visits are the survivors (`survivors`), in their order.  The root is
detached from its parent first, which changes the tree only.

**Results.**
* `killAll_spec`: the visits of a listing, one after the other.
* `terminateProc_spec`: a termination that finds all its victims, as one update.
* `locatable_of_terminateProc`: a termination that returns has found all of them, if none
  that is running or ready is registered with a device.
-/

namespace Bikaya

open OrderedForest StableInsert

namespace Kernel

variable {A : Arch} {k k' : Kernel A}

/--
The removal finds `x`: it is blocked, or ready and registered with no device, or
registered and in no queue.
-/
def Unlinkable (k : Kernel A) (x : Proc) : Prop :=
  k.pSemkey x ≠ none ∨ (k.devWList x = none ↔ x ∈ k.readyQueue)

/-- `w_for_res` after the removal of the processes of `l`. -/
def vacated (k : Kernel A) (l : List Proc) : Dev → Option Proc :=
  fun d =>
    if ∃ x ∈ l, k.pSemkey x = none ∧ k.devWList x = some d then none else k.wForRes d

/-- The semaphore keys after the processes of `l` have been unlinked. -/
def unblocked (pSemkey : Proc → Option SemKey) (l : List Proc) : Proc → Option SemKey :=
  fun x => if x ∈ l then none else pSemkey x

/-- What is left of a queue when the processes of `l` are killed. -/
abbrev survivors (l q : List Proc) : List Proc :=
  q.filter (fun x => x ∉ l)

section Visits

variable (h : Residence k.asl k.pcbFreeH k.readyQueue k.pSemkey)
include h

omit h in
theorem vacated_of_clean
    {l : List Proc} (hl : ∀ x ∈ l, k.pSemkey x = none → k.devWList x = none) :
    k.vacated l = k.wForRes := by
  funext d
  refine if_neg ?_
  rintro ⟨x, hx, hkey, hdev⟩
  rw [hl x hx hkey] at hdev
  exact Option.some_ne_none d hdev.symm

/-- One visit takes the process out of the list it is in, and frees it. -/
theorem kill_spec
    {x : Proc} (hx : k.Unlinkable x) (hfree : x ∉ k.pcbFreeH) :
    ∃ asl : Asl,
      k.kill x = some
        { k with
          asl := asl
          pSemkey := Function.update k.pSemkey x none
          wForRes := k.vacated [x]
          readyQueue := k.readyQueue.erase x
          pcbFreeH := x :: k.pcbFreeH } ∧
      (∀ key, asl.waitQueue key = (k.waitQueue key).erase x) ∧
      Residence asl (x :: k.pcbFreeH) (k.readyQueue.erase x)
        (Function.update k.pSemkey x none) := by
  by_cases hkey : k.pSemkey x = none
  · have hlists : k.devWList x = none ↔ x ∈ k.readyQueue := by
      simpa [Unlinkable, hkey] using hx
    have hsame : Function.update k.pSemkey x none = k.pSemkey := by
      rw [← hkey, Function.update_eq_self]
    have hwait := (h.semkey_eq_none_iff).mp hkey
    have herase : ∀ key, k.waitQueue key = (k.waitQueue key).erase x :=
      fun key => (List.erase_of_not_mem (hwait key)).symm
    refine ⟨k.asl, ?_, herase, ?_⟩
    · rw [hsame]
      cases hdev : k.devWList x with
      | none =>
          have hready := hlists.mp hdev
          have hres : k.vacated [x] = k.wForRes :=
            vacated_of_clean (fun y hy _ => by rw [List.mem_singleton.mp hy, hdev])
          rw [hres]
          simp only [kill, unlinkProc, hkey, hdev, outProcQ_eq, hready, if_true]
          rfl
      | some d =>
          have hready : x ∉ k.readyQueue := fun hready => by
            rw [hlists.mpr hready] at hdev
            exact Option.some_ne_none d hdev.symm
          have hres : k.vacated [x] = Function.update k.wForRes d none := by
            funext d'
            by_cases hd : d' = d
            · subst hd
              simp [vacated, hkey, hdev]
            · simp [vacated, hdev, hd, Ne.symm hd]
          rw [List.erase_of_not_mem hready, hres]
          simp only [kill, unlinkProc, hkey, hdev]
          rfl
    · rw [hsame]
      by_cases hready : x ∈ k.readyQueue
      · exact (h.leaveReady List.erase_sublist).enterFree
          (Residence.absent_eraseReady h hready)
      · rw [List.erase_of_not_mem hready]
        exact h.enterFree (h.absent_of_semkey hfree hready hkey)
  · obtain ⟨key, hkey⟩ := Option.ne_none_iff_exists'.mp hkey
    have hwait := (h.semkey x key).mp hkey
    have hready : x ∉ k.readyQueue := by
      intro hready
      rw [h.semkey_of_ready hready] at hkey
      exact Option.some_ne_none key hkey.symm
    obtain ⟨asl, hout, hOk, hqueue⟩ := outBlocked_spec h.aslOk hkey hwait
    obtain ⟨hres, habsent⟩ := h.unblock hOk hwait hqueue
      (List.perm_cons_erase hwait) List.erase_sublist
    have hsame : k.vacated [x] = k.wForRes :=
      vacated_of_clean (fun y hy hnone => by
        rw [List.mem_singleton.mp hy, hkey] at hnone
        exact absurd hnone (Option.some_ne_none key))
    rw [List.erase_of_not_mem hready, hsame]
    refine ⟨asl, ?_, ?_, hres.enterFree habsent⟩
    · simp only [kill, unlinkProc, hkey, hout]
      rfl
    · intro key'
      rw [hqueue]
      by_cases hk : key' = key
      · subst hk
        rw [Function.update_self]
      · rw [Function.update_of_ne hk]
        refine (List.erase_of_not_mem ?_).symm
        intro hx'
        rw [(h.semkey x key').mpr hx'] at hkey
        exact hk (Option.some.inj hkey)

omit h in
/-- A visit that finds nothing panics. -/
theorem kill_eq_none
    {x : Proc} (hkey : k.pSemkey x = none) (hdev : k.devWList x = none)
    (hready : x ∉ k.readyQueue) :
    k.kill x = none := by
  simp only [kill, unlinkProc, hkey, hdev, outProcQ_eq, hready, if_false]

omit h in
/-- A visit of another process keeps the queues and the registration of `y`. -/
theorem unlinkable_after
    {x y : Proc} (hyx : y ≠ x) (asl : Asl) (res : Dev → Option Proc) :
    Unlinkable
      { k with
        asl := asl
        pSemkey := Function.update k.pSemkey x none
        wForRes := res
        readyQueue := k.readyQueue.erase x
        pcbFreeH := x :: k.pcbFreeH } y ↔ k.Unlinkable y := by
  simp only [Unlinkable, Function.update_of_ne hyx, List.mem_erase_of_ne hyx]

omit h in
/-- The records that the visit of `x` and the visits of `l` clear. -/
theorem vacated_cons
    {k₁ : Kernel A} {x : Proc} {l : List Proc} (hxl : x ∉ l)
    (hkey : k₁.pSemkey = Function.update k.pSemkey x none)
    (hdev : k₁.devWList = k.devWList) (hres : k₁.wForRes = k.vacated [x]) :
    k₁.vacated l = k.vacated (x :: l) := by
  funext d
  have hiff : (∃ y ∈ l, k₁.pSemkey y = none ∧ k₁.devWList y = some d) ↔
      ∃ y ∈ l, k.pSemkey y = none ∧ k.devWList y = some d := by
    rw [hkey, hdev]
    refine exists_congr fun y => and_congr_right fun hy => ?_
    have hyx : y ≠ x := fun hyx => hxl (hyx ▸ hy)
    rw [Function.update_of_ne hyx]
  simp only [vacated, hiff, hres, List.mem_cons, exists_eq_or_imp]
  by_cases hx : k.pSemkey x = none ∧ k.devWList x = some d
  · simp only [hx, and_self, true_or, if_true, ite_self]
  · simp only [hx, false_or, List.not_mem_nil, false_and, exists_false, if_false]

/-- What a whole list of visits does. -/
theorem killAll_spec
    {l : List Proc} (hnd : l.Nodup)
    (hl : ∀ x ∈ l, k.Unlinkable x) (hlfree : ∀ x ∈ l, x ∉ k.pcbFreeH) :
    ∃ asl : Asl,
      k.killAll l = some
        { k with
          asl := asl
          pSemkey := unblocked k.pSemkey l
          wForRes := k.vacated l
          readyQueue := survivors l k.readyQueue
          pcbFreeH := l.reverse ++ k.pcbFreeH } ∧
      (∀ key, asl.waitQueue key = survivors l (k.waitQueue key)) ∧
      Residence asl (l.reverse ++ k.pcbFreeH) (survivors l k.readyQueue)
        (unblocked k.pSemkey l) := by
  induction l generalizing k with
  | nil =>
      have hkey : unblocked k.pSemkey [] = k.pSemkey := by
        funext x
        simp [unblocked]
      have hres : k.vacated [] = k.wForRes :=
        vacated_of_clean (fun x hx => absurd hx List.not_mem_nil)
      have hsurv : ∀ q : List Proc, survivors [] q = q := by
        intro q
        simp [survivors]
      refine ⟨k.asl, ?_, ?_, ?_⟩
      · rw [hkey, hres, hsurv]
        rfl
      · intro key
        rw [hsurv]
        rfl
      · rw [hkey, hsurv]
        exact h
  | cons x l ih =>
      obtain ⟨hxl, hnd⟩ := List.nodup_cons.mp hnd
      have hne : ∀ y ∈ l, y ≠ x := fun y hy hyx => hxl (hyx ▸ hy)
      obtain ⟨asl1, hkill, hwait1, hres1⟩ :=
        kill_spec h (hl x List.mem_cons_self) (hlfree x List.mem_cons_self)
      obtain ⟨asl2, hkillAll, hwait2, hres2⟩ := ih (k := { k with
          asl := asl1
          pSemkey := Function.update k.pSemkey x none
          wForRes := k.vacated [x]
          readyQueue := k.readyQueue.erase x
          pcbFreeH := x :: k.pcbFreeH }) hres1 hnd
        (fun y hy => (unlinkable_after (hne y hy) asl1 _).mpr
          (hl y (List.mem_cons_of_mem _ hy)))
        (fun y hy => by simp [hne y hy, hlfree y (List.mem_cons_of_mem _ hy)])
      have hkey : unblocked (Function.update k.pSemkey x none) l =
          unblocked k.pSemkey (x :: l) := by
        funext y
        by_cases hyx : y = x
        · subst hyx
          simp [unblocked]
        · simp [unblocked, hyx]
      have hvacated : vacated
          { k with
            asl := asl1
            pSemkey := Function.update k.pSemkey x none
            wForRes := k.vacated [x]
            readyQueue := k.readyQueue.erase x
            pcbFreeH := x :: k.pcbFreeH } l = k.vacated (x :: l) :=
        vacated_cons hxl rfl rfl rfl
      have hsurv : ∀ q : List Proc, q.Nodup →
          survivors l (q.erase x) = survivors (x :: l) q := by
        intro q hq
        rw [survivors, hq.erase_eq_filter, List.filter_filter]
        refine List.filter_congr (fun y _ => ?_)
        by_cases hyx : y = x <;> simp [hyx]
      have hready := hsurv k.readyQueue h.ready_nodup
      simp only [hkey, hready, hvacated] at hkillAll hres2
      have hfreeList : l.reverse ++ x :: k.pcbFreeH = (x :: l).reverse ++ k.pcbFreeH := by
        simp
      rw [hfreeList] at hkillAll hres2
      refine ⟨asl2, ?_, ?_, hres2⟩
      · rw [killAll, hkill]
        exact hkillAll
      · intro key
        rw [hwait2 key]
        show survivors l (asl1.waitQueue key) = _
        rw [hwait1 key]
        exact hsurv _ (h.wait_nodup key)

/-- If no visit panics then every process was found. -/
theorem unlinkable_of_killAll
    {l : List Proc} (hnd : l.Nodup) (hlfree : ∀ x ∈ l, x ∉ k.pcbFreeH)
    (hclean : ∀ x ∈ l, x ∈ k.readyQueue → k.devWList x = none)
    (hkillAll : k.killAll l = some k') :
    ∀ x ∈ l, k.Unlinkable x := by
  induction l generalizing k with
  | nil =>
      intro x hx
      exact absurd hx List.not_mem_nil
  | cons x l ih =>
      obtain ⟨hxl, hnd⟩ := List.nodup_cons.mp hnd
      have hne : ∀ y ∈ l, y ≠ x := fun y hy hyx => hxl (hyx ▸ hy)
      have hx : k.Unlinkable x := by
        by_contra hx
        obtain ⟨hkey, hlists⟩ := not_or.mp hx
        rw [not_not] at hkey
        have hready := hclean x List.mem_cons_self
        obtain ⟨hdev, hready⟩ : k.devWList x = none ∧ x ∉ k.readyQueue := by tauto
        rw [killAll, kill_eq_none hkey hdev hready] at hkillAll
        exact absurd hkillAll (by simp)
      obtain ⟨asl1, hkill, -, hres1⟩ := kill_spec h hx (hlfree x List.mem_cons_self)
      rw [killAll, hkill] at hkillAll
      have hrest := ih (k := { k with
          asl := asl1
          pSemkey := Function.update k.pSemkey x none
          wForRes := k.vacated [x]
          readyQueue := k.readyQueue.erase x
          pcbFreeH := x :: k.pcbFreeH }) hres1 hnd
        (fun y hy => by simp [hne y hy, hlfree y (List.mem_cons_of_mem _ hy)])
        (fun y hy hready => hclean y (List.mem_cons_of_mem _ hy) (List.mem_of_mem_erase hready))
        hkillAll
      intro y hy
      rcases List.mem_cons.mp hy with rfl | hy
      · exact hx
      · exact (unlinkable_after (hne y hy) asl1 _).mp (hrest y hy)

end Visits

/-- The kernel with the running process parked in the ready queue. -/
def parked (k : Kernel A) : Kernel A :=
  { k with readyQueue := insertProcQ k.priority k.readyQueue k.runningProc }

/-- The removal finds `x`, once the running process is parked in the ready queue. -/
def Removable (k : Kernel A) (x : Proc) : Prop :=
  k.pSemkey x ≠ none ∨ (k.devWList x = none ∧ (x = k.runningProc ∨ x ∈ k.readyQueue))

/-- The same, for a process that may also be registered and in no queue. -/
def Locatable (k : Kernel A) (x : Proc) : Prop :=
  k.pSemkey x ≠ none ∨ (k.devWList x = none ↔ x = k.runningProc ∨ x ∈ k.readyQueue)

theorem Removable.locatable {x : Proc} (h : k.Removable x) : k.Locatable x :=
  h.imp_right (fun h => iff_of_true h.1 h.2)

theorem locatable_iff {x : Proc} : k.Locatable x ↔ k.parked.Unlinkable x := by
  unfold Locatable Unlinkable parked
  rw [mem_insertProcQ]

/-- The running process after the processes of `l` have been killed. -/
def runningAfter (k : Kernel A) (l : List Proc) : Proc :=
  if k.runningProc ∈ l then (survivors l k.readyQueue).head?.getD .idle else k.runningProc

/-- The ready queue after the processes of `l` have been killed. -/
def readyAfter (k : Kernel A) (l : List Proc) : List Proc :=
  if k.runningProc ∈ l then (survivors l k.readyQueue).tail else survivors l k.readyQueue

/-- The children after the subtree `l` with root `t` has been killed. -/
def childrenAfter (k : Kernel A) (t : Proc) (l : List Proc) : Proc → List Proc :=
  fun x =>
    if x ∈ l then []
    else if k.pParent t = some x then (k.pChild x).erase t
    else k.pChild x

/-- The kernel after the subtree `l` with root `t` has been killed. -/
def afterTermination (k : Kernel A) (t : Proc) (l : List Proc)
    (asl : Asl) (pParent : Proc → Option Proc) : Kernel A :=
  { k with
    asl := asl
    pParent := pParent
    pChild := k.childrenAfter t l
    pSemkey := unblocked k.pSemkey l
    readyQueue := k.readyAfter l
    runningProc := k.runningAfter l
    pcbFreeH := l.reverse ++ k.pcbFreeH }

theorem runNextReady_eq
    (k : Kernel A) :
    k.runNextReady =
      { k with
        readyQueue := k.readyQueue.tail
        runningProc := k.readyQueue.head?.getD .idle } := by
  cases hq : k.readyQueue <;> simp [runNextReady, setRunningProc, hq]

section Termination

variable {t : Proc} {l : List Proc}

/-- The root of the subtree leaves the children of its parent. -/
theorem detachRoot_eq
    (htree : TreeOk k.pParent k.pChild k.pcbFreeH) (ht : t ∉ k.pcbFreeH) :
    ∃ pParent,
      (if (k.pParent t).isSome then (k.outChild t).map Prod.snd else .ok k) =
        .ok (k.withTree pParent (fun x =>
          if k.pParent t = some x then (k.pChild x).erase t else k.pChild x)) ∧
      ∀ x, x ≠ t → pParent x = k.pParent x := by
  cases hparent : k.pParent t with
  | none =>
      exact ⟨k.pParent, by simp; rfl, fun _ _ => rfl⟩
  | some a =>
      obtain ⟨pParent, hout, hoff⟩ := outChild_spec htree ht hparent
      refine ⟨pParent, ?_, hoff⟩
      have hchild : Function.update k.pChild a ((k.pChild a).erase t) =
          fun x => if some a = some x then (k.pChild x).erase t else k.pChild x := by
        funext x
        by_cases hx : x = a
        · subst hx
          simp
        · simp [hx, Ne.symm hx]
      simp only [Option.isSome_some, if_true, hout, Except.map, hchild]
      rfl

theorem subtree_nodup
    (htree : TreeOk k.pParent k.pChild k.pcbFreeH)
    (hl : Preorder k.pChild [t] l) : l.Nodup := by
  refine hl.nodup htree.forest (by simp) ?_
  intro a ha b hb hne
  rw [List.mem_singleton.mp ha, List.mem_singleton.mp hb] at hne
  exact absurd rfl hne

theorem mem_subtree
    (hl : Preorder k.pChild [t] l) (x : Proc) :
    x ∈ l ↔ Below k.pChild x t := by
  simpa using hl.mem_iff x

/-- The recursion, started by `terminate_proc`, is the list of its visits. -/
theorem terminate_visits
    (htree : TreeOk k.pParent k.pChild k.pcbFreeH)
    (ht : k.Live t) (hl : Preorder k.pChild [t] l) :
    ∃ pParent,
      (∀ x, x ∉ l → pParent x = k.pParent x) ∧
      (∀ p, p.getD k.runningProc = t →
        k.terminateProc p =
          match k.parked.killAll l with
          | none => .error removalPanic
          | some k1 =>
              let k1 := k1.withTree pParent (k.childrenAfter t l)
              match outProcQ k1.readyQueue k1.runningProc with
              | (some _, q) => .ok (0, { k1 with readyQueue := q })
              | (none, q) => .ok (0, { k1 with readyQueue := q }.runNextReady)) := by
  have hmem := mem_subtree hl
  have hnd := subtree_nodup htree hl
  obtain ⟨pParent, hdetach, hoff⟩ := detachRoot_eq (k := k) htree ht.2
  refine ⟨orphan pParent (l.erase t), ?_, ?_⟩
  · intro x hx
    have hxt : x ≠ t := by
      rintro rfl
      exact hx ((hmem x).mpr (Below.refl x))
    have hxe : x ∉ l.erase t := fun hx' => hx (List.mem_of_mem_erase hx')
    rw [orphan, if_neg hxe, hoff x hxt]
  · intro p hp
    cases hl with
    | @cons _ _ below after hbelow hafter =>
        cases hafter with
        | nil =>
            rw [List.append_nil] at hmem hnd ⊢
            have hlen : (t :: below).length ≤ Fintype.card Proc := hnd.length_le_card
            rw [Proc.card, List.length_cons] at hlen
            set k1 := k.withTree pParent (fun x =>
              if k.pParent t = some x then (k.pChild x).erase t else k.pChild x) with hk1
            set k2 := { k1 with
              readyQueue := insertProcQ k1.priority k1.readyQueue k1.runningProc } with hk2
            have hsame : ∀ x ∈ t :: below, k2.pChild x = k.pChild x := by
              intro x hx
              have hnot : k.pParent t ≠ some x := by
                intro hparent
                have htx := htree.parentChild t x ht.2 hparent
                exact htree.forest.not_below_child htx ((hmem x).mp hx)
              exact if_neg hnot
            have hrec := recursiveRemoveProc_eq hbelow (n := removalFuel) (k := k2)
              (by simp only [removalFuel]; omega) hsame hnd
            have herase : (t :: below).erase t = below := List.erase_cons_head _ _
            have hchild : childless k2.pChild (t :: below) = k.childrenAfter t (t :: below) := rfl
            have hkill : k2.killAll (t :: below) =
                (k.parked.killAll (t :: below)).map
                  (fun k3 => k3.withTree k2.pParent k2.pChild) :=
              killAll_withTree k2.pParent k2.pChild (t :: below) k.parked
            have hunfold : k.terminateProc p =
                recursiveRemoveProc removalFuel k2 t >>= fun r =>
                  match outProcQ r.2.readyQueue r.2.runningProc with
                  | (some _, q) => .ok (r.1, { r.2 with readyQueue := q })
                  | (none, q) => .ok (r.1, { r.2 with readyQueue := q }.runNextReady) := by
              by_cases hs : (k.pParent t).isSome
              · rw [if_pos hs] at hdetach
                simp only [terminateProc, hp, hs, if_true, hdetach]
                rfl
              · rw [if_neg hs] at hdetach
                simp only [terminateProc, hp, hs, if_false, hdetach, Bool.false_eq_true]
                rfl
            rw [hunfold]
            rw [hrec, hkill, herase]
            cases k.parked.killAll (t :: below) with
            | none =>
                rfl
            | some k3 =>
                simp only [Option.map_some, removed]
                rfl

variable (hres : Residence k.asl k.pcbFreeH k.readyQueue k.pSemkey)
variable (htree : TreeOk k.pParent k.pChild k.pcbFreeH)
variable (hrun : Residence.Absent k.asl k.pcbFreeH k.readyQueue k.runningProc)
include hres htree hrun

/-- A termination whose subtree can be found kills exactly the subtree. -/
theorem terminateProc_spec
    (ht : k.Live t) (hl : Preorder k.pChild [t] l)
    (hfound : ∀ x ∈ l, k.Locatable x)
    {p : Option Proc} (hp : p.getD k.runningProc = t) :
    ∃ asl pParent,
      k.terminateProc p =
        .ok (0, { k.afterTermination t l asl pParent with wForRes := k.vacated l }) ∧
      (∀ key, asl.waitQueue key = survivors l (k.waitQueue key)) ∧
      (∀ x, x ∉ l → pParent x = k.pParent x) ∧
      Residence asl (l.reverse ++ k.pcbFreeH) (survivors l k.readyQueue)
        (unblocked k.pSemkey l) := by
  have hmem := mem_subtree hl
  have hnd := subtree_nodup htree hl
  obtain ⟨pParent, hoff, hterm⟩ := terminate_visits htree ht hl
  have hparked : Residence k.asl k.pcbFreeH
      (insertProcQ k.priority k.readyQueue k.runningProc) k.pSemkey :=
    hres.enterReady hrun (insertProcQ_perm _ _ _)
  obtain ⟨asl, hkill, hwait, hres'⟩ := killAll_spec
    (k := k.parked) hparked hnd (fun x hx => locatable_iff.mp (hfound x hx))
    (fun x hx => (htree.below_live ht ((hmem x).mp hx)).2)
  have hvacated : k.parked.vacated l = k.vacated l := rfl
  rw [hvacated] at hkill
  have hrunReady : k.runningProc ∉ k.readyQueue := (Residence.absent_iff.mp hrun).2.1
  have hready : (survivors l (insertProcQ k.priority k.readyQueue k.runningProc)).erase
      k.runningProc = survivors l k.readyQueue := by
    have hq : (insertProcQ k.priority k.readyQueue k.runningProc).Nodup := hparked.ready_nodup
    rw [(hq.filter _).erase_eq_filter, List.filter_filter]
    have hback : survivors l k.readyQueue =
        survivors l ((insertProcQ k.priority k.readyQueue k.runningProc).erase
          k.runningProc) := by
      rw [insertProcQ_eq, erase_stableInsert hrunReady]
    rw [hback, survivors, hq.erase_eq_filter, List.filter_filter]
    exact List.filter_congr (fun y _ => Bool.and_comm _ _)
  refine ⟨asl, pParent, ?_, hwait, hoff, ?_⟩
  · rw [hterm p hp, hkill]
    simp only [parked, withTree, outProcQ_eq, hready]
    by_cases hdead : k.runningProc ∈ l
    · have hnot : k.runningProc ∉
          survivors l (insertProcQ k.priority k.readyQueue k.runningProc) := by
        simp [hdead]
      simp only [hnot, if_false, runNextReady_eq, afterTermination, runningAfter, readyAfter,
        hdead, if_true]
    · have hin : k.runningProc ∈
          survivors l (insertProcQ k.priority k.readyQueue k.runningProc) := by
        simp [hdead]
      simp only [hin, if_true, afterTermination, runningAfter, readyAfter, hdead, if_false]
  · rw [← hready]
    exact hres'.leaveReady List.erase_sublist

/-- If a termination returns then it found the whole subtree. -/
theorem locatable_of_terminateProc
    (ht : k.Live t) (hl : Preorder k.pChild [t] l)
    (hclean : ∀ x ∈ l, x = k.runningProc ∨ x ∈ k.readyQueue → k.devWList x = none)
    {p : Option Proc} (hp : p.getD k.runningProc = t)
    {ret : Int} (hret : k.terminateProc p = .ok (ret, k')) :
    ∀ x ∈ l, k.Locatable x := by
  have hmem := mem_subtree hl
  have hnd := subtree_nodup htree hl
  obtain ⟨pParent, -, hterm⟩ := terminate_visits htree ht hl
  rw [hterm p hp] at hret
  have hparked : Residence k.asl k.pcbFreeH
      (insertProcQ k.priority k.readyQueue k.runningProc) k.pSemkey :=
    hres.enterReady hrun (insertProcQ_perm _ _ _)
  cases hkill : k.parked.killAll l with
  | none =>
      rw [hkill] at hret
      exact absurd hret (by simp)
  | some k1 =>
      have hfound := unlinkable_of_killAll
        (k := k.parked) hparked hnd
        (fun x hx => (htree.below_live ht ((hmem x).mp hx)).2)
        (fun x hx hready => hclean x hx (mem_insertProcQ.mp hready)) hkill
      exact fun x hx => locatable_iff.mpr (hfound x hx)

end Termination

end Kernel

end Bikaya
