import Bikaya.Proofs.Conservation
import Bikaya.Proofs.DeviceQueues
import Bikaya.Core.Handler

/-!
# Bikaya: the process tree over runs

The creator and the time of birth of a process are functions of the run.  Without devices
the links of the tree agree with them in every state: the parent of a live process is its
creator, which is alive and older, and the children of a process are listed in the order of
their birth.

**Plan.**  `creator` and `birth` are read off the run, from its creations.  `Descends` is
the invariant that ties the links of the tree to them; a creation adopts a process, a
termination removes a subtree, and no other operation touches the tree.  Everything below a
process is then younger than it, which excludes cycles.

**Results.**
* `Descends.older_of_transGen`: an ancestor is older than its descendants.
* `process_tree`: in every state of a run the parent of a live process is its creator,
  nobody is above itself, the children are in the order of their birth, and GETPID reports
  the creator.
-/

namespace Bikaya

open OrderedForest TransitionSystem

namespace Kernel

variable {A : Arch} {k k' : Kernel A} {m : IntModel}

section Histories

/-- The process comes to life in this step. -/
def Born (k k' : Kernel A) (x : Proc) : Prop :=
  ¬ k.Live x ∧ k'.Live x

instance (k k' : Kernel A) (x : Proc) : Decidable (Born k k' x) :=
  inferInstanceAs (Decidable (_ ∧ _))

/-- The process that was running when `x` was created last, none for a starting process. -/
def creator (s : ℕ → Kernel A) : ℕ → Proc → Option Proc
  | 0 => fun _ => none
  | i + 1 => fun x =>
      if Born (s i) (s (i + 1)) x then some (s i).runningProc else creator s i x

/-- The number of the operation that created `x` last, 0 for a starting process. -/
def birth (s : ℕ → Kernel A) : ℕ → Proc → ℕ
  | 0 => fun _ => 0
  | i + 1 => fun x => if Born (s i) (s (i + 1)) x then i + 1 else birth s i x

theorem birth_le (s : ℕ → Kernel A) (i : ℕ) (x : Proc) : birth s i x ≤ i := by
  induction i with
  | zero =>
      exact le_rfl
  | succ i ih =>
      unfold birth
      split_ifs
      · exact le_rfl
      · omega

end Histories

section Steps

/-- The links agree with the creators and the births. -/
structure Descends (k : Kernel A) (creator : Proc → Option Proc) (birth : Proc → ℕ) : Prop where
  conserving : k.Conserving
  parent : ∀ x, k.Live x → k.pParent x = creator x
  older : ∀ x c, k.Live x → creator x = some c → birth c < birth x
  order : ∀ a, (k.pChild a).Pairwise (fun b c => birth b < birth c)

variable {creator creator' : Proc → Option Proc} {birth birth' : Proc → ℕ} {i : ℕ}

theorem Fresh.descends (h : k.Fresh) : k.Descends (fun _ => none) (fun _ => 0) where
  conserving := h.conserving
  parent := fun x _ => h.parent x
  older := fun _ _ _ hc => absurd hc (by simp)
  order := fun a => by
    rw [h.child a]
    exact List.Pairwise.nil

/-- Nobody is born, and the children of the survivors keep their order. -/
theorem Descends.same
    (h : k.Descends creator birth) (hcons : k'.Conserving)
    (hlive : ∀ x, k'.Live x → k.Live x ∧ k'.pParent x = k.pParent x)
    (hchild : ∀ a, (k'.pChild a).Sublist (k.pChild a)) :
    k'.Descends creator birth where
  conserving := hcons
  parent := fun x hx => (hlive x hx).2.trans (h.parent x (hlive x hx).1)
  older := fun x c hx => h.older x c (hlive x hx).1
  order := fun a => (h.order a).sublist (hchild a)

/-- A process is created. -/
theorem Descends.adopt
    (h : k.Descends creator birth) (hle : ∀ x, birth x ≤ i) {x : Proc} {free : List Proc}
    (hfree : k.pcbFreeH = x :: free) (hidle : k.runningProc ≠ .idle) (hcons : k'.Conserving)
    (hlive : ∀ y, k'.Live y ↔ k.Live y ∨ y = x)
    (hparent : k'.pParent = Function.update k.pParent x (some k.runningProc))
    (hchild : k'.pChild = Function.update (Function.update k.pChild x []) k.runningProc
      (k.pChild k.runningProc ++ [x])) :
    k'.Descends (Function.update creator x (some k.runningProc))
      (Function.update birth x (i + 1)) := by
  have hxdead : ¬ k.Live x := fun hx => hx.2 (hfree ▸ List.mem_cons_self)
  have hrun : k.Live k.runningProc := h.conserving.ok.running_live hidle
  have hne : ∀ y, k.Live y → y ≠ x := fun y hy hyx => hxdead (hyx ▸ hy)
  have hold : ∀ a, (k.pChild a).Pairwise (fun b c =>
      Function.update birth x (i + 1) b < Function.update birth x (i + 1) c) := by
    intro a
    refine (h.order a).imp_of_mem (fun hb hc hbc => ?_)
    have hbne := hne _ (h.conserving.ok.tree.child_live hb)
    have hcne := hne _ (h.conserving.ok.tree.child_live hc)
    rw [Function.update_of_ne hbne, Function.update_of_ne hcne]
    exact hbc
  refine ⟨hcons, fun y hy => ?_, fun y c hy hc => ?_, fun a => ?_⟩
  · rw [hparent]
    by_cases hyx : y = x
    · rw [hyx, Function.update_self, Function.update_self]
    · rw [Function.update_of_ne hyx, Function.update_of_ne hyx]
      exact h.parent y (((hlive y).mp hy).resolve_right hyx)
  · by_cases hyx : y = x
    · rw [hyx, Function.update_self] at hc
      obtain rfl := Option.some.inj hc
      rw [hyx, Function.update_self, Function.update_of_ne (hne _ hrun)]
      exact Nat.lt_succ_of_le (hle _)
    · have hylive := ((hlive y).mp hy).resolve_right hyx
      rw [Function.update_of_ne hyx] at hc
      have hparent := h.parent y hylive
      have hc' : k.Live c :=
        h.conserving.ok.tree.parent_live hylive.2 (hparent.trans hc)
      rw [Function.update_of_ne hyx, Function.update_of_ne (hne c hc')]
      exact h.older y c hylive hc
  · rw [hchild]
    by_cases har : a = k.runningProc
    · rw [har, Function.update_self]
      refine List.pairwise_append.mpr ⟨hold _, List.pairwise_singleton _ _, fun b hb c hc => ?_⟩
      have hbne := hne b (h.conserving.ok.tree.child_live hb)
      rw [List.mem_singleton.mp hc, Function.update_self, Function.update_of_ne hbne]
      exact Nat.lt_succ_of_le (hle b)
    · rw [Function.update_of_ne har]
      by_cases hax : a = x
      · rw [hax, Function.update_self]
        exact List.Pairwise.nil
      · rw [Function.update_of_ne hax]
        exact hold a

/-- A termination takes children away, and nothing else. -/
theorem Descends.terminated
    (h : k.Descends creator birth) {t : Proc} {l : List Proc} (hcons : k'.Conserving)
    (hterm : k.Terminated t l k') :
    k'.Descends creator birth := by
  refine h.same hcons (fun x hx => ?_) (fun a => ?_)
  · obtain ⟨hlive, hxl⟩ := (hterm.live_iff x).mp hx
    obtain ⟨asl, pParent, rfl, -, hparent⟩ := hterm.result
    exact ⟨hlive, hparent x hxl⟩
  · obtain ⟨asl, pParent, rfl, -, -⟩ := hterm.result
    simp only [afterTermination, childrenAfter]
    split_ifs
    · exact List.nil_sublist _
    · exact List.erase_sublist
    · exact List.Sublist.refl _

end Steps

section Runs

variable {s : ℕ → Kernel A} {e : ℕ → Operation A} {n : ℕ}

theorem creator_of_not_born
    {i : ℕ} (h : ∀ x, ¬ Born (s i) (s (i + 1)) x) :
    creator s (i + 1) = creator s i ∧ birth s (i + 1) = birth s i := by
  constructor <;> funext x
  · exact if_neg (h x)
  · exact if_neg (h x)

theorem creator_of_born
    {i : ℕ} {x : Proc} (h : ∀ y, Born (s i) (s (i + 1)) y ↔ y = x) :
    creator s (i + 1) = Function.update (creator s i) x (some (s i).runningProc) ∧
      birth s (i + 1) = Function.update (birth s i) x (i + 1) := by
  constructor <;> funext y
  · simp only [creator, h, Function.update_apply]
  · simp only [birth, h, Function.update_apply]

theorem descends_of_run
    (hboot : (s 0).Booted) (hrun : IsRun (Step m) s e n)
    (hfree : ∀ i < n, (e i).DeviceFree) :
    ∀ i ≤ n, (s i).Descends (creator s i) (birth s i) := by
  have hcons := conserving_of_run hboot hrun hfree
  intro i
  induction i with
  | zero =>
      intro _
      exact hboot.fresh.descends
  | succ i ih =>
      intro hi
      have h := ih (by omega)
      have hok := h.conserving.ok
      have hstep := hrun i hi
      have hcons' := hcons (i + 1) hi
      have hsame : (∀ x, (s (i + 1)).Live x → (s i).Live x) →
          (s (i + 1)).Descends (creator s i) (birth s i) →
          (s (i + 1)).Descends (creator s (i + 1)) (birth s (i + 1)) := by
        intro hlive hdesc
        obtain ⟨hc, hb⟩ := creator_of_not_born (s := s) (i := i)
          (fun x hx => hx.1 (hlive x hx.2))
        rw [hc, hb]
        exact hdesc
      by_cases hcreate : ∃ st priority, e i = .createProcess st priority
      · obtain ⟨st, priority, he⟩ := hcreate
        obtain ⟨hadm, hexec⟩ := hstep
        rw [he] at hadm hexec
        cases hnil : (s i).pcbFreeH with
        | nil =>
            simp only [exec, createProcess_nil hnil] at hexec
            have heq : s i = s (i + 1) := Except.ok.inj hexec
            refine hsame (fun x hx => heq ▸ hx) ?_
            rw [← heq]
            exact h
        | cons x free =>
            obtain ⟨-, -, -, hxrun⟩ := hok.adopt hnil hadm st priority
            simp only [exec, createProcess_cons hnil hxrun] at hexec
            have heq : ((s i).adopt x free st priority).scheduleProc x = s (i + 1) :=
              Except.ok.inj hexec
            obtain ⟨prio, ready, running, hframe⟩ :=
              scheduleProc_frame ((s i).adopt x free st priority) x
            rw [hframe] at heq
            have hxidle : x ≠ .idle := fun hx =>
              hok.idle_not_free (hx ▸ hnil ▸ List.mem_cons_self)
            have hxfree : x ∉ free := by
              have hnd := hok.residence.free_nodup
              rw [hnil] at hnd
              exact (List.nodup_cons.mp hnd).1
            have hlive : ∀ y, (s (i + 1)).Live y ↔ (s i).Live y ∨ y = x := by
              intro y
              rw [← heq]
              show (y ≠ .idle ∧ y ∉ free) ↔ (y ≠ .idle ∧ y ∉ (s i).pcbFreeH) ∨ y = x
              rw [hnil, List.mem_cons, not_or]
              by_cases hyx : y = x
              · subst hyx
                simp [hxidle, hxfree]
              · simp [hyx]
            have hborn : ∀ y, Born (s i) (s (i + 1)) y ↔ y = x := by
              intro y
              rw [Born, hlive y]
              constructor
              · rintro ⟨hdead, hy⟩
                exact hy.resolve_left hdead
              · rintro rfl
                exact ⟨fun hy => hy.2 (hnil ▸ List.mem_cons_self), Or.inr rfl⟩
            obtain ⟨hc, hb⟩ := creator_of_born hborn
            rw [hc, hb]
            refine h.adopt (birth_le s i) hnil hadm hcons' hlive ?_ ?_
            · rw [← heq]
              rfl
            · rw [← heq]
              rfl
      · have hcreate : ∀ st priority, e i ≠ .createProcess st priority :=
          fun st priority he => hcreate ⟨st, priority, he⟩
        by_cases hterm : ∃ p, e i = .terminateProcess p
        · obtain ⟨p, he⟩ := hterm
          rw [he] at hstep
          obtain ⟨⟨l, hdone⟩, -⟩ :=
            hstep.terminated hok (fun x _ _ => h.conserving.unregistered x)
          exact hsame (fun x hx => ((hdone.live_iff x).mp hx).1) (h.terminated hcons' hdone)
        · have hterm : ∀ p, e i ≠ .terminateProcess p := fun p he => hterm ⟨p, he⟩
          obtain ⟨hparent, hchild, -, -⟩ := sameProcesses_step hok hcreate hterm hstep
          have hlive : ∀ x, (s (i + 1)).Live x → (s i).Live x := by
            intro x hx
            rw [Live, hstep.free_eq hok hcreate hterm] at hx
            exact hx
          refine hsame hlive (h.same hcons' (fun x hx => ⟨hlive x hx, ?_⟩) (fun a => ?_))
          · rw [hparent]
          · rw [hchild]

/-- The process made by the operation number `j` is a child of the process running then. -/
theorem creator_spec
    (hboot : (s 0).Booted) (hrun : IsRun (Step m) s e n)
    (hfree : ∀ i < n, (e i).DeviceFree) (x : Proc) :
    ∀ i ≤ n,
      (birth s i x = 0 ∧ creator s i x = none) ∨
      ∃ j < i, birth s i x = j + 1 ∧ (∃ st priority, e j = .createProcess st priority) ∧
        creator s i x = some (s j).runningProc := by
  intro i
  induction i with
  | zero =>
      exact fun _ => Or.inl ⟨rfl, rfl⟩
  | succ i ih =>
      intro hi
      have h := conserving_of_run hboot hrun hfree i (by omega)
      by_cases hborn : Born (s i) (s (i + 1)) x
      · have hsafe : (s i).Safe (e i) := by
          cases e i with
          | terminateProcess p =>
              exact fun y _ _ => h.unregistered y
          | _ => exact trivial
        obtain ⟨st, priority, he, -⟩ :=
          ((hrun i hi).live_back h.ok hsafe hborn.2).resolve_left hborn.1
        exact Or.inr ⟨i, Nat.lt_succ_self i, if_pos hborn, ⟨st, priority, he⟩, if_pos hborn⟩
      · have hb : birth s (i + 1) x = birth s i x := if_neg hborn
        have hc : creator s (i + 1) x = creator s i x := if_neg hborn
        rw [hb, hc]
        exact (ih (by omega)).imp_right (fun ⟨j, hj, hrest⟩ => ⟨j, by omega, hrest⟩)

/-- Along the links to the parents the births decrease. -/
theorem Descends.older_of_transGen
    {creator : Proc → Option Proc} {birth : Proc → ℕ} (h : k.Descends creator birth)
    {x y : Proc} (hx : k.Live x)
    (hxy : Relation.TransGen (fun a b => k.pParent a = some b) x y) :
    k.Live y ∧ birth y < birth x := by
  have hparent : ∀ a b, k.Live a → k.pParent a = some b → k.Live b ∧ birth b < birth a :=
    fun a b ha hab => ⟨h.conserving.ok.tree.parent_live ha.2 hab,
      h.older a b ha ((h.parent a ha).symm.trans hab)⟩
  induction hxy with
  | single hab =>
      exact hparent _ _ hx hab
  | tail _ hbc ih =>
      obtain ⟨hc, hlt⟩ := hparent _ _ ih.1 hbc
      exact ⟨hc, hlt.trans ih.2⟩

/--
The process tree in every state of a run without devices: the parent of a live process
is its creator, the same one that created it, and alive; there are no cycles; the
children of a process are exactly the live processes that have it as parent, in the order
of their creation; and GETPID reports the creator.
-/
theorem process_tree
    (hboot : (s 0).Booted) (hrun : IsRun (Step m) s e n)
    (hfree : ∀ i < n, (e i).DeviceFree) :
    ∀ i ≤ n,
      (∀ x, (s i).Live x → (s i).pParent x = creator s i x ∧
        ((birth s i x = 0 ∧ creator s i x = none) ∨
          ∃ j < i, birth s i x = j + 1 ∧ (∃ st priority, e j = .createProcess st priority) ∧
            creator s i x = some (s j).runningProc) ∧
        ∀ c, creator s i x = some c → (s i).Live c ∧ birth s i c < birth s i x) ∧
      (∀ x, (s i).Live x →
        ¬ Relation.TransGen (fun a b => (s i).pParent a = some b) x x) ∧
      (∀ a, (s i).Live a →
        ((s i).pChild a).Nodup ∧
        (∀ b, b ∈ (s i).pChild a ↔ (s i).Live b ∧ (s i).pParent b = some a) ∧
        ((s i).pChild a).Pairwise (fun b c => birth s i b < birth s i c)) ∧
      ∀ (st : State A) (p : Proc) (stateAt : Word → State A) (tod : Word) (served : Served A),
        (s i).runningProc ≠ .idle → (st A.sysN).toNat = 8 →
        (s i).consumeSyscall m st p stateAt tod = .ok served →
        ∃ pid ppid, served.reply = .pids pid ppid ∧
          ∀ pp ∈ ppid, pp = creator s i (s i).runningProc ∧ ∀ c ∈ pp, (s i).Live c := by
  intro i hi
  have h := descends_of_run hboot hrun hfree i hi
  have htree := h.conserving.ok.tree
  refine ⟨fun x hx => ⟨h.parent x hx, creator_spec hboot hrun hfree x i hi, fun c hc => ?_⟩,
    fun x hx hcycle => ?_, fun a ha => ⟨htree.forest.nodup a, fun b => ?_, h.order a⟩, ?_⟩
  · exact ⟨htree.parent_live hx.2 ((h.parent x hx).trans hc), h.older x c hx hc⟩
  · exact absurd (h.older_of_transGen hx hcycle).2 (lt_irrefl _)
  · constructor
    · intro hb
      exact ⟨htree.child_live hb, (htree.childParent a b hb).1⟩
    · rintro ⟨hb, hparent⟩
      exact htree.parentChild b a hb.2 hparent
  · intro st p stateAt tod served hidle hnumber hserve
    have hlive := h.conserving.ok.running_live hidle
    simp only [consumeSyscall, hnumber] at hserve
    obtain rfl := Except.ok.inj hserve
    refine ⟨_, _, rfl, fun pp hpp => ?_⟩
    obtain rfl : (s i).pParent (s i).runningProc = pp := by
      split_ifs at hpp
      · exact absurd hpp (by simp)
      · exact Option.some.inj hpp
    exact ⟨h.parent _ hlive, fun c hc => htree.parent_live hlive.2 hc⟩

/-- In the history the second starting process creates a child. -/
theorem process_tree_creationHistory :
    .pcb 2 ∈ (states (next .int32) (bootMps [1, 2]) creationHistory 4).pChild (.pcb 1) ↔
      (states (next .int32) (bootMps [1, 2]) creationHistory 4).Live (.pcb 2) ∧
        (states (next .int32) (bootMps [1, 2]) creationHistory 4).pParent (.pcb 2) =
          some (.pcb 1) :=
  (((process_tree (bootMps_booted (by decide) (by decide)) creationHistory_isRun
    (by decide)) 4 (by decide)).2.2.1 (.pcb 1) (by decide +kernel)).2.1 (.pcb 2)

end Runs

end Kernel

end Bikaya
