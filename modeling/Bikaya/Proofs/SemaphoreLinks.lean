import Bikaya.Proofs.QueueLinks

/-!
# Bikaya: the links of the semaphore list

The active and the free descriptors form rings by `s_next`, and the processes that wait on
an active descriptor form a process queue.  `outBlocked` takes a process out of the queue
it waits in, and frees the descriptor when the queue gets empty.

**Plan.**  `IsAsl` is the representation invariant on the links: two rings of descriptors,
and a process queue for each active one.  The lists (`SemLists`) are what the rings hold.
`outBlocked` walks to the descriptor of the key and then to the process, and writes to the
rings of these only; the other queues have no link in common with them.

**Results.**
* `getSemdFrom_eq`: the walk finds the descriptor of the key.
* `freeSemdIfEmpty_spec`: an empty queue gives its descriptor back.
* `outBlocked_spec`: a blocked process leaves its queue, and nobody else does.
-/

namespace Bikaya

open LinkRing

/-- The lists of `asl.c`: active and free descriptors, and the queues of the former. -/
structure SemLists (P S : Type) where
  active : List S
  free : List S
  queue : S → List P

/-- No list is as long as `n`. -/
def SemLists.BoundedBy {P S : Type} (A : SemLists P S) (n : ℕ) : Prop :=
  A.active.length < n ∧ ∀ s ∈ A.active, (A.queue s).length < n

namespace Memory

variable {P S K : Type} {m m' m'' : Memory P S K}
variable {A A' A'' : SemLists P S} {l l' : List P} {s : S} {p : P}

/-- The links and keys represent the semaphore list. -/
structure IsAsl (m : Memory P S K) (A : SemLists P S) : Prop where
  activeRing : m.IsRing (.semdH :: A.active.map .sNext)
  freeRing : m.IsRing (.semdFreeH :: A.free.map .sNext)
  disjoint : ∀ s ∈ A.active, s ∉ A.free
  queueRing : ∀ s ∈ A.active, m.IsQueue (.sProcQ s) (A.queue s)
  nonempty : ∀ s ∈ A.active, A.queue s ≠ []
  hasKey : ∀ s ∈ A.active, ∃ key, m.sKey s = some key
  keyInj : ∀ s ∈ A.active, ∀ t ∈ A.active, m.sKey s = m.sKey t → s = t
  waits : ∀ x key, m.pSemkey x = some key → ∃ s ∈ A.active, m.sKey s = some key ∧ x ∈ A.queue s
  semkey : ∀ s ∈ A.active, ∀ x ∈ A.queue s, m.pSemkey x = m.sKey s

/-- The links of the process tree and the parents are the same. -/
structure SameTree (m m' : Memory P S K) : Prop where
  nextChild : ∀ x, m'.next (.pChild x) = m.next (.pChild x)
  prevChild : ∀ x, m'.prev (.pChild x) = m.prev (.pChild x)
  nextSib : ∀ x, m'.next (.pSib x) = m.next (.pSib x)
  prevSib : ∀ x, m'.prev (.pSib x) = m.prev (.pSib x)
  parent : m'.pParent = m.pParent

theorem SameTree.refl (m : Memory P S K) : SameTree m m :=
  ⟨fun _ => rfl, fun _ => rfl, fun _ => rfl, fun _ => rfl, rfl⟩

theorem SameTree.trans (h : SameTree m m') (h' : SameTree m' m'') : SameTree m m'' where
  nextChild := fun x => (h'.nextChild x).trans (h.nextChild x)
  prevChild := fun x => (h'.prevChild x).trans (h.prevChild x)
  nextSib := fun x => (h'.nextSib x).trans (h.nextSib x)
  prevSib := fun x => (h'.prevSib x).trans (h.prevSib x)
  parent := h'.parent.trans h.parent

theorem WritesLinks.sameTree
    {ls : List (Link P S)} (h : WritesLinks ls m m')
    (hchild : ∀ x, Link.pChild x ∉ ls) (hsib : ∀ x, Link.pSib x ∉ ls) :
    SameTree m m' where
  nextChild := fun x => h.next _ (hchild x)
  prevChild := fun x => h.prev _ (hchild x)
  nextSib := fun x => h.next _ (hsib x)
  prevSib := fun x => h.prev _ (hsib x)
  parent := h.pParent

namespace IsAsl

variable (h : m.IsAsl A)
include h

theorem active_nodup : A.active.Nodup := by
  have hlinks : (Link.semdH :: A.active.map Link.sNext : List (Link P S)).Nodup :=
    Cycle.nodup_coe_iff.mp h.activeRing.nodup
  exact List.Nodup.of_map _ (List.nodup_cons.mp hlinks).2

/-- A process waits in one queue at most. -/
theorem queue_unique
    {t : S} (hs : s ∈ A.active) (ht : t ∈ A.active)
    (hps : p ∈ A.queue s) (hpt : p ∈ A.queue t) : s = t :=
  h.keyInj s hs t ht ((h.semkey s hs p hps).symm.trans (h.semkey t ht p hpt))

/-- A process without a key waits nowhere. -/
theorem not_waiting (hp : m.pSemkey p = none) (hs : s ∈ A.active) : p ∉ A.queue s := by
  intro hmem
  obtain ⟨key, hkey⟩ := h.hasKey s hs
  have := h.semkey s hs p hmem
  rw [hp, hkey] at this
  exact Option.some_ne_none key this.symm

end IsAsl

/-- A key that processes wait on leads to its descriptor. -/
theorem IsAsl.find_active
    [DecidableEq K] (h : m.IsAsl A) (hs : s ∈ A.active) :
    A.active.find? (fun t => m.sKey t = m.sKey s) = some s := by
  cases hfind : A.active.find? (fun t => m.sKey t = m.sKey s) with
  | none =>
      have := List.find?_eq_none.mp hfind s hs
      simp at this
  | some t =>
      have ht : m.sKey t = m.sKey s := by
        simpa using List.find?_some hfind
      rw [h.keyInj t (List.mem_of_find?_eq_some hfind) s hs ht]

section Unblocked

variable [DecidableEq P]

/--
The processes of `l` are unblocked: they leave their queues and lose their keys, and the
descriptors whose queues get empty are freed.
-/
structure Unblocked
    (l : List P) (m : Memory P S K) (A : SemLists P S) (m' : Memory P S K)
    (A' : SemLists P S) : Prop where
  semkey : ∀ x, m'.pSemkey x = if x ∈ l then none else m.pSemkey x
  queue : ∀ s, A'.queue s = (A.queue s).filter (fun x => x ∉ l)
  active : A'.active = A.active.filter (fun s => A'.queue s ≠ [])
  freed : ∃ freed, freed.Perm (A.active.filter (fun s => A'.queue s = [])) ∧
    A'.free = freed ++ A.free

/-- Unblocking the processes of one list after those of another. -/
theorem Unblocked.trans
    (h : Unblocked l m A m' A') (h' : Unblocked l' m' A' m'' A'') :
    Unblocked (l ++ l') m A m'' A'' := by
  have hstays : ∀ s, A''.queue s ≠ [] → A'.queue s ≠ [] := by
    intro s hne hnil
    rw [h'.queue s, hnil] at hne
    exact hne rfl
  refine ⟨?_, ?_, ?_, ?_⟩
  · intro x
    rw [h'.semkey x, h.semkey x]
    by_cases hx : x ∈ l <;> by_cases hx' : x ∈ l' <;> simp [hx, hx']
  · intro s
    rw [h'.queue s, h.queue s, List.filter_filter]
    refine List.filter_congr fun x _ => ?_
    simp [Bool.and_comm]
  · rw [h'.active, h.active, List.filter_filter]
    refine List.filter_congr fun s _ => ?_
    by_cases hne : A''.queue s = []
    · simp [hne]
    · simp [hne, hstays s hne]
  · obtain ⟨freed, hfreed, hfree⟩ := h.freed
    obtain ⟨freed', hfreed', hfree'⟩ := h'.freed
    refine ⟨freed' ++ freed, ?_, by rw [hfree', hfree, List.append_assoc]⟩
    have hsplit := List.filter_append_perm (fun s => decide (A'.queue s ≠ []))
      (A.active.filter (fun s => A''.queue s = []))
    refine (hfreed'.append hfreed).trans (List.Perm.trans ?_ hsplit)
    rw [h.active, List.filter_filter, List.filter_filter, List.filter_filter]
    refine List.Perm.append (List.Perm.of_eq ?_) (List.Perm.of_eq ?_)
    · refine List.filter_congr fun s _ => ?_
      simp [Bool.and_comm]
    · refine List.filter_congr fun s _ => ?_
      by_cases hnil : A'.queue s = []
      · have hnil'' : A''.queue s = [] := by
          by_contra hne
          exact hstays s hne hnil
        simp [hnil, hnil'']
      · simp [hnil]

end Unblocked

section Operations

variable [DecidableEq P] [DecidableEq S]
variable {key : Option K} {active free : List S} {q : List P}

/-- A descriptor whose queue is empty moves to the free list. -/
theorem freeSemdIfEmpty_spec
    (hactive : m.IsRing (.semdH :: active.map .sNext))
    (hfree : m.IsRing (.semdFreeH :: free.map .sNext))
    (hs : s ∈ active) (hdisj : ∀ t ∈ active, t ∉ free)
    (hqueue : m.IsQueue (.sProcQ s) q) :
    ∃ m', m.freeSemdIfEmpty s = .ok m' ∧
      m'.IsRing (.semdH :: (if q = [] then active.erase s else active).map .sNext) ∧
      m'.IsRing (.semdFreeH :: (if q = [] then s :: free else free).map .sNext) ∧
      WritesLinks (.semdH :: .semdFreeH :: (active ++ free).map .sNext) m m' := by
  have hempty : m.listEmpty (.sProcQ s) = true ↔ q = [] := emptyProcQ_iff hqueue
  by_cases hq : q = []
  · simp only [hq, if_true]
    obtain ⟨front, back, -, hsplit, herase⟩ := List.exists_erase_eq hs
    rw [herase]
    have hring : m.IsRing (.semdH :: (front.map .sNext ++ .sNext s :: back.map .sNext)) := by
      rw [← List.map_cons, ← List.map_append, ← hsplit]
      exact hactive
    obtain ⟨m₁, hdel, hring₁, hwrites₁⟩ := listDel_spec hring
    have hnotFree : ∀ t ∈ front ++ back, t ∉ free := by
      intro t ht
      refine hdisj t ?_
      rw [hsplit]
      simp only [List.mem_append, List.mem_cons] at ht ⊢
      tauto
    have hnot : s ∉ front ++ back := by
      have hnodup : (Link.semdH :: active.map Link.sNext : List (Link P S)).Nodup :=
        Cycle.nodup_coe_iff.mp hactive.nodup
      have hactiveNodup : active.Nodup := List.Nodup.of_map _ (List.nodup_cons.mp hnodup).2
      rw [← herase]
      exact fun hmem => (hactiveNodup.mem_erase_iff.mp hmem).1 rfl
    have hfree₁ : m₁.IsRing (.semdFreeH :: free.map .sNext) := by
      refine hwrites₁.isRing hfree fun l hl hmem => ?_
      rw [← List.map_append] at hmem
      rcases List.mem_cons.mp hl with rfl | hl
      · simp at hmem
      · obtain ⟨t, ht, rfl⟩ := List.mem_map.mp hl
        obtain ⟨t', ht', heq⟩ := List.mem_map.mp ((List.mem_cons.mp hmem).resolve_left (by simp))
        rw [Link.sNext.inj heq] at ht'
        exact hnotFree t ht' ht
    have hfresh : (Link.sNext s : Link P S) ∉ Link.semdFreeH :: free.map .sNext := by
      simpa using hdisj s hs
    obtain ⟨m', hadd, hring', hwrites'⟩ := listAdd_spec hfree₁ hfresh
    refine ⟨m', ?_, ?_, hring', ?_⟩
    · simp [freeSemdIfEmpty, hempty.mpr hq, hdel, hadd]
    · rw [List.map_append]
      refine hwrites'.isRing hring₁ fun l hl hmem => ?_
      rw [← List.map_append] at hl
      rcases List.mem_cons.mp hl with rfl | hl
      · simp at hmem
      · obtain ⟨t, ht, rfl⟩ := List.mem_map.mp hl
        have hts : t ≠ s := fun heq => hnot (heq ▸ ht)
        have htf := hnotFree t ht
        simp [hts, htf] at hmem
    · refine (hwrites₁.mono ?_).trans (hwrites'.mono ?_)
      · intro l hl
        rw [hsplit]
        simp only [List.mem_cons, List.mem_append, List.map_append, List.map_cons] at hl ⊢
        tauto
      · intro l hl
        rw [hsplit]
        simp only [List.mem_cons, List.mem_append, List.map_append, List.map_cons] at hl ⊢
        tauto
  · simp only [hq, if_false]
    have hne : ¬ m.listEmpty (.sProcQ s) = true := fun he => hq (hempty.mp he)
    exact ⟨m, by simp [freeSemdIfEmpty, hne], hactive, hfree, WritesLinks.refl _ m⟩

variable [DecidableEq K]

/-- The loop of `getSemd` finds the first active descriptor with the key. -/
theorem getSemdFrom_eq
    (hpath : m.Follows (active.map .sNext ++ [.semdH])) {fuel : ℕ} (hfuel : active.length < fuel) :
    m.getSemdFrom key fuel ((active.map .sNext).headD .semdH) =
      .ok (active.find? (fun s => m.sKey s = key)) := by
  induction active generalizing fuel with
  | nil =>
      obtain ⟨fuel, rfl⟩ := Nat.exists_eq_succ_of_ne_zero (Nat.ne_of_gt hfuel)
      simp [getSemdFrom]
  | cons t active ih =>
      obtain ⟨fuel, rfl⟩ := Nat.exists_eq_succ_of_ne_zero (Nat.ne_zero_of_lt hfuel)
      obtain ⟨hnext, hpath⟩ := Follows.next hpath
      have hrest := ih hpath (Nat.lt_of_succ_lt_succ hfuel)
      by_cases hkey : m.sKey t = key
      · simp [getSemdFrom, hkey]
      · rw [List.find?_cons_of_neg (by simpa using hkey), ← hrest]
        simp [getSemdFrom, hkey, hnext]

theorem getSemd_eq
    (h : m.IsAsl A) {fuel : ℕ} (hfuel : A.active.length < fuel) :
    m.getSemd fuel key = .ok (A.active.find? (fun s => m.sKey s = key)) := by
  obtain ⟨hnext, hpath⟩ := (follows_of_isRing h.activeRing).next
  simp only [getSemd, hnext, deref_some, ok_bind, getSemdFrom_eq hpath hfuel]

/-- A process that waits nowhere is left alone. -/
theorem outBlocked_free
    (h : m.IsAsl A) (hp : m.pSemkey p = none) {n : ℕ} (hn : A.BoundedBy n) :
    m.outBlocked n p = .ok (none, m) := by
  have hfind : A.active.find? (fun s => m.sKey s = m.pSemkey p) = none := by
    refine List.find?_eq_none.mpr fun s hs => ?_
    obtain ⟨key, hkey⟩ := h.hasKey s hs
    simp [hkey, hp]
  simp [outBlocked, getSemd_eq h hn.1, hfind]

/-- A process that waits is taken out of its queue, which is freed when it gets empty. -/
theorem outBlocked_waiting
    (h : m.IsAsl A) (hs : s ∈ A.active) (hp : p ∈ A.queue s) :
    ∃ m₁ m', (∀ n, A.BoundedBy n → m.outBlocked n p = .ok (some p, m')) ∧
      m₁.IsQueue (.sProcQ s) ((A.queue s).erase p) ∧
      WritesLinks (queueLinks (.sProcQ s) (A.queue s)) m m₁ ∧
      WritesLinks (.semdH :: .semdFreeH :: (A.active ++ A.free).map .sNext)
        (m₁.setSemkey p none) m' ∧
      m'.IsRing (.semdH ::
        (if (A.queue s).erase p = [] then A.active.erase s else A.active).map .sNext) ∧
      m'.IsRing (.semdFreeH ::
        (if (A.queue s).erase p = [] then s :: A.free else A.free).map .sNext) := by
  have hfind := h.find_active hs
  rw [← h.semkey s hs p hp] at hfind
  obtain ⟨m₁, hout, hqueue, hwrites, -⟩ :=
    outProcQ_spec (p := p) (by simp) (h.queueRing s hs)
  simp only [if_pos hp] at hout
  have hkeep : ∀ l : Link P S, (∀ t, l ≠ .sProcQ t) → (∀ x, l ≠ .pNext x) →
      l ∉ queueLinks (.sProcQ s) (A.queue s) := by
    intro l h₁ h₂ hmem
    rcases List.mem_cons.mp hmem with heq | hmem
    · exact h₁ s heq
    · obtain ⟨x, -, heq⟩ := List.mem_map.mp hmem
      exact h₂ x heq.symm
  have hkeepList : ∀ (head : Link P S) (ts : List S), (∀ t, head ≠ .sProcQ t) →
      (∀ x, head ≠ .pNext x) →
      ∀ l ∈ head :: ts.map .sNext, l ∉ queueLinks (.sProcQ s) (A.queue s) := by
    intro head ts h₁ h₂ l hl
    rcases List.mem_cons.mp hl with rfl | hl
    · exact hkeep l h₁ h₂
    · obtain ⟨t, -, rfl⟩ := List.mem_map.mp hl
      exact hkeep _ (by simp) (by simp)
  have hactive : (m₁.setSemkey p none).IsRing (.semdH :: A.active.map .sNext) :=
    hwrites.isRing h.activeRing (hkeepList _ _ (by simp) (by simp))
  have hfree : (m₁.setSemkey p none).IsRing (.semdFreeH :: A.free.map .sNext) :=
    hwrites.isRing h.freeRing (hkeepList _ _ (by simp) (by simp))
  obtain ⟨m', hfreed, hactive', hfree', hwrites'⟩ :=
    freeSemdIfEmpty_spec hactive hfree hs h.disjoint hqueue
  refine ⟨m₁, m', fun n hn => ?_, hqueue, hwrites, hwrites', hactive', hfree'⟩
  simp [outBlocked, getSemd_eq h hn.1, hfind, hout n (hn.2 s hs), hfreed]

/-- The queues without the process `p`. -/
def without (A : SemLists P S) (p : P) (s : S) : List P :=
  (A.queue s).filter (fun x => x ∉ [p])

omit [DecidableEq S] [DecidableEq K] in
theorem mem_without {x : P} : x ∈ without A p s ↔ x ∈ A.queue s ∧ x ≠ p := by
  simp [without]

omit [DecidableEq S] [DecidableEq K] in
theorem without_of_notMem (hp : p ∉ A.queue s) : without A p s = A.queue s := by
  refine List.filter_eq_self.mpr fun x hx => ?_
  have hne : x ≠ p := fun heq => hp (heq ▸ hx)
  simpa using hne

omit [DecidableEq S] [DecidableEq K] in
theorem IsAsl.without_eq_erase
    (h : m.IsAsl A) (hs : s ∈ A.active) : without A p s = (A.queue s).erase p := by
  rw [(h.queueRing s hs).nodup.erase_eq_filter]
  refine List.filter_congr fun x _ => ?_
  by_cases hx : x = p <;> simp [hx]

omit [DecidableEq S] [DecidableEq K] in
/-- Nothing happens to a process that waits nowhere. -/
theorem outBlocked_spec_free
    (h : m.IsAsl A) (hp : m.pSemkey p = none) :
    m.IsAsl { A with queue := without A p } ∧
      Unblocked [p] m A m { A with queue := without A p } := by
  have hsame : ∀ s ∈ A.active, without A p s = A.queue s :=
    fun s hs => without_of_notMem (h.not_waiting hp hs)
  refine ⟨⟨h.activeRing, h.freeRing, h.disjoint, ?_, ?_, h.hasKey, h.keyInj, ?_, ?_⟩,
    ?_, fun _ => rfl, ?_, [], ?_, rfl⟩
  · intro s hs
    show m.IsQueue _ (without A p s)
    rw [hsame s hs]
    exact h.queueRing s hs
  · intro s hs
    show without A p s ≠ []
    rw [hsame s hs]
    exact h.nonempty s hs
  · intro x key hx
    obtain ⟨s, hs, hkey, hmem⟩ := h.waits x key hx
    refine ⟨s, hs, hkey, ?_⟩
    show x ∈ without A p s
    rwa [hsame s hs]
  · intro s hs x hx
    exact h.semkey s hs x (mem_without.mp hx).1
  · intro x
    split_ifs with hx
    · rw [List.mem_singleton.mp hx, hp]
    · rfl
  · refine (List.filter_eq_self.mpr fun s hs => ?_).symm
    simpa [hsame s hs] using h.nonempty s hs
  · have hnone : A.active.filter (fun s => without A p s = []) = [] := by
      refine List.filter_eq_nil_iff.mpr fun s hs => ?_
      simpa [hsame s hs] using h.nonempty s hs
    rw [hnone]

/-- The lists after `p` has left the queue of `s`. -/
def unblockedLists (A : SemLists P S) (s : S) (p : P) : SemLists P S where
  active := if (A.queue s).erase p = [] then A.active.erase s else A.active
  free := if (A.queue s).erase p = [] then s :: A.free else A.free
  queue := without A p

omit [DecidableEq S] [DecidableEq K] in
/-- Only the queue that `p` leaves can get empty. -/
theorem without_eq_nil_iff
    (h : m.IsAsl A) (hs : s ∈ A.active) (hp : p ∈ A.queue s) {t : S} (ht : t ∈ A.active) :
    without A p t = [] ↔ t = s ∧ without A p s = [] := by
  constructor
  · intro hnil
    have hts : t = s := by
      by_contra hts
      have hpt : p ∉ A.queue t := fun hmem => hts (h.queue_unique ht hs hmem hp)
      rw [without_of_notMem hpt] at hnil
      exact h.nonempty t ht hnil
    exact ⟨hts, hts ▸ hnil⟩
  · rintro ⟨rfl, hnil⟩
    exact hnil

omit [DecidableEq K] in
/-- What the lists are after `p` has left its queue. -/
theorem unblocked_of_leaves
    (h : m.IsAsl A) (hs : s ∈ A.active) (hp : p ∈ A.queue s)
    (hkeys : m'.pSemkey = Function.update m.pSemkey p none) :
    Unblocked [p] m A m' (unblockedLists A s p) := by
  have hempty := fun t (ht : t ∈ A.active) => without_eq_nil_iff h hs hp ht
  have hsemkey : ∀ x, m'.pSemkey x = if x ∈ [p] then none else m.pSemkey x := by
    intro x
    rw [hkeys]
    by_cases hx : x = p <;> simp [hx]
  by_cases hnil : without A p s = []
  · have herase : (A.queue s).erase p = [] := (h.without_eq_erase hs).symm.trans hnil
    refine ⟨hsemkey, fun _ => rfl, ?_, [s], ?_, if_pos herase⟩
    · show (if (A.queue s).erase p = [] then A.active.erase s else A.active) =
        A.active.filter (fun t => without A p t ≠ [])
      rw [if_pos herase, h.active_nodup.erase_eq_filter]
      refine List.filter_congr fun t ht => ?_
      by_cases hts : t = s <;> simp [hempty t ht, hnil, hts]
    · refine (List.perm_ext_iff_of_nodup (List.nodup_singleton s)
        (h.active_nodup.filter _)).mpr fun t => ?_
      show t ∈ [s] ↔ t ∈ A.active.filter (fun t => without A p t = [])
      rw [List.mem_singleton, List.mem_filter, decide_eq_true_iff]
      constructor
      · rintro rfl
        exact ⟨hs, hnil⟩
      · rintro ⟨ht, hnilt⟩
        exact ((hempty t ht).mp hnilt).1
  · have herase : (A.queue s).erase p ≠ [] := fun he => hnil ((h.without_eq_erase hs).trans he)
    have hkept : ∀ t ∈ A.active, without A p t ≠ [] :=
      fun t ht hnilt => hnil ((hempty t ht).mp hnilt).2
    refine ⟨hsemkey, fun _ => rfl, ?_, [], ?_, if_neg herase⟩
    · show (if (A.queue s).erase p = [] then A.active.erase s else A.active) =
        A.active.filter (fun t => without A p t ≠ [])
      rw [if_neg herase]
      refine (List.filter_eq_self.mpr fun t ht => ?_).symm
      simpa using hkept t ht
    · have hnone : A.active.filter (fun t => without A p t = []) = [] := by
        refine List.filter_eq_nil_iff.mpr fun t ht => ?_
        simpa using hkept t ht
      show [].Perm (A.active.filter (fun t => without A p t = []))
      rw [hnone]

omit [DecidableEq K] in
/-- The descriptors that stay active are those whose queues are not empty. -/
theorem mem_unblockedLists_active
    (h : m.IsAsl A) (hs : s ∈ A.active) (hp : p ∈ A.queue s) {t : S} :
    t ∈ (unblockedLists A s p).active ↔ t ∈ A.active ∧ without A p t ≠ [] := by
  have hunblocked : Unblocked [p] m A (m.setSemkey p none) (unblockedLists A s p) :=
    unblocked_of_leaves h hs hp rfl
  rw [hunblocked.active, List.mem_filter]
  simp [unblockedLists]

omit [DecidableEq K] in
/-- A descriptor that stays active is not freed. -/
theorem unblockedLists_disjoint
    (h : m.IsAsl A) (hs : s ∈ A.active) (hp : p ∈ A.queue s) {t : S}
    (ht : t ∈ (unblockedLists A s p).active) :
    t ∉ (unblockedLists A s p).free := by
  intro hfree
  obtain ⟨htActive, hne⟩ := (mem_unblockedLists_active h hs hp).mp ht
  have hcases : t = s ∧ without A p s = [] ∨ t ∈ A.free := by
    rw [h.without_eq_erase hs]
    simp only [unblockedLists] at hfree
    split_ifs at hfree with hnil
    · rcases List.mem_cons.mp hfree with hts | hfree
      · exact Or.inl ⟨hts, hnil⟩
      · exact Or.inr hfree
    · exact Or.inr hfree
  rcases hcases with ⟨rfl, hnil⟩ | hfree
  · exact hne hnil
  · exact h.disjoint t htActive hfree

omit [DecidableEq K] in
/-- The queues after `p` has been taken out of the queue of `s`, and `s` has been freed. -/
theorem isQueue_without
    {m₁ : Memory P S K} (h : m.IsAsl A) (hs : s ∈ A.active) (hp : p ∈ A.queue s)
    (hqueue : m₁.IsQueue (.sProcQ s) ((A.queue s).erase p))
    (hwrites : WritesLinks (queueLinks (.sProcQ s) (A.queue s)) m m₁)
    (hwrites' : WritesLinks (.semdH :: .semdFreeH :: (A.active ++ A.free).map .sNext)
      (m₁.setSemkey p none) m')
    {t : S} (ht : t ∈ A.active) :
    m'.IsQueue (.sProcQ t) (without A p t) := by
  have hring : m₁.IsQueue (.sProcQ t) (without A p t) := by
    by_cases hts : t = s
    · rw [hts, h.without_eq_erase hs]
      exact hqueue
    · -- the links of the other queues are not written
      have hpt : p ∉ A.queue t := fun hpt => hts (h.queue_unique ht hs hpt hp)
      rw [without_of_notMem hpt]
      refine hwrites.isRing (h.queueRing t ht) fun l hl hls => ?_
      rcases List.mem_cons.mp hl with rfl | hl
      · simp [queueLinks, hts] at hls
      · obtain ⟨x, hx, rfl⟩ := List.mem_map.mp hl
        have hxs : x ∈ A.queue s := by simpa [queueLinks] using hls
        exact hts (h.queue_unique ht hs hx hxs)
  refine hwrites'.isRing hring fun l hl hls => ?_
  rcases List.mem_cons.mp hl with rfl | hl
  · simp at hls
  · obtain ⟨x, -, rfl⟩ := List.mem_map.mp hl
    simp at hls

/-- `outBlocked` unblocks one process. -/
theorem outBlocked_spec
    (h : m.IsAsl A) (p : P) :
    ∃ m' A', (∀ n, A.BoundedBy n → ∃ r, m.outBlocked n p = .ok (r, m')) ∧
      m'.IsAsl A' ∧ Unblocked [p] m A m' A' ∧ SameTree m m' := by
  cases hkey : m.pSemkey p with
  | none =>
      obtain ⟨hasl, hunblocked⟩ := outBlocked_spec_free h hkey
      exact ⟨m, _, fun n hn => ⟨none, outBlocked_free h hkey hn⟩, hasl, hunblocked,
        SameTree.refl m⟩
  | some key =>
      obtain ⟨s, hs, -, hp⟩ := h.waits p key hkey
      obtain ⟨m₁, m', hout, hqueue, hwrites, hwrites', hactive, hfree⟩ :=
        outBlocked_waiting h hs hp
      have hsemkey : m'.pSemkey = Function.update m.pSemkey p none := by
        rw [hwrites'.pSemkey, setSemkey, hwrites.pSemkey]
      have hsKey : m'.sKey = m.sKey := hwrites'.sKey.trans hwrites.sKey
      have hmem := fun t => mem_unblockedLists_active (t := t) h hs hp
      refine ⟨m', _, fun n hn => ⟨some p, hout n hn⟩,
        ⟨hactive, hfree, fun t ht => unblockedLists_disjoint h hs hp ht, ?_, ?_, ?_, ?_, ?_, ?_⟩,
        unblocked_of_leaves h hs hp hsemkey, ?_⟩
      · intro t ht
        exact isQueue_without h hs hp hqueue hwrites hwrites' ((hmem t).mp ht).1
      · exact fun t ht => ((hmem t).mp ht).2
      · intro t ht
        rw [hsKey]
        exact h.hasKey t ((hmem t).mp ht).1
      · intro t ht u hu
        rw [hsKey]
        exact h.keyInj t ((hmem t).mp ht).1 u ((hmem u).mp hu).1
      · intro x key' hx
        rw [hsemkey] at hx
        have hxp : x ≠ p := by
          rintro rfl
          rw [Function.update_self] at hx
          exact Option.some_ne_none _ hx.symm
        rw [Function.update_of_ne hxp] at hx
        obtain ⟨t, ht, htkey, hxt⟩ := h.waits x key' hx
        have hxt' : x ∈ without A p t := mem_without.mpr ⟨hxt, hxp⟩
        exact ⟨t, (hmem t).mpr ⟨ht, List.ne_nil_of_mem hxt'⟩, hsKey ▸ htkey, hxt'⟩
      · intro t ht x hx
        obtain ⟨hxt, hxp⟩ := mem_without.mp hx
        rw [hsemkey, Function.update_of_ne hxp, hsKey]
        exact h.semkey t ((hmem t).mp ht).1 x hxt
      · have hkeys : SameTree m₁ (m₁.setSemkey p none) :=
          ⟨fun _ => rfl, fun _ => rfl, fun _ => rfl, fun _ => rfl, rfl⟩
        exact ((hwrites.sameTree (by simp) (by simp)).trans hkeys).trans
          (hwrites'.sameTree (by simp) (by simp))

end Operations

end Memory

end Bikaya
