import Bikaya.Library.SeparatedRings
import Bikaya.Proofs.SemaphoreLinks
import Bikaya.Proofs.TreeLinks

/-!
# Bikaya: all the lists in one memory

The free list, the ready queue and the queues of the descriptors are threaded through
`p_next`, the free and the active descriptors through `s_next`.  The module says when a
memory threads a given family of lists, and what the functions of `pcb.c` and `asl.c` do to
the whole family.

**Plan.**  All the lists with one pair of links are a family of separated rings of the
library, and each function moves one process, or one descriptor, between two of them.  The
frame of a function says that every other list is what it was.  The fields that are no
links are the same, but for the key of the process or descriptor that has moved.

**Results.**
* `Threads.enter`, `Threads.leave`, `Threads.clear`: the moves.
* `insertProcQ_threaded`, `removeProcQ_threaded`, `outProcQ_threaded`, `freePcb_threaded`,
  `allocPcb_threaded`: the functions of `pcb.c`.
* `retrieveFreeSemd_threaded`, `freeSemdIfEmpty_threaded`, `getSemd_threaded`: those of
  `asl.c`.
-/

namespace Bikaya

open LinkRing StableInsert

/-- The lists of processes. -/
inductive ProcList (S : Type) where
  | readyQueue
  | pcbFreeH
  | sProcQ (s : S)
deriving DecidableEq

/-- The lists of descriptors. -/
inductive SemdList where
  | semdFreeH
  | semdH
deriving DecidableEq

/-- The sentinel of a list. -/
def sentinel {P S : Type} : ProcList S ⊕ SemdList → Link P S
  | .inl .readyQueue => .readyQueue
  | .inl .pcbFreeH => .pcbFreeH
  | .inl (.sProcQ s) => .sProcQ s
  | .inr .semdFreeH => .semdFreeH
  | .inr .semdH => .semdH

theorem sentinel_injective {P S : Type} :
    Function.Injective (sentinel : ProcList S ⊕ SemdList → Link P S) := by
  rintro ((_ | _ | s) | (_ | _)) ((_ | _ | t) | (_ | _)) h <;> simp [sentinel] at h ⊢
  exact h

theorem sentinel_ne_pNext {P S : Type} (i : ProcList S ⊕ SemdList) (p : P) :
    (sentinel i : Link P S) ≠ .pNext p := by
  rcases i with (_ | _ | s) | (_ | _) <;> simp [sentinel]

theorem sentinel_ne_sNext {P S : Type} (i : ProcList S ⊕ SemdList) (s : S) :
    (sentinel i : Link P S) ≠ .sNext s := by
  rcases i with (_ | _ | s) | (_ | _) <;> simp [sentinel]

/-- The content of the lists. -/
structure Threads (P S : Type) where
  procs : ProcList S → List P
  semds : SemdList → List S

namespace Threads

variable {P S : Type} {T : Threads P S} {p : P}

/-- The links behind the sentinels. -/
def links (T : Threads P S) : ProcList S ⊕ SemdList → List (Link P S)
  | .inl i => (T.procs i).map .pNext
  | .inr j => (T.semds j).map .sNext

/-- A process that is in none of the lists. -/
def Unthreaded (T : Threads P S) (p : P) : Prop :=
  ∀ i, p ∉ T.procs i

theorem fresh_iff : Fresh sentinel T.links (.pNext p) ↔ T.Unthreaded p := by
  constructor
  · intro h i hp
    refine h (.inl i) (List.mem_cons_of_mem _ ?_)
    exact List.mem_map_of_mem hp
  · rintro h (i | j) hmem
    · rcases List.mem_cons.mp hmem with heq | hmem
      · exact sentinel_ne_pNext _ _ heq.symm
      · obtain ⟨x, hx, heq⟩ := List.mem_map.mp hmem
        exact h i (Link.pNext.inj heq ▸ hx)
    · rcases List.mem_cons.mp hmem with heq | hmem
      · exact sentinel_ne_pNext _ _ heq.symm
      · obtain ⟨x, -, heq⟩ := List.mem_map.mp hmem
        exact absurd heq (by simp)

variable [DecidableEq S]

/-- One list of processes is replaced. -/
def setProcs (T : Threads P S) (i : ProcList S) (q : List P) : Threads P S :=
  { T with procs := Function.update T.procs i q }

/-- One list of descriptors is replaced. -/
def setSemds (T : Threads P S) (j : SemdList) (l : List S) : Threads P S :=
  { T with semds := Function.update T.semds j l }

theorem links_setProcs (i : ProcList S) (q : List P) :
    (T.setProcs i q).links = Function.update T.links (.inl i) (q.map .pNext) := by
  funext k
  rcases k with k | k
  · by_cases hk : k = i
    · subst hk
      simp [links, setProcs]
    · simp [links, setProcs, hk]
  · simp [links, setProcs]

theorem links_setSemds (j : SemdList) (l : List S) :
    (T.setSemds j l).links = Function.update T.links (.inr j) (l.map .sNext) := by
  funext k
  rcases k with k | k
  · simp [links, setSemds]
  · by_cases hk : k = j
    · subst hk
      simp [links, setSemds]
    · simp [links, setSemds, hk]

@[simp] theorem procs_setProcs (i : ProcList S) (q : List P) :
    (T.setProcs i q).procs = Function.update T.procs i q :=
  rfl

@[simp] theorem semds_setProcs (i : ProcList S) (q : List P) :
    (T.setProcs i q).semds = T.semds :=
  rfl

omit [DecidableEq S] in
@[simp] theorem procs_setSemds (j : SemdList) (l : List S) :
    (T.setSemds j l).procs = T.procs :=
  rfl

omit [DecidableEq S] in
@[simp] theorem semds_setSemds (j : SemdList) (l : List S) :
    (T.setSemds j l).semds = Function.update T.semds j l :=
  rfl

@[simp] theorem setProcs_self (i : ProcList S) : T.setProcs i (T.procs i) = T := by
  simp [setProcs]

/-- A process that stays out of a list when it changes. -/
theorem Unthreaded.setProcs
    (h : T.Unthreaded p) {i : ProcList S} {q : List P} (hq : p ∉ q) :
    (T.setProcs i q).Unthreaded p := by
  intro k
  by_cases hk : k = i
  · subst hk
    simpa using hq
  · simpa [hk] using h k

end Threads

namespace Memory

variable {P S K : Type} {m m' m'' : Memory P S K} {T : Threads P S}
variable {i : ProcList S} {j : SemdList} {p : P} {s : S}

/-- The lists are threaded through the links. -/
def Threaded (m : Memory P S K) (T : Threads P S) : Prop :=
  Rings m.next m.prev sentinel T.links

/-- Only the process tree changes. -/
structure TreeOnly (m m' : Memory P S K) : Prop where
  links : ∀ y, (∀ x, y ≠ Link.pChild x) → (∀ x, y ≠ Link.pSib x) →
    m'.next y = m.next y ∧ m'.prev y = m.prev y
  priority : m'.priority = m.priority
  pSemkey : m'.pSemkey = m.pSemkey
  sKey : m'.sKey = m.sKey

theorem TreeOnly.refl (m : Memory P S K) : TreeOnly m m :=
  ⟨fun _ _ _ => ⟨rfl, rfl⟩, rfl, rfl, rfl⟩

theorem TreeOnly.trans (h : TreeOnly m m') (h' : TreeOnly m' m'') : TreeOnly m m'' where
  links := fun y hchild hsib =>
    ⟨(h'.links y hchild hsib).1.trans (h.links y hchild hsib).1,
      (h'.links y hchild hsib).2.trans (h.links y hchild hsib).2⟩
  priority := h'.priority.trans h.priority
  pSemkey := h'.pSemkey.trans h.pSemkey
  sKey := h'.sKey.trans h.sKey

/-- Only sibling links are written. -/
theorem WritesLinks.treeOnly
    {ls : List P} (h : WritesLinks (ls.map .pSib) m m') :
    TreeOnly m m' := by
  refine ⟨fun y _ hsib => ?_, h.priority, h.pSemkey, h.sKey⟩
  have hy : y ∉ ls.map Link.pSib := by
    intro hmem
    obtain ⟨x, -, heq⟩ := List.mem_map.mp hmem
    exact hsib x heq.symm
  exact ⟨h.next y hy, h.prev y hy⟩

/-- The fields that are not links are the same, but perhaps `p_semkey`. -/
structure SameFields (m m' : Memory P S K) : Prop where
  tree : SameTree m m'
  priority : m'.priority = m.priority
  sKey : m'.sKey = m.sKey

theorem SameFields.refl (m : Memory P S K) : SameFields m m :=
  ⟨SameTree.refl m, rfl, rfl⟩

theorem SameFields.trans (h : SameFields m m') (h' : SameFields m' m'') : SameFields m m'' :=
  ⟨h.tree.trans h'.tree, h'.priority.trans h.priority, h'.sKey.trans h.sKey⟩

namespace Threaded

section Facts

variable (h : m.Threaded T)
include h

theorem isQueue (i : ProcList S) : m.IsQueue (sentinel (.inl i)) (T.procs i) :=
  h.ring (.inl i)

theorem isSemdRing (j : SemdList) :
    m.IsRing (sentinel (.inr j) :: (T.semds j).map .sNext) :=
  h.ring (.inr j)

theorem procs_nodup (i : ProcList S) : (T.procs i).Nodup :=
  (h.isQueue i).nodup

/-- A process is in one list at most. -/
theorem procs_unique {k : ProcList S} (hi : p ∈ T.procs i) (hk : p ∈ T.procs k) : i = k := by
  have hmem : ∀ a, p ∈ T.procs a → (Link.pNext p : Link P S) ∈
      sentinel (.inl a) :: T.links (.inl a) :=
    fun a ha => List.mem_cons_of_mem _ (List.mem_map_of_mem ha)
  exact Sum.inl.inj (h.unique (hmem i hi) (hmem k hk))

/-- The lists do not depend on the process tree. -/
theorem congr (hsame : TreeOnly m m') : m'.Threaded T := by
  refine Rings.congr h ?_
  intro k y hy
  refine hsame.links y ?_ ?_
  · rintro x rfl
    rcases k with (_ | _ | _) | (_ | _) <;> simp [sentinel, Threads.links] at hy
  · rintro x rfl
    rcases k with (_ | _ | _) | (_ | _) <;> simp [sentinel, Threads.links] at hy

end Facts

variable [DecidableEq S] {front back : List P}

/-- A process in none of the lists enters one of them. -/
theorem enter
    (h : m.Threaded T) (hp : T.Unthreaded p) (hi : T.procs i = front ++ back)
    (hqueue : m'.IsQueue (sentinel (.inl i)) (front ++ p :: back))
    (hwrites : WritesLinks (.pNext p :: queueLinks (sentinel (.inl i)) (T.procs i)) m m') :
    m'.Threaded (T.setProcs i (front ++ p :: back)) := by
  rw [Threaded, Threads.links_setProcs, List.map_append, List.map_cons]
  refine Rings.insert h (Threads.fresh_iff.mpr hp) ?_ ?_ ?_
  · rw [Threads.links, hi, List.map_append]
  · rw [IsQueue, List.map_append, List.map_cons] at hqueue
    exact hqueue
  · intro y hy
    exact ⟨hwrites.next y hy, hwrites.prev y hy⟩

/-- A process leaves its list, and is then in none of them. -/
theorem leave
    (h : m.Threaded T) (hi : T.procs i = front ++ p :: back)
    (hqueue : m'.IsQueue (sentinel (.inl i)) (front ++ back))
    (hwrites : WritesLinks (queueLinks (sentinel (.inl i)) (T.procs i)) m m') :
    m'.Threaded (T.setProcs i (front ++ back)) ∧
      (T.setProcs i (front ++ back)).Unthreaded p := by
  have hlinks : T.links (.inl i) = front.map .pNext ++ .pNext p :: back.map .pNext := by
    rw [Threads.links, hi, List.map_append, List.map_cons]
  constructor
  · rw [Threaded, Threads.links_setProcs, List.map_append]
    refine Rings.delete h hlinks ?_ ?_
    · rw [IsQueue, List.map_append] at hqueue
      exact hqueue
    · intro y hy
      exact ⟨hwrites.next y hy, hwrites.prev y hy⟩
  · have hfresh := Rings.fresh_of_delete h hlinks
    rw [← List.map_append, ← Threads.links_setProcs] at hfresh
    exact Threads.fresh_iff.mp hfresh

/-- A descriptor that is in neither list enters one of them. -/
theorem enterSemd
    (h : m.Threaded T) (hs : ∀ k, s ∉ T.semds k)
    (hring : m'.IsRing (sentinel (.inr j) :: .sNext s :: (T.semds j).map .sNext))
    (hwrites : WritesLinks (.sNext s :: sentinel (.inr j) :: (T.semds j).map .sNext) m m') :
    m'.Threaded (T.setSemds j (s :: T.semds j)) := by
  have hfresh : Fresh sentinel T.links (Link.sNext s : Link P S) := by
    rintro (k | k) hmem
    · rcases List.mem_cons.mp hmem with heq | hmem
      · exact sentinel_ne_sNext _ _ heq.symm
      · obtain ⟨x, -, heq⟩ := List.mem_map.mp hmem
        exact absurd heq (by simp)
    · rcases List.mem_cons.mp hmem with heq | hmem
      · exact sentinel_ne_sNext _ _ heq.symm
      · obtain ⟨t, ht, heq⟩ := List.mem_map.mp hmem
        exact hs k (Link.sNext.inj heq ▸ ht)
  rw [Threaded, Threads.links_setSemds, List.map_cons]
  have hsplit : T.links (.inr j) = [] ++ (T.semds j).map .sNext := rfl
  refine Rings.insert h hfresh hsplit hring ?_
  intro y hy
  exact ⟨hwrites.next y hy, hwrites.prev y hy⟩

/-- A descriptor leaves its list. -/
theorem leaveSemd
    {before after : List S} (h : m.Threaded T) (hj : T.semds j = before ++ s :: after)
    (hring : m'.IsRing (sentinel (.inr j) :: (before.map .sNext ++ after.map .sNext)))
    (hwrites : WritesLinks (sentinel (.inr j) :: (T.semds j).map .sNext) m m') :
    m'.Threaded (T.setSemds j (before ++ after)) ∧
      ∀ k, s ∉ (T.setSemds j (before ++ after)).semds k := by
  have hlinks : T.links (.inr j) = before.map .sNext ++ .sNext s :: after.map .sNext := by
    rw [Threads.links, hj, List.map_append, List.map_cons]
  constructor
  · rw [Threaded, Threads.links_setSemds, List.map_append]
    refine Rings.delete h hlinks hring ?_
    intro y hy
    exact ⟨hwrites.next y hy, hwrites.prev y hy⟩
  · intro k hk
    have hfresh := Rings.fresh_of_delete h hlinks (.inr k)
    rw [← List.map_append, ← Threads.links_setSemds] at hfresh
    exact hfresh (List.mem_cons_of_mem _ (List.mem_map_of_mem hk))

/-- `INIT_LIST_HEAD` of a sentinel empties its list. -/
theorem clear
    [DecidableEq P] (h : m.Threaded T) (i : ProcList S) :
    (m.initListHead (sentinel (.inl i))).Threaded (T.setProcs i []) := by
  rw [Threaded, Threads.links_setProcs, List.map_nil]
  refine Rings.clear h ?_ ?_
  · exact ⟨Function.update_self .., Function.update_self ..⟩
  · intro y hy
    exact ⟨Function.update_of_ne hy _ _, Function.update_of_ne hy _ _⟩

end Threaded

/-- The links that the lists use. -/
theorem WritesLinks.sameFields
    {ls : List (Link P S)} (h : WritesLinks ls m m')
    (hchild : ∀ x, Link.pChild x ∉ ls) (hsib : ∀ x, Link.pSib x ∉ ls) :
    SameFields m m' :=
  ⟨h.sameTree hchild hsib, h.priority, h.sKey⟩

theorem pChild_notMem_queueLinks (i : ProcList S) (q : List P) (x : P) :
    (Link.pChild x : Link P S) ∉ queueLinks (sentinel (.inl i)) q := by
  rcases i with _ | _ | s <;> simp [queueLinks, sentinel]

theorem pSib_notMem_queueLinks (i : ProcList S) (q : List P) (x : P) :
    (Link.pSib x : Link P S) ∉ queueLinks (sentinel (.inl i)) q := by
  rcases i with _ | _ | s <;> simp [queueLinks, sentinel]

section Queues

variable [DecidableEq P] [DecidableEq S] {fuel : ℕ}
variable (h : m.Threaded T)
include h

/-- `insertProcQ`. -/
theorem insertProcQ_threaded (hp : T.Unthreaded p) (i : ProcList S) :
    ∃ m', (∀ fuel > (T.procs i).length,
        m.insertProcQ fuel (sentinel (.inl i)) p = .ok m') ∧
      m'.Threaded (T.setProcs i (stableInsert m.priority p (T.procs i))) ∧
      SameFields m m' ∧ m'.pSemkey = m.pSemkey := by
  obtain ⟨front, back, m', hsplit, hfront, hback, heq, hqueue, hwrites⟩ :=
    insertProcQ_spec (sentinel_ne_pNext _) (h.isQueue i) (hp i)
  refine ⟨m', heq, ?_, ?_, hwrites.pSemkey⟩
  · rw [hsplit, stableInsert_append hfront hback]
    exact h.enter hp hsplit hqueue hwrites
  · refine hwrites.sameFields ?_ ?_
    · simpa using pChild_notMem_queueLinks i (T.procs i)
    · simpa using pSib_notMem_queueLinks i (T.procs i)

/-- `list_add_tail` on a queue. -/
theorem listAddTail_threaded (hp : T.Unthreaded p) (i : ProcList S) :
    ∃ m', m.listAddTail (.pNext p) (sentinel (.inl i)) = .ok m' ∧
      m'.Threaded (T.setProcs i (T.procs i ++ [p])) ∧
      SameFields m m' ∧ m'.pSemkey = m.pSemkey := by
  obtain ⟨m', heq, hring, hwrites⟩ :=
    listAddTail_spec (h.isQueue i) (notMem_queueLinks (sentinel_ne_pNext _) (hp i))
  refine ⟨m', heq, ?_, ?_, hwrites.pSemkey⟩
  · refine h.enter hp (List.append_nil _).symm ?_ hwrites
    rw [IsQueue, List.map_append]
    exact hring
  · refine hwrites.sameFields ?_ ?_
    · simpa using pChild_notMem_queueLinks i (T.procs i)
    · simpa using pSib_notMem_queueLinks i (T.procs i)

/-- `list_add` on a list of processes. -/
theorem listAdd_threaded (hp : T.Unthreaded p) (i : ProcList S) :
    ∃ m', m.listAdd (.pNext p) (sentinel (.inl i)) = .ok m' ∧
      m'.Threaded (T.setProcs i (p :: T.procs i)) ∧
      SameFields m m' ∧ m'.pSemkey = m.pSemkey := by
  obtain ⟨m', heq, hring, hwrites⟩ :=
    listAdd_spec (h.isQueue i) (notMem_queueLinks (sentinel_ne_pNext _) (hp i))
  have hsplit : T.procs i = [] ++ T.procs i := rfl
  refine ⟨m', heq, h.enter hp hsplit hring hwrites, ?_, hwrites.pSemkey⟩
  refine hwrites.sameFields ?_ ?_
  · simpa using pChild_notMem_queueLinks i (T.procs i)
  · simpa using pSib_notMem_queueLinks i (T.procs i)

/-- `removeProcQ`: the first process leaves the queue. -/
theorem removeProcQ_threaded (i : ProcList S) :
    ∃ m', m.removeProcQ (sentinel (.inl i)) = .ok ((T.procs i).head?, m') ∧
      m'.Threaded (T.setProcs i (T.procs i).tail) ∧
      SameFields m m' ∧ m'.pSemkey = m.pSemkey ∧
      ∀ x ∈ (T.procs i).head?, (T.setProcs i (T.procs i).tail).Unthreaded x := by
  obtain ⟨m', heq, hqueue, hwrites⟩ := removeProcQ_spec (h.isQueue i)
  have hfields : SameFields m m' :=
    hwrites.sameFields (pChild_notMem_queueLinks i _) (pSib_notMem_queueLinks i _)
  cases hi : T.procs i with
  | nil =>
      -- an empty queue is left as it is
      have hempty := listEmpty_iff (h.isQueue i)
      have hsame : m.removeProcQ (sentinel (.inl i)) = .ok (none, m) := by
        simp [removeProcQ, hempty, hi]
      refine ⟨m, hsame, ?_, SameFields.refl m, rfl, by simp⟩
      rw [List.tail_nil, ← hi, Threads.setProcs_self]
      exact h
  | cons x q =>
      rw [hi] at heq hqueue
      have hsplit : T.procs i = [] ++ x :: q := hi
      obtain ⟨hthreaded, hx⟩ := h.leave hsplit hqueue hwrites
      refine ⟨m', heq, hthreaded, hfields, hwrites.pSemkey, ?_⟩
      intro y hy
      obtain rfl : x = y := Option.some.inj hy
      exact hx

/-- `outProcQ`: the process leaves the queue, if it is in it. -/
theorem outProcQ_threaded (p : P) (i : ProcList S) :
    ∃ m', (∀ fuel > (T.procs i).length, m.outProcQ fuel (sentinel (.inl i)) p =
        .ok (if p ∈ T.procs i then some p else none, m')) ∧
      m'.Threaded (T.setProcs i ((T.procs i).erase p)) ∧
      SameFields m m' ∧ m'.pSemkey = m.pSemkey ∧
      (p ∈ T.procs i → (T.setProcs i ((T.procs i).erase p)).Unthreaded p) := by
  obtain ⟨m', heq, hqueue, hwrites, hsame⟩ :=
    outProcQ_spec (p := p) (sentinel_ne_pNext _) (h.isQueue i)
  refine ⟨m', heq, ?_, ?_, hwrites.pSemkey, ?_⟩
  · by_cases hp : p ∈ T.procs i
    · obtain ⟨front, back, -, hi, herase⟩ := List.exists_erase_eq hp
      rw [herase] at hqueue ⊢
      exact (h.leave hi hqueue hwrites).1
    · rw [List.erase_of_not_mem hp, Threads.setProcs_self, hsame hp]
      exact h
  · exact hwrites.sameFields (pChild_notMem_queueLinks i _) (pSib_notMem_queueLinks i _)
  · intro hp
    obtain ⟨front, back, -, hi, herase⟩ := List.exists_erase_eq hp
    rw [herase] at hqueue ⊢
    exact (h.leave hi hqueue hwrites).2

omit h in
/-- A PCB that is freed comes first. -/
theorem freePcb_threaded (h : m.Threaded T) (hp : T.Unthreaded p) :
    ∃ m', m.freePcb p = .ok m' ∧
      m'.Threaded (T.setProcs .pcbFreeH (p :: T.procs .pcbFreeH)) ∧
      SameFields m m' ∧ m'.pSemkey = m.pSemkey :=
  listAdd_threaded h hp .pcbFreeH

theorem allocPcb_nil (hi : T.procs .pcbFreeH = []) :
    m.allocPcb = .ok (none, m) := by
  have hempty : m.listEmpty .pcbFreeH = true :=
    (listEmpty_iff (h.isQueue .pcbFreeH)).mpr (by rw [hi]; rfl)
  simp [allocPcb, hempty]

/-- `allocPcb`: the first free PCB is cleared; it is a tree of its own if it was one. -/
theorem allocPcb_threaded {free : List P} (hi : T.procs .pcbFreeH = p :: free) :
    ∃ m', m.allocPcb = .ok (some p, m') ∧
      m'.Threaded (T.setProcs .pcbFreeH free) ∧ (T.setProcs .pcbFreeH free).Unthreaded p ∧
      m'.pParent = Function.update m.pParent p none ∧
      m'.priority = Function.update m.priority p 0 ∧
      m'.pSemkey = Function.update m.pSemkey p none ∧ m'.sKey = m.sKey ∧
      ∀ children, m.IsForest children → children p = [] → (∀ a, p ∉ children a) →
        m'.IsForest children := by
  have hqueue : m.IsQueue .pcbFreeH (p :: free) := hi ▸ h.isQueue .pcbFreeH
  have hempty := listEmpty_iff hqueue
  have hnext := listNext_eq hqueue
  obtain ⟨m₁, hdel, hring, hwrites⟩ := listDel_first hqueue
  have hwrites₁ : WritesLinks (queueLinks .pcbFreeH (p :: free)) m m₁ := by
    refine hwrites.mono ?_
    intro y hy
    simp only [List.mem_cons, List.map_cons] at hy ⊢
    tauto
  have hleave : m₁.Threaded (T.setProcs .pcbFreeH free) ∧
      (T.setProcs .pcbFreeH free).Unthreaded p := by
    have hsplit : T.procs .pcbFreeH = [] ++ p :: free := hi
    refine h.leave hsplit hring ?_
    rw [hi]
    exact hwrites₁
  have hsame : SameFields m m₁ :=
    hwrites₁.sameFields (pChild_notMem_queueLinks .pcbFreeH _)
      (pSib_notMem_queueLinks .pcbFreeH _)
  -- the memory after the fields are cleared
  let m₂ := ((m₁.setPriority p 0).setSemkey p none).setParent p none
  let m₃ := (m₂.setNext (.pChild p) none).setPrev (.pChild p) none
  let m₄ := (m₃.initListHead (.pNext p)).initListHead (.pSib p)
  have hlink : ∀ y : Link P S, y ≠ .pChild p → y ≠ .pNext p → y ≠ .pSib p →
      m₄.next y = m₁.next y ∧ m₄.prev y = m₁.prev y := by
    intro y h₁ h₂ h₃
    simp [m₄, m₃, m₂, initListHead, setNext, setPrev, setParent, setSemkey, setPriority,
      h₁, h₂, h₃]
  have hparent : m₄.pParent = Function.update m.pParent p none := by
    show Function.update m₁.pParent p none = _
    rw [hsame.tree.parent]
  refine ⟨m₄, ?_, ?_, hleave.2, hparent, ?_, ?_, ?_, ?_⟩
  · simp [allocPcb, hempty, hnext, hdel, m₄, m₃, m₂]
  · refine Rings.congr hleave.1 ?_
    intro k y hy
    have hfresh := Threads.fresh_iff.mpr hleave.2 k
    refine hlink y ?_ (fun heq => hfresh (heq ▸ hy)) ?_
    · rintro rfl
      rcases k with (_ | _ | _) | (_ | _) <;> simp [sentinel, Threads.links] at hy
    · rintro rfl
      rcases k with (_ | _ | _) | (_ | _) <;> simp [sentinel, Threads.links] at hy
  · show Function.update m₁.priority p 0 = _
    rw [hsame.priority]
  · show Function.update m₁.pSemkey p none = _
    rw [hwrites.pSemkey]
  · exact hsame.sKey
  · intro children hforest hleaf hroot
    have hne : ∀ a, ∀ c ∈ children a, c ≠ p := fun a c hc heq => hroot a (heq ▸ hc)
    refine ⟨hforest.forest, ?_, ?_, ?_, ?_⟩
    · intro a
      by_cases hap : a = p
      · subst hap
        simp [m₄, m₃, m₂, initListHead, setNext, setPrev, hleaf]
      · rw [(hlink _ (by simpa using hap) (by simp) (by simp)).1, hsame.tree.nextChild]
        exact hforest.first a
    · intro a c hc
      have hcp := hne a c (List.mem_of_mem_head? hc)
      rw [(hlink _ (by simpa using hcp) (by simp) (by simp)).2, hsame.tree.prevChild]
      exact hforest.back a c hc
    · intro a ha
      refine (hforest.ring a ha).congr ?_ ?_
      · intro y hy
        obtain ⟨c, hc, rfl⟩ := List.mem_map.mp hy
        rw [(hlink _ (by simp) (by simp) (by simpa using hne a c hc)).1, hsame.tree.nextSib]
      · intro y hy
        obtain ⟨c, hc, rfl⟩ := List.mem_map.mp hy
        rw [(hlink _ (by simp) (by simp) (by simpa using hne a c hc)).2, hsame.tree.prevSib]
    · intro a c hc
      rw [hparent, Function.update_of_ne (hne a c hc)]
      exact hforest.parent a c hc

end Queues

section Descriptors

variable {free : List S} {key : Option K}

theorem sNext_sameFields
    (hwrites : WritesLinks (.sNext s :: sentinel (.inr j) :: (T.semds j).map .sNext) m m') :
    SameFields m m' := by
  refine hwrites.sameFields ?_ ?_
  · intro x
    cases j <;> simp [sentinel]
  · intro x
    cases j <;> simp [sentinel]

variable [DecidableEq P] [DecidableEq S]

/-- A descriptor is moved from one list to the front of the other. -/
theorem moveSemd_threaded
    (h : m.Threaded T) {k : SemdList} (hjk : k ≠ j) (hs : s ∈ T.semds j) :
    ∃ m₁ m', m.listDel (.sNext s) = .ok m₁ ∧ m₁.listAdd (.sNext s) (sentinel (.inr k)) = .ok m' ∧
      m'.Threaded ((T.setSemds j ((T.semds j).erase s)).setSemds k (s :: T.semds k)) ∧
      SameFields m m' ∧ m'.pSemkey = m.pSemkey := by
  obtain ⟨before, after, -, hj, herase⟩ := List.exists_erase_eq hs
  have hring : m.IsRing
      (sentinel (.inr j) :: (before.map .sNext ++ .sNext s :: after.map .sNext)) := by
    rw [← List.map_cons, ← List.map_append, ← hj]
    exact h.isSemdRing j
  obtain ⟨m₁, hdel, hring₁, hwrites₁⟩ := listDel_spec hring
  have hwrites₁ : WritesLinks (.sNext s :: sentinel (.inr j) :: (T.semds j).map .sNext) m m₁ := by
    refine hwrites₁.mono ?_
    intro y hy
    rw [hj]
    simp only [List.mem_cons, List.mem_append, List.map_append, List.map_cons] at hy ⊢
    tauto
  have hwritesList : WritesLinks (sentinel (.inr j) :: (T.semds j).map .sNext) m m₁ := by
    refine hwrites₁.mono ?_
    intro y hy
    rcases List.mem_cons.mp hy with rfl | hy
    · exact List.mem_cons_of_mem _ (List.mem_map_of_mem hs)
    · exact hy
  obtain ⟨hthreaded₁, hout⟩ := h.leaveSemd hj hring₁ hwritesList
  have hk : (T.setSemds j (before ++ after)).semds k = T.semds k := by
    simp [hjk]
  have hring₂ := hthreaded₁.isSemdRing k
  have hfresh : (Link.sNext s : Link P S) ∉
      sentinel (.inr k) :: ((T.setSemds j (before ++ after)).semds k).map .sNext := by
    intro hmem
    rcases List.mem_cons.mp hmem with heq | hmem
    · exact sentinel_ne_sNext _ _ heq.symm
    · obtain ⟨t, ht, heq⟩ := List.mem_map.mp hmem
      exact hout k (Link.sNext.inj heq ▸ ht)
  obtain ⟨m', hadd, hring', hwrites'⟩ := listAdd_spec hring₂ hfresh
  have hthreaded := hthreaded₁.enterSemd hout hring' hwrites'
  rw [hk] at hthreaded hwrites'
  rw [herase]
  exact ⟨m₁, m', hdel, hadd, hthreaded,
    (sNext_sameFields hwrites₁).trans (sNext_sameFields (j := k) hwrites'),
    hwrites'.pSemkey.trans hwrites₁.pSemkey⟩

/-- `retrieve_free_semd`: the descriptor becomes active, with the key and no processes. -/
theorem retrieveFreeSemd_threaded
    (h : m.Threaded T) (hj : T.semds .semdFreeH = s :: free) (key : Option K) :
    ∃ m', m.retrieveFreeSemd key = .ok (some s, m') ∧
      m'.Threaded (((T.setSemds .semdFreeH free).setSemds .semdH
        (s :: T.semds .semdH)).setProcs (.sProcQ s) []) ∧
      SameTree m m' ∧ m'.priority = m.priority ∧ m'.pSemkey = m.pSemkey ∧
      m'.sKey = Function.update m.sKey s key := by
  have hring : m.IsRing (sentinel (.inr .semdFreeH) :: (T.semds .semdFreeH).map .sNext) :=
    h.isSemdRing .semdFreeH
  have hempty := listEmpty_iff hring
  have hnext := listNext_eq hring
  have hs : s ∈ T.semds .semdFreeH := by
    rw [hj]
    exact List.mem_cons_self
  obtain ⟨m₁, m₂, hdel, hadd, hthreaded, hfields, hsemkey⟩ :=
    moveSemd_threaded h (k := .semdH) (by simp) hs
  rw [hj] at hempty hnext
  rw [hj, List.erase_cons_head] at hthreaded
  simp only [sentinel] at hempty hnext hadd
  refine ⟨(m₂.setKey s key).initListHead (.sProcQ s), ?_, ?_, ?_, hfields.priority, hsemkey, ?_⟩
  · simp [retrieveFreeSemd, hempty, hnext, hdel, hadd]
  · have hkey : (m₂.setKey s key).Threaded _ := hthreaded
    exact hkey.clear (.sProcQ s)
  · have hinit : SameTree m₂ ((m₂.setKey s key).initListHead (.sProcQ s)) := by
      refine ⟨?_, ?_, ?_, ?_, rfl⟩ <;>
        simp [initListHead, setNext, setPrev, setKey]
    exact hfields.tree.trans hinit
  · show Function.update m₂.sKey s key = _
    rw [hfields.sKey]

theorem retrieveFreeSemd_nil
    (h : m.Threaded T) (hj : T.semds .semdFreeH = []) (key : Option K) :
    m.retrieveFreeSemd key = .ok (none, m) := by
  have hempty : m.listEmpty .semdFreeH = true :=
    (listEmpty_iff (h.isSemdRing .semdFreeH)).mpr (by rw [hj]; rfl)
  simp [retrieveFreeSemd, hempty]

/-- `freeSemdIfEmpty`: an active descriptor without processes becomes free. -/
theorem freeSemdIfEmpty_threaded
    (h : m.Threaded T) (hs : s ∈ T.semds .semdH) :
    ∃ m', m.freeSemdIfEmpty s = .ok m' ∧
      m'.Threaded (if T.procs (.sProcQ s) = [] then
        (T.setSemds .semdH ((T.semds .semdH).erase s)).setSemds .semdFreeH
          (s :: T.semds .semdFreeH)
        else T) ∧
      SameFields m m' ∧ m'.pSemkey = m.pSemkey := by
  have hempty : m.listEmpty (.sProcQ s) = true ↔ T.procs (.sProcQ s) = [] :=
    emptyProcQ_iff (h.isQueue (.sProcQ s))
  by_cases hq : T.procs (.sProcQ s) = []
  · obtain ⟨m₁, m', hdel, hadd, hthreaded, hfields, hsemkey⟩ :=
      moveSemd_threaded h (k := .semdFreeH) (by simp) hs
    simp only [sentinel] at hadd
    refine ⟨m', ?_, ?_, hfields, hsemkey⟩
    · simp [freeSemdIfEmpty, hempty.mpr hq, hdel, hadd]
    · rw [if_pos hq]
      exact hthreaded
  · have hne : ¬ m.listEmpty (.sProcQ s) = true := fun he => hq (hempty.mp he)
    refine ⟨m, ?_, ?_, SameFields.refl m, rfl⟩
    · simp [freeSemdIfEmpty, hne]
    · rw [if_neg hq]
      exact h

variable [DecidableEq K]

/-- `getSemd` searches the active list. -/
theorem getSemd_threaded
    (h : m.Threaded T) {fuel : ℕ} (hfuel : (T.semds .semdH).length < fuel) :
    m.getSemd fuel key = .ok ((T.semds .semdH).find? (fun s => m.sKey s = key)) := by
  obtain ⟨hnext, hpath⟩ := (follows_of_isRing (h.isSemdRing .semdH)).next
  simp only [sentinel] at hnext hpath
  simp only [getSemd, hnext, deref_some, ok_bind, getSemdFrom_eq hpath hfuel]

end Descriptors

end Memory

end Bikaya
