import Bikaya.Core.Links
import Bikaya.Library.LinkRing

/-!
# Bikaya: lists as rings of links

What the functions of `listx.h` do to the rings that represent lists, and which links they
write.

**Plan.**  A list in memory is a ring of link fields: a sentinel, which is a field of a
descriptor, of a PCB or a variable of its own, and the field of each element.  `IsRing`
says that the links run around it in both directions.  The rules for rings of arbitrary
nodes are those of `LinkRing.lean`; here they are used at the two functions that the macros
of the header come down to, the insertion between two neighbours and the removal.
`WritesLinks` is the frame that goes with each of them: it lists the link fields that may
change, and says that no other link and no other field of a structure does.  A ring that
has none of them is then still a ring (`WritesLinks.isRing`).

A loop over a list does not see the ring but a chain of forward links (`Follows`), which
ends at the sentinel.

**Results.**
* `listAddBetween_spec`: a node that is in no ring is put between two neighbours.
* `listDel_spec`, `listDel_first`: a node leaves its ring.
* `Follows.next`: the step of a loop.
-/

namespace Bikaya

open LinkRing

@[simp] theorem deref_some {α : Type} (a : α) : deref (some a) = .ok a :=
  rfl

namespace Link

variable {P S : Type}

@[simp] theorem containerPNext_some (p : P) :
    containerPNext (some (.pNext p : Link P S)) = .ok p :=
  rfl

@[simp] theorem containerPChild_some (p : P) :
    containerPChild (some (.pChild p : Link P S)) = .ok p :=
  rfl

@[simp] theorem containerPSib_some (p : P) :
    containerPSib (some (.pSib p : Link P S)) = .ok p :=
  rfl

@[simp] theorem containerSNext_some (s : S) :
    containerSNext (some (.sNext s : Link P S)) = .ok s :=
  rfl

end Link

namespace Memory

variable {P S K : Type} {m m' m'' : Memory P S K}

/-- The links of the list form a ring, the first one being its sentinel. -/
abbrev IsRing (m : Memory P S K) (l : List (Link P S)) : Prop :=
  Ring m.next m.prev (l : Cycle (Link P S))

/-- Only the links of `ls` are written, and no other field. -/
structure WritesLinks (ls : List (Link P S)) (m m' : Memory P S K) : Prop where
  next : ∀ l ∉ ls, m'.next l = m.next l
  prev : ∀ l ∉ ls, m'.prev l = m.prev l
  pParent : m'.pParent = m.pParent
  priority : m'.priority = m.priority
  pSemkey : m'.pSemkey = m.pSemkey
  sKey : m'.sKey = m.sKey

theorem WritesLinks.refl (ls : List (Link P S)) (m : Memory P S K) : WritesLinks ls m m :=
  ⟨fun _ _ => rfl, fun _ _ => rfl, rfl, rfl, rfl, rfl⟩

theorem WritesLinks.mono
    {ls ls' : List (Link P S)} (h : WritesLinks ls m m') (hsub : ls ⊆ ls') :
    WritesLinks ls' m m' where
  next := fun l hl => h.next l (fun hmem => hl (hsub hmem))
  prev := fun l hl => h.prev l (fun hmem => hl (hsub hmem))
  pParent := h.pParent
  priority := h.priority
  pSemkey := h.pSemkey
  sKey := h.sKey

theorem WritesLinks.trans
    {ls : List (Link P S)} (h : WritesLinks ls m m') (h' : WritesLinks ls m' m'') :
    WritesLinks ls m m'' where
  next := fun l hl => (h'.next l hl).trans (h.next l hl)
  prev := fun l hl => (h'.prev l hl).trans (h.prev l hl)
  pParent := h'.pParent.trans h.pParent
  priority := h'.priority.trans h.priority
  pSemkey := h'.pSemkey.trans h.pSemkey
  sKey := h'.sKey.trans h.sKey

/-- A ring of other links stays. -/
theorem WritesLinks.isRing
    {ls l : List (Link P S)} (h : WritesLinks ls m m')
    (hring : m.IsRing l) (hdisj : ∀ x ∈ l, x ∉ ls) :
    m'.IsRing l :=
  hring.congr (fun x hx => h.next x (hdisj x hx)) (fun x hx => h.prev x (hdisj x hx))

theorem headD_mem_ring (s : Link P S) (front back : List (Link P S)) :
    back.headD s ∈ s :: (front ++ back) := by
  cases back <;> simp

/-- Following `next` from link to link. -/
def Follows (m : Memory P S K) (l : List (Link P S)) : Prop :=
  List.IsChain (fun a b => m.next a = some b) l

/-- Walking along a ring, from the sentinel back to the sentinel. -/
theorem follows_of_isRing
    {s : Link P S} {l : List (Link P S)} (h : m.IsRing (s :: l)) :
    m.Follows (s :: (l ++ [s])) :=
  Ring.path h

/-- The link behind the first one is the next of the list, or the sentinel. -/
theorem Follows.next
    {s y : Link P S} {l : List (Link P S)} (h : m.Follows (y :: (l ++ [s]))) :
    m.next y = some (l.headD s) ∧ m.Follows (l ++ [s]) := by
  cases l with
  | nil =>
      exact List.isChain_cons_cons.mp h
  | cons z l =>
      exact List.isChain_cons_cons.mp h

variable [DecidableEq P] [DecidableEq S]
variable {s x : Link P S} {l front back : List (Link P S)}

/-- `INIT_LIST_HEAD` makes the node a ring of its own. -/
theorem initListHead_isRing (m : Memory P S K) (x : Link P S) :
    (m.initListHead x).IsRing [x] :=
  ring_singleton.mpr ⟨Function.update_self .., Function.update_self ..⟩

theorem listAddBetween_ok (m : Memory P S K) (a x b : Link P S) :
    m.listAddBetween x (some a) (some b) =
      .ok { m with next := insertNext m.next a x b, prev := insertPrev m.prev a x b } :=
  rfl

theorem insert_writes
    {a b : Link P S} (ha : a ∈ l) (hb : b ∈ l) :
    WritesLinks (x :: l) m
      { m with next := insertNext m.next a x b, prev := insertPrev m.prev a x b } := by
  refine ⟨?_, ?_, rfl, rfl, rfl, rfl⟩
  · intro y hy
    have hyx : y ≠ x := List.ne_of_not_mem_cons hy
    have hya : y ≠ a := fun heq => hy (List.mem_cons_of_mem _ (heq ▸ ha))
    simp [insertNext, hyx, hya]
  · intro y hy
    have hyx : y ≠ x := List.ne_of_not_mem_cons hy
    have hyb : y ≠ b := fun heq => hy (List.mem_cons_of_mem _ (heq ▸ hb))
    simp [insertPrev, hyx, hyb]

/-- `__list_add` in front of the node of a ring, or of its sentinel. -/
theorem listAddBetween_spec
    (h : m.IsRing (s :: (front ++ back))) (hx : x ∉ s :: (front ++ back)) :
    ∃ m', m.listAddBetween x (m.prev (back.headD s)) (some (back.headD s)) = .ok m' ∧
      m'.IsRing (s :: (front ++ x :: back)) ∧
      WritesLinks (x :: s :: (front ++ back)) m m' := by
  obtain ⟨a, ha, hprev, hring⟩ := h.insert hx
  refine ⟨_, ?_, hring, insert_writes ha (headD_mem_ring s front back)⟩
  rw [hprev]
  exact listAddBetween_ok m a x _

theorem listAddTail_spec
    (h : m.IsRing (s :: l)) (hx : x ∉ s :: l) :
    ∃ m', m.listAddTail x s = .ok m' ∧
      m'.IsRing (s :: (l ++ [x])) ∧ WritesLinks (x :: s :: l) m m' := by
  have happend : l ++ [] = l := List.append_nil l
  rw [← happend] at h hx
  obtain ⟨m', hadd, hring, hwrites⟩ := listAddBetween_spec h hx
  rw [happend] at hwrites
  exact ⟨m', hadd, hring, hwrites⟩

theorem listAdd_spec
    (h : m.IsRing (s :: l)) (hx : x ∉ s :: l) :
    ∃ m', m.listAdd x s = .ok m' ∧
      m'.IsRing (s :: x :: l) ∧ WritesLinks (x :: s :: l) m m' := by
  refine ⟨_, ?_, h.insert_after hx,
    insert_writes List.mem_cons_self (headD_mem_ring s [] l)⟩
  rw [listAdd, h.next_head.1]
  exact listAddBetween_ok m s x _

/-- `list_del` of a node that is not the sentinel. -/
theorem listDel_spec
    (h : m.IsRing (s :: (front ++ x :: back))) :
    ∃ m', m.listDel x = .ok m' ∧
      m'.IsRing (s :: (front ++ back)) ∧ WritesLinks (s :: (front ++ back)) m m' := by
  obtain ⟨a, ha, b, hb, hprev, hnext, hring⟩ := h.delete
  refine ⟨{ m with
    next := Function.update m.next a (some b)
    prev := Function.update m.prev b (some a) }, ?_, hring, ?_⟩
  · rw [listDel, hprev, hnext]
    rfl
  · refine ⟨?_, ?_, rfl, rfl, rfl, rfl⟩
    · intro y hy
      have hya : y ≠ a := fun heq => hy (heq ▸ ha)
      exact Function.update_of_ne hya _ _
    · intro y hy
      have hyb : y ≠ b := fun heq => hy (heq ▸ hb)
      exact Function.update_of_ne hyb _ _

/-- `list_del` of the first node. -/
theorem listDel_first
    (h : m.IsRing (s :: x :: l)) :
    ∃ m', m.listDel x = .ok m' ∧ m'.IsRing (s :: l) ∧ WritesLinks (s :: l) m m' := by
  have h' : m.IsRing (s :: ([] ++ x :: l)) := h
  exact listDel_spec h'

theorem listEmpty_iff
    (h : m.IsRing (s :: l)) :
    m.listEmpty s = true ↔ l = [] := by
  rw [listEmpty, decide_eq_true_iff]
  exact h.next_eq_self_iff

theorem listNext_eq
    (h : m.IsRing (s :: l)) :
    m.listNext s = l.head? := by
  cases l with
  | nil =>
      rw [listNext, if_pos ((listEmpty_iff h).mpr rfl)]
      rfl
  | cons a l =>
      have hne : ¬ m.listEmpty s = true := fun hempty => by
        simpa using (listEmpty_iff h).mp hempty
      rw [listNext, if_neg hne, h.next_head.1]
      rfl

end Memory

end Bikaya
