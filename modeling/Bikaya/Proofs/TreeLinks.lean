import Bikaya.Library.OrderedForest
import Bikaya.Library.Runs
import Bikaya.Proofs.Links

/-!
# Bikaya: the links of the process tree

A process points to its first child by `p_child`; the children of a process form a ring by
`p_sib`, in which the first child stands for the sentinel.  Memory in which the links
represent an ordered forest is changed by the functions of `pcb.c` as the forest is by the
operations they stand for.

**Plan.**  The first child is reached by `p_child` and has no sentinel in its ring, so the
cases of the functions are: no child, the first child, the only one, and a later one.  Each
of them is an insertion into a ring or a removal from one, and the other families of
children have no link in common with it.

**Results.**
* `insertChild_spec`: a process without links is added as the last child.
* `removeChild_cons`: the first child is removed, with its parent link.
* `outChild_spec`: a child is removed, and a later one keeps its parent link.
* `childList_eq`: the walk along the siblings lists the children.
-/

namespace Bikaya

open LinkRing OrderedForest TransitionSystem

namespace Memory

variable {P S K : Type} {m m' : Memory P S K}
variable {children : P → List P} {a b c p q first : P} {l rest : List P} {fuel : ℕ}

/-- The tree links represent the forest. -/
structure IsForest (m : Memory P S K) (children : P → List P) : Prop where
  forest : Forest children
  first : ∀ a, m.next (.pChild a) = (children a).head?.map .pChild
  back : ∀ a, ∀ c ∈ (children a).head?, m.prev (.pChild c) = some (.pChild a)
  ring : ∀ a, children a ≠ [] → m.IsRing ((children a).map .pSib)
  parent : ∀ a, ∀ c ∈ children a, m.pParent c = some a

namespace IsForest

theorem ne_of_child (h : m.IsForest children) (hc : c ∈ children a) : c ≠ a := by
  rintro rfl
  exact h.forest.not_below_child hc (Below.refl c)

theorem first_cons (h : m.IsForest children) (hq : children q = c :: rest) :
    m.next (.pChild q) = some (.pChild c) := by
  rw [h.first q, hq]
  rfl

theorem ring_cons (h : m.IsForest children) (hq : children q = c :: rest) :
    m.IsRing (.pSib c :: rest.map .pSib) := by
  have hring := h.ring q (by simp [hq])
  rwa [hq] at hring

variable [DecidableEq P]

/--
The children of one process are replaced.  The links of the other families have to be
the old ones.
-/
theorem replace
    (h : m.IsForest children)
    (hforest : Forest (Function.update children q l))
    (hfirst : m'.next (.pChild q) = l.head?.map .pChild)
    (hback : ∀ c ∈ l.head?, m'.prev (.pChild c) = some (.pChild q))
    (hring : l ≠ [] → m'.IsRing (l.map .pSib))
    (hparent : ∀ c ∈ l, m'.pParent c = some q)
    (hother : ∀ a, a ≠ q → m'.next (.pChild a) = m.next (.pChild a))
    (hchild : ∀ a, a ≠ q → ∀ c ∈ children a,
      m'.prev (.pChild c) = m.prev (.pChild c) ∧ m'.next (.pSib c) = m.next (.pSib c) ∧
        m'.prev (.pSib c) = m.prev (.pSib c) ∧ m'.pParent c = m.pParent c) :
    m'.IsForest (Function.update children q l) := by
  refine ⟨hforest, ?_, ?_, ?_, ?_⟩
  · intro a
    by_cases ha : a = q
    · subst ha
      rw [Function.update_self, hfirst]
    · rw [Function.update_of_ne ha, hother a ha, h.first a]
  · intro a
    by_cases ha : a = q
    · subst ha
      rw [Function.update_self]
      exact hback
    · rw [Function.update_of_ne ha]
      intro c hc
      rw [(hchild a ha c (List.mem_of_mem_head? hc)).1]
      exact h.back a c hc
  · intro a
    by_cases ha : a = q
    · subst ha
      rw [Function.update_self]
      exact hring
    · rw [Function.update_of_ne ha]
      intro hne
      refine (h.ring a hne).congr ?_ ?_
      · intro x hx
        obtain ⟨c, hc, rfl⟩ := List.mem_map.mp hx
        exact (hchild a ha c hc).2.1
      · intro x hx
        obtain ⟨c, hc, rfl⟩ := List.mem_map.mp hx
        exact (hchild a ha c hc).2.2.1
  · intro a
    by_cases ha : a = q
    · subst ha
      rw [Function.update_self]
      exact hparent
    · rw [Function.update_of_ne ha]
      intro c hc
      rw [(hchild a ha c hc).2.2.2]
      exact h.parent a c hc

end IsForest

variable [DecidableEq P] [DecidableEq S]

section Reading

variable (h : m.IsForest children)
include h

omit [DecidableEq P] [DecidableEq S] in
theorem emptyChild_iff : m.emptyChild q = true ↔ children q = [] := by
  rw [emptyChild, decide_eq_true_iff, h.first q, Option.map_eq_none_iff, List.head?_eq_none_iff]

omit [DecidableEq P] [DecidableEq S] in
theorem not_emptyChild (hq : children q = c :: rest) : ¬ m.emptyChild q = true := by
  intro he
  have hnil : children q = [] := (emptyChild_iff h).mp he
  rw [hq] at hnil
  exact List.cons_ne_nil _ _ hnil

/-- The first child, as `list_next(&p->p_child)` yields it. -/
theorem listNext_pChild (hq : children q = c :: rest) :
    m.listNext (.pChild q) = some (.pChild c) := by
  have hne : c ≠ q := h.ne_of_child (by rw [hq]; exact List.mem_cons_self)
  simp [listNext, listEmpty, h.first_cons hq, hne]

end Reading

/-- The siblings from `target` on, read as the loops over the children do. -/
def siblingsFrom (m : Memory P S K) (first : P) : ℕ → P → Except Halt (List P)
  | 0, _ => .error .fuel
  | fuel + 1, target => do
      match ← m.nextSibling target first with
      | none => return [target]
      | some sibling =>
          let siblings ← m.siblingsFrom first fuel sibling
          return target :: siblings

/-- The children of a process: `p_child.next`, and then `nextSibling` until it is NULL. -/
def childList (fuel : ℕ) (m : Memory P S K) (q : P) : Except Halt (List P) :=
  if m.emptyChild q then .ok []
  else do
    let first ← Link.containerPChild (m.listNext (.pChild q))
    m.siblingsFrom first fuel first

/-- `nextSibling` walks along the ring. -/
theorem nextSibling_eq
    (hnext : m.next (.pSib c) = some ((rest.map .pSib).headD (.pSib first)))
    (hfirst : first ∉ rest) :
    m.nextSibling c first = .ok rest.head? := by
  cases rest with
  | nil =>
      simp [nextSibling, hnext]
  | cons d rest =>
      have hne : d ≠ first := fun heq => hfirst (heq ▸ List.mem_cons_self)
      simp [nextSibling, hnext, hne]

theorem siblingsFrom_eq
    (hpath : m.Follows (.pSib c :: (rest.map .pSib ++ [.pSib first])))
    (hfirst : first ∉ rest) (hfuel : rest.length < fuel) :
    m.siblingsFrom first fuel c = .ok (c :: rest) := by
  induction rest generalizing c fuel with
  | nil =>
      obtain ⟨fuel, rfl⟩ := Nat.exists_eq_succ_of_ne_zero (Nat.ne_of_gt hfuel)
      have hsibling : m.nextSibling c first = .ok none := nextSibling_eq hpath.next.1 hfirst
      rw [siblingsFrom, hsibling]
      rfl
  | cons d rest ih =>
      obtain ⟨fuel, rfl⟩ := Nat.exists_eq_succ_of_ne_zero (Nat.ne_zero_of_lt hfuel)
      obtain ⟨hnext, hpath⟩ := hpath.next
      have hrest := ih hpath (fun hmem => hfirst (List.mem_cons_of_mem _ hmem))
        (Nat.lt_of_succ_lt_succ hfuel)
      have hsibling : m.nextSibling c first = .ok (some d) := nextSibling_eq hnext hfirst
      rw [siblingsFrom, hsibling]
      simp [hrest]

/-- Reading the children of a process of the forest yields them in order. -/
theorem IsForest.childList_eq
    (h : m.IsForest children) (hfuel : (children q).length ≤ fuel) :
    m.childList fuel q = .ok (children q) := by
  have hempty := emptyChild_iff h (q := q)
  cases hq : children q with
  | nil =>
      rw [childList, if_pos (hempty.mpr hq)]
  | cons c rest =>
      have hne : ¬ m.emptyChild q = true := fun he => by simp [hempty.mp he] at hq
      have hring := h.ring_cons hq
      have hnodup : (c :: rest).Nodup := hq ▸ h.forest.nodup q
      rw [hq] at hfuel
      rw [childList, if_neg hne, listNext_pChild h hq, Link.containerPChild_some, ok_bind]
      exact siblingsFrom_eq (follows_of_isRing hring) (List.nodup_cons.mp hnodup).1 hfuel

section Operations

variable (h : m.IsForest children)
include h

/-- `insertChild` of the root of a tree below a process without children. -/
theorem insertChild_first
    (hroot : ∀ a, p ∉ children a) (hout : ¬ Below children q p) (hq : children q = []) :
    ∃ m', m.insertChild (some q) (some p) = .ok m' ∧
      m'.IsForest (addLeaf children q p) ∧
      m'.pParent = Function.update m.pParent p (some q) := by
  have hqp : q ≠ p := fun heq => hout (heq ▸ Below.refl q)
  have hempty : (m.setParent p (some q)).emptyChild q = true := (emptyChild_iff h).mpr hq
  let m₁ := (m.setParent p (some q)).setNext (.pChild q) (some (.pChild p))
  let m₂ := (m₁.setPrev (.pChild p) (some (.pChild q))).setNext (.pSib p) none
  refine ⟨m₂.initListHead (.pSib p), by simp [insertChild, hempty, m₂, m₁], ?_, rfl⟩
  have hforest := h.forest.graft hroot hout
  rw [addLeaf, hq, List.nil_append] at hforest ⊢
  refine h.replace hforest ?_ ?_ ?_ ?_ ?_ ?_
  · simp [m₂, m₁, initListHead, setNext, setPrev]
  · simp [m₂, m₁, initListHead, setNext, setPrev]
  · exact fun _ => initListHead_isRing _ _
  · simp [m₂, m₁, initListHead, setNext, setPrev, setParent]
  · intro a ha
    simp [m₂, m₁, initListHead, setNext, setPrev, setParent, ha]
  · intro a ha c hc
    have hcp : c ≠ p := fun heq => hroot a (heq ▸ hc)
    simp [m₂, m₁, initListHead, setNext, setPrev, setParent, hcp]

/-- `insertChild` behind the children of another process: the inserted one loses its own. -/
theorem insertChild_last
    (hroot : ∀ a, p ∉ children a) (hout : ¬ Below children q p) (hq : children q = c :: rest) :
    ∃ m' : Memory P S K, m.insertChild (some q) (some p) = .ok (m'.setNext (.pChild p) none) ∧
      m'.IsForest (addLeaf children q p) ∧
      m'.pParent = Function.update m.pParent p (some q) := by
  have hempty : ¬ (m.setParent p (some q)).emptyChild q = true :=
    (not_emptyChild h hq : ¬ m.emptyChild q = true)
  have hnext : (m.setParent p (some q)).listNext (.pChild q) = some (.pChild c) :=
    (listNext_pChild h hq : m.listNext (.pChild q) = some (.pChild c))
  have hring : (m.setParent p (some q)).IsRing (.pSib c :: rest.map .pSib) := h.ring_cons hq
  have hmem : ∀ x, (Link.pSib x : Link P S) ∈ Link.pSib c :: rest.map .pSib ↔
      x ∈ children q := by
    intro x
    rw [hq]
    simp
  have hfresh : (Link.pSib p : Link P S) ∉ Link.pSib c :: rest.map .pSib := by
    rw [hmem]
    exact hroot q
  obtain ⟨m', hadd, hring', hwrites⟩ := listAddTail_spec hring hfresh
  have hnextChild : ∀ x, m'.next (.pChild x) = m.next (.pChild x) :=
    fun x => hwrites.next _ (by simp)
  have hprevChild : ∀ x, m'.prev (.pChild x) = m.prev (.pChild x) :=
    fun x => hwrites.prev _ (by simp)
  refine ⟨m', ?_, h.replace (h.forest.graft hroot hout) ?_ ?_ ?_ ?_ ?_ ?_, hwrites.pParent⟩
  · simp only [insertChild, hempty, hnext, hadd, Link.containerPChild_some, ok_bind, pure_eq_ok]
    rfl
  · rw [hnextChild, h.first_cons hq, hq]
    rfl
  · intro d hd
    rw [hq] at hd
    obtain rfl : c = d := Option.some.inj hd
    rw [hprevChild]
    exact h.back q c (by rw [hq]; rfl)
  · intro _
    rw [hq, List.cons_append, List.map_cons, List.map_append]
    exact hring'
  · intro d hd
    rw [hwrites.pParent]
    rcases List.mem_append.mp hd with hd | hd
    · have hdp : d ≠ p := fun heq => hroot q (heq ▸ hd)
      exact (Function.update_of_ne hdp _ _).trans (h.parent q d hd)
    · rw [List.mem_singleton.mp hd]
      exact Function.update_self ..
  · exact fun a _ => hnextChild a
  · intro a ha d hd
    have hdp : d ≠ p := fun heq => hroot a (heq ▸ hd)
    have hdq : (Link.pSib d : Link P S) ∉ Link.pSib p :: Link.pSib c :: rest.map .pSib := by
      intro hin
      rcases List.mem_cons.mp hin with heq | hin
      · exact hdp (Link.pSib.inj heq)
      · exact ha (h.forest.unique d a q hd ((hmem d).mp hin))
    refine ⟨hprevChild d, hwrites.next _ hdq, hwrites.prev _ hdq, ?_⟩
    rw [hwrites.pParent]
    exact Function.update_of_ne hdp _ _

/-- Clearing `p_child.next` cuts off the children of a process. -/
theorem isForest_clear :
    (m.setNext (.pChild p) none).IsForest (Function.update children p []) := by
  refine h.replace (h.forest.shrink (List.nil_sublist _)) (Function.update_self ..) (by simp)
    (by simp) (by simp) ?_ ?_
  · intro a ha
    simp [setNext, ha]
  · intro a _ d _
    simp [setNext]

/-- `insertChild` appends, when the tree or the process it is put below has no children. -/
theorem insertChild_spec
    (hroot : ∀ a, p ∉ children a) (hout : ¬ Below children q p)
    (hkeep : children q = [] ∨ children p = []) :
    ∃ m', m.insertChild (some q) (some p) = .ok m' ∧
      m'.IsForest (addLeaf children q p) ∧
      m'.pParent = Function.update m.pParent p (some q) := by
  cases hq : children q with
  | nil =>
      exact insertChild_first h hroot hout hq
  | cons c rest =>
      have hpq : p ≠ q := fun heq => hout (heq ▸ Below.refl p)
      have hp : children p = [] := hkeep.resolve_left (by simp [hq])
      obtain ⟨m', heq, hforest, hparent⟩ := insertChild_last h hroot hout hq
      have hsame : Function.update (addLeaf children q p) p [] = addLeaf children q p := by
        have hleaf : addLeaf children q p p = [] := (Function.update_of_ne hpq _ _).trans hp
        rw [← hleaf]
        exact Function.update_eq_self p _
      refine ⟨_, heq, ?_, hparent⟩
      rw [← hsame]
      exact isForest_clear hforest

theorem removeChild_nil (hq : children q = []) :
    m.removeChild q = .ok (none, m) := by
  rw [removeChild, if_pos ((emptyChild_iff h).mpr hq)]

omit [DecidableEq P] [DecidableEq S] in
/-- The children of another process are other processes. -/
theorem child_ne_of_ne (hc : c ∈ children q) (ha : a ≠ q) {d : P} (hd : d ∈ children a) :
    d ≠ c := by
  rintro rfl
  exact ha (h.forest.unique d a q hd hc)

/-- `removeChild` of an only child. -/
theorem removeChild_only (hq : children q = [c]) :
    ∃ m', m.removeChild q = .ok (some c, m') ∧
      m'.IsForest (Function.update children q []) ∧
      m'.pParent = Function.update m.pParent c none := by
  have hc : c ∈ children q := by
    rw [hq]
    exact List.mem_cons_self
  have hempty := not_emptyChild h hq
  have hring := h.ring_cons hq
  -- the memory after the links of the child are cleared
  let m₁ := (m.setParent c none).setPrev (.pChild c) none
  have halone : m₁.listEmpty (.pSib c) = true := (listEmpty_iff hring).mpr rfl
  refine ⟨m₁.setNext (.pChild q) none, ?_, ?_, rfl⟩
  · simp only [removeChild, hempty, h.first_cons hq, Link.containerPChild_some, ok_bind]
    simp only [m₁] at halone
    simp [halone, m₁]
  · refine h.replace (h.forest.shrink (List.nil_sublist _)) ?_ (by simp) (by simp) (by simp) ?_ ?_
    · exact Function.update_self ..
    · intro a ha
      simp [m₁, setNext, setPrev, setParent, ha]
    · intro a ha d hd
      simp [m₁, setNext, setPrev, setParent, child_ne_of_ne h hc ha hd]

omit [DecidableEq P] [DecidableEq S] in
/-- The ring of the children, seen from the second one, when `p_child` has been moved to it. -/
theorem ring_second {d : P} {m₂ : Memory P S K}
    (hnext : ∀ x, m₂.next (.pSib x) = m.next (.pSib x))
    (hprev : ∀ x, m₂.prev (.pSib x) = m.prev (.pSib x)) (hq : children q = c :: d :: rest) :
    m₂.IsRing (.pSib d :: (rest.map .pSib ++ .pSib c :: [])) := by
  have hsame : m₂.IsRing (.pSib c :: (d :: rest).map .pSib) := by
    have hmem : ∀ x ∈ Link.pSib c :: (d :: rest).map (Link.pSib (S := S)), ∃ e, x = .pSib e := by
      intro x hx
      rcases List.mem_cons.mp hx with rfl | hx
      · exact ⟨c, rfl⟩
      · obtain ⟨e, -, rfl⟩ := List.mem_map.mp hx
        exact ⟨e, rfl⟩
    refine (h.ring_cons hq).congr (fun x hx => ?_) (fun x hx => ?_)
    · obtain ⟨e, rfl⟩ := hmem x hx
      exact hnext e
    · obtain ⟨e, rfl⟩ := hmem x hx
      exact hprev e
  have hcycle := coe_append_comm (Link.pSib d :: rest.map Link.pSib) [(Link.pSib c : Link P S)]
  rw [List.cons_append] at hcycle
  rw [IsRing, hcycle]
  exact hsame

/-- `removeChild` of a child with siblings: the next one takes over its place. -/
theorem removeChild_first {d : P} (hq : children q = c :: d :: rest) :
    ∃ m', m.removeChild q = .ok (some c, m') ∧
      m'.IsForest (Function.update children q (d :: rest)) ∧
      m'.pParent = Function.update m.pParent c none := by
  have hc : c ∈ children q := by
    rw [hq]
    exact List.mem_cons_self
  have hempty := not_emptyChild h hq
  have hring := h.ring_cons hq
  have hnodup : c ∉ d :: rest ∧ (d :: rest).Nodup := List.nodup_cons.mp (hq ▸ h.forest.nodup q)
  -- the memory after the links of the first child are cleared, and then with the second one first
  let m₁ := (m.setParent c none).setPrev (.pChild c) none
  let m₂ := (m₁.setNext (.pChild q) (some (.pChild d))).setPrev (.pChild d) (some (.pChild q))
  have halone : ¬ m₁.listEmpty (.pSib c) = true := fun he => by
    simpa using (listEmpty_iff hring).mp he
  have hnext : m₁.listNext (.pSib c) = some (.pSib d) := listNext_eq hring
  have hring₂ : m₂.IsRing (.pSib d :: (rest.map .pSib ++ .pSib c :: [])) :=
    ring_second h (fun x => by simp [m₂, m₁, setNext, setPrev, setParent])
      (fun x => by simp [m₂, m₁, setNext, setPrev, setParent]) hq
  obtain ⟨m', hdel, hring', hwrites⟩ := listDel_spec hring₂
  rw [List.append_nil] at hring' hwrites
  have hnextChild : ∀ x, m'.next (.pChild x) = m₂.next (.pChild x) :=
    fun x => hwrites.next _ (by simp)
  have hprevChild : ∀ x, m'.prev (.pChild x) = m₂.prev (.pChild x) :=
    fun x => hwrites.prev _ (by simp)
  have hsub : (d :: rest).Sublist (children q) := by
    rw [hq]
    exact List.sublist_cons_self c _
  refine ⟨m', ?_, ?_, hwrites.pParent⟩
  · simp only [removeChild, hempty, h.first_cons hq, Link.containerPChild_some, ok_bind]
    simp only [m₁] at halone hnext
    simp only [m₂, m₁] at hdel
    simp [halone, hnext, hdel]
  · refine h.replace (h.forest.shrink hsub) ?_ ?_ (fun _ => hring') ?_ ?_ ?_
    · rw [hnextChild]
      exact Function.update_self ..
    · intro e he
      obtain rfl : d = e := Option.some.inj he
      rw [hprevChild]
      exact Function.update_self ..
    · intro e he
      have hec : e ≠ c := fun heq => hnodup.1 (heq ▸ he)
      rw [hwrites.pParent]
      exact (Function.update_of_ne hec _ _).trans (h.parent q e (hsub.subset he))
    · intro a ha
      rw [hnextChild]
      simp [m₂, m₁, setNext, setPrev, setParent, ha]
    · intro a ha e he
      have hec : e ≠ c := child_ne_of_ne h hc ha he
      have her : e ∉ d :: rest := fun hmem => child_ne_of_ne h (hsub.subset hmem) ha he rfl
      have hed : e ≠ d := fun heq => her (heq ▸ List.mem_cons_self)
      have hlink : (Link.pSib e : Link P S) ∉ Link.pSib d :: rest.map .pSib := by
        simpa using her
      refine ⟨?_, ?_, ?_, ?_⟩
      · rw [hprevChild]
        simp [m₂, m₁, setNext, setPrev, setParent, hec, hed]
      · rw [hwrites.next _ hlink]
        simp [m₂, m₁, setNext, setPrev, setParent]
      · rw [hwrites.prev _ hlink]
        simp [m₂, m₁, setNext, setPrev, setParent]
      · rw [hwrites.pParent]
        exact Function.update_of_ne hec _ _

/-- `removeChild` detaches the first child. -/
theorem removeChild_cons (hq : children q = c :: rest) :
    ∃ m', m.removeChild q = .ok (some c, m') ∧
      m'.IsForest (Function.update children q rest) ∧
      m'.pParent = Function.update m.pParent c none := by
  cases rest with
  | nil =>
      exact removeChild_only h hq
  | cons d rest =>
      exact removeChild_first h hq

omit h in
theorem outChild_none (hp : m.pParent p = none) :
    m.outChild p = .ok (none, m) := by
  simp only [outChild, hp]

/-- `outChild` detaches a process from its parent, which a first child alone forgets. -/
theorem outChild_spec (hp : p ∈ children q) :
    ∃ m', m.outChild p = .ok (some p, m') ∧
      m'.IsForest (Function.update children q ((children q).erase p)) ∧
      m'.pParent =
        if (children q).head? = some p then Function.update m.pParent p none
        else m.pParent := by
  have hparent := h.parent q p hp
  obtain ⟨c, rest, hq⟩ := List.exists_cons_of_ne_nil (List.ne_nil_of_mem hp)
  have hempty : ¬ m.emptyChild q = true := by
    intro he
    have hnil : children q = [] := (emptyChild_iff h).mp he
    rw [hq] at hnil
    exact List.cons_ne_nil _ _ hnil
  by_cases hc : c = p
  · subst hc
    obtain ⟨m', hremove, hforest, hparent'⟩ := removeChild_cons h hq
    refine ⟨m', ?_, ?_, ?_⟩
    · simp [outChild, hparent, hempty, h.first_cons hq, hremove]
    · rw [hq, List.erase_cons_head]
      exact hforest
    · rw [hq, List.head?_cons, if_pos rfl]
      exact hparent'
  · have hrest : p ∈ rest := by
      rw [hq] at hp
      exact (List.mem_cons.mp hp).resolve_left (Ne.symm hc)
    obtain ⟨front, back, hfront, hsplit, herase⟩ := List.exists_erase_eq hrest
    have heraseAll : (children q).erase p = c :: (front ++ back) := by
      rw [hq, List.erase_cons_tail (by simpa using hc), herase]
    have hring := h.ring_cons hq
    rw [hsplit, List.map_append, List.map_cons] at hring
    obtain ⟨m', hdel, hring', hwrites⟩ := listDel_spec hring
    have hkept : ∀ e, e ∈ (children q).erase p → e ∈ children q :=
      fun e he => List.mem_of_mem_erase he
    have hlinks : ∀ e, e ∉ children q →
        (Link.pSib e : Link P S) ∉ Link.pSib c :: (front.map .pSib ++ back.map .pSib) := by
      intro e he hmem
      refine he (hkept e ?_)
      rw [heraseAll]
      simpa using hmem
    refine ⟨m', ?_, ?_, ?_⟩
    · simp [outChild, hparent, hempty, h.first_cons hq, hc, hdel]
    · refine h.replace (h.forest.shrink List.erase_sublist) ?_ ?_ ?_ ?_ ?_ ?_
      · rw [hwrites.next _ (by simp), h.first_cons hq, heraseAll]
        rfl
      · intro d hd
        rw [heraseAll] at hd
        rw [hwrites.prev _ (by simp)]
        refine h.back q d ?_
        rw [hq]
        exact hd
      · intro _
        rw [heraseAll, List.map_cons, List.map_append]
        exact hring'
      · intro d hd
        rw [hwrites.pParent]
        exact h.parent q d (hkept d hd)
      · exact fun a _ => hwrites.next _ (by simp)
      · intro a ha d hd
        have hdq : d ∉ children q := fun hmem => ha (h.forest.unique d a q hd hmem)
        exact ⟨hwrites.prev _ (by simp), hwrites.next _ (hlinks d hdq),
          hwrites.prev _ (hlinks d hdq), congrFun hwrites.pParent d⟩
    · have hne : ¬ (children q).head? = some p := by
        rw [hq]
        simpa using hc
      rw [if_neg hne]
      exact hwrites.pParent

end Operations

end Memory

end Bikaya
