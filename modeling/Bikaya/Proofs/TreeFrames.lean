import Bikaya.Proofs.Threads

/-!
# Bikaya: what the tree functions leave alone

`insertChild`, `removeChild` and `outChild` write links of the process tree and parents
only, so that the lists of processes and of descriptors stay as they are.

**Plan.**  The statements are about the functions on the links, whatever the tree is, also
where it is none.  `TreeOnly` composes, so that each proof follows the writes of its
function.

**Results.**
* `insertChild_treeOnly`, `removeChild_treeOnly`, `outChild_treeOnly`: the frames.
-/

namespace Bikaya

open LinkRing OrderedForest

namespace Memory

variable {P S K : Type} [DecidableEq P] [DecidableEq S]
variable {m m' : Memory P S K} {children : P → List P} {c p q : P} {rest : List P}

omit [DecidableEq S] in
theorem treeOnly_setParent (m : Memory P S K) (p : P) (value : Option P) :
    TreeOnly m (m.setParent p value) :=
  ⟨fun _ _ _ => ⟨rfl, rfl⟩, rfl, rfl, rfl⟩

theorem treeOnly_setNext_pChild (m : Memory P S K) (p : P) (value : Option (Link P S)) :
    TreeOnly m (m.setNext (.pChild p) value) :=
  ⟨fun _ hchild _ => ⟨Function.update_of_ne (hchild p) _ _, rfl⟩, rfl, rfl, rfl⟩

theorem treeOnly_setPrev_pChild (m : Memory P S K) (p : P) (value : Option (Link P S)) :
    TreeOnly m (m.setPrev (.pChild p) value) :=
  ⟨fun _ hchild _ => ⟨rfl, Function.update_of_ne (hchild p) _ _⟩, rfl, rfl, rfl⟩

theorem treeOnly_setNext_pSib (m : Memory P S K) (p : P) (value : Option (Link P S)) :
    TreeOnly m (m.setNext (.pSib p) value) :=
  ⟨fun _ _ hsib => ⟨Function.update_of_ne (hsib p) _ _, rfl⟩, rfl, rfl, rfl⟩

theorem treeOnly_initListHead_pSib (m : Memory P S K) (p : P) :
    TreeOnly m (m.initListHead (.pSib p)) :=
  ⟨fun _ _ hsib => ⟨Function.update_of_ne (hsib p) _ _, Function.update_of_ne (hsib p) _ _⟩,
    rfl, rfl, rfl⟩

section Frames

variable (h : m.IsForest children)
include h

theorem insertChild_treeOnly
    (hroot : ∀ a, p ∉ children a) (heq : m.insertChild (some q) (some p) = .ok m') :
    TreeOnly m m' := by
  have hparent := treeOnly_setParent m p (some q)
  cases hq : children q with
  | nil =>
      have hempty : (m.setParent p (some q)).emptyChild q = true := (emptyChild_iff h).mpr hq
      simp only [insertChild, hempty, if_true, Except.ok.injEq] at heq
      subst heq
      exact (((hparent.trans (treeOnly_setNext_pChild _ _ _)).trans
        (treeOnly_setPrev_pChild _ _ _)).trans (treeOnly_setNext_pSib _ _ _)).trans
          (treeOnly_initListHead_pSib _ _)
  | cons c rest =>
      have hempty : ¬ (m.setParent p (some q)).emptyChild q = true :=
        (not_emptyChild h hq : ¬ m.emptyChild q = true)
      have hnext : (m.setParent p (some q)).listNext (.pChild q) = some (.pChild c) :=
        (listNext_pChild h hq : m.listNext (.pChild q) = some (.pChild c))
      have hring : (m.setParent p (some q)).IsRing (.pSib c :: rest.map .pSib) := h.ring_cons hq
      have hfresh : (Link.pSib p : Link P S) ∉ Link.pSib c :: rest.map .pSib := by
        have := hroot q
        rw [hq] at this
        simpa using this
      obtain ⟨m₁, hadd, -, hwrites⟩ := listAddTail_spec hring hfresh
      have hsiblings : WritesLinks ((p :: c :: rest).map .pSib) (m.setParent p (some q)) m₁ :=
        hwrites
      simp only [insertChild, hempty, hnext, hadd, Link.containerPChild_some, ok_bind,
        pure_eq_ok] at heq
      obtain rfl : m₁.setNext (.pChild p) none = m' := Except.ok.inj heq
      exact (hparent.trans hsiblings.treeOnly).trans (treeOnly_setNext_pChild _ _ _)

theorem removeChild_treeOnly
    {r : Option P} (heq : m.removeChild q = .ok (r, m')) :
    TreeOnly m m' := by
  cases hq : children q with
  | nil =>
      rw [removeChild_nil h hq] at heq
      obtain rfl : m = m' := congrArg Prod.snd (Except.ok.inj heq)
      exact TreeOnly.refl m
  | cons c rest =>
      have hempty := not_emptyChild h hq
      have hring := h.ring_cons hq
      let m₁ := (m.setParent c none).setPrev (.pChild c) none
      have hframe₁ : TreeOnly m m₁ :=
        (treeOnly_setParent m c none).trans (treeOnly_setPrev_pChild _ _ _)
      cases rest with
      | nil =>
          have halone : m₁.listEmpty (.pSib c) = true := (listEmpty_iff hring).mpr rfl
          simp only [m₁] at halone
          simp only [removeChild, hempty, h.first_cons hq, Link.containerPChild_some, ok_bind,
            halone, pure_eq_ok] at heq
          obtain rfl : m₁.setNext (.pChild q) none = m' := congrArg Prod.snd (Except.ok.inj heq)
          exact hframe₁.trans (treeOnly_setNext_pChild _ _ _)
      | cons d rest =>
          let m₂ := (m₁.setNext (.pChild q) (some (.pChild d))).setPrev (.pChild d)
            (some (.pChild q))
          have halone : ¬ m₁.listEmpty (.pSib c) = true := fun he => by
            simpa using (listEmpty_iff hring).mp he
          have hnext : m₁.listNext (.pSib c) = some (.pSib d) := listNext_eq hring
          have hring₂ : m₂.IsRing (.pSib d :: (rest.map .pSib ++ .pSib c :: [])) :=
            ring_second h (fun x => by simp [m₂, m₁, setNext, setPrev, setParent])
              (fun x => by simp [m₂, m₁, setNext, setPrev, setParent]) hq
          obtain ⟨m₃, hdel, -, hwrites⟩ := listDel_spec hring₂
          rw [List.append_nil] at hwrites
          have hsiblings : WritesLinks ((d :: rest).map .pSib) m₂ m₃ := hwrites
          simp only [m₁] at halone hnext
          simp only [m₂, m₁] at hdel
          simp [removeChild, hempty, h.first_cons hq, halone, hnext, hdel] at heq
          obtain ⟨-, rfl⟩ := heq
          exact ((hframe₁.trans (treeOnly_setNext_pChild _ _ _)).trans
            (treeOnly_setPrev_pChild _ _ _)).trans hsiblings.treeOnly

theorem outChild_treeOnly
    (hp : p ∈ children q) {r : Option P} (heq : m.outChild p = .ok (r, m')) :
    TreeOnly m m' := by
  have hparent := h.parent q p hp
  obtain ⟨c, rest, hq⟩ := List.exists_cons_of_ne_nil (List.ne_nil_of_mem hp)
  have hempty := not_emptyChild h hq
  by_cases hc : c = p
  · subst hc
    have hremove : m.removeChild q = .ok (r, m') := by
      simpa [outChild, hparent, hempty, h.first_cons hq] using heq
    exact removeChild_treeOnly h hremove
  · have hrest : p ∈ rest := by
      rw [hq] at hp
      exact (List.mem_cons.mp hp).resolve_left (Ne.symm hc)
    obtain ⟨front, back, -, hsplit, -⟩ := List.exists_erase_eq hrest
    have hring := h.ring_cons hq
    rw [hsplit, List.map_append, List.map_cons] at hring
    obtain ⟨m₁, hdel, -, hwrites⟩ := listDel_spec hring
    rw [← List.map_append] at hwrites
    have hsiblings : WritesLinks ((c :: (front ++ back)).map .pSib) m m₁ := hwrites
    simp [outChild, hparent, hempty, h.first_cons hq, hc, hdel] at heq
    obtain ⟨-, rfl⟩ := heq
    exact hsiblings.treeOnly

end Frames

end Memory

end Bikaya
