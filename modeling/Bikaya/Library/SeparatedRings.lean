import Bikaya.Library.LinkRing

/-!
# Separated rings

Several rings that share one pair of links, each headed by a sentinel of its own.  A node
has one forward link, so the rings are disjoint; putting a fresh node into one of them,
taking a node out, and making a sentinel a ring of its own leave the other rings as they
are.

**Results.**
* `Rings.insert`, `Rings.delete`, `Rings.clear`: the three moves.
* `Rings.unique`: a node is in one ring at most.
* `Rings.congr`, `Rings.replace`: the rings depend on the links of their nodes only.
-/

namespace LinkRing

universe u v

variable {L : Type u} {ι : Type v}
variable {next prev next' prev' : L → Option L}
variable {a b x y s : L} {l rest front back : List L}

/-- A ring contains the node behind each of its nodes. -/
theorem Ring.closed
    (h : Ring next prev (l : Cycle L)) (hx : x ∈ l) (hnext : next x = some y) :
    y ∈ l := by
  obtain ⟨front, back, rfl⟩ := List.append_of_mem hx
  have hcycle : (↑(front ++ x :: back) : Cycle L) = ↑(x :: (back ++ front)) :=
    coe_append_comm front (x :: back)
  rw [hcycle] at h
  rw [h.next_head.1] at hnext
  obtain rfl : (back ++ front).headD x = y := Option.some.inj hnext
  cases back with
  | nil =>
      cases front <;> simp
  | cons b back =>
      simp

/-- A path that starts in a set closed under `next` stays there. -/
theorem path_mem
    {T : L → Prop} (hT : ∀ x y, T x → next x = some y → T y) :
    ∀ {l : List L} {x : L}, List.IsChain (fun a b => next a = some b) (x :: l) → T x →
      ∀ y ∈ l, T y := by
  intro l
  induction l with
  | nil =>
      intro x _ _ y hy
      exact absurd hy List.not_mem_nil
  | cons b l ih =>
      intro x hpath hx y hy
      obtain ⟨hxb, hpath⟩ := List.isChain_cons_cons.mp hpath
      have hb : T b := hT x b hx hxb
      rcases List.mem_cons.mp hy with rfl | hy
      · exact hb
      · exact ih hpath hb y hy

/-- Every node of a ring leads back to the head. -/
theorem Ring.head_mem_of_closed
    (h : Ring next prev ↑(s :: l)) (hx : x ∈ s :: l)
    {T : L → Prop} (hT : ∀ x y, T x → next x = some y → T y) (hTx : T x) :
    T s := by
  have hpath : List.IsChain (fun a b => next a = some b) ((s :: l) ++ [s]) := h.path
  obtain ⟨front, back, hsplit⟩ := List.append_of_mem hx
  rw [hsplit, List.append_assoc, List.cons_append] at hpath
  have hsuffix := (List.isChain_append.mp hpath).2.1
  exact path_mem hT hsuffix hTx s (by simp)

/--
The lists `c i` are linked to rings, with the sentinels `head i`.  No sentinel is a
member of another ring.
-/
structure Rings
    (next prev : L → Option L) (head : ι → L) (c : ι → List L) : Prop where
  ring : ∀ i, Ring next prev ↑(head i :: c i)
  injective : Function.Injective head
  sentinel : ∀ i j, head j ∉ c i

/-- A node that is neither a sentinel nor a member of a ring. -/
def Fresh (head : ι → L) (c : ι → List L) (x : L) : Prop :=
  ∀ i, x ∉ head i :: c i

namespace Rings

variable {head : ι → L} {c : ι → List L} {i j : ι}

section Facts

variable (h : Rings next prev head c)
include h

/-- The rings are disjoint. -/
theorem unique (hi : x ∈ head i :: c i) (hj : x ∈ head j :: c j) : i = j := by
  have hmem : head i ∈ head j :: c j :=
    (h.ring i).head_mem_of_closed hi
      (fun a b ha hab => (h.ring j).closed ha hab) hj
  rcases List.mem_cons.mp hmem with heq | hmem
  · exact h.injective heq
  · exact absurd hmem (h.sentinel j i)

theorem nodup (i : ι) : (head i :: c i).Nodup :=
  Cycle.nodup_coe_iff.mp (h.ring i).nodup

theorem list_nodup (i : ι) : (c i).Nodup :=
  (List.nodup_cons.mp (h.nodup i)).2

/-- A node in one ring is in no other one. -/
theorem notMem_of_ne (hx : x ∈ c i) (hij : j ≠ i) : x ∉ head j :: c j := by
  intro hmem
  exact hij (h.unique hmem (List.mem_cons_of_mem _ hx))

/-- A member of a ring is not a sentinel. -/
theorem ne_head (hx : x ∈ c i) (j : ι) : x ≠ head j := by
  rintro rfl
  exact h.sentinel i j hx

end Facts

/-- The links of the members and of the sentinels are all that counts. -/
theorem congr
    (h : Rings next prev head c)
    (hkept : ∀ j, ∀ y ∈ head j :: c j, next' y = next y ∧ prev' y = prev y) :
    Rings next' prev' head c where
  ring := fun j =>
    (h.ring j).congr (fun y hy => (hkept j y hy).1) (fun y hy => (hkept j y hy).2)
  injective := h.injective
  sentinel := h.sentinel

variable [DecidableEq ι]

/-- One ring is replaced; the links of the other ones have to be the old ones. -/
theorem replace
    (h : Rings next prev head c)
    (hring : Ring next' prev' ↑(head i :: l)) (hsentinel : ∀ j, head j ∉ l)
    (hkept : ∀ j, j ≠ i → ∀ y ∈ head j :: c j, next' y = next y ∧ prev' y = prev y) :
    Rings next' prev' head (Function.update c i l) where
  ring := by
    intro j
    by_cases hji : j = i
    · rw [hji, Function.update_self]
      exact hring
    · rw [Function.update_of_ne hji]
      exact (h.ring j).congr (fun y hy => (hkept j hji y hy).1) (fun y hy => (hkept j hji y hy).2)
  injective := h.injective
  sentinel := by
    intro j k
    by_cases hji : j = i
    · rw [hji, Function.update_self]
      exact hsentinel k
    · rw [Function.update_of_ne hji]
      exact h.sentinel j k

/-- A node that was taken out of its ring is fresh. -/
theorem fresh_of_delete
    (h : Rings next prev head c) (hi : c i = front ++ x :: back) :
    Fresh head (Function.update c i (front ++ back)) x := by
  have hx : x ∈ c i := by
    rw [hi]
    exact List.mem_append_right _ List.mem_cons_self
  have hnodup : x ∉ front ++ back := by
    have hperm : (front ++ x :: back).Perm (x :: (front ++ back)) := List.perm_middle
    exact (List.nodup_cons.mp (hperm.nodup_iff.mp (hi ▸ h.list_nodup i))).1
  intro j hmem
  by_cases hji : j = i
  · rw [hji, Function.update_self] at hmem
    rcases List.mem_cons.mp hmem with heq | hmem
    · exact h.ne_head hx i heq
    · exact hnodup hmem
  · rw [Function.update_of_ne hji] at hmem
    exact h.notMem_of_ne hx hji hmem

/--
A fresh node is put into one ring: the links that are written are its own and those of
the ring.
-/
theorem insert
    (h : Rings next prev head c) (hx : Fresh head c x) (hi : c i = front ++ back)
    (hring : Ring next' prev' ↑(head i :: (front ++ x :: back)))
    (hkept : ∀ y, y ∉ x :: head i :: c i → next' y = next y ∧ prev' y = prev y) :
    Rings next' prev' head (Function.update c i (front ++ x :: back)) := by
  refine h.replace hring ?_ ?_
  · intro j hmem
    have hcases : head j = x ∨ head j ∈ c i := by
      rw [hi]
      simp only [List.mem_append, List.mem_cons] at hmem ⊢
      tauto
    rcases hcases with heq | hmem
    · exact hx j (heq ▸ List.mem_cons_self)
    · exact h.sentinel i j hmem
  · intro j hji y hy
    refine hkept y ?_
    rw [List.mem_cons, not_or]
    exact ⟨fun heq => hx j (heq ▸ hy), fun hmem => hji (h.unique hy hmem)⟩

/-- A member of a ring is taken out: only links of the ring are written. -/
theorem delete
    (h : Rings next prev head c) (hi : c i = front ++ x :: back)
    (hring : Ring next' prev' ↑(head i :: (front ++ back)))
    (hkept : ∀ y, y ∉ head i :: c i → next' y = next y ∧ prev' y = prev y) :
    Rings next' prev' head (Function.update c i (front ++ back)) := by
  refine h.replace hring ?_ ?_
  · intro j hmem
    refine h.sentinel i j ?_
    rw [hi]
    simp only [List.mem_append, List.mem_cons] at hmem ⊢
    tauto
  · intro j hji y hy
    exact hkept y (fun hmem => hji (h.unique hy hmem))

/-- A sentinel is made a ring of its own: only its own links are written. -/
theorem clear
    (h : Rings next prev head c)
    (hself : next' (head i) = some (head i) ∧ prev' (head i) = some (head i))
    (hkept : ∀ y, y ≠ head i → next' y = next y ∧ prev' y = prev y) :
    Rings next' prev' head (Function.update c i []) := by
  refine h.replace (ring_singleton.mpr hself) (fun j => List.not_mem_nil) ?_
  intro j hji y hy
  refine hkept y ?_
  rintro rfl
  exact hji (h.unique hy List.mem_cons_self)

end Rings

end LinkRing
