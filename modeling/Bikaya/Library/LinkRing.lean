import Mathlib.Data.List.Cycle

/-!
# Rings of doubly linked nodes

Every node has a forward and a backward link, either of which may be null.  A ring is a
cycle of distinct nodes whose links agree in both directions.  The module gives the rules
for putting a node next to another one, for unlinking a node, and for walking along a ring;
none of them depends on which node of the ring is taken as its head.

**Results.**
* `Ring.insert`, `Ring.delete`: a node enters a ring, and leaves it.
* `Ring.path`: the walk from the head back to it.
* `Ring.congr`: a ring depends on the links of its nodes only.
-/

namespace LinkRing

universe u

variable {L : Type u}

/-- `b` follows `a`, and `a` precedes `b`. -/
def Linked (next prev : L → Option L) (a b : L) : Prop :=
  next a = some b ∧ prev b = some a

/-- The nodes of the cycle are distinct and linked one after the other. -/
structure Ring (next prev : L → Option L) (c : Cycle L) : Prop where
  nodup : c.Nodup
  linked : c.Chain (Linked next prev)

/-- The same ring, seen from another of its nodes. -/
theorem coe_append_comm (l l' : List L) :
    (↑(l ++ l') : Cycle L) = ↑(l' ++ l) :=
  Cycle.coe_eq_coe.mpr List.isRotated_append

variable {next prev next' prev' : L → Option L}
variable {a b x s : L} {l rest : List L}

/-- A ring depends on the links of its nodes only. -/
theorem Ring.congr
    (h : Ring next prev (l : Cycle L))
    (hnext : ∀ y ∈ l, next' y = next y) (hprev : ∀ y ∈ l, prev' y = prev y) :
    Ring next' prev' (l : Cycle L) := by
  refine ⟨h.nodup, ?_⟩
  cases l with
  | nil =>
      exact Cycle.Chain.nil _
  | cons y l =>
      have hmem : ∀ z, z ∈ y :: (l ++ [y]) → z ∈ y :: l := by
        intro z hz
        simpa [or_comm, or_assoc] using hz
      refine (Cycle.chain_coe_cons _ y l).mpr ?_
      refine List.IsChain.imp_of_mem_imp ?_ ((Cycle.chain_coe_cons _ y l).mp h.linked)
      rintro u v hu hv ⟨huv, hvu⟩
      exact ⟨(hnext u (hmem u hu)).trans huv, (hprev v (hmem v hv)).trans hvu⟩

/-- A node alone is linked to itself. -/
theorem ring_singleton :
    Ring next prev ↑[a] ↔ next a = some a ∧ prev a = some a := by
  constructor
  · intro h
    exact (Cycle.chain_singleton _ a).mp h.linked
  · intro h
    exact ⟨by simp, (Cycle.chain_singleton _ a).mpr h⟩

/-- The node behind the head, which is the head again when it is alone. -/
theorem Ring.next_head
    (h : Ring next prev ↑(a :: rest)) :
    Linked next prev a (rest.headD a) := by
  have hchain := (Cycle.chain_coe_cons _ a rest).mp h.linked
  cases rest with
  | nil =>
      exact (List.isChain_cons_cons.mp hchain).1
  | cons b rest =>
      exact (List.isChain_cons_cons.mp hchain).1

/-- The node in front of the head. -/
theorem Ring.prev_head
    (h : Ring next prev ↑(b :: rest)) :
    Linked next prev (rest.getLastD b) b := by
  rcases List.eq_nil_or_concat rest with rfl | ⟨front, a, rfl⟩
  · exact h.next_head
  · have hcycle : (↑(b :: (front ++ [a])) : Cycle L) = ↑(a :: b :: front) := by
      have := coe_append_comm (b :: front) [a]
      simpa using this
    rw [List.concat_eq_append] at h ⊢
    rw [hcycle] at h
    have hlinked := h.next_head
    simpa using hlinked

/-- Only the head of a ring of one node follows itself. -/
theorem Ring.next_eq_self_iff
    (h : Ring next prev ↑(a :: rest)) :
    next a = some a ↔ rest = [] := by
  rw [h.next_head.1]
  cases rest with
  | nil =>
      simp
  | cons b rest =>
      have hne : b ≠ a := by
        rintro rfl
        exact (List.nodup_cons.mp (Cycle.nodup_coe_iff.mp h.nodup)).1 List.mem_cons_self
      simp [hne]

/-- Walking along the ring, from the head back to the head. -/
theorem Ring.path
    (h : Ring next prev ↑(s :: l)) :
    List.IsChain (fun a b => next a = some b) (s :: (l ++ [s])) :=
  ((Cycle.chain_coe_cons _ s l).mp h.linked).imp (fun _ _ hab => hab.1)

section Updates

variable [DecidableEq L]

/-- The forward links after `x` was put between `a` and `b`. -/
def insertNext (next : L → Option L) (a x b : L) : L → Option L :=
  Function.update (Function.update next x (some b)) a (some x)

/-- The backward links after `x` was put between `a` and `b`. -/
def insertPrev (prev : L → Option L) (a x b : L) : L → Option L :=
  Function.update (Function.update prev b (some x)) x (some a)

/-- A new node is put behind the head. -/
theorem Ring.insert_after
    (h : Ring next prev ↑(a :: rest)) (hx : x ∉ a :: rest) :
    Ring (insertNext next a x (rest.headD a)) (insertPrev prev a x (rest.headD a))
      ↑(a :: x :: rest) := by
  have hnd : (a :: rest).Nodup := Cycle.nodup_coe_iff.mp h.nodup
  have hxa : x ≠ a := fun heq => hx (heq ▸ List.mem_cons_self)
  obtain ⟨tail, htail⟩ : ∃ tail, rest ++ [a] = rest.headD a :: tail := by
    cases rest <;> simp
  have hchain := (Cycle.chain_coe_cons _ a rest).mp h.linked
  rw [htail] at hchain
  have hfollow : next a = some (rest.headD a) := h.next_head.1
  generalize rest.headD a = b at htail hchain hfollow ⊢
  have hndTail : (b :: tail).Nodup := by
    rw [← htail]
    exact (List.perm_append_singleton a rest).nodup_iff.mpr hnd
  have hxTail : x ∉ b :: tail := by
    rw [← htail]
    simpa [and_comm] using hx
  have hbTail : b ∉ tail := (List.nodup_cons.mp hndTail).1
  have hbx : b ≠ x := fun heq => hxTail (heq ▸ List.mem_cons_self)
  refine ⟨?_, ?_⟩
  · refine Cycle.nodup_coe_iff.mpr ?_
    exact (List.Perm.swap x a rest).nodup_iff.mpr (List.nodup_cons.mpr ⟨hx, hnd⟩)
  · refine (Cycle.chain_coe_cons _ a (x :: rest)).mpr ?_
    rw [List.cons_append, htail]
    refine List.isChain_cons_cons.mpr ⟨⟨?_, ?_⟩, List.isChain_cons_cons.mpr ⟨⟨?_, ?_⟩, ?_⟩⟩
    · exact Function.update_self ..
    · exact Function.update_self ..
    · rw [insertNext, Function.update_of_ne hxa, Function.update_self]
    · rw [insertPrev, Function.update_of_ne hbx, Function.update_self]
    · -- the other links are the old ones
      refine List.IsChain.imp_of_mem_tail_imp ?_ (List.isChain_cons_cons.mp hchain).2
      rintro u v hu hv ⟨huv, hvu⟩
      have hvb : v ≠ b := fun heq => hbTail (heq ▸ hv)
      have hva : u ≠ a := by
        rintro rfl
        exact hvb (Option.some.inj (huv.symm.trans hfollow))
      have hux : u ≠ x := fun heq => hxTail (heq ▸ hu)
      have hvx : v ≠ x := fun heq => hxTail (heq ▸ List.mem_cons_of_mem _ hv)
      constructor
      · rw [insertNext, Function.update_of_ne hva, Function.update_of_ne hux, huv]
      · rw [insertPrev, Function.update_of_ne hvx, Function.update_of_ne hvb, hvu]

/-- A new node is put in front of the head. -/
theorem Ring.insert_before
    (h : Ring next prev ↑(b :: rest)) (hx : x ∉ b :: rest) :
    Ring (insertNext next (rest.getLastD b) x b) (insertPrev prev (rest.getLastD b) x b)
      ↑(x :: b :: rest) := by
  rcases List.eq_nil_or_concat rest with rfl | ⟨front, a, rfl⟩
  · have hcycle : (↑[x, b] : Cycle L) = ↑[b, x] := coe_append_comm [x] [b]
    rw [hcycle]
    exact h.insert_after hx
  · rw [List.concat_eq_append] at h hx ⊢
    have hold : (↑(b :: (front ++ [a])) : Cycle L) = ↑(a :: b :: front) := by
      have := coe_append_comm (b :: front) [a]
      simpa using this
    have hnew : (↑(x :: b :: (front ++ [a])) : Cycle L) = ↑(a :: x :: b :: front) := by
      have := coe_append_comm (x :: b :: front) [a]
      simpa using this
    rw [hold] at h
    rw [hnew]
    have hxa : x ∉ a :: b :: front := by
      simp only [List.mem_cons, List.mem_append, not_or] at hx ⊢
      tauto
    have := h.insert_after hxa
    simpa using this

/-- The head is unlinked from a ring that has other nodes. -/
theorem Ring.unlink
    (h : Ring next prev ↑(x :: rest)) (hne : rest ≠ []) :
    Ring (Function.update next (rest.getLastD x) (some (rest.headD x)))
      (Function.update prev (rest.headD x) (some (rest.getLastD x))) ↑rest := by
  have hnd := List.nodup_cons.mp (Cycle.nodup_coe_iff.mp h.nodup)
  have hchain := (Cycle.chain_coe_cons _ x rest).mp h.linked
  have hfollow : Linked next prev x (rest.headD x) := h.next_head
  have hprecede : Linked next prev (rest.getLastD x) x := h.prev_head
  refine ⟨Cycle.nodup_coe_iff.mpr hnd.2, ?_⟩
  obtain ⟨front, a, hlast⟩ := (List.eq_nil_or_concat rest).resolve_left hne
  obtain ⟨b, back, hfirst⟩ := List.exists_cons_of_ne_nil hne
  rw [List.concat_eq_append] at hlast
  have ha : rest.getLastD x = a := by
    rw [hlast]
    simp
  have hb : rest.headD x = b := by
    rw [hfirst]
    rfl
  rw [ha] at hprecede
  rw [hb] at hfollow
  rw [ha, hb]
  have hkeep : List.IsChain
      (Linked (Function.update next a (some b)) (Function.update prev b (some a))) rest := by
    have hinner : List.IsChain (Linked next prev) rest := by
      have hrest : List.IsChain (Linked next prev) (x :: rest) :=
        (List.isChain_append.mp (show List.IsChain _ ((x :: rest) ++ [x]) from hchain)).1
      rw [hfirst] at hrest ⊢
      exact (List.isChain_cons_cons.mp hrest).2
    refine List.IsChain.imp_of_mem_imp ?_ hinner
    rintro u v hu hv ⟨huv, hvu⟩
    have hua : u ≠ a := by
      rintro rfl
      have hvx : v = x := Option.some.inj (huv.symm.trans hprecede.1)
      exact hnd.1 (hvx ▸ hv)
    have hvb : v ≠ b := by
      rintro rfl
      have hux : u = x := Option.some.inj (hvu.symm.trans hfollow.2)
      exact hnd.1 (hux ▸ hu)
    constructor
    · rw [Function.update_of_ne hua, huv]
    · rw [Function.update_of_ne hvb, hvu]
  rw [hfirst]
  refine (Cycle.chain_coe_cons _ b back).mpr ?_
  have hclose : b :: (back ++ [b]) = front ++ a :: b :: [] := by
    rw [← List.cons_append, ← hfirst, hlast]
    simp
  rw [hclose]
  refine List.isChain_append_cons_cons.mpr ⟨hlast ▸ hkeep, ⟨?_, ?_⟩, List.isChain_singleton b⟩
  · exact Function.update_self ..
  · exact Function.update_self ..

section Positions

variable {front back : List L}

/--
A new node is put anywhere into the ring with head `s`: in front of the first node of
`back`, or of the head.
-/
theorem Ring.insert
    (h : Ring next prev ↑(s :: (front ++ back))) (hx : x ∉ s :: (front ++ back)) :
    ∃ a ∈ s :: (front ++ back),
      prev (back.headD s) = some a ∧
      Ring (insertNext next a x (back.headD s)) (insertPrev prev a x (back.headD s))
        ↑(s :: (front ++ x :: back)) := by
  cases back with
  | nil =>
      rw [List.append_nil] at h hx ⊢
      have hnew : (↑(s :: (front ++ [x])) : Cycle L) = ↑(x :: s :: front) :=
        coe_append_comm (s :: front) [x]
      refine ⟨front.getLastD s, List.getLastD_mem_cons .., h.prev_head.2, ?_⟩
      rw [hnew]
      exact h.insert_before hx
  | cons b back =>
      have hold : (↑(s :: (front ++ b :: back)) : Cycle L) = ↑(b :: (back ++ s :: front)) :=
        coe_append_comm (s :: front) (b :: back)
      have hnew : (↑(s :: (front ++ x :: b :: back)) : Cycle L) =
          ↑(x :: b :: (back ++ s :: front)) :=
        coe_append_comm (s :: front) (x :: b :: back)
      have hmem : ∀ y, y ∈ b :: (back ++ s :: front) ↔ y ∈ s :: (front ++ b :: back) := by
        intro y
        simp only [List.mem_cons, List.mem_append]
        tauto
      rw [hold] at h
      rw [hnew]
      exact ⟨_, (hmem _).mp (List.getLastD_mem_cons ..), h.prev_head.2,
        h.insert_before (fun hmem' => hx ((hmem x).mp hmem'))⟩

/-- Any node but the head is unlinked. -/
theorem Ring.delete
    (h : Ring next prev ↑(s :: (front ++ x :: back))) :
    ∃ a ∈ s :: (front ++ back), ∃ b ∈ s :: (front ++ back),
      prev x = some a ∧ next x = some b ∧
      Ring (Function.update next a (some b)) (Function.update prev b (some a))
        ↑(s :: (front ++ back)) := by
  have hold : (↑(s :: (front ++ x :: back)) : Cycle L) = ↑(x :: (back ++ s :: front)) :=
    coe_append_comm (s :: front) (x :: back)
  have hnew : (↑(s :: (front ++ back)) : Cycle L) = ↑(back ++ s :: front) :=
    coe_append_comm (s :: front) back
  have hmem : ∀ y, y ∈ back ++ s :: front → y ∈ s :: (front ++ back) := by
    intro y hy
    simp only [List.mem_cons, List.mem_append] at hy ⊢
    tauto
  have hne : back ++ s :: front ≠ [] := by
    simp
  obtain ⟨c, rest, hrest⟩ := List.exists_cons_of_ne_nil hne
  rw [hold] at h
  rw [hnew]
  rw [hrest] at h hmem ⊢
  have hlast : (c :: rest).getLastD x ∈ c :: rest := by
    rw [List.getLastD_cons]
    exact List.getLastD_mem_cons ..
  exact ⟨_, hmem _ hlast, c, hmem _ List.mem_cons_self, h.prev_head.2, h.next_head.1,
    h.unlink (List.cons_ne_nil c rest)⟩

end Positions

end Updates

end LinkRing
