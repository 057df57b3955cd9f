import Bikaya.Library.StableInsert

/-!
# Queues of aging elements

A queue ordered by key whose keys change while the elements wait.  One step lets elements
leave, changes the keys of those that stay without changing how they compare, and lets at
most one element enter by stable insertion.  Such a queue stays ordered, and elements of
equal keys stand in the order of their arrivals.

**Results.**
* `Evolves.nonIncreasing`: one step keeps the queue ordered.
* `precedes_since`: elements of equal keys stand as they did since the later one entered.
* `eq_mergeSort_of_stable`: a queue that is in such an order is a stable sort.
-/

namespace AgingQueue

open StableInsert

universe u v

variable {α : Type u} {κ : Type v} [LinearOrder κ]

/-- How two elements compare is the same for both keys. -/
def SameOrder (key key' : α → κ) (l : List α) : Prop :=
  ∀ x ∈ l, ∀ y ∈ l, key' x ≤ key' y ↔ key x ≤ key y

/-- One step of an aging queue. -/
inductive Evolves
    (key : α → κ) (q : List α) (key' : α → κ) (q' : List α) : Prop
  /-- Some elements leave. -/
  | leave :
      q'.Sublist q →
      SameOrder key key' q' →
      Evolves key q key' q'
  /-- Some elements leave, and a new element enters. -/
  | enter (kept : List α) (z : α) :
      kept.Sublist q →
      SameOrder key key' kept →
      z ∉ q →
      q' = stableInsert key' z kept →
      Evolves key q key' q'

/-- `x` stands before `y` in the queue. -/
def Precedes (q : List α) (x y : α) : Prop :=
  [x, y].Sublist q

variable {key key' : α → κ} {q q' : List α} {x y : α}

theorem SameOrder.refl (l : List α) : SameOrder key key l :=
  fun _ _ _ _ => Iff.rfl

/-- Keys that agree on the queue compare in the same way. -/
theorem SameOrder.of_eq
    {l : List α} (h : ∀ x ∈ l, key' x = key x) :
    SameOrder key key' l :=
  fun x hx y hy => by rw [h x hx, h y hy]

theorem SameOrder.nonIncreasing
    {l : List α} (h : SameOrder key key' l) (hl : NonIncreasing key l) :
    NonIncreasing key' l :=
  hl.congr (fun a ha b hb hab => (h b hb a ha).mpr hab)

theorem Precedes.left_mem (h : Precedes q x y) : x ∈ q :=
  h.subset List.mem_cons_self

theorem Precedes.right_mem (h : Precedes q x y) : y ∈ q :=
  h.subset (List.mem_cons_of_mem _ List.mem_cons_self)

theorem Precedes.ne (h : Precedes q x y) (hq : q.Nodup) : x ≠ y := by
  have := hq.sublist h
  simpa using this

/-- The first element stands before all the others. -/
theorem precedes_of_head (hy : y ∈ q) : Precedes (x :: q) x y :=
  List.Sublist.cons_cons x (List.singleton_sublist.mpr hy)

/-- The key of an element is not smaller than the key of a later one. -/
theorem Precedes.key_le (h : Precedes q x y) (hq : NonIncreasing key q) : key y ≤ key x := by
  have := hq.sublist h
  simpa [NonIncreasing] using this

/-- Of two elements one stands before the other. -/
theorem precedes_or_precedes
    (hx : x ∈ q) (hy : y ∈ q) (hne : x ≠ y) :
    Precedes q x y ∨ Precedes q y x := by
  induction q with
  | nil =>
      exact absurd hx List.not_mem_nil
  | cons z q ih =>
      rcases List.mem_cons.mp hx with rfl | hx
      · exact Or.inl (precedes_of_head ((List.mem_cons.mp hy).resolve_left (Ne.symm hne)))
      · rcases List.mem_cons.mp hy with heq | hy
        · exact Or.inr (heq ▸ precedes_of_head hx)
        · exact (ih hx hy).imp (fun h => h.cons z) (fun h => h.cons z)

/-- Of two elements one stands before the other in one way only. -/
theorem Precedes.asymm (h : Precedes q x y) (hq : q.Nodup) : ¬ Precedes q y x := by
  induction q with
  | nil =>
      exact absurd h.left_mem List.not_mem_nil
  | cons z q ih =>
      obtain ⟨hz, hnd⟩ := List.nodup_cons.mp hq
      intro h'
      rcases List.cons_sublist_cons'.mp h with hxy | ⟨rfl, hy⟩
      · have hxy : Precedes q x y := hxy
        rcases List.cons_sublist_cons'.mp h' with hyx | ⟨rfl, -⟩
        · exact ih hxy hnd hyx
        · exact hz hxy.right_mem
      · rcases List.cons_sublist_cons'.mp h' with hyx | ⟨rfl, -⟩
        · have hyx : Precedes q y x := hyx
          exact hz hyx.right_mem
        · exact hz (List.singleton_sublist.mp hy)

/--
A queue of the elements of a list that is ordered, and keeps the order of the list among
equal keys, is the result of stable sorting.
-/
theorem eq_mergeSort_of_stable
    {l : List α} (hl : l.Nodup) (hperm : q.Perm l) (hq : NonIncreasing key q)
    (hstable : ∀ x y, Precedes q x y → key x = key y → Precedes l x y) :
    q = l.mergeSort (fun x y => decide (key y ≤ key x)) := by
  have htrans : ∀ x y z : α, decide (key y ≤ key x) = true → decide (key z ≤ key y) = true →
      decide (key z ≤ key x) = true := by
    intro x y z hxy hyz
    exact decide_eq_true ((of_decide_eq_true hyz).trans (of_decide_eq_true hxy))
  have htotal : ∀ x y : α, (decide (key y ≤ key x) || decide (key x ≤ key y)) = true := by
    intro x y
    rcases le_total (key y) (key x) with h | h <;> simp [h]
  have hperm' : (l.mergeSort (fun x y => decide (key y ≤ key x))).Perm l :=
    List.mergeSort_perm _ _
  -- the order of both lists: by key, and among equal keys as in the list
  let r : α → α → Prop := fun x y => key y < key x ∨ (key x = key y ∧ Precedes l x y)
  have hpairs : ∀ q' : List α, q'.Perm l → NonIncreasing key q' →
      (∀ x y, Precedes q' x y → key x = key y → Precedes l x y) → q'.Pairwise r := by
    intro q' _ hsorted hties
    refine List.pairwise_iff_forall_sublist.mpr (fun {x y} hxy => ?_)
    have hxy' : Precedes q' x y := hxy
    rcases (hxy'.key_le hsorted).lt_or_eq with hlt | heq
    · exact Or.inl hlt
    · exact Or.inr ⟨heq.symm, hties x y hxy' heq.symm⟩
  have hsort : NonIncreasing key (l.mergeSort (fun x y => decide (key y ≤ key x))) :=
    (List.pairwise_mergeSort htrans htotal l).imp of_decide_eq_true
  have hties : ∀ x y, Precedes (l.mergeSort (fun x y => decide (key y ≤ key x))) x y →
      key x = key y → Precedes l x y := by
    intro x y hxy hkey
    have hnd := hperm'.nodup_iff.mpr hl
    -- the pair stands in the list in one of two ways, and sorting keeps it
    rcases precedes_or_precedes (hperm'.subset hxy.left_mem) (hperm'.subset hxy.right_mem)
      (hxy.ne hnd) with h | h
    · exact h
    · refine absurd ?_ (hxy.asymm hnd)
      exact List.pair_sublist_mergeSort htrans htotal (decide_eq_true hkey.le) h
  refine (hperm.trans hperm'.symm).eq_of_pairwise ?_ (hpairs q hperm hq hstable)
    (hpairs _ hperm' hsort hties)
  rintro x y - - (hxy | ⟨hkey, hxy⟩) (hyx | ⟨hkey', hyx⟩)
  · exact absurd hyx hxy.asymm
  · exact absurd hkey' hxy.ne
  · exact absurd hkey hyx.ne
  · exact absurd hyx (hxy.asymm hl)

theorem Evolves.refl : Evolves key q key q :=
  Evolves.leave (List.Sublist.refl q) (SameOrder.refl q)

/-- The queue stays ordered. -/
theorem Evolves.nonIncreasing
    (h : Evolves key q key' q') (hq : NonIncreasing key q) :
    NonIncreasing key' q' := by
  cases h with
  | leave hsub hsame =>
      exact hsame.nonIncreasing (hq.sublist hsub)
  | enter kept z hsub hsame _ hq' =>
      rw [hq']
      exact (hsame.nonIncreasing (hq.sublist hsub)).stableInsert z

/-- At most one element enters. -/
theorem Evolves.entered_unique
    (h : Evolves key q key' q')
    (hx : x ∈ q') (hxq : x ∉ q) (hy : y ∈ q') (hyq : y ∉ q) :
    x = y := by
  cases h with
  | leave hsub _ =>
      exact absurd (hsub.subset hx) hxq
  | enter kept z hsub _ _ hq' =>
      subst hq'
      rcases mem_stableInsert.mp hx with rfl | hx
      · rcases mem_stableInsert.mp hy with rfl | hy
        · rfl
        · exact absurd (hsub.subset hy) hyq
      · exact absurd (hsub.subset hx) hxq

/--
The elements of equal keys in front of an element that was already there stood in
front of it before the step, with the same key.
-/
theorem Evolves.precedes_back
    (h : Evolves key q key' q') (hq : NonIncreasing key q)
    (hxy : Precedes q' x y) (hkey : key' x = key' y) (hy : y ∈ q) :
    Precedes q x y ∧ key x = key y := by
  have hback : ∀ l : List α, l.Sublist q → SameOrder key key' l → Precedes l x y →
      Precedes q x y ∧ key x = key y := by
    intro l hsub hsame hxy
    refine ⟨List.Sublist.trans hxy hsub, ?_⟩
    have hle := hsame x hxy.left_mem y hxy.right_mem
    have hge := hsame y hxy.right_mem x hxy.left_mem
    exact le_antisymm (hle.mp hkey.le) (hge.mp hkey.ge)
  cases h with
  | leave hsub hsame =>
      exact hback q' hsub hsame hxy
  | enter kept z hsub hsame hz hq' =>
      have hzkept : z ∉ kept := fun hmem => hz (hsub.subset hmem)
      have hyz : y ≠ z := by
        rintro rfl
        exact hz hy
      obtain ⟨front, back, hsplit, hins, -, hless⟩ :=
        stableInsert_split_of_nonIncreasing (hsame.nonIncreasing (hq.sublist hsub)) z
      rw [hq', hins] at hxy
      rw [hsplit] at hzkept
      obtain ⟨l₁, l₂, hl, hl₁, hl₂⟩ := List.sublist_append_iff.mp hxy
      by_cases hxz : x = z
      · -- a newcomer stands in front of strictly smaller keys only
        subst hxz
        cases l₁ with
        | nil =>
            rw [List.nil_append] at hl
            rw [← hl] at hl₂
            have hyback : y ∈ back :=
              List.singleton_sublist.mp (List.cons_sublist_cons.mp hl₂)
            exact absurd hkey (ne_of_gt (hless y hyback))
        | cons a l₁ =>
            have hax : a = x := (List.cons.inj hl).1.symm
            rw [hax] at hl₁
            exact absurd (List.mem_append_left _ (hl₁.subset List.mem_cons_self)) hzkept
      · refine hback kept hsub hsame ?_
        rw [hsplit]
        refine List.sublist_append_iff.mpr ⟨l₁, l₂, hl, hl₁, ?_⟩
        cases hl₂ with
        | cons _ hl₂ =>
            exact hl₂
        | cons_cons _ hl₂ =>
            have : z ∈ [x, y] := by
              rw [hl]
              simp
            simp [Ne.symm hxz, Ne.symm hyz] at this

section Runs

variable {keys : ℕ → α → κ} {qs : ℕ → List α} {m n : ℕ}

/-- `x` has been in the queue without interruption from moment `m` to moment `n`. -/
def Since (qs : ℕ → List α) (m n : ℕ) (x : α) : Prop :=
  ∀ i, m ≤ i → i ≤ n → x ∈ qs i

theorem nonIncreasing_of_evolves
    (h : ∀ i < n, Evolves (keys i) (qs i) (keys (i + 1)) (qs (i + 1)))
    (h0 : NonIncreasing (keys 0) (qs 0)) :
    ∀ i ≤ n, NonIncreasing (keys i) (qs i) := by
  intro i
  induction i with
  | zero =>
      exact fun _ => h0
  | succ i ih =>
      intro hi
      exact (h i (by omega)).nonIncreasing (ih (by omega))

/--
An element in front of another one with the same key has been there for the whole
present stay of the latter, in front of it and with the same key.
-/
theorem precedes_since
    (h : ∀ i < n, Evolves (keys i) (qs i) (keys (i + 1)) (qs (i + 1)))
    (h0 : NonIncreasing (keys 0) (qs 0))
    (hxy : Precedes (qs n) x y) (hkey : keys n x = keys n y)
    (hy : Since qs m n y) :
    ∀ i, m ≤ i → i ≤ n → Precedes (qs i) x y ∧ keys i x = keys i y := by
  -- downwards from `n`
  have hdown : ∀ j ≤ n, m ≤ n - j →
      Precedes (qs (n - j)) x y ∧ keys (n - j) x = keys (n - j) y := by
    intro j
    induction j with
    | zero =>
        exact fun _ _ => ⟨hxy, hkey⟩
    | succ j ih =>
        intro hj hm
        obtain ⟨hp, hk⟩ := ih (by omega) (by omega)
        have hstep := h (n - (j + 1)) (by omega)
        have hnext : n - (j + 1) + 1 = n - j := by omega
        rw [hnext] at hstep
        exact hstep.precedes_back (nonIncreasing_of_evolves h h0 _ (by omega)) hp hk
          (hy _ hm (by omega))
  intro i hm hi
  have := hdown (n - i) (by omega) (by omega)
  rwa [show n - (n - i) = i from by omega] at this

/--
`x` entered the queue before `y`: it has been there from a moment when `y` was not
in its present stay yet, or both have been there from the beginning, in this order.
-/
def EnteredBefore (qs : ℕ → List α) (n : ℕ) (x y : α) : Prop :=
  (∃ m ≤ n, Since qs m n x ∧ ¬ Since qs m n y) ∨
    (Since qs 0 n x ∧ Since qs 0 n y ∧ Precedes (qs 0) x y)

variable (keys) in
/-- The tie-break: elements of equal keys stand in the order of their arrivals. -/
theorem enteredBefore_of_precedes
    (h : ∀ i < n, Evolves (keys i) (qs i) (keys (i + 1)) (qs (i + 1)))
    (h0 : NonIncreasing (keys 0) (qs 0)) (hnd : ∀ i ≤ n, (qs i).Nodup)
    (hxy : Precedes (qs n) x y) (hkey : keys n x = keys n y) :
    EnteredBefore qs n x y := by
  -- the beginning of the present stay of `y`
  have hex : ∃ m, m ≤ n ∧ Since qs m n y :=
    ⟨n, le_rfl, fun i hi hi' => by
      rw [le_antisymm hi' hi]
      exact hxy.right_mem⟩
  classical
  obtain ⟨hm, hy⟩ := Nat.find_spec hex
  set m := Nat.find hex with hmdef
  have hback := precedes_since h h0 hxy hkey hy
  have hx : Since qs m n x := fun i hi hi' => (hback i hi hi').1.left_mem
  rcases Nat.eq_zero_or_pos m with hzero | hpos
  · rw [hzero] at hx hy hback
    exact Or.inr ⟨hx, hy, (hback 0 le_rfl (Nat.zero_le n)).1⟩
  · -- `y` entered at `m`, and nothing else did
    obtain ⟨i, hi⟩ : ∃ i, m = i + 1 := ⟨m - 1, by omega⟩
    have hyi : y ∉ qs i := by
      intro hmem
      have hsince : Since qs i n y := by
        intro j hj hj'
        rcases Nat.eq_or_lt_of_le hj with rfl | hj
        · exact hmem
        · exact hy j (by omega) hj'
      exact Nat.find_min hex (m := i) (by omega) ⟨by omega, hsince⟩
    have hxi : x ∈ qs i := by
      by_contra hxi
      have hxm := hx m le_rfl hm
      have hym := hy m le_rfl hm
      rw [hi] at hxm hym
      have hp := (hback m le_rfl hm).1
      exact hp.ne (hnd m hm) ((h i (by omega)).entered_unique hxm hxi hym hyi)
    refine Or.inl ⟨i, by omega, ?_, fun hsince => hyi (hsince i le_rfl (by omega))⟩
    intro j hj hj'
    rcases Nat.eq_or_lt_of_le hj with rfl | hj
    · exact hxi
    · exact hx j (by omega) hj'

end Runs

end AgingQueue
