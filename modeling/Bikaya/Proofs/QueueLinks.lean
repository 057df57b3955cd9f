import Bikaya.Proofs.Links
import Bikaya.Proofs.ProcessQueue

/-!
# Bikaya: the links of the process queues

A process queue is a ring of a sentinel and the `p_next` links of its processes.  The
functions of `pcb.c` on such a ring are operations on the list it represents.

**Plan.**  The loop of `insertProcQ` looks for the first process of a smaller priority, and
`outProcQ` for the process itself; both walk along the forward links, so the induction is
on the part of the queue that is still ahead.  What is then written is the insertion or the
removal of one node, with the frame of `Links.lean`.

**Results.**
* `insertProcQ_spec`, `removeProcQ_spec`, `outProcQ_spec`: the ring afterwards.
* `process_queue_links`: the five functions on every queue, with what they return and what
  they leave alone.
-/

namespace Bikaya

open LinkRing StableInsert

namespace Memory

variable {P S K : Type} {m m' : Memory P S K}
variable {head : Link P S} {q front back rest : List P} {p : P} {fuel : ℕ}

/-- The queue with sentinel `head` represents the list `q`. -/
def IsQueue (m : Memory P S K) (head : Link P S) (q : List P) : Prop :=
  m.IsRing (head :: q.map .pNext)

/-- The links of a queue: its sentinel and the `p_next` of its processes. -/
abbrev queueLinks (head : Link P S) (q : List P) : List (Link P S) :=
  head :: q.map .pNext

theorem IsQueue.follows (h : m.IsQueue head q) :
    m.Follows (head :: (q.map .pNext ++ [head])) :=
  follows_of_isRing h

theorem IsQueue.nodup (h : m.IsQueue head q) : q.Nodup := by
  have hlinks : (head :: q.map Link.pNext).Nodup := Cycle.nodup_coe_iff.mp (Ring.nodup h)
  exact List.Nodup.of_map _ (List.nodup_cons.mp hlinks).2

theorem notMem_queueLinks
    (hhead : ∀ x, head ≠ .pNext x) (hp : p ∉ q) :
    Link.pNext p ∉ queueLinks head q := by
  simp only [List.mem_cons, List.mem_map, not_or]
  refine ⟨fun heq => hhead p heq.symm, ?_⟩
  rintro ⟨x, hx, heq⟩
  exact hp (Link.pNext.inj heq ▸ hx)

variable [DecidableEq P] [DecidableEq S]

/-- The loop stops in front of the first process of smaller priority, or at the sentinel. -/
theorem insertProcQFrom_eq
    (hhead : ∀ x, head ≠ .pNext x) (hpath : m.Follows (rest.map .pNext ++ [head])) :
    ∃ front back,
      rest = front ++ back ∧
      (∀ y ∈ front, m.priority p ≤ m.priority y) ∧
      (∀ y ∈ back.head?, m.priority y < m.priority p) ∧
      ∀ fuel > rest.length,
        m.insertProcQFrom head p fuel ((rest.map .pNext).headD head) =
          m.listAddBetween (.pNext p) (m.prev ((back.map .pNext).headD head))
            (some ((back.map .pNext).headD head)) := by
  induction rest with
  | nil =>
      refine ⟨[], [], rfl, by simp, by simp, fun fuel hfuel => ?_⟩
      obtain ⟨fuel, rfl⟩ := Nat.exists_eq_succ_of_ne_zero (Nat.ne_of_gt hfuel)
      simp only [List.map_nil, List.headD_nil, insertProcQFrom, if_true]
      rfl
  | cons target rest ih =>
      obtain ⟨hnext, hpath⟩ := Follows.next hpath
      have hne : Link.pNext target ≠ head := fun heq => hhead target heq.symm
      by_cases hless : m.priority p > m.priority target
      · refine ⟨[], target :: rest, rfl, by simp, by simpa using hless, fun fuel hfuel => ?_⟩
        obtain ⟨fuel, rfl⟩ := Nat.exists_eq_succ_of_ne_zero (Nat.ne_zero_of_lt hfuel)
        simp [insertProcQFrom, hne, hless]
      · obtain ⟨front, back, hsplit, hfront, hback, heq⟩ := ih hpath
        refine ⟨target :: front, back, by rw [hsplit]; rfl, ?_, hback, fun fuel hfuel => ?_⟩
        · intro y hy
          rcases List.mem_cons.mp hy with rfl | hy
          · exact not_lt.mp hless
          · exact hfront y hy
        · obtain ⟨fuel, rfl⟩ := Nat.exists_eq_succ_of_ne_zero (Nat.ne_zero_of_lt hfuel)
          rw [← heq fuel (Nat.lt_of_succ_lt_succ hfuel)]
          simp [insertProcQFrom, hne, hless, hnext]

/-- The loop finds `p` when it is in the queue. -/
theorem outProcQFrom_eq
    (hhead : ∀ x, head ≠ .pNext x)
    (hpath : m.Follows (rest.map .pNext ++ [head])) (hfuel : rest.length < fuel) :
    m.outProcQFrom head p fuel ((rest.map .pNext).headD head) =
      if p ∈ rest then (do
        let m ← m.listDel (.pNext p)
        return (some p, m))
      else .ok (none, m) := by
  induction rest generalizing fuel with
  | nil =>
      obtain ⟨fuel, rfl⟩ := Nat.exists_eq_succ_of_ne_zero (Nat.ne_of_gt hfuel)
      simp [outProcQFrom]
  | cons target rest ih =>
      obtain ⟨fuel, rfl⟩ := Nat.exists_eq_succ_of_ne_zero (Nat.ne_zero_of_lt hfuel)
      obtain ⟨hnext, hpath⟩ := Follows.next hpath
      have hne : Link.pNext target ≠ head := fun heq => hhead target heq.symm
      by_cases htarget : target = p
      · subst htarget
        simp [outProcQFrom, hne]
      · have hmem : p ∈ target :: rest ↔ p ∈ rest := by
          simp [Ne.symm htarget]
        simp only [hmem]
        rw [← ih hpath (Nat.lt_of_succ_lt_succ hfuel)]
        simp [outProcQFrom, hne, htarget, hnext]

section Operations

variable (hhead : ∀ x, head ≠ .pNext x) (h : m.IsQueue head q)
include hhead h

/-- `insertProcQ` puts `p` in front of the first process of smaller priority. -/
theorem insertProcQ_spec (hp : p ∉ q) :
    ∃ front back m',
      q = front ++ back ∧
      (∀ y ∈ front, m.priority p ≤ m.priority y) ∧
      (∀ y ∈ back.head?, m.priority y < m.priority p) ∧
      (∀ fuel > q.length, m.insertProcQ fuel head p = .ok m') ∧
      m'.IsQueue head (front ++ p :: back) ∧
      WritesLinks (.pNext p :: queueLinks head q) m m' := by
  obtain ⟨hnext, hpath⟩ := h.follows.next
  obtain ⟨front, back, rfl, hfront, hback, heq⟩ := insertProcQFrom_eq (p := p) hhead hpath
  have hring : m.IsRing (head :: (front.map .pNext ++ back.map .pNext)) := by
    rw [← List.map_append]
    exact h
  have hfresh : Link.pNext p ∉ head :: (front.map Link.pNext ++ back.map .pNext) := by
    rw [← List.map_append]
    exact notMem_queueLinks hhead hp
  obtain ⟨m', hadd, hring', hwrites⟩ := listAddBetween_spec hring hfresh
  refine ⟨front, back, m', rfl, hfront, hback, fun fuel hfuel => ?_, ?_, ?_⟩
  · simp only [insertProcQ, hnext, deref_some, ok_bind, heq fuel hfuel, hadd]
  · rw [IsQueue, List.map_append, List.map_cons]
    exact hring'
  · rw [queueLinks, List.map_append]
    exact hwrites

omit hhead in
theorem emptyProcQ_iff : m.emptyProcQ head = true ↔ q = [] := by
  rw [emptyProcQ, listEmpty_iff h, List.map_eq_nil_iff]

omit hhead in
theorem headProcQ_spec : m.headProcQ head = .ok q.head? := by
  have hempty := listEmpty_iff h
  have hnext := listNext_eq h
  cases q with
  | nil =>
      simp [headProcQ, hempty]
  | cons x q =>
      simp [headProcQ, hempty, hnext]

omit hhead in
/-- `removeProcQ` takes the first process. -/
theorem removeProcQ_spec :
    ∃ m', m.removeProcQ head = .ok (q.head?, m') ∧
      m'.IsQueue head q.tail ∧ WritesLinks (queueLinks head q) m m' := by
  have hempty := listEmpty_iff h
  have hnext := listNext_eq h
  cases q with
  | nil =>
      refine ⟨m, ?_, h, WritesLinks.refl _ m⟩
      simp [removeProcQ, hempty]
  | cons x q =>
      obtain ⟨m', hdel, hring, hwrites⟩ := listDel_first h
      refine ⟨m', ?_, hring, hwrites.mono ?_⟩
      · simp [removeProcQ, hempty, hnext, hdel]
      · intro y hy
        simp only [List.mem_cons, List.map_cons] at hy ⊢
        tauto

/-- `outProcQ` takes `p` out wherever it stands, and else writes nothing. -/
theorem outProcQ_spec :
    ∃ m',
      (∀ fuel > q.length,
        m.outProcQ fuel head p = .ok (if p ∈ q then some p else none, m')) ∧
      m'.IsQueue head (q.erase p) ∧ WritesLinks (queueLinks head q) m m' ∧
      (p ∉ q → m' = m) := by
  obtain ⟨hnext, hpath⟩ := h.follows.next
  have heq : ∀ fuel > q.length, _ := fun fuel => outProcQFrom_eq (p := p) hhead hpath
  by_cases hp : p ∈ q
  · obtain ⟨front, back, hfront, rfl, herase⟩ := List.exists_erase_eq hp
    have hring : m.IsRing (head :: (front.map .pNext ++ .pNext p :: back.map .pNext)) := by
      rw [← List.map_cons, ← List.map_append]
      exact h
    obtain ⟨m', hdel, hring', hwrites⟩ := listDel_spec hring
    refine ⟨m', fun fuel hfuel => ?_, ?_, hwrites.mono ?_, fun hn => absurd hp hn⟩
    · simp only [outProcQ, hnext, deref_some, ok_bind, heq fuel hfuel, hdel, if_pos hp,
        pure_eq_ok]
    · rw [herase, IsQueue, List.map_append]
      exact hring'
    · intro y hy
      simp only [List.mem_cons, List.mem_append, List.map_append, List.map_cons] at hy ⊢
      tauto
  · refine ⟨m, fun fuel hfuel => ?_, ?_, WritesLinks.refl _ m, fun _ => rfl⟩
    · simp only [outProcQ, hnext, deref_some, ok_bind, heq fuel hfuel, if_neg hp]
    · rw [List.erase_of_not_mem hp]
      exact h

end Operations

/--
A ring with a sentinel is a list for the functions of `pcb.c`: insertion puts a process
that is not in the queue in front of the first one of strictly smaller priority, and keeps
a sorted queue sorted; the other functions read and remove at the front, or remove the
process they are given and return it.  Nothing outside the queue is written but the
inserted link.
-/
theorem process_queue_links
    (hhead : ∀ x, head ≠ .pNext x) (h : m.IsQueue head q) (p : P) :
    (p ∉ q → ∃ front back m',
      q = front ++ back ∧
      (∀ y ∈ front, m.priority p ≤ m.priority y) ∧
      (∀ y ∈ back.head?, m.priority y < m.priority p) ∧
      (∀ fuel > q.length, m.insertProcQ fuel head p = .ok m') ∧
      m'.IsQueue head (front ++ p :: back) ∧
      WritesLinks (.pNext p :: queueLinks head q) m m' ∧
      (NonIncreasing m.priority q → NonIncreasing m'.priority (front ++ p :: back))) ∧
    (m.mkEmptyProcQ head).IsQueue head [] ∧
    (m.emptyProcQ head = true ↔ q = []) ∧
    m.headProcQ head = .ok q.head? ∧
    (∃ m', m.removeProcQ head = .ok (q.head?, m') ∧
      m'.IsQueue head q.tail ∧ WritesLinks (queueLinks head q) m m') ∧
    ∃ m',
      (∀ fuel > q.length,
        m.outProcQ fuel head p = .ok (if p ∈ q then some p else none, m')) ∧
      m'.IsQueue head (q.erase p) ∧ WritesLinks (queueLinks head q) m m' ∧
      (p ∉ q → m' = m) := by
  refine ⟨?_, initListHead_isRing m head, emptyProcQ_iff h, headProcQ_spec h,
    removeProcQ_spec h, outProcQ_spec hhead h⟩
  intro hp
  obtain ⟨front, back, m', hsplit, hfront, hback, heq, hqueue, hwrites⟩ :=
    insertProcQ_spec hhead h hp
  refine ⟨front, back, m', hsplit, hfront, hback, heq, hqueue, hwrites, fun hsorted => ?_⟩
  rw [hwrites.priority, ← stableInsert_append hfront hback, ← hsplit]
  exact hsorted.stableInsert p

section Example

/-- The processes 0 and 1, of priorities 3 and 1, in the ready queue; 2 has priority 2. -/
def twoQueued : Memory (Fin 3) Unit Unit where
  next := fun l =>
    match l with
    | .readyQueue => some (.pNext 0)
    | .pNext 0 => some (.pNext 1)
    | .pNext 1 => some .readyQueue
    | _ => none
  prev := fun l =>
    match l with
    | .readyQueue => some (.pNext 1)
    | .pNext 0 => some .readyQueue
    | .pNext 1 => some (.pNext 0)
    | _ => none
  pParent := fun _ => none
  priority := fun p => [3, 1, 2].getD p.val 0
  pSemkey := fun _ => none
  sKey := fun _ => none

theorem twoQueued_isQueue : twoQueued.IsQueue .readyQueue [0, 1] := by
  refine ⟨Cycle.nodup_coe_iff.mpr (by decide), ?_⟩
  simp [Linked, twoQueued]

theorem process_queue_links_twoQueued :
    ∃ m', twoQueued.insertProcQ 3 .readyQueue 2 = .ok m' ∧
      m'.IsQueue .readyQueue [0, 2, 1] := by
  obtain ⟨front, back, m', hsplit, hfront, hback, heq, hqueue, -⟩ :=
    (process_queue_links (by simp) twoQueued_isQueue 2).1 (by decide)
  refine ⟨m', heq 3 (by decide), ?_⟩
  have hplace : stableInsert twoQueued.priority 2 [0, 1] = front ++ 2 :: back := by
    rw [hsplit]
    exact stableInsert_append hfront hback
  rw [← hplace] at hqueue
  exact hqueue

end Example

end Memory

end Bikaya
