import Bikaya.Library.Runs

/-!
# Servers with one request in progress

A server takes up one request at a time.  The requests that arrive while it is busy wait,
in an order that each arrival may change; when the request in progress is finished, the
first waiting one is taken up.  Along any run every request is taken up once or still
waiting, and the finished requests are the first ones taken up.

**Results.**
* `Balanced.step`: the balance over one event.
* `balanced_of_run`: and along a run from an idle server on.
-/

namespace RequestServer

open TransitionSystem

universe u

variable {ρ : Type u}

structure Server (ρ : Type u) where
  /-- The requests taken up so far, oldest first. -/
  started : List ρ
  waiting : List ρ
  /-- The request in progress. -/
  current : Option ρ

/-- The server before the first request. -/
def Server.idle : Server ρ :=
  ⟨[], [], none⟩

inductive Event (ρ : Type u) where
  | request (x : ρ)
  | finish
  | other

namespace Event

/-- The request that arrives. -/
def arrival : Event ρ → Option ρ
  | request x => some x
  | _ => none

def Finishes : Event ρ → Prop
  | finish => True
  | _ => False

instance (l : Event ρ) : Decidable l.Finishes :=
  match l with
  | finish => instDecidableTrue
  | request _ | other => instDecidableFalse

end Event

/-- What an event does to the server. -/
inductive Step (a : Server ρ) : Event ρ → Server ρ → Prop
  | start (x : ρ) :
      a.current = none →
      Step a (.request x) ⟨a.started ++ [x], a.waiting, some x⟩
  | wait (x y : ρ) (w : List ρ) :
      a.current = some y →
      w.Perm (x :: a.waiting) →
      Step a (.request x) ⟨a.started, w, some y⟩
  | next (x y : ρ) (w : List ρ) :
      a.current = some y →
      a.waiting = x :: w →
      Step a .finish ⟨a.started ++ [x], w, some x⟩
  | rest (y : ρ) :
      a.current = some y →
      a.waiting = [] →
      Step a .finish ⟨a.started, [], none⟩
  /-- Nothing is in progress. -/
  | stray :
      a.current = none →
      Step a .finish a
  | skip :
      Step a .other a

/-- The requests among the first events. -/
def requests (ev : ℕ → Event ρ) (i : ℕ) : List ρ :=
  (List.range i).filterMap (fun j => (ev j).arrival)

/-- How many of the first events finish a request. -/
def finishes (ev : ℕ → Event ρ) (i : ℕ) : ℕ :=
  (List.range i).countP (fun j => (ev j).Finishes)

theorem requests_succ (ev : ℕ → Event ρ) (i : ℕ) :
    requests ev (i + 1) = requests ev i ++ (ev i).arrival.toList := by
  simp only [requests, List.range_succ, List.filterMap_append]
  cases h : (ev i).arrival <;> simp [h]

theorem finishes_succ (ev : ℕ → Event ρ) (i : ℕ) :
    finishes ev (i + 1) = finishes ev i + (if (ev i).Finishes then 1 else 0) := by
  simp only [finishes, List.range_succ, List.countP_append, List.countP_singleton,
    decide_eq_true_eq]

/-- The invariant, with the requests made and the number of requests finished. -/
structure Balanced (a : Server ρ) (made : List ρ) (finished : ℕ) : Prop where
  once : made.Perm (a.started ++ a.waiting)
  resting : a.current = none → a.waiting = [] ∧ a.started.length = finished
  working : ∀ x, a.current = some x →
    ∃ l, a.started = l ++ [x] ∧ l.length = finished

section Invariant

variable {a b : Server ρ} {made : List ρ} {finished : ℕ}

theorem balanced_idle : Balanced (Server.idle : Server ρ) [] 0 where
  once := List.Perm.refl _
  resting := fun _ => ⟨rfl, rfl⟩
  working := fun _ h => absurd h (by simp [Server.idle])

/-- The request in progress is the one behind those that are finished. -/
theorem Balanced.current_eq
    (h : Balanced a made finished) {x : ρ} (hx : a.current = some x) :
    a.started[finished]? = some x := by
  obtain ⟨l, hl, rfl⟩ := h.working x hx
  rw [hl, List.getElem?_concat_length]

/-- A request that has not been finished is in progress. -/
theorem Balanced.exists_current
    (h : Balanced a made finished) (hlt : finished < a.started.length) :
    ∃ x, a.current = some x := by
  cases hcur : a.current with
  | none =>
      have := (h.resting hcur).2
      omega
  | some x =>
      exact ⟨x, rfl⟩

/-- The step lemma. -/
theorem Balanced.step
    {l : Event ρ} (h : Balanced a made finished)
    (hpending : l.Finishes → finished < a.started.length) (hstep : Step a l b) :
    Balanced b (made ++ l.arrival.toList) (finished + (if l.Finishes then 1 else 0)) := by
  cases hstep with
  | start x hidle =>
      obtain ⟨hwaiting, hlen⟩ := h.resting hidle
      refine ⟨?_, fun hnone => absurd hnone (by simp), fun y hy => ?_⟩
      · have honce := h.once
        rw [hwaiting, List.append_nil] at honce ⊢
        exact honce.append_right [x]
      · obtain rfl : x = y := Option.some.inj hy
        exact ⟨a.started, rfl, hlen⟩
  | wait x y w hbusy hw =>
      refine ⟨?_, fun hnone => absurd hnone (by simp), fun z hz => ?_⟩
      · have harrive : (made ++ [x]).Perm (a.started ++ (a.waiting ++ [x])) := by
          rw [← List.append_assoc]
          exact h.once.append_right [x]
        have hlast : (a.waiting ++ [x]).Perm w :=
          (List.perm_append_singleton x a.waiting).trans hw.symm
        exact harrive.trans (hlast.append_left a.started)
      · obtain rfl : y = z := Option.some.inj hz
        exact h.working y hbusy
  | next x y w hbusy hw =>
      obtain ⟨l, hl, hlen⟩ := h.working y hbusy
      refine ⟨?_, fun hnone => absurd hnone (by simp), fun z hz => ?_⟩
      · have honce := h.once
        rw [hw] at honce
        simpa [Event.arrival] using honce
      · obtain rfl : x = z := Option.some.inj hz
        refine ⟨a.started, rfl, ?_⟩
        rw [hl, List.length_append, hlen]
        rfl
  | rest y hbusy hw =>
      obtain ⟨l, hl, hlen⟩ := h.working y hbusy
      refine ⟨?_, fun _ => ⟨rfl, ?_⟩, fun z hz => absurd hz (by simp)⟩
      · have honce := h.once
        rw [hw] at honce
        simpa [Event.arrival] using honce
      · show a.started.length = finished + 1
        rw [hl, List.length_append, hlen]
        rfl
  | stray hidle =>
      have hlt := hpending trivial
      have hlen := (h.resting hidle).2
      omega
  | skip =>
      simpa [Event.arrival, Event.Finishes] using h

end Invariant

/-- Every state of a run in which a request is finished only after it was taken up. -/
theorem balanced_of_run
    {a : ℕ → Server ρ} {ev : ℕ → Event ρ} {n : ℕ}
    (h0 : a 0 = Server.idle) (hrun : IsRun Step a ev n)
    (hpending : ∀ i < n, (ev i).Finishes → finishes ev i < (a i).started.length) :
    ∀ i ≤ n, Balanced (a i) (requests ev i) (finishes ev i) := by
  intro i
  induction i with
  | zero =>
      intro _
      rw [h0]
      exact balanced_idle
  | succ i ih =>
      intro hi
      rw [requests_succ, finishes_succ]
      exact (ih (by omega)).step (hpending i hi) (hrun i hi)

end RequestServer
