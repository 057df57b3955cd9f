import Bikaya.Library.SeparatedQueues
import Bikaya.Proofs.SemaphoreList

/-!
# Bikaya: where a process stands

The free list, the ready queue and the queues of the semaphores share the link `p_next` of
the PCBs, so they have to be separated.  `Residence` is the invariant of these lists; the
rules of this module say how the kernel's moves of one process keep it.

The invariant is stated over the components of the kernel it speaks about, so that it is
literally unaffected by an update of the others.

**Plan.**  The lists are one family of queues, indexed by `Place`, and their separation is
that of the library.  The descriptors enter by the queues of their keys only.

**Results.**
* `absent_readyHead`, `absent_freeHead`, `absent_eraseReady`: a process that is taken out
  stands nowhere.
* `exists_free_semd`: a process outside the queues leaves a descriptor for its semaphore.
-/

namespace Bikaya

open SeparatedQueues

/-- The lists threaded through `p_next`. -/
inductive Place where
  | free
  | ready
  | blocked (key : SemKey)
deriving DecidableEq

/-- The content of each list threaded through `p_next`. -/
def placeQueues (asl : Asl) (free ready : List Proc) : Place → List Proc
  | .free => free
  | .ready => ready
  | .blocked key => asl.waitQueue key

/--
The lists are separated, and `p_semkey` names the semaphore a process waits on.
-/
structure Residence
    (asl : Asl) (free ready : List Proc)
    (pSemkey : Proc → Option SemKey) : Prop where
  aslOk : asl.Ok
  separated : Separated (placeQueues asl free ready)
  semkey : ∀ x key, pSemkey x = some key ↔ x ∈ asl.waitQueue key

section Updates

variable (asl : Asl) (free ready : List Proc)

theorem placeQueues_free (q : List Proc) :
    placeQueues asl q ready = Function.update (placeQueues asl free ready) .free q := by
  funext place
  cases place <;> simp [placeQueues]

theorem placeQueues_ready (q : List Proc) :
    placeQueues asl free q = Function.update (placeQueues asl free ready) .ready q := by
  funext place
  cases place <;> simp [placeQueues]

theorem placeQueues_blocked
    {asl' : Asl} {key : SemKey} {q : List Proc}
    (h : asl'.waitQueue = Function.update asl.waitQueue key q) :
    placeQueues asl' free ready =
      Function.update (placeQueues asl free ready) (.blocked key) q := by
  funext place
  cases place with
  | free =>
      simp [placeQueues]
  | ready =>
      simp [placeQueues]
  | blocked key' =>
      by_cases hk : key' = key
      · subst hk
        simp [placeQueues, h]
      · simp [placeQueues, h, hk]

end Updates

namespace Residence

variable {asl asl' : Asl} {free ready q : List Proc}
variable {pSemkey : Proc → Option SemKey} {x y : Proc} {key : SemKey}

/-- A process that is in none of the lists. -/
abbrev Absent (asl : Asl) (free ready : List Proc) (x : Proc) : Prop :=
  Unplaced (placeQueues asl free ready) x

theorem absent_iff :
    Absent asl free ready x ↔
      x ∉ free ∧ x ∉ ready ∧ ∀ key, x ∉ asl.waitQueue key := by
  constructor
  · intro h
    exact ⟨h .free, h .ready, fun key => h (.blocked key)⟩
  · rintro ⟨hfree, hready, hblocked⟩ (_ | _ | key)
    · exact hfree
    · exact hready
    · exact hblocked key

section Facts

variable (h : Residence asl free ready pSemkey)
include h

theorem free_nodup : free.Nodup :=
  h.separated.nodup .free

theorem ready_nodup : ready.Nodup :=
  h.separated.nodup .ready

theorem wait_nodup (key : SemKey) : (asl.waitQueue key).Nodup :=
  h.separated.nodup (.blocked key)

theorem not_ready_of_free (hx : x ∈ free) : x ∉ ready := by
  intro hx'
  cases h.separated.unique .free .ready x hx hx'

theorem not_ready_of_wait {key : SemKey} (hx : x ∈ asl.waitQueue key) : x ∉ ready := by
  intro hx'
  cases h.separated.unique (.blocked key) .ready x hx hx'

theorem semkey_of_free (hx : x ∈ free) : pSemkey x = none := by
  cases hk : pSemkey x with
  | none =>
      rfl
  | some key =>
      cases h.separated.unique .free (.blocked key) x hx ((h.semkey x key).mp hk)

theorem semkey_of_ready (hx : x ∈ ready) : pSemkey x = none := by
  cases hk : pSemkey x with
  | none =>
      rfl
  | some key =>
      cases h.separated.unique .ready (.blocked key) x hx ((h.semkey x key).mp hk)

theorem semkey_eq_none_iff : pSemkey x = none ↔ ∀ key, x ∉ asl.waitQueue key := by
  constructor
  · intro hk key hx
    rw [(h.semkey x key).mpr hx] at hk
    exact Option.some_ne_none key hk
  · intro hx
    cases hk : pSemkey x with
    | none =>
        rfl
    | some key =>
        exact absurd ((h.semkey x key).mp hk) (hx key)

theorem absent_of_semkey
    (hfree : x ∉ free) (hready : x ∉ ready) (hk : pSemkey x = none) :
    Absent asl free ready x :=
  absent_iff.mpr ⟨hfree, hready, h.semkey_eq_none_iff.mp hk⟩

theorem semkey_of_absent (hx : Absent asl free ready x) : pSemkey x = none :=
  h.semkey_eq_none_iff.mpr (absent_iff.mp hx).2.2

/-- The keys of the active descriptors, and the waiting processes behind them. -/
theorem exists_free_semd
    (hx : Absent asl free ready x) (hidle : Absent asl free ready .idle)
    (hne : x ≠ .idle) :
    asl.semdFreeH ≠ [] := by
  intro hnil
  -- one nonempty queue for each descriptor, all of them active
  choose key hkey using h.aslOk.hasKey
  let place : Semd → Place := fun s =>
    if hs : s ∈ asl.semdH then .blocked (key s hs) else .free
  have hplace : ∀ s (hs : s ∈ asl.semdH), place s = .blocked (key s hs) := by
    intro s hs
    simp [place, hs]
  have hinj : ∀ s ∈ asl.semdH, ∀ t ∈ asl.semdH, place s = place t → s = t := by
    intro s hs t ht hst
    rw [hplace s hs, hplace t ht] at hst
    refine h.aslOk.keyInj s hs t ht ?_
    rw [hkey s hs, hkey t ht, Place.blocked.inj hst]
  have hcard := h.separated.length_add_card_le (asl.semdH.map place)
    (h.aslOk.activeNodup.map_on hinj)
    (by
      intro i hi
      obtain ⟨s, hs, rfl⟩ := List.mem_map.mp hi
      rw [hplace s hs]
      show asl.waitQueue (key s hs) ≠ []
      rw [h.aslOk.waitQueue_of_mem hs (hkey s hs)]
      exact h.aslOk.nonempty s hs)
    {x, .idle}
    (by
      intro y hy
      rcases Finset.mem_insert.mp hy with rfl | hy
      · exact hx
      · rw [Finset.mem_singleton.mp hy]
        exact hidle)
  have hall : asl.semdH.length = MAXPROC := by
    have huniv : asl.semdH.toFinset = Finset.univ := by
      ext s
      have := h.aslOk.activeOrFree s
      rw [hnil] at this
      simpa using this
    rw [← List.toFinset_card_of_nodup h.aslOk.activeNodup, huniv, Finset.card_univ,
      Fintype.card_fin]
  rw [List.length_map, hall, Finset.card_pair hne, Proc.card] at hcard
  omega

end Facts

section Moves

variable (h : Residence asl free ready pSemkey)
include h

theorem enterReady
    (hx : Absent asl free ready x) (hq : q.Perm (x :: ready)) :
    Residence asl free q pSemkey where
  aslOk := h.aslOk
  separated := by
    rw [placeQueues_ready asl free ready]
    exact h.separated.insert hx hq
  semkey := h.semkey

theorem leaveReady
    (hq : q.Sublist ready) :
    Residence asl free q pSemkey where
  aslOk := h.aslOk
  separated := by
    rw [placeQueues_ready asl free ready]
    exact h.separated.remove hq
  semkey := h.semkey

theorem enterFree
    (hx : Absent asl free ready x) :
    Residence asl (x :: free) ready pSemkey where
  aslOk := h.aslOk
  separated := by
    rw [placeQueues_free asl free ready]
    exact h.separated.insert hx (List.Perm.refl _)
  semkey := h.semkey

theorem leaveFree
    (hq : q.Sublist free) :
    Residence asl q ready pSemkey where
  aslOk := h.aslOk
  separated := by
    rw [placeQueues_free asl free ready]
    exact h.separated.remove hq
  semkey := h.semkey

theorem block
    (hx : Absent asl free ready x) (hOk : asl'.Ok)
    (hwait : asl'.waitQueue = Function.update asl.waitQueue key q)
    (hq : q.Perm (x :: asl.waitQueue key)) :
    Residence asl' free ready (Function.update pSemkey x (some key)) where
  aslOk := hOk
  separated := by
    rw [placeQueues_blocked asl free ready hwait]
    exact h.separated.insert hx hq
  semkey := by
    intro y key'
    have hsep := h.separated.insert (i := Place.blocked key) hx hq
    rw [← placeQueues_blocked asl free ready hwait] at hsep
    have hxq : x ∈ asl'.waitQueue key := by
      rw [hwait, Function.update_self, hq.mem_iff]
      exact List.mem_cons_self
    by_cases hyx : y = x
    · subst hyx
      rw [Function.update_self, Option.some_inj]
      constructor
      · rintro rfl
        exact hxq
      · intro hy
        exact Place.blocked.inj (hsep.unique (.blocked key) (.blocked key') y hxq hy)
    · rw [Function.update_of_ne hyx, h.semkey y key', hwait]
      by_cases hk : key' = key
      · subst hk
        rw [Function.update_self, hq.mem_iff]
        simp [hyx]
      · rw [Function.update_of_ne hk]

theorem unblock
    (hOk : asl'.Ok)
    (hx : x ∈ asl.waitQueue key)
    (hwait : asl'.waitQueue = Function.update asl.waitQueue key q)
    (hq : (asl.waitQueue key).Perm (x :: q)) (hsub : q.Sublist (asl.waitQueue key)) :
    Residence asl' free ready (Function.update pSemkey x none) ∧
      Absent asl' free ready x := by
  have hxq : x ∉ q := by
    have hnodup := (hq.nodup_iff).mp (h.wait_nodup key)
    exact (List.nodup_cons.mp hnodup).1
  have habsent : Absent asl' free ready x := by
    show Unplaced (placeQueues asl' free ready) x
    rw [placeQueues_blocked asl free ready hwait]
    exact h.separated.unplaced_of_remove (i := Place.blocked key) hx hxq
  refine ⟨⟨hOk, ?_, ?_⟩, habsent⟩
  · rw [placeQueues_blocked asl free ready hwait]
    exact h.separated.remove hsub
  · intro y key'
    by_cases hyx : y = x
    · subst hyx
      rw [Function.update_self]
      constructor
      · intro hnone
        exact absurd hnone (by simp)
      · intro hy
        exact absurd hy (habsent (.blocked key'))
    · rw [Function.update_of_ne hyx, h.semkey y key', hwait]
      by_cases hk : key' = key
      · subst hk
        rw [Function.update_self, hq.mem_iff]
        simp [hyx]
      · rw [Function.update_of_ne hk]

end Moves

section Absence

theorem absent_enterReady
    (hy : Absent asl free ready y) (hne : y ≠ x) (hq : q.Perm (x :: ready)) :
    Absent asl free q y := by
  show Unplaced (placeQueues asl free q) y
  rw [placeQueues_ready asl free ready]
  exact Unplaced.insert hy hne hq

theorem absent_leaveReady
    (hy : Absent asl free ready y) (hq : q ⊆ ready) :
    Absent asl free q y := by
  show Unplaced (placeQueues asl free q) y
  rw [placeQueues_ready asl free ready]
  exact Unplaced.remove hy hq

theorem absent_leaveFree
    (hy : Absent asl free ready y) (hq : q ⊆ free) :
    Absent asl q ready y := by
  show Unplaced (placeQueues asl q ready) y
  rw [placeQueues_free asl free ready]
  exact Unplaced.remove hy hq

theorem absent_block
    (hy : Absent asl free ready y) (hne : y ≠ x)
    (hwait : asl'.waitQueue = Function.update asl.waitQueue key q)
    (hq : q.Perm (x :: asl.waitQueue key)) :
    Absent asl' free ready y := by
  show Unplaced (placeQueues asl' free ready) y
  rw [placeQueues_blocked asl free ready hwait]
  exact Unplaced.insert hy hne hq

theorem absent_unblock
    (hy : Absent asl free ready y)
    (hwait : asl'.waitQueue = Function.update asl.waitQueue key q)
    (hq : q ⊆ asl.waitQueue key) :
    Absent asl' free ready y := by
  show Unplaced (placeQueues asl' free ready) y
  rw [placeQueues_blocked asl free ready hwait]
  exact Unplaced.remove hy hq

/-- The first ready process, taken out of the queue. -/
theorem absent_readyHead
    (h : Residence asl free (x :: q) pSemkey) :
    Absent asl free q x := by
  show Unplaced (placeQueues asl free q) x
  rw [placeQueues_ready asl free (x :: q)]
  exact h.separated.unplaced_of_remove (i := Place.ready) List.mem_cons_self
    (List.nodup_cons.mp h.ready_nodup).1

/-- The first free PCB, taken out of the list. -/
theorem absent_freeHead
    (h : Residence asl (x :: q) ready pSemkey) :
    Absent asl q ready x := by
  show Unplaced (placeQueues asl q ready) x
  rw [placeQueues_free asl (x :: q) ready]
  exact h.separated.unplaced_of_remove (i := Place.free) List.mem_cons_self
    (List.nodup_cons.mp h.free_nodup).1

/-- A ready process, unlinked from the queue. -/
theorem absent_eraseReady
    (h : Residence asl free ready pSemkey) (hx : x ∈ ready) :
    Absent asl free (ready.erase x) x := by
  show Unplaced (placeQueues asl free (ready.erase x)) x
  rw [placeQueues_ready asl free ready]
  exact h.separated.unplaced_of_remove (i := Place.ready) hx
    (fun hmem => (h.ready_nodup.mem_erase_iff.mp hmem).1 rfl)

end Absence

end Residence

end Bikaya
