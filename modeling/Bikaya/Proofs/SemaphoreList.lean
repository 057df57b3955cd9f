import Bikaya.Proofs.ProcessQueue

/-!
# Bikaya: the active semaphore list

The representation invariant of `asl.c`, and what its functions do in terms of the queue of
processes waiting on a key.  Once the invariant holds, the descriptors are never mentioned
again: a semaphore is its waiting queue.

**Plan.**  A descriptor is active exactly while its queue is not empty, and distinct active
descriptors have distinct keys (`Asl.Ok`).  So a semaphore is given by `waitQueue`, and
every function changes the queue of one key.

**Results.**
* `insertBlocked_spec`, `insertBlockedFifo_spec`: a process enters the queue of its key.
* `removeBlocked_nil`, `removeBlocked_cons`, `outBlocked_spec`: it leaves the queue.
* `headBlocked_eq`: the first of the queue.
* `ageBlocked_eq`: the ageing loop on the queue of a key.
-/

namespace Bikaya

namespace Asl

/--
The invariant of the descriptor tables: every descriptor is either active or
free, and the active ones have distinct keys and nonempty queues.
-/
structure Ok (a : Asl) : Prop where
  activeNodup : a.semdH.Nodup
  freeNodup : a.semdFreeH.Nodup
  activeOrFree : ∀ s, s ∈ a.semdH ∨ s ∈ a.semdFreeH
  notBoth : ∀ s ∈ a.semdH, s ∉ a.semdFreeH
  hasKey : ∀ s ∈ a.semdH, ∃ key, a.sKey s = some key
  keyInj : ∀ s ∈ a.semdH, ∀ t ∈ a.semdH, a.sKey s = a.sKey t → s = t
  nonempty : ∀ s ∈ a.semdH, a.sProcQ s ≠ []

/-- The processes waiting on a key, the first one to be woken first. -/
def waitQueue (a : Asl) (key : SemKey) : List Proc :=
  match a.getSemd (some key) with
  | none => []
  | some s => a.sProcQ s

theorem getSemd_mem
    {a : Asl} {key : Option SemKey} {s : Semd}
    (h : a.getSemd key = some s) :
    s ∈ a.semdH ∧ a.sKey s = key :=
  ⟨List.mem_of_find?_eq_some h, by simpa using List.find?_some h⟩

theorem getSemd_eq_none
    {a : Asl} {key : Option SemKey} :
    a.getSemd key = none ↔ ∀ s ∈ a.semdH, a.sKey s ≠ key := by
  simp [getSemd, List.find?_eq_none]

namespace Ok

variable {a : Asl}

theorem getSemd_of_mem
    (h : a.Ok) {s : Semd} (hs : s ∈ a.semdH) :
    a.getSemd (a.sKey s) = some s := by
  cases hg : a.getSemd (a.sKey s) with
  | none =>
      exact absurd rfl (getSemd_eq_none.mp hg s hs)
  | some t =>
      obtain ⟨ht, hkey⟩ := getSemd_mem hg
      rw [h.keyInj t ht s hs hkey]

theorem waitQueue_of_mem
    (h : a.Ok) {s : Semd} (hs : s ∈ a.semdH) {key : SemKey}
    (hkey : a.sKey s = some key) :
    a.waitQueue key = a.sProcQ s := by
  rw [waitQueue, ← hkey, h.getSemd_of_mem hs]

theorem waitQueue_of_none
    {key : SemKey} (hg : a.getSemd (some key) = none) :
    a.waitQueue key = [] := by
  rw [waitQueue, hg]

/-- A key has waiting processes exactly when it has an active descriptor. -/
theorem waitQueue_eq_nil_iff
    (h : a.Ok) (key : SemKey) :
    a.waitQueue key = [] ↔ a.getSemd (some key) = none := by
  constructor
  · intro hq
    cases hg : a.getSemd (some key) with
    | none =>
        rfl
    | some s =>
        obtain ⟨hs, hkey⟩ := getSemd_mem hg
        rw [h.waitQueue_of_mem hs hkey] at hq
        exact absurd hq (h.nonempty s hs)
  · exact waitQueue_of_none

/-- Replacing the queue of an active descriptor by a nonempty one. -/
theorem setProcQ
    (h : a.Ok) {s : Semd} {q : List Proc} (hq : q ≠ []) :
    (a.setProcQ s q).Ok where
  activeNodup := h.activeNodup
  freeNodup := h.freeNodup
  activeOrFree := h.activeOrFree
  notBoth := h.notBoth
  hasKey := h.hasKey
  keyInj := h.keyInj
  nonempty := by
    intro t ht
    by_cases hts : t = s
    · subst hts
      simpa [Asl.setProcQ] using hq
    · simpa [Asl.setProcQ, hts] using h.nonempty t ht

theorem waitQueue_setProcQ
    (h : a.Ok) {s : Semd} (hs : s ∈ a.semdH) {key : SemKey}
    (hkey : a.sKey s = some key) (q : List Proc) :
    (a.setProcQ s q).waitQueue = Function.update a.waitQueue key q := by
  funext key'
  have hget : (a.setProcQ s q).getSemd (some key') = a.getSemd (some key') := rfl
  by_cases hk : key' = key
  · subst hk
    rw [Function.update_self, waitQueue, hget, ← hkey, h.getSemd_of_mem hs]
    simp [Asl.setProcQ]
  · rw [Function.update_of_ne hk]
    unfold waitQueue
    rw [hget]
    cases hg : a.getSemd (some key') with
    | none =>
        rfl
    | some t =>
        have hts : t ≠ s := by
          intro hts
          have := (getSemd_mem hg).2
          rw [hts, hkey] at this
          exact hk (Option.some.inj this).symm
        simp [Asl.setProcQ, hts]

/-- Emptying the queue of an active descriptor and freeing the descriptor. -/
theorem freeEmptied
    (h : a.Ok) {s : Semd} (hs : s ∈ a.semdH) :
    ((a.setProcQ s []).freeSemdIfEmpty s).Ok := by
  have hmem : ∀ t, t ∈ a.semdH.erase s ↔ t ≠ s ∧ t ∈ a.semdH :=
    fun t => h.activeNodup.mem_erase_iff
  simp only [freeSemdIfEmpty, Asl.setProcQ, Function.update_self, if_true]
  constructor
  · exact h.activeNodup.erase s
  · exact List.nodup_cons.mpr ⟨h.notBoth s hs, h.freeNodup⟩
  · intro t
    by_cases hts : t = s
    · exact Or.inr (by simp [hts])
    · rcases h.activeOrFree t with ht | ht
      · exact Or.inl ((hmem t).mpr ⟨hts, ht⟩)
      · exact Or.inr (List.mem_cons_of_mem _ ht)
  · intro t ht hfree
    obtain ⟨hts, ht⟩ := (hmem t).mp ht
    rcases List.mem_cons.mp hfree with hfree | hfree
    · exact hts hfree
    · exact h.notBoth t ht hfree
  · intro t ht
    exact h.hasKey t ((hmem t).mp ht).2
  · intro t ht u hu
    exact h.keyInj t ((hmem t).mp ht).2 u ((hmem u).mp hu).2
  · intro t ht
    obtain ⟨hts, ht⟩ := (hmem t).mp ht
    simpa [hts] using h.nonempty t ht

theorem waitQueue_freeEmptied
    (h : a.Ok) {s : Semd} (hs : s ∈ a.semdH) {key : SemKey}
    (hkey : a.sKey s = some key) :
    ((a.setProcQ s []).freeSemdIfEmpty s).waitQueue =
      Function.update a.waitQueue key [] := by
  have hOk := h.freeEmptied hs
  have hmem : ∀ t, t ∈ ((a.setProcQ s []).freeSemdIfEmpty s).semdH ↔
      t ≠ s ∧ t ∈ a.semdH := by
    intro t
    simp only [freeSemdIfEmpty, Asl.setProcQ, Function.update_self, if_true]
    exact h.activeNodup.mem_erase_iff
  have hsKey : ((a.setProcQ s []).freeSemdIfEmpty s).sKey = a.sKey := by
    simp [freeSemdIfEmpty, Asl.setProcQ]
  have hsProcQ : ((a.setProcQ s []).freeSemdIfEmpty s).sProcQ =
      Function.update a.sProcQ s [] := by
    simp [freeSemdIfEmpty, Asl.setProcQ]
  funext key'
  by_cases hk : key' = key
  · subst hk
    rw [Function.update_self, hOk.waitQueue_eq_nil_iff, getSemd_eq_none]
    intro t ht hkey'
    rw [hsKey] at hkey'
    obtain ⟨hts, ht⟩ := (hmem t).mp ht
    exact hts (h.keyInj t ht s hs (hkey'.trans hkey.symm))
  · rw [Function.update_of_ne hk]
    cases hg : a.getSemd (some key') with
    | none =>
        rw [waitQueue_of_none hg, hOk.waitQueue_eq_nil_iff, getSemd_eq_none]
        intro t ht
        rw [hsKey]
        exact getSemd_eq_none.mp hg t ((hmem t).mp ht).2
    | some t =>
        obtain ⟨ht, hkey'⟩ := getSemd_mem hg
        have hts : t ≠ s := by
          intro hts
          rw [hts, hkey] at hkey'
          exact hk (Option.some.inj hkey').symm
        rw [h.waitQueue_of_mem ht hkey',
          hOk.waitQueue_of_mem ((hmem t).mpr ⟨hts, ht⟩) (by rw [hsKey]; exact hkey'),
          hsProcQ, Function.update_of_ne hts]

/-- Shrinking the queue of an active descriptor, which is freed when it gets empty. -/
theorem shrink
    (h : a.Ok) {s : Semd} (hs : s ∈ a.semdH) {key : SemKey}
    (hkey : a.sKey s = some key) (q : List Proc) :
    ((a.setProcQ s q).freeSemdIfEmpty s).Ok ∧
      ((a.setProcQ s q).freeSemdIfEmpty s).waitQueue =
        Function.update a.waitQueue key q := by
  by_cases hq : q = []
  · subst hq
    exact ⟨h.freeEmptied hs, h.waitQueue_freeEmptied hs hkey⟩
  · have hsame : (a.setProcQ s q).freeSemdIfEmpty s = a.setProcQ s q := by
      simp [freeSemdIfEmpty, Asl.setProcQ, hq]
    rw [hsame]
    exact ⟨h.setProcQ hq, h.waitQueue_setProcQ hs hkey q⟩

/-- Taking a free descriptor for a key that has none, and filling its queue. -/
theorem retrieve
    (h : a.Ok) {key : SemKey} (hnone : a.getSemd (some key) = none)
    {s : Semd} {free : List Semd} (hfree : a.semdFreeH = s :: free)
    {q : List Proc} (hq : q ≠ []) :
    ((a.retrieveFreeSemd key).2.setProcQ s q).Ok ∧
      ((a.retrieveFreeSemd key).2.setProcQ s q).waitQueue =
        Function.update a.waitQueue key q := by
  have hs : s ∉ a.semdH := by
    intro hs
    exact h.notBoth s hs (by simp [hfree])
  have hnodup : s ∉ free ∧ free.Nodup := by
    simpa [hfree] using h.freeNodup
  have hkeys : ∀ t ∈ a.semdH, a.sKey t ≠ some key := getSemd_eq_none.mp hnone
  simp only [retrieveFreeSemd, hfree, Asl.setProcQ, Function.update_idem]
  -- the fields of the new table, as seen by the other descriptors
  have hne : ∀ t ∈ a.semdH, t ≠ s := fun t ht hts => hs (hts ▸ ht)
  have hOk : Ok
      { sKey := Function.update a.sKey s (some key)
        sProcQ := Function.update a.sProcQ s q
        semdH := s :: a.semdH
        semdFreeH := free } := by
    constructor
    · exact List.nodup_cons.mpr ⟨hs, h.activeNodup⟩
    · exact hnodup.2
    · intro t
      rcases h.activeOrFree t with ht | ht
      · exact Or.inl (List.mem_cons_of_mem _ ht)
      · rw [hfree] at ht
        rcases List.mem_cons.mp ht with rfl | ht
        · exact Or.inl List.mem_cons_self
        · exact Or.inr ht
    · intro t ht hfree'
      rcases List.mem_cons.mp ht with rfl | ht
      · exact hnodup.1 hfree'
      · exact h.notBoth t ht (by simp [hfree, hfree'])
    · intro t ht
      rcases List.mem_cons.mp ht with rfl | ht
      · exact ⟨key, by simp⟩
      · simpa [hne t ht] using h.hasKey t ht
    · intro t ht u hu htu
      rcases List.mem_cons.mp ht with hts | hta
      · rcases List.mem_cons.mp hu with hus | hua
        · rw [hts, hus]
        · simp only [hts, Function.update_self, Function.update_of_ne (hne u hua)] at htu
          exact absurd htu.symm (hkeys u hua)
      · rcases List.mem_cons.mp hu with hus | hua
        · simp only [hus, Function.update_self, Function.update_of_ne (hne t hta)] at htu
          exact absurd htu (hkeys t hta)
        · simp only [Function.update_of_ne (hne t hta), Function.update_of_ne (hne u hua)] at htu
          exact h.keyInj t hta u hua htu
    · intro t ht
      rcases List.mem_cons.mp ht with rfl | ht
      · simpa using hq
      · simpa [hne t ht] using h.nonempty t ht
  refine ⟨hOk, ?_⟩
  funext key'
  by_cases hk : key' = key
  · subst hk
    rw [Function.update_self,
      hOk.waitQueue_of_mem (s := s) List.mem_cons_self (Function.update_self _ _ _)]
    exact Function.update_self _ _ _
  · rw [Function.update_of_ne hk]
    cases hg : a.getSemd (some key') with
    | none =>
        rw [waitQueue_of_none hg, hOk.waitQueue_eq_nil_iff, getSemd_eq_none]
        intro t ht
        rcases List.mem_cons.mp ht with rfl | ht
        · simpa using Ne.symm hk
        · simpa [hne t ht] using getSemd_eq_none.mp hg t ht
    | some t =>
        obtain ⟨ht, hkey'⟩ := getSemd_mem hg
        rw [h.waitQueue_of_mem ht hkey',
          hOk.waitQueue_of_mem (List.mem_cons_of_mem _ ht)
            (by simpa [hne t ht] using hkey')]
        exact Function.update_of_ne (hne t ht) _ _

/--
An insertion finds its descriptor unless the key has no waiting process and no
descriptor is free; the queue it works on is the waiting queue of the key.
-/
theorem targetSemd
    (h : a.Ok) (key : SemKey)
    (hroom : a.waitQueue key ≠ [] ∨ a.semdFreeH ≠ []) :
    ∃ s a',
      a.targetSemd key = (some s, a') ∧
      a'.sProcQ s = a.waitQueue key ∧
      ∀ q, q ≠ [] →
        (a'.setProcQ s q).Ok ∧
          (a'.setProcQ s q).waitQueue = Function.update a.waitQueue key q := by
  cases hg : a.getSemd (some key) with
  | some s =>
      obtain ⟨hs, hkey⟩ := getSemd_mem hg
      refine ⟨s, a, by simp [Asl.targetSemd, hg], (h.waitQueue_of_mem hs hkey).symm, ?_⟩
      intro q hq
      exact ⟨h.setProcQ hq, h.waitQueue_setProcQ hs hkey q⟩
  | none =>
      have hempty := waitQueue_of_none hg
      cases hfree : a.semdFreeH with
      | nil =>
          rw [hempty, hfree] at hroom
          exact absurd hroom (by simp)
      | cons s free =>
          refine ⟨s, (a.retrieveFreeSemd key).2, ?_, ?_, ?_⟩
          · simp [Asl.targetSemd, hg, retrieveFreeSemd, hfree]
          · rw [hempty]
            simp [retrieveFreeSemd, hfree]
          · intro q hq
            exact h.retrieve hg hfree hq

end Ok

theorem targetSemd_eq_none
    {a : Asl} {key : SemKey}
    (hnone : a.getSemd (some key) = none) (hfree : a.semdFreeH = []) :
    a.targetSemd key = (none, a) := by
  simp [Asl.targetSemd, hnone, retrieveFreeSemd, hfree]

end Asl

namespace Kernel

variable {A : Arch} {k : Kernel A}

/-- The processes waiting on a key. -/
def waitQueue (k : Kernel A) (key : SemKey) : List Proc :=
  k.asl.waitQueue key

/-- `insertBlocked` puts `p` into the waiting queue, at its priority. -/
theorem insertBlocked_spec
    (h : k.asl.Ok) (key : SemKey) (p : Proc)
    (hroom : k.waitQueue key ≠ [] ∨ k.asl.semdFreeH ≠ []) :
    ∃ a : Asl,
      k.insertBlocked key p =
        (false, { k with asl := a, pSemkey := Function.update k.pSemkey p (some key) }) ∧
      a.Ok ∧
      a.waitQueue =
        Function.update k.waitQueue key (insertProcQ k.priority (k.waitQueue key) p) := by
  obtain ⟨s, a, htarget, hqueue, hset⟩ := h.targetSemd key hroom
  obtain ⟨hOk, hwait⟩ := hset _ (insertProcQ_ne_nil k.priority (a.sProcQ s) p)
  refine ⟨_, by simp only [insertBlocked, htarget], hOk, ?_⟩
  rw [hwait, hqueue]
  rfl

/-- `insertBlockedFifo` puts `p` at the end of the waiting queue. -/
theorem insertBlockedFifo_spec
    (h : k.asl.Ok) (key : SemKey) (p : Proc)
    (hroom : k.waitQueue key ≠ [] ∨ k.asl.semdFreeH ≠ []) :
    ∃ a : Asl,
      k.insertBlockedFifo key p =
        (false, { k with asl := a, pSemkey := Function.update k.pSemkey p (some key) }) ∧
      a.Ok ∧
      a.waitQueue = Function.update k.waitQueue key (k.waitQueue key ++ [p]) := by
  obtain ⟨s, a, htarget, hqueue, hset⟩ := h.targetSemd key hroom
  obtain ⟨hOk, hwait⟩ := hset (a.sProcQ s ++ [p]) (by simp)
  refine ⟨_, by simp only [insertBlockedFifo, htarget], hOk, ?_⟩
  rw [hwait, hqueue]
  rfl

/-- Nothing is removed from a key without waiting processes. -/
theorem removeBlocked_nil
    (h : k.asl.Ok) {key : SemKey} (hq : k.waitQueue key = []) :
    k.removeBlocked key = (none, k) := by
  have hg := (h.waitQueue_eq_nil_iff key).mp hq
  simp only [removeBlocked, hg]

/-- `removeBlocked` takes the first process of the waiting queue. -/
theorem removeBlocked_cons
    (h : k.asl.Ok) {key : SemKey} {p : Proc} {q : List Proc}
    (hq : k.waitQueue key = p :: q) :
    ∃ a : Asl,
      k.removeBlocked key =
        (some p, { k with asl := a, pSemkey := Function.update k.pSemkey p none }) ∧
      a.Ok ∧
      a.waitQueue = Function.update k.waitQueue key q := by
  cases hg : k.asl.getSemd (some key) with
  | none =>
      rw [waitQueue, Asl.Ok.waitQueue_of_none hg] at hq
      exact absurd hq (by simp)
  | some s =>
      obtain ⟨hs, hkey⟩ := Asl.getSemd_mem hg
      have hproc : k.asl.sProcQ s = p :: q := by
        rw [← h.waitQueue_of_mem hs hkey]
        exact hq
      obtain ⟨hOk, hwait⟩ := h.shrink hs hkey q
      refine ⟨_, ?_, hOk, hwait⟩
      simp only [removeBlocked, hg, hproc, removeProcQ_cons]

/-- `outBlocked` takes a blocked process out of the queue it waits in. -/
theorem outBlocked_spec
    (h : k.asl.Ok) {key : SemKey} {p : Proc}
    (hkey : k.pSemkey p = some key) (hp : p ∈ k.waitQueue key) :
    ∃ a : Asl,
      k.outBlocked p =
        (some p, { k with asl := a, pSemkey := Function.update k.pSemkey p none }) ∧
      a.Ok ∧
      a.waitQueue = Function.update k.waitQueue key ((k.waitQueue key).erase p) := by
  cases hg : k.asl.getSemd (some key) with
  | none =>
      rw [waitQueue, Asl.Ok.waitQueue_of_none hg] at hp
      exact absurd hp List.not_mem_nil
  | some s =>
      obtain ⟨hs, hsKey⟩ := Asl.getSemd_mem hg
      have hqueue : k.waitQueue key = k.asl.sProcQ s := h.waitQueue_of_mem hs hsKey
      obtain ⟨hOk, hwait⟩ := h.shrink hs hsKey ((k.asl.sProcQ s).erase p)
      refine ⟨_, ?_, hOk, by rw [hwait, hqueue]; rfl⟩
      rw [hqueue] at hp
      simp only [outBlocked, hkey, hg, outProcQ_eq, hp, if_true]

/-- `headBlocked` returns the first process of the waiting queue. -/
theorem headBlocked_eq
    (key : SemKey) :
    k.headBlocked key = (k.waitQueue key).head? := by
  unfold headBlocked waitQueue Asl.waitQueue
  cases k.asl.getSemd (some key) <;> rfl

/-- The loop of `v` ages the waiting queue. -/
theorem ageBlocked_eq
    (m : IntModel) (k : Kernel A) (key : SemKey) :
    k.ageBlocked m key =
      { k with priority := raisePriorities m k.priority (k.waitQueue key) } := by
  unfold ageBlocked waitQueue Asl.waitQueue
  cases k.asl.getSemd (some key) <;> rfl

end Kernel

end Bikaya
