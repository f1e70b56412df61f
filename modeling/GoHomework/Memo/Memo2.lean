import GoHomework.Memo.Memo1
import GoHomework.Memo.Mutex
import Mathlib.Logic.Relation
import Mathlib.Data.List.Nodup

/-!
# `memo2`: memoization under one mutex

`Memo.Get` of `memo2` (`unnamed/part_002`, lines 555–612) is `memo1`'s `Get` between
`memo.mu.Lock()` and `memo.mu.Unlock()`, with `f(key)` run while the lock is held.  Any number
of goroutines call `Get`, goroutine `t` with key `key t`; each statement that touches shared
state is one atomic action: taking the lock, looking the key up, calling `f`, storing its
result, releasing the lock.  `f` may answer anything, the answer being a free choice of the
`call` action.  Two ghost lists record what happened: `calls`, every call of `f` with its key
and answer, and `order`, every `Get` at the point where it read or wrote the cache, in the
order of the critical sections.

The two main results hold over every interleaving.  `linearizable`: replaying the `Get`s of
`order` one after another through `memo1` gives exactly the results they returned and the
cache `memo2` holds, so the concurrent `memo2` behaves as the sequential `memo1`.
`mutex_single_flight`: one goroutine at most holds `mu`, `f(k)` is called at most once for
each key, and every `Get(k)` that returned gave that call's answer.  Beside them,
`deadlock_free`: from every reachable state each goroutine can still return from `Get`.
-/

namespace Memo2

open Mutex

/-- Where a goroutine in `Get` stands. -/
inductive Pc (R : Type) where
  /-- Before `memo.mu.Lock()` (line 602). -/
  | start
  /-- Holding `mu`; `res, ok := memo.cache[key]` next (line 603). -/
  | lookup
  /-- A miss: `f(key)` runs next, under the lock (line 607). -/
  | call
  /-- `f` answered `r`; `memo.cache[key] = res` next (line 608). -/
  | store (r : R)
  /-- `memo.mu.Unlock()` next, with the result `r` (line 610). -/
  | unlock (r : R)
  /-- Returned `r` (line 611). -/
  | done (r : R)

/-- The goroutine is between `memo.mu.Lock()` and `memo.mu.Unlock()`. -/
def Pc.holds {R : Type} : Pc R → Bool
  | .lookup | .call | .store _ | .unlock _ => true
  | .start | .done _ => false

/-- The memo and its goroutines: `cache` is `memo.cache`, `locked` the state of `memo.mu`,
`pcs` each goroutine's position; `calls` and `order` are the ghost logs. -/
structure State (R : Type) where
  cache : String → Option R
  locked : Bool
  pcs : Nat → Pc R
  calls : List (String × R)
  order : List (Nat × String × R)

/-- `New(f)`, with every goroutine about to call `Get`. -/
def init {R : Type} : State R := ⟨fun _ => none, false, fun _ => .start, [], []⟩

/-- One atomic action of goroutine `t`. -/
inductive Action (R : Type) where
  /-- `memo.mu.Lock()`; enabled while `mu` is unlocked. -/
  | lock (t : Nat)
  /-- `res, ok := memo.cache[key]`. -/
  | lookup (t : Nat)
  /-- `f(key)` answers `r`. -/
  | call (t : Nat) (r : R)
  /-- `memo.cache[key] = res`. -/
  | store (t : Nat)
  /-- `memo.mu.Unlock()`, then `return`. -/
  | unlock (t : Nat)

variable {R : Type} (key : Nat → String)

/-- The state after an action, or `none` when the action is not enabled. -/
def step (s : State R) : Action R → Option (State R)
  | .lock t =>
    match s.pcs t with
    | .start => if s.locked then none
      else some { s with locked := true, pcs := Function.update s.pcs t .lookup }
    | _ => none
  | .lookup t =>
    match s.pcs t with
    | .lookup =>
      match s.cache (key t) with
      | some v => some { s with
          pcs := Function.update s.pcs t (.unlock v), order := s.order ++ [(t, key t, v)] }
      | none => some { s with pcs := Function.update s.pcs t .call }
    | _ => none
  | .call t r =>
    match s.pcs t with
    | .call => some { s with
        pcs := Function.update s.pcs t (.store r), calls := s.calls ++ [(key t, r)] }
    | _ => none
  | .store t =>
    match s.pcs t with
    | .store r => some { s with
        cache := Function.update s.cache (key t) (some r)
        pcs := Function.update s.pcs t (.unlock r)
        order := s.order ++ [(t, key t, r)] }
    | _ => none
  | .unlock t =>
    match s.pcs t with
    | .unlock r => some { s with locked := false, pcs := Function.update s.pcs t (.done r) }
    | _ => none

/-- One step of some goroutine. -/
def Step (s s' : State R) : Prop := ∃ a, step key s a = some s'

/-- The states some interleaving reaches from `init`. -/
def Reachable (s : State R) : Prop := Relation.ReflTransGen (Step key) init s

/-- The state after the actions `as` one after another, or `none` if one is not enabled. -/
def exec (s : State R) : List (Action R) → Option (State R)
  | [] => some s
  | a :: as => (step key s a).bind fun s' => exec s' as

/-! ## The invariant -/

/-- What goroutine `t` at each point of `Get` knows: after a miss, until it stores, its key is
uncached; once it has stored or hit, its `Get` is in `order` with the logged result of its
key. -/
def PcOk (s : State R) (t : Nat) : Pc R → Prop
  | .start | .lookup => True
  | .call => s.cache (key t) = none
  | .store r => s.cache (key t) = none ∧ (key t, r) ∈ s.calls
  | .unlock r | .done r => (t, key t, r) ∈ s.order ∧ (key t, r) ∈ s.calls

/-- What holds in every reachable state: replaying `order` through `memo1` gives the results
recorded there and the cache; `mu` is locked exactly when one goroutine holds it; the log has
one call per key, and each call's answer is cached or about to be stored; every cached result
is a logged call; and every goroutine meets its assertion. -/
structure Inv (s : State R) : Prop where
  lin : Memo1.run (s.order.map Prod.snd) (fun _ => none) = (s.order.map fun o => o.2.2, s.cache)
  lock : LockOk Pc.holds s.locked s.pcs
  calls_nodup : (s.calls.map Prod.fst).Nodup
  calls_cached : ∀ k r, (k, r) ∈ s.calls →
    s.cache k = some r ∨ ∃ t, key t = k ∧ s.pcs t = .store r
  cache_called : ∀ k r, s.cache k = some r → (k, r) ∈ s.calls
  pcOk : ∀ t, PcOk key s t (s.pcs t)

theorem inv_init : Inv key (init : State R) where
  lin := rfl
  lock := lockOk_init rfl
  calls_nodup := List.nodup_nil
  calls_cached := by simp [init]
  cache_called := by simp [init]
  pcOk := fun _ => trivial

variable {key} {s s' : State R}

/-- An assertion outside the critical section only reads the logs, which only grow. -/
theorem PcOk.mono {t : Nat} {p : Pc R} (h : PcOk key s t p) (hp : p.holds = false)
    (ho : s.order ⊆ s'.order) (hc : s.calls ⊆ s'.calls) : PcOk key s' t p := by
  cases p with
  | start => trivial
  | done r => exact ⟨ho h.1, hc h.2⟩
  | lookup | call | store _ | unlock _ => cases hp

/-- Only goroutine `t` moves, to `p`, which meets its assertion; everybody else is outside the
critical section, and the logs only grow: then every goroutine meets its assertion. -/
theorem Inv.pcOk_update (hs : Inv key s) {t : Nat} {p : Pc R} (hp : PcOk key s' t p)
    (hout : ∀ t', t' ≠ t → (s.pcs t').holds = false) (ho : s.order ⊆ s'.order)
    (hc : s.calls ⊆ s'.calls) : ∀ t', PcOk key s' t' (Function.update s.pcs t p t') := by
  intro t'
  rw [Function.update_apply]
  split_ifs with e
  · subst e; exact hp
  · exact (hs.pcOk t').mono (hout t' e) ho hc

/-- Everybody but the holder of `mu` is outside the critical section. -/
theorem Inv.outside (hs : Inv key s) {t : Nat} (ht : (s.pcs t).holds = true) :
    ∀ t', t' ≠ t → (s.pcs t').holds = false :=
  fun t' e => Bool.eq_false_iff.2 fun h => e (hs.lock.excl t' t h ht)

/-- While `mu` is unlocked everybody is outside the critical section. -/
theorem Inv.outside_of_unlocked (hs : Inv key s) (hl : s.locked = false) (t : Nat) :
    (s.pcs t).holds = false :=
  Bool.eq_false_iff.2 fun h => Bool.false_ne_true (hl ▸ hs.lock.locked_iff.2 ⟨t, h⟩)

/-- When nobody is about to store, every logged call is cached. -/
theorem Inv.cached (hs : Inv key s) (hno : ∀ t r, s.pcs t ≠ .store r) {k : String} {r : R}
    (h : (k, r) ∈ s.calls) : s.cache k = some r :=
  (hs.calls_cached k r h).resolve_right fun ⟨t, _, ht⟩ => hno t r ht

/-- Nobody is about to store but the holder of `mu`. -/
theorem Inv.no_store (hs : Inv key s) {t : Nat} (ht : (s.pcs t).holds = true)
    (hnt : ∀ r, s.pcs t ≠ .store r) : ∀ t' r, s.pcs t' ≠ .store r := fun t' r h' => by
  by_cases e : t' = t
  · exact hnt r (e ▸ h')
  · have := hs.outside ht t' e; rw [h'] at this; cases this

/-- Replaying one more `Get` after those of `order` runs `memo1`'s `get` on the cache. -/
theorem Inv.run_snoc (hs : Inv key s) (o : Nat × String × R) :
    Memo1.run ((s.order ++ [o]).map Prod.snd) (fun _ => none) =
      (s.order.map (fun o => o.2.2) ++ [(Memo1.get s.cache o.2.1 o.2.2).1],
        (Memo1.get s.cache o.2.1 o.2.2).2) := by
  rw [List.map_append, List.map_singleton, Memo1.run_append_singleton, hs.lin]

/-! ## Each action keeps the invariant -/

theorem Inv.lock_step (hs : Inv key s) {t : Nat} (h : step key s (.lock t) = some s') :
    Inv key s' := by
  simp only [step] at h
  split at h
  · split at h
    · cases h
    · rename_i hl
      cases h
      have hl : s.locked = false := Bool.eq_false_iff.2 hl
      exact ⟨hs.lin, (hl ▸ hs.lock).acquire rfl, hs.calls_nodup,
        fun k r hkr => .inl (hs.cached (fun t' r' h' => by
          have := hs.outside_of_unlocked hl t'; rw [h'] at this; cases this) hkr),
        hs.cache_called, hs.pcOk_update trivial (fun t' _ => hs.outside_of_unlocked hl t')
          (List.Subset.refl _) (List.Subset.refl _)⟩
  · cases h

theorem Inv.lookup_step (hs : Inv key s) {t : Nat} (h : step key s (.lookup t) = some s') :
    Inv key s' := by
  simp only [step] at h
  split at h
  · rename_i hpc
    have ht : (s.pcs t).holds = true := by rw [hpc]; rfl
    have hcached : ∀ {k r}, (k, r) ∈ s.calls → s.cache k = some r :=
      hs.cached (hs.no_store ht fun r h' => by rw [hpc] at h'; cases h')
    split at h
    · -- a hit: the `Get` takes its place in `order` with the cached result
      rename_i v hv
      cases h
      refine ⟨?_, hs.lock.move (by rw [ht]; rfl), hs.calls_nodup,
        fun k r hkr => .inl (hcached hkr), hs.cache_called,
        hs.pcOk_update ⟨List.mem_append_right _ (List.mem_singleton_self _),
          hs.cache_called _ _ hv⟩ (hs.outside ht) (List.subset_append_left _ _)
          (List.Subset.refl _)⟩
      rw [hs.run_snoc, Memo1.get_hit hv, List.map_append, List.map_singleton]
    · -- a miss
      rename_i hv
      cases h
      exact ⟨hs.lin, hs.lock.move (by rw [ht]; rfl), hs.calls_nodup,
        fun k r hkr => .inl (hcached hkr), hs.cache_called,
        hs.pcOk_update hv (hs.outside ht) (List.Subset.refl _) (List.Subset.refl _)⟩
  · cases h

theorem Inv.call_step (hs : Inv key s) {t : Nat} {r : R} (h : step key s (.call t r) = some s') :
    Inv key s' := by
  simp only [step] at h
  split at h
  · rename_i hpc
    cases h
    have ht : (s.pcs t).holds = true := by rw [hpc]; rfl
    have hmiss : s.cache (key t) = none := by have := hs.pcOk t; rwa [hpc] at this
    have hcached : ∀ {k r}, (k, r) ∈ s.calls → s.cache k = some r :=
      hs.cached (hs.no_store ht fun r h' => by rw [hpc] at h'; cases h')
    -- no call is logged for the key yet: it would be cached
    have hfresh : key t ∉ s.calls.map Prod.fst := fun hm => by
      obtain ⟨⟨k, r'⟩, hkr, rfl⟩ := List.mem_map.1 hm
      rw [hcached hkr] at hmiss; cases hmiss
    refine ⟨hs.lin, hs.lock.move (by rw [ht]; rfl), ?_, fun k r' hkr => ?_, fun k r' hk =>
      List.mem_append_left _ (hs.cache_called k r' hk),
      hs.pcOk_update ⟨hmiss, List.mem_append_right _ (List.mem_singleton_self _)⟩
        (hs.outside ht) (List.Subset.refl _) (List.subset_append_left _ _)⟩
    · rw [List.map_append, List.nodup_append]
      exact ⟨hs.calls_nodup, List.nodup_singleton _, by simpa using hfresh⟩
    · rcases List.mem_append.1 hkr with hkr | hkr
      · exact .inl (hcached hkr)
      · obtain ⟨rfl, rfl⟩ := Prod.mk.inj (List.mem_singleton.1 hkr)
        exact .inr ⟨t, rfl, Function.update_same _ _ _⟩
  · cases h

theorem Inv.store_step (hs : Inv key s) {t : Nat} (h : step key s (.store t) = some s') :
    Inv key s' := by
  simp only [step] at h
  split at h
  · rename_i r hpc
    cases h
    have ht : (s.pcs t).holds = true := by rw [hpc]; rfl
    obtain ⟨hmiss, hcalled⟩ : s.cache (key t) = none ∧ (key t, r) ∈ s.calls := by
      have := hs.pcOk t; rwa [hpc] at this
    -- the one call logged for the key is the one being stored
    have hone : ∀ r', (key t, r') ∈ s.calls → r' = r := fun r' h' =>
      (Prod.mk.inj (List.inj_on_of_nodup_map hs.calls_nodup h' hcalled rfl)).2
    refine ⟨?_, hs.lock.move (by rw [ht]; rfl), hs.calls_nodup, fun k r' hkr => ?_,
      fun k r' hk => ?_, hs.pcOk_update ⟨List.mem_append_right _ (List.mem_singleton_self _),
        hcalled⟩ (hs.outside ht) (List.subset_append_left _ _) (List.Subset.refl _)⟩
    · rw [hs.run_snoc, Memo1.get_miss hmiss, List.map_append, List.map_singleton]
    · by_cases hk : k = key t
      · subst hk
        exact .inl (by rw [hone r' hkr]; exact Function.update_same _ _ _)
      · rcases hs.calls_cached k r' hkr with h' | ⟨t', rfl, h'⟩
        · exact .inl ((Function.update_noteq hk _ _).trans h')
        · exact absurd (congrArg key (hs.lock.excl t' t (by rw [h']; rfl) ht)) hk
    · by_cases hkt : k = key t
      · subst hkt
        dsimp only at hk
        rw [Function.update_same, Option.some.injEq] at hk
        exact hk ▸ hcalled
      · exact hs.cache_called k r' ((Function.update_noteq hkt _ _).symm.trans hk)
  · cases h

theorem Inv.unlock_step (hs : Inv key s) {t : Nat} (h : step key s (.unlock t) = some s') :
    Inv key s' := by
  simp only [step] at h
  split at h
  · rename_i r hpc
    cases h
    have ht : (s.pcs t).holds = true := by rw [hpc]; rfl
    have hl : s.locked = true := hs.lock.locked_iff.2 ⟨t, ht⟩
    have hok : PcOk key s t (.unlock r) := by have := hs.pcOk t; rwa [hpc] at this
    exact ⟨hs.lin, (hl ▸ hs.lock).release ht rfl, hs.calls_nodup,
      fun k r' hkr => .inl (hs.cached (hs.no_store ht fun r h' => by rw [hpc] at h'; cases h')
        hkr), hs.cache_called, hs.pcOk_update hok (hs.outside ht) (List.Subset.refl _)
        (List.Subset.refl _)⟩
  · cases h

theorem Inv.step (hs : Inv key s) {a : Action R} (h : step key s a = some s') : Inv key s' := by
  cases a with
  | lock t => exact hs.lock_step h
  | lookup t => exact hs.lookup_step h
  | call t r => exact hs.call_step h
  | store t => exact hs.store_step h
  | unlock t => exact hs.unlock_step h

/-- The actions of `exec` make an interleaving. -/
theorem Reachable.exec (hs : Reachable key s) {as : List (Action R)}
    (h : exec key s as = some s') : Reachable key s' := by
  induction as generalizing s with
  | nil => cases h; exact hs
  | cons a as ih =>
    obtain ⟨s₁, h₁, h⟩ := Option.bind_eq_some.1 h
    exact ih (hs.tail ⟨a, h₁⟩) h

/-- Every reachable state satisfies the invariant. -/
theorem Reachable.inv (h : Reachable key s) : Inv key s := by
  induction h with
  | refl => exact inv_init key
  | tail _ hstep ih =>
    obtain ⟨a, ha⟩ := hstep
    exact ih.step ha

/-! ## `memo2` behaves as `memo1` -/

/-- **`memo2` is linearizable to `memo1`.**  In every state an interleaving of `Get` calls
reaches, replaying the `Get`s through the sequential `memo1`, in the order in which they read or
wrote the cache holding `mu`, returns exactly the results they returned and leaves `memo2`'s
cache; every goroutine that has returned from `Get` is in that order with its result. -/
theorem linearizable (hs : Reachable key s) :
    Memo1.run (s.order.map Prod.snd) (fun _ => none) = (s.order.map fun o => o.2.2, s.cache) ∧
      ∀ t r, s.pcs t = .done r → (t, key t, r) ∈ s.order := by
  have hinv := hs.inv
  exact ⟨hinv.lin, fun t r h => by have := hinv.pcOk t; rw [h] at this; exact this.1⟩

/-- Two `Get("x")` one after the other: the first misses and `f` answers `true`, the second
hits; both are in the order, and the second returned `true`. -/
theorem linearizable_two_gets :
    ∃ s, exec (fun _ => "x") init [.lock 0, .lookup 0, .call 0 true, .store 0, .unlock 0,
        .lock 1, .lookup 1, .unlock 1] = some s ∧ s.pcs 1 = .done true ∧
      Reachable (fun _ => "x") s ∧
      Memo1.run (s.order.map Prod.snd) (fun _ => none) = (s.order.map fun o => o.2.2, s.cache) ∧
      ∀ t r, s.pcs t = .done r → (t, "x", r) ∈ s.order := by
  obtain ⟨s, hs, h1⟩ : ∃ s, exec (fun _ => "x") init [.lock 0, .lookup 0, .call 0 true,
      .store 0, .unlock 0, .lock 1, .lookup 1, .unlock 1] = some s ∧ s.pcs 1 = .done true :=
    ⟨_, rfl, rfl⟩
  exact ⟨s, hs, h1, Reachable.exec .refl hs, linearizable (Reachable.exec .refl hs)⟩

/-- **Mutual exclusion and single flight.**  In every reachable state at most one goroutine is
between `memo.mu.Lock()` and `memo.mu.Unlock()`, `f(k)` has been called at most once for each
key, and every goroutine that has returned from `Get` returned the answer of that call for its
key. -/
theorem mutex_single_flight (hs : Reachable key s) :
    (∀ t t', (s.pcs t).holds = true → (s.pcs t').holds = true → t = t') ∧
      (∀ k, (s.calls.map Prod.fst).count k ≤ 1) ∧
      ∀ t r, s.pcs t = .done r → (key t, r) ∈ s.calls := by
  have hinv := hs.inv
  exact ⟨hinv.lock.excl, fun k => List.nodup_iff_count_le_one.1 hinv.calls_nodup k,
    fun t r h => by have := hinv.pcOk t; rw [h] at this; exact this.2⟩

/-- The same two `Get("x")`: `f` was called once, and both returned its answer. -/
theorem mutex_single_flight_two_gets :
    ∃ s, exec (fun _ => "x") init [.lock 0, .lookup 0, .call 0 true, .store 0, .unlock 0,
        .lock 1, .lookup 1, .unlock 1] = some s ∧ s.calls = [("x", true)] ∧
      Reachable (fun _ => "x") s ∧
      (∀ t t', (s.pcs t).holds = true → (s.pcs t').holds = true → t = t') ∧
      (∀ k, (s.calls.map Prod.fst).count k ≤ 1) ∧
      ∀ t r, s.pcs t = .done r → ("x", r) ∈ s.calls := by
  obtain ⟨s, hs, h1⟩ : ∃ s, exec (fun _ => "x") init [.lock 0, .lookup 0, .call 0 true,
      .store 0, .unlock 0, .lock 1, .lookup 1, .unlock 1] = some s ∧ s.calls = [("x", true)] :=
    ⟨_, rfl, rfl⟩
  exact ⟨s, hs, h1, Reachable.exec .refl hs, mutex_single_flight (Reachable.exec .refl hs)⟩

/-! ## Every `Get` can return -/

section Progress

variable {t : Nat}

theorem step_lock_eq (hpc : s.pcs t = .start) (hl : s.locked = false) :
    step key s (.lock t) =
      some { s with locked := true, pcs := Function.update s.pcs t .lookup } := by
  simp [step, hpc, hl]

theorem step_lookup_hit (hpc : s.pcs t = .lookup) {v : R} (hv : s.cache (key t) = some v) :
    step key s (.lookup t) = some { s with
      pcs := Function.update s.pcs t (.unlock v), order := s.order ++ [(t, key t, v)] } := by
  simp only [step, hpc, hv]

theorem step_lookup_miss (hpc : s.pcs t = .lookup) (hv : s.cache (key t) = none) :
    step key s (.lookup t) = some { s with pcs := Function.update s.pcs t .call } := by
  simp only [step, hpc, hv]

theorem step_call_eq (hpc : s.pcs t = .call) (r : R) :
    step key s (.call t r) = some { s with
      pcs := Function.update s.pcs t (.store r), calls := s.calls ++ [(key t, r)] } := by
  simp only [step, hpc]

theorem step_store_eq {r : R} (hpc : s.pcs t = .store r) :
    step key s (.store t) = some { s with
      cache := Function.update s.cache (key t) (some r)
      pcs := Function.update s.pcs t (.unlock r)
      order := s.order ++ [(t, key t, r)] } := by
  simp only [step, hpc]

theorem step_unlock_eq {r : R} (hpc : s.pcs t = .unlock r) :
    step key s (.unlock t) =
      some { s with locked := false, pcs := Function.update s.pcs t (.done r) } := by
  simp only [step, hpc]

variable (key) in
/-- Some run from `s` moves goroutine `t` alone, to the end of `Get`, and leaves `mu`
unlocked. -/
def Finishes (s : State R) (t : Nat) : Prop :=
  ∃ s', Relation.ReflTransGen (Step key) s s' ∧ (∃ r, s'.pcs t = .done r) ∧
    s'.locked = false ∧ ∀ t', t' ≠ t → s'.pcs t' = s.pcs t'

/-- A step of `t` alone, then the rest of the run. -/
theorem Finishes.head {a : Action R} {p : Pc R} (h : step key s a = some s')
    (hpcs : s'.pcs = Function.update s.pcs t p) (h' : Finishes key s' t) : Finishes key s t :=
  let ⟨s'', hrun, hdone, hl, hrest⟩ := h'
  ⟨s'', .head ⟨a, h⟩ hrun, hdone, hl, fun t' ht' => by
    rw [hrest t' ht', hpcs, Function.update_noteq ht']⟩

theorem finishes_of_unlock {r : R} (hpc : s.pcs t = .unlock r) : Finishes key s t :=
  ⟨_, .single ⟨_, step_unlock_eq hpc⟩, ⟨r, Function.update_same _ _ _⟩, rfl,
    fun _ ht' => Function.update_noteq ht' _ _⟩

theorem finishes_of_store {r : R} (hpc : s.pcs t = .store r) : Finishes key s t :=
  .head (step_store_eq hpc) rfl (finishes_of_unlock (Function.update_same _ _ _))

variable [Inhabited R]

theorem finishes_of_call (hpc : s.pcs t = .call) : Finishes key s t :=
  .head (step_call_eq hpc default) rfl (finishes_of_store (Function.update_same _ _ _))

theorem finishes_of_lookup (hpc : s.pcs t = .lookup) : Finishes key s t := by
  cases hv : s.cache (key t) with
  | some v =>
    exact .head (step_lookup_hit hpc hv) rfl (finishes_of_unlock (Function.update_same _ _ _))
  | none =>
    exact .head (step_lookup_miss hpc hv) rfl (finishes_of_call (Function.update_same _ _ _))

theorem finishes_of_start (hpc : s.pcs t = .start) (hl : s.locked = false) : Finishes key s t :=
  .head (step_lock_eq hpc hl) rfl (finishes_of_lookup (Function.update_same _ _ _))

/-- The holder of `mu` can always run to the end of `Get`, and release `mu`. -/
theorem finishes_of_holds (ht : (s.pcs t).holds = true) : Finishes key s t := by
  cases hpc : s.pcs t with
  | lookup => exact finishes_of_lookup hpc
  | call => exact finishes_of_call hpc
  | store r => exact finishes_of_store hpc
  | unlock r => exact finishes_of_unlock hpc
  | start | done _ => rw [hpc] at ht; cases ht

/-- **`memo2` never deadlocks.**  From every reachable state, for every goroutine `t`, some
run ends with `t` returned from `Get`: the holder of `mu`, if any, finishes its `Get` and
releases it, then `t` runs.  `t` returned the logged answer of `f` for its key, and is in
`order`. -/
theorem deadlock_free (hs : Reachable key s) (t : Nat) :
    ∃ s', Relation.ReflTransGen (Step key) s s' ∧ ∃ r, s'.pcs t = .done r ∧
      (t, key t, r) ∈ s'.order ∧ (key t, r) ∈ s'.calls := by
  suffices h : ∃ s', Relation.ReflTransGen (Step key) s s' ∧ ∃ r, s'.pcs t = .done r by
    obtain ⟨s', hrun, r, hr⟩ := h
    have hok := (Reachable.inv (hs.trans hrun)).pcOk t
    rw [hr] at hok
    exact ⟨s', hrun, r, hr, hok⟩
  cases hpc : s.pcs t with
  | start =>
    cases hl : s.locked
    · obtain ⟨s', hrun, hdone, -⟩ : Finishes key s t := finishes_of_start hpc hl
      exact ⟨s', hrun, hdone⟩
    · -- the holder goes first
      obtain ⟨t', ht'⟩ := (Reachable.inv hs).lock.locked_iff.1 hl
      have hne : t ≠ t' := fun e => by rw [← e, hpc] at ht'; cases ht'
      obtain ⟨s₁, hrun₁, -, hl₁, hrest⟩ : Finishes key s t' := finishes_of_holds ht'
      obtain ⟨s', hrun, hdone, -⟩ : Finishes key s₁ t :=
        finishes_of_start ((hrest t hne).trans hpc) hl₁
      exact ⟨s', hrun₁.trans hrun, hdone⟩
  | lookup | call | store _ | unlock _ =>
    obtain ⟨s', hrun, hdone, -⟩ : Finishes key s t := finishes_of_holds (by rw [hpc]; rfl)
    exact ⟨s', hrun, hdone⟩
  | done r => exact ⟨s, .refl, r, hpc⟩

/-- Goroutine `0` holds `mu`, so that goroutine `1` cannot take it: some run lets `0` finish
first and then brings `1` back from `Get`, logged with the answer of the one call of `f`. -/
theorem deadlock_free_holder :
    ∃ s, exec (fun _ => "x") (init : State Bool) [.lock 0] = some s ∧
      s.pcs 0 = .lookup ∧ step (fun _ => "x") s (.lock 1) = none ∧
      Reachable (fun _ => "x") s ∧
      ∃ s', Relation.ReflTransGen (Step fun _ => "x") s s' ∧ ∃ r,
        s'.pcs 1 = .done r ∧ (1, "x", r) ∈ s'.order ∧ ("x", r) ∈ s'.calls := by
  obtain ⟨s, hs, h0, hlock⟩ : ∃ s, exec (fun _ => "x") (init : State Bool) [.lock 0] = some s ∧
      s.pcs 0 = .lookup ∧ step (fun _ => "x") s (.lock 1) = none :=
    ⟨_, rfl, rfl, rfl⟩
  have hreach : Reachable (fun _ => "x") s := Reachable.exec .refl hs
  exact ⟨s, hs, h0, hlock, hreach, deadlock_free hreach 1⟩

end Progress

end Memo2
