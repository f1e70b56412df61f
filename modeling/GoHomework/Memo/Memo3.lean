import GoHomework.Memo.Mutex
import Mathlib.Logic.Relation
import Mathlib.Data.List.Basic

/-!
# `memo3`: two critical sections, `f` run outside the lock

`Memo.Get` of `memo3` (`unnamed/part_003`, lines 47–132) looks the key up holding `memo.mu`,
releases it, and on a miss calls `f(key)` without the lock, then takes the lock again to store
the result.  Goroutine `t` calls `Get` with key `key t`; each statement that touches shared
state is one atomic action.  `f` may answer anything, the answer being a free choice of the
`call` action, and the ghost log `calls` records every call with its key and answer.

Two goroutines that miss the same key both call `f` and both store, the later store
overwriting the earlier: `memo3` is not single-flight.  What it does keep, over every
interleaving, is `safe`: at most one goroutine holds `mu`, a key once cached stays cached, and
every result cached for `k` or returned by `Get(k)` is an answer `f` gave for `k`, so that when
`f` answers each key with one value, every `Get(k)` returns it.  And no `Get` is ever stuck,
`no_deadlock`: the holder of `mu` can always finish, after which any other goroutine can.
-/

namespace Memo3

open Mutex

/-- Where a goroutine in `Get` stands. -/
inductive Pc (R : Type) where
  /-- Before the first `memo.mu.Lock()` (line 112). -/
  | start
  /-- Holding `mu`; `res, ok := memo.cache[key]` next (line 113). -/
  | look
  /-- Holding `mu`, having read `o`; `memo.mu.Unlock()` next (line 114). -/
  | unlock₁ (o : Option R)
  /-- A miss: `f(key)` runs next, without the lock (line 119). -/
  | call
  /-- `f` answered `r`; the second `memo.mu.Lock()` next (line 127). -/
  | lock₂ (r : R)
  /-- Holding `mu`; `memo.cache[key] = res` next (line 128). -/
  | store (r : R)
  /-- Holding `mu`; the second `memo.mu.Unlock()` next (line 129). -/
  | unlock₂ (r : R)
  /-- Returned `r` (line 131). -/
  | done (r : R)

/-- The goroutine is inside one of the two critical sections. -/
def Pc.holds {R : Type} : Pc R → Bool
  | .look | .unlock₁ _ | .store _ | .unlock₂ _ => true
  | .start | .call | .lock₂ _ | .done _ => false

/-- The memo and its goroutines: `cache` is `memo.cache`, `locked` the state of `memo.mu`,
`pcs` each goroutine's position, and `calls` the ghost log of the calls of `f`. -/
structure State (R : Type) where
  cache : String → Option R
  locked : Bool
  pcs : Nat → Pc R
  calls : List (String × R)

/-- `New(f)`, with every goroutine about to call `Get`. -/
def init {R : Type} : State R := ⟨fun _ => none, false, fun _ => .start, []⟩

/-- One atomic action of goroutine `t`. -/
inductive Action (R : Type) where
  /-- The first `memo.mu.Lock()`; enabled while `mu` is unlocked. -/
  | lock₁ (t : Nat)
  /-- `res, ok := memo.cache[key]`. -/
  | look (t : Nat)
  /-- `memo.mu.Unlock()`; on a hit, `return`. -/
  | unlock₁ (t : Nat)
  /-- `f(key)` answers `r`. -/
  | call (t : Nat) (r : R)
  /-- The second `memo.mu.Lock()`; enabled while `mu` is unlocked. -/
  | lock₂ (t : Nat)
  /-- `memo.cache[key] = res`. -/
  | store (t : Nat)
  /-- The second `memo.mu.Unlock()`, then `return`. -/
  | unlock₂ (t : Nat)

variable {R : Type} (key : Nat → String)

/-- The state after an action, or `none` when the action is not enabled. -/
def step (s : State R) : Action R → Option (State R)
  | .lock₁ t =>
    match s.pcs t with
    | .start => if s.locked then none
      else some { s with locked := true, pcs := Function.update s.pcs t .look }
    | _ => none
  | .look t =>
    match s.pcs t with
    | .look => some { s with pcs := Function.update s.pcs t (.unlock₁ (s.cache (key t))) }
    | _ => none
  | .unlock₁ t =>
    match s.pcs t with
    | .unlock₁ (some v) =>
      some { s with locked := false, pcs := Function.update s.pcs t (.done v) }
    | .unlock₁ none => some { s with locked := false, pcs := Function.update s.pcs t .call }
    | _ => none
  | .call t r =>
    match s.pcs t with
    | .call => some { s with
        pcs := Function.update s.pcs t (.lock₂ r), calls := s.calls ++ [(key t, r)] }
    | _ => none
  | .lock₂ t =>
    match s.pcs t with
    | .lock₂ r => if s.locked then none
      else some { s with locked := true, pcs := Function.update s.pcs t (.store r) }
    | _ => none
  | .store t =>
    match s.pcs t with
    | .store r => some { s with
        cache := Function.update s.cache (key t) (some r)
        pcs := Function.update s.pcs t (.unlock₂ r) }
    | _ => none
  | .unlock₂ t =>
    match s.pcs t with
    | .unlock₂ r => some { s with locked := false, pcs := Function.update s.pcs t (.done r) }
    | _ => none

/-- One step of some goroutine. -/
def Step (s s' : State R) : Prop := ∃ a, step key s a = some s'

/-- The states some interleaving reaches from `init`. -/
def Reachable (s : State R) : Prop := Relation.ReflTransGen (Step key) init s

/-- The state after the actions `as` one after another, or `none` if one is not enabled. -/
def exec (s : State R) : List (Action R) → Option (State R)
  | [] => some s
  | a :: as => (step key s a).bind fun s' => exec s' as

/-! ## The invariant -/

/-- What goroutine `t` holds at each point of `Get`: a result it read from the cache, or one
`f` answered, is a logged answer for its key. -/
def PcOk (s : State R) (t : Nat) : Pc R → Prop
  | .start | .look | .call | .unlock₁ none => True
  | .unlock₁ (some r) | .lock₂ r | .store r | .unlock₂ r | .done r => (key t, r) ∈ s.calls

/-- What holds in every reachable state: `mu` is locked exactly when one goroutine holds it,
every cached result is a logged answer for its key, and every goroutine meets its
assertion. -/
structure Inv (s : State R) : Prop where
  lock : LockOk Pc.holds s.locked s.pcs
  cache_called : ∀ k r, s.cache k = some r → (k, r) ∈ s.calls
  pcOk : ∀ t, PcOk key s t (s.pcs t)

theorem inv_init : Inv key (init : State R) :=
  ⟨lockOk_init rfl, by simp [init], fun _ => trivial⟩

variable {key} {s s' : State R}

/-- The assertions only read the log, which only grows. -/
theorem PcOk.mono {t : Nat} {p : Pc R} (h : PcOk key s t p) (hc : s.calls ⊆ s'.calls) :
    PcOk key s' t p := by
  cases p with
  | start | look | call => trivial
  | unlock₁ o => cases o with
    | none => trivial
    | some r => exact hc h
  | lock₂ r | store r | unlock₂ r | done r => exact hc h

/-- Goroutine `t` moves to `p`, which meets its assertion, and the log only grows: every
goroutine meets its assertion. -/
theorem Inv.pcOk_update (hs : Inv key s) {t : Nat} {p : Pc R} (hp : PcOk key s' t p)
    (hc : s.calls ⊆ s'.calls) : ∀ t', PcOk key s' t' (Function.update s.pcs t p t') := by
  intro t'
  rw [Function.update_apply]
  split_ifs with e
  · subst e; exact hp
  · exact (hs.pcOk t').mono hc

/-- The assertion of goroutine `t` where it stands. -/
theorem Inv.pcOk_of {t : Nat} {p : Pc R} (hs : Inv key s) (hpc : s.pcs t = p) :
    PcOk key s t p := hpc ▸ hs.pcOk t

/-- `mu` is locked exactly when its holder is inside. -/
theorem Inv.locked_of_holds (hs : Inv key s) {t : Nat} (ht : (s.pcs t).holds = true) :
    s.locked = true := hs.lock.locked_iff.2 ⟨t, ht⟩

/-! ## Each action keeps the invariant -/

/-- Taking `mu`, for the first or the second time. -/
theorem Inv.acquire (hs : Inv key s) {t : Nat} {p : Pc R} (hl : s.locked = false)
    (hp : p.holds = true) (hok : PcOk key s t p) :
    Inv key { s with locked := true, pcs := Function.update s.pcs t p } :=
  ⟨(hl ▸ hs.lock).acquire hp, hs.cache_called, hs.pcOk_update hok (List.Subset.refl _)⟩

/-- Releasing `mu`, for the first or the second time. -/
theorem Inv.release (hs : Inv key s) {t : Nat} {p : Pc R} (ht : (s.pcs t).holds = true)
    (hp : p.holds = false) (hok : PcOk key s t p) :
    Inv key { s with locked := false, pcs := Function.update s.pcs t p } :=
  ⟨(hs.locked_of_holds ht ▸ hs.lock).release ht hp, hs.cache_called,
    hs.pcOk_update hok (List.Subset.refl _)⟩

theorem Inv.lock₁_step (hs : Inv key s) {t : Nat} (h : step key s (.lock₁ t) = some s') :
    Inv key s' := by
  simp only [step] at h
  split at h
  · split at h
    · cases h
    · cases h; exact hs.acquire (Bool.eq_false_iff.2 ‹_›) rfl trivial
  · cases h

theorem Inv.look_step (hs : Inv key s) {t : Nat} (h : step key s (.look t) = some s') :
    Inv key s' := by
  simp only [step] at h
  split at h
  · rename_i hpc
    cases h
    -- what the lookup reads is cached, hence logged
    have hok : PcOk key s t (.unlock₁ (s.cache (key t))) := by
      cases hc : s.cache (key t) with
      | none => trivial
      | some r => exact hs.cache_called _ _ hc
    exact ⟨hs.lock.move (by rw [hpc]; rfl), hs.cache_called,
      hs.pcOk_update hok (List.Subset.refl _)⟩
  · cases h

theorem Inv.unlock₁_step (hs : Inv key s) {t : Nat} (h : step key s (.unlock₁ t) = some s') :
    Inv key s' := by
  simp only [step] at h
  split at h
  · rename_i v hpc
    cases h
    exact hs.release (by rw [hpc]; rfl) rfl (show (key t, v) ∈ s.calls from hs.pcOk_of hpc)
  · rename_i hpc
    cases h
    exact hs.release (by rw [hpc]; rfl) rfl trivial
  · cases h

theorem Inv.call_step (hs : Inv key s) {t : Nat} {r : R} (h : step key s (.call t r) = some s') :
    Inv key s' := by
  simp only [step] at h
  split at h
  · rename_i hpc
    cases h
    exact ⟨hs.lock.move (by rw [hpc]; rfl),
      fun k r' hk => List.mem_append_left _ (hs.cache_called k r' hk),
      hs.pcOk_update (List.mem_append_right _ (List.mem_singleton_self _))
        (List.subset_append_left _ _)⟩
  · cases h

theorem Inv.lock₂_step (hs : Inv key s) {t : Nat} (h : step key s (.lock₂ t) = some s') :
    Inv key s' := by
  simp only [step] at h
  split at h
  · rename_i r hpc
    split at h
    · cases h
    · cases h
      exact hs.acquire (Bool.eq_false_iff.2 ‹_›) rfl
        (show (key t, r) ∈ s.calls from hs.pcOk_of hpc)
  · cases h

theorem Inv.store_step (hs : Inv key s) {t : Nat} (h : step key s (.store t) = some s') :
    Inv key s' := by
  simp only [step] at h
  split at h
  · rename_i r hpc
    cases h
    have hcalled : (key t, r) ∈ s.calls := hs.pcOk_of hpc
    refine ⟨hs.lock.move (by rw [hpc]; rfl), fun k r' hk => ?_,
      hs.pcOk_update hcalled (List.Subset.refl _)⟩
    -- the result stored was logged for the key it is stored under
    by_cases e : k = key t
    · subst e
      simp only [Function.update_same, Option.some.injEq] at hk
      exact hk ▸ hcalled
    · exact hs.cache_called k r' ((Function.update_noteq e _ _).symm.trans hk)
  · cases h

theorem Inv.unlock₂_step (hs : Inv key s) {t : Nat} (h : step key s (.unlock₂ t) = some s') :
    Inv key s' := by
  simp only [step] at h
  split at h
  · rename_i r hpc
    cases h
    exact hs.release (by rw [hpc]; rfl) rfl (show (key t, r) ∈ s.calls from hs.pcOk_of hpc)
  · cases h

theorem Inv.step (hs : Inv key s) {a : Action R} (h : step key s a = some s') : Inv key s' := by
  cases a with
  | lock₁ t => exact hs.lock₁_step h
  | look t => exact hs.look_step h
  | unlock₁ t => exact hs.unlock₁_step h
  | call t r => exact hs.call_step h
  | lock₂ t => exact hs.lock₂_step h
  | store t => exact hs.store_step h
  | unlock₂ t => exact hs.unlock₂_step h

/-- Every reachable state satisfies the invariant. -/
theorem Reachable.inv (h : Reachable key s) : Inv key s := by
  induction h with
  | refl => exact inv_init key
  | tail _ hstep ih =>
    obtain ⟨a, ha⟩ := hstep
    exact ih.step ha

/-- The actions of `exec` make an interleaving. -/
theorem Reachable.exec (hs : Reachable key s) {as : List (Action R)}
    (h : exec key s as = some s') : Reachable key s' := by
  induction as generalizing s with
  | nil => cases h; exact hs
  | cons a as ih =>
    obtain ⟨s₁, h₁, h⟩ := Option.bind_eq_some.1 h
    exact ih (hs.tail ⟨a, h₁⟩) h

/-- A step leaves the cache as it is, or stores one result in it. -/
theorem step_cache {a : Action R} (h : step key s a = some s') :
    s'.cache = s.cache ∨ ∃ k r, s'.cache = Function.update s.cache k (some r) := by
  cases a with
  | store t =>
    simp only [step] at h
    split at h
    · cases h; exact .inr ⟨_, _, rfl⟩
    · cases h
  | lock₁ t | look t | unlock₁ t | call t r | lock₂ t | unlock₂ t =>
    simp only [step] at h
    repeat' split at h
    all_goals cases h <;> exact .inl rfl

/-- Along any run a cached key stays cached. -/
theorem run_cache_isSome (h : Relation.ReflTransGen (Step key) s s') {k : String}
    (hk : (s.cache k).isSome) : (s'.cache k).isSome := by
  induction h with
  | refl => exact hk
  | tail _ hstep ih =>
    obtain ⟨a, ha⟩ := hstep
    rcases step_cache ha with e | ⟨k', r, e⟩
    · rwa [e]
    · rw [e, Function.update_apply]; split_ifs
      exacts [rfl, ih]

/-- **Safety of `memo3`.**  From any reachable state `s`, along any interleaving to a state `s'`:
at most one goroutine holds `mu`; a key cached in `s` is still cached in `s'`; every result
cached for a key, and every result a `Get` has returned, is an answer `f` gave for that key.  So
when `f` answers each key `k` with one value, every `Get(k)` returns it, though `f(k)` may have
been called more than once. -/
theorem safe (hs : Reachable key s) (hrun : Relation.ReflTransGen (Step key) s s') :
    (∀ t t', (s'.pcs t).holds = true → (s'.pcs t').holds = true → t = t') ∧
      (∀ k, (s.cache k).isSome → (s'.cache k).isSome) ∧
      (∀ k r, s'.cache k = some r → (k, r) ∈ s'.calls) ∧
      ∀ t r, s'.pcs t = .done r → (key t, r) ∈ s'.calls := by
  have hinv : Inv key s' := Reachable.inv (hs.trans hrun)
  exact ⟨hinv.lock.excl, fun k hk => run_cache_isSome hrun hk, hinv.cache_called,
    fun t r h => hinv.pcOk_of h⟩

/-- Two `Get("x")` that both miss: `f("x")` is called twice, answering `true` and then
`false`; the later store wins, and each `Get` returns its own call's answer. -/
theorem safe_two_misses :
    ∃ s, exec (fun _ => "x") init [.lock₁ 0, .look 0, .unlock₁ 0, .lock₁ 1, .look 1,
        .unlock₁ 1, .call 0 true, .call 1 false, .lock₂ 0, .store 0, .unlock₂ 0, .lock₂ 1,
        .store 1, .unlock₂ 1] = some s ∧
      s.calls = [("x", true), ("x", false)] ∧ s.cache "x" = some false ∧
      Reachable (fun _ => "x") s ∧
      (∀ t t', (s.pcs t).holds = true → (s.pcs t').holds = true → t = t') ∧
      (∀ k, ((init : State Bool).cache k).isSome → (s.cache k).isSome) ∧
      (∀ k r, s.cache k = some r → (k, r) ∈ s.calls) ∧
      ∀ t r, s.pcs t = .done r → ("x", r) ∈ s.calls := by
  obtain ⟨s, hs, h₁, h₂⟩ : ∃ s, exec (fun _ => "x") init [.lock₁ 0, .look 0,
      .unlock₁ 0, .lock₁ 1, .look 1, .unlock₁ 1, .call 0 true, .call 1 false, .lock₂ 0,
      .store 0, .unlock₂ 0, .lock₂ 1, .store 1, .unlock₂ 1] = some s ∧
      s.calls = [("x", true), ("x", false)] ∧ s.cache "x" = some false := ⟨_, rfl, rfl, rfl⟩
  have hr : Reachable (fun _ => "x") s := Reachable.exec .refl hs
  exact ⟨s, hs, h₁, h₂, hr, safe .refl hr⟩

/-! ## Every `Get` can return -/

section Progress

variable {t : Nat}

theorem step_lock₁_eq (hpc : s.pcs t = .start) (hl : s.locked = false) :
    step key s (.lock₁ t) =
      some { s with locked := true, pcs := Function.update s.pcs t .look } := by
  simp [step, hpc, hl]

theorem step_look_eq (hpc : s.pcs t = .look) :
    step key s (.look t) = some { s with
      pcs := Function.update s.pcs t (.unlock₁ (s.cache (key t))) } := by
  simp only [step, hpc]

theorem step_unlock₁_hit {v : R} (hpc : s.pcs t = .unlock₁ (some v)) :
    step key s (.unlock₁ t) =
      some { s with locked := false, pcs := Function.update s.pcs t (.done v) } := by
  simp only [step, hpc]

theorem step_unlock₁_miss (hpc : s.pcs t = .unlock₁ none) :
    step key s (.unlock₁ t) =
      some { s with locked := false, pcs := Function.update s.pcs t .call } := by
  simp only [step, hpc]

theorem step_call_eq (hpc : s.pcs t = .call) (r : R) :
    step key s (.call t r) = some { s with
      pcs := Function.update s.pcs t (.lock₂ r), calls := s.calls ++ [(key t, r)] } := by
  simp only [step, hpc]

theorem step_lock₂_eq {r : R} (hpc : s.pcs t = .lock₂ r) (hl : s.locked = false) :
    step key s (.lock₂ t) =
      some { s with locked := true, pcs := Function.update s.pcs t (.store r) } := by
  simp [step, hpc, hl]

theorem step_store_eq {r : R} (hpc : s.pcs t = .store r) :
    step key s (.store t) = some { s with
      cache := Function.update s.cache (key t) (some r)
      pcs := Function.update s.pcs t (.unlock₂ r) } := by
  simp only [step, hpc]

theorem step_unlock₂_eq {r : R} (hpc : s.pcs t = .unlock₂ r) :
    step key s (.unlock₂ t) =
      some { s with locked := false, pcs := Function.update s.pcs t (.done r) } := by
  simp only [step, hpc]

variable (key) in
/-- Some run from `s` moves goroutine `t` alone, to the end of `Get`, and leaves `mu`
unlocked. -/
def Finishes (s : State R) (t : Nat) : Prop :=
  ∃ s', Relation.ReflTransGen (Step key) s s' ∧ (∃ r, s'.pcs t = .done r) ∧
    s'.locked = false ∧ ∀ t', t' ≠ t → s'.pcs t' = s.pcs t'

/-- A step of `t` alone, then the rest of the run. -/
theorem Finishes.head {a : Action R} {p : Pc R} (h : step key s a = some s')
    (hpcs : s'.pcs = Function.update s.pcs t p) (h' : Finishes key s' t) : Finishes key s t :=
  let ⟨s'', hrun, hdone, hl, hrest⟩ := h'
  ⟨s'', .head ⟨a, h⟩ hrun, hdone, hl, fun t' ht' => by
    rw [hrest t' ht', hpcs, Function.update_noteq ht']⟩

/-- The last step of a `Get`, releasing `mu`. -/
theorem finishes_of_release {a : Action R} {r : R}
    (h : step key s a = some { s with locked := false, pcs := Function.update s.pcs t (.done r) }) :
    Finishes key s t :=
  ⟨_, .single ⟨_, h⟩, ⟨r, Function.update_same _ _ _⟩, rfl,
    fun _ ht' => Function.update_noteq ht' _ _⟩

theorem finishes_of_store {r : R} (hpc : s.pcs t = .store r) : Finishes key s t :=
  .head (step_store_eq hpc) rfl
    (finishes_of_release (step_unlock₂_eq (Function.update_same _ _ _)))

theorem finishes_of_lock₂ {r : R} (hpc : s.pcs t = .lock₂ r) (hl : s.locked = false) :
    Finishes key s t :=
  .head (step_lock₂_eq hpc hl) rfl (finishes_of_store (Function.update_same _ _ _))

variable [Inhabited R]

theorem finishes_of_call (hpc : s.pcs t = .call) (hl : s.locked = false) : Finishes key s t :=
  .head (step_call_eq hpc default) rfl (finishes_of_lock₂ (Function.update_same _ _ _) hl)

theorem finishes_of_unlock₁ {o : Option R} (hpc : s.pcs t = .unlock₁ o) : Finishes key s t := by
  cases o with
  | some v => exact finishes_of_release (step_unlock₁_hit hpc)
  | none =>
    exact .head (step_unlock₁_miss hpc) rfl (finishes_of_call (Function.update_same _ _ _) rfl)

theorem finishes_of_look (hpc : s.pcs t = .look) : Finishes key s t :=
  .head (step_look_eq hpc) rfl (finishes_of_unlock₁ (Function.update_same _ _ _))

/-- The holder of `mu` can always run to the end of `Get`, and release `mu`. -/
theorem finishes_of_holds (ht : (s.pcs t).holds = true) : Finishes key s t := by
  cases hpc : s.pcs t with
  | look => exact finishes_of_look hpc
  | unlock₁ o => exact finishes_of_unlock₁ hpc
  | store r => exact finishes_of_store hpc
  | unlock₂ r => exact finishes_of_release (step_unlock₂_eq hpc)
  | start | call | lock₂ _ | done _ => rw [hpc] at ht; cases ht

/-- With `mu` free, a goroutine outside it and not yet returned can run to the end of `Get`. -/
theorem finishes_of_free (hl : s.locked = false) (ht : (s.pcs t).holds = false)
    (hnd : ∀ r, s.pcs t ≠ .done r) : Finishes key s t := by
  cases hpc : s.pcs t with
  | start =>
    exact .head (step_lock₁_eq hpc hl) rfl (finishes_of_look (Function.update_same _ _ _))
  | call => exact finishes_of_call hpc hl
  | lock₂ r => exact finishes_of_lock₂ hpc hl
  | done r => exact absurd hpc (hnd r)
  | look | unlock₁ _ | store _ | unlock₂ _ => rw [hpc] at ht; cases ht

/-- **`memo3` never deadlocks.**  From every reachable state, for every goroutine `t`, some
run ends with `t` returned from `Get`: the holder of `mu`, if any, finishes its `Get` and
releases it, then `t` runs.  `t` returned an answer `f` gave for its key. -/
theorem no_deadlock (hs : Reachable key s) (t : Nat) :
    ∃ s', Relation.ReflTransGen (Step key) s s' ∧ ∃ r, s'.pcs t = .done r ∧
      (key t, r) ∈ s'.calls := by
  suffices h : ∃ s', Relation.ReflTransGen (Step key) s s' ∧ ∃ r, s'.pcs t = .done r by
    obtain ⟨s', hrun, r, hr⟩ := h
    exact ⟨s', hrun, r, hr, (Reachable.inv (hs.trans hrun)).pcOk_of hr⟩
  by_cases hdone : ∃ r, s.pcs t = .done r
  · obtain ⟨r, hr⟩ := hdone
    exact ⟨s, .refl, r, hr⟩
  have hnd : ∀ r, s.pcs t ≠ .done r := fun r h => hdone ⟨r, h⟩
  cases ht : (s.pcs t).holds
  · cases hl : s.locked
    · obtain ⟨s', hrun, hdone', -⟩ : Finishes key s t := finishes_of_free hl ht hnd
      exact ⟨s', hrun, hdone'⟩
    · -- the holder goes first
      obtain ⟨t', ht'⟩ := (Reachable.inv hs).lock.locked_iff.1 hl
      have hne : t ≠ t' := fun e => by rw [e, ht'] at ht; cases ht
      obtain ⟨s₁, hrun₁, -, hl₁, hrest⟩ : Finishes key s t' := finishes_of_holds ht'
      obtain ⟨s', hrun, hdone', -⟩ : Finishes key s₁ t :=
        finishes_of_free hl₁ (by rw [hrest t hne, ht]) (by rw [hrest t hne]; exact hnd)
      exact ⟨s', hrun₁.trans hrun, hdone'⟩
  · obtain ⟨s', hrun, hdone', -⟩ : Finishes key s t := finishes_of_holds ht
    exact ⟨s', hrun, hdone'⟩

/-- Goroutine `0` has called `f` after a miss and waits for the second `mu.Lock()`, while
goroutine `1` holds `mu` after its own miss: some run lets `1` leave its critical section and
then brings `0` back from `Get` with an answer of `f`. -/
theorem no_deadlock_blocked :
    ∃ s, exec (fun _ => "x") (init : State Bool)
        [.lock₁ 0, .look 0, .unlock₁ 0, .call 0 true, .lock₁ 1, .look 1] = some s ∧
      s.pcs 0 = .lock₂ true ∧ s.pcs 1 = .unlock₁ none ∧
      step (fun _ => "x") s (.lock₂ 0) = none ∧ Reachable (fun _ => "x") s ∧
      ∃ s', Relation.ReflTransGen (Step fun _ => "x") s s' ∧ ∃ r,
        s'.pcs 0 = .done r ∧ ("x", r) ∈ s'.calls := by
  obtain ⟨s, hs, h0, h1, hlock⟩ : ∃ s, exec (fun _ => "x") (init : State Bool)
      [.lock₁ 0, .look 0, .unlock₁ 0, .call 0 true, .lock₁ 1, .look 1] = some s ∧
      s.pcs 0 = .lock₂ true ∧ s.pcs 1 = .unlock₁ none ∧
      step (fun _ => "x") s (.lock₂ 0) = none :=
    ⟨_, rfl, rfl, rfl, rfl⟩
  have hreach : Reachable (fun _ => "x") s := Reachable.exec .refl hs
  exact ⟨s, hs, h0, h1, hlock, hreach, no_deadlock hreach 0⟩

end Progress

end Memo3
