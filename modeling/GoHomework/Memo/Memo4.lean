import Mathlib.Logic.Function.Basic
import Mathlib.Logic.Relation
import Mathlib.Data.List.Nodup

/-!
# `memo4`: single-flight memoization

The `Memo.Get` of `memo4` (`unnamed/part_003`, lines 265–301) as a transition system.  Any
number of goroutines call `Get`, goroutine `t` with key `key t`; each critical section
between `mu.Lock()` and `mu.Unlock()` is one atomic step, and so is each other action of a
goroutine: running `f(key)`, closing `ready`, waking from `<-e.ready`, and returning.
Entries are heap objects behind pointers (natural numbers), allocated fresh by the first
request for a key.

`f` may answer anything: the result of a call is a free choice of the `call` step.  A ghost
log `calls` records every finished call of `f` with its key and result.

The main theorem, `single_flight`, holds over every interleaving: `f(k)` is called at most
once, the entry cached for `k` is never replaced, and a `Get(k)` that has returned did so
with the result of that one call.  Its invariant `Inv` is split into facts about the cache,
the heap and the log, and an assertion `PcOk` for each point of `Get` a goroutine can stand
at; every action moves one goroutine, and `Inv.move` says what such a move has to check.
-/

namespace Memo

/-- The `entry` struct: the result written by `f`, and whether `ready` is closed. -/
structure Entry (R : Type) where
  res : R
  ready : Bool

/-- Where a goroutine in `Get` stands. -/
inductive Pc (R : Type) where
  /-- Before `mu.Lock()`. -/
  | start
  /-- First request: entry `e` created and cached, `f(key)` to run (line 282). -/
  | call (e : Nat)
  /-- `f` has returned into `e.res`; `close(e.ready)` next (line 287). -/
  | close (e : Nat)
  /-- Repeat request: blocked on `<-e.ready` (line 298). -/
  | wait (e : Nat)
  /-- About to return `e.res` (line 300). -/
  | ret (e : Nat)
  /-- Returned `r`. -/
  | done (r : R)

/-- The entry a goroutine holds, if any. -/
def Pc.entry {R : Type} : Pc R → Option Nat
  | .call e | .close e | .wait e | .ret e => some e
  | .start | .done _ => none

/-- The goroutine is the one that created entry `e` and has not closed `ready` yet. -/
def Pc.owns {R : Type} (pc : Pc R) (e : Nat) : Prop := pc = .call e ∨ pc = .close e

/-- The memo and its goroutines: `cache` is `memo.cache`, `heap` the entries allocated so
far, `next` the next fresh pointer, `pcs` each goroutine's position, and `calls` the ghost
log of finished calls of `f`. -/
structure State (R : Type) where
  cache : String → Option Nat
  heap : Nat → Entry R
  next : Nat
  pcs : Nat → Pc R
  calls : List (String × R)

/-- `New(f)` with every goroutine about to call `Get`. -/
def init {R : Type} [Inhabited R] : State R :=
  ⟨fun _ => none, fun _ => ⟨default, false⟩, 0, fun _ => .start, []⟩

/-- One atomic action of goroutine `t`. -/
inductive Action (R : Type) where
  /-- The critical section: look up the key, on a miss create and cache an entry. -/
  | lock (t : Nat)
  /-- `f(key)` runs and answers `r` into `e.res`. -/
  | call (t : Nat) (r : R)
  /-- `close(e.ready)`. -/
  | close (t : Nat)
  /-- `<-e.ready` returns; enabled once `ready` is closed. -/
  | wake (t : Nat)
  /-- `return e.res`. -/
  | ret (t : Nat)

variable {R : Type} (key : Nat → String)

/-- The state after an action, or `none` when the action is not enabled. -/
def step [Inhabited R] (s : State R) : Action R → Option (State R)
  | .lock t =>
    match s.pcs t with
    | .start =>
      match s.cache (key t) with
      | none => some { s with
          cache := Function.update s.cache (key t) (some s.next)
          heap := Function.update s.heap s.next ⟨default, false⟩
          next := s.next + 1
          pcs := Function.update s.pcs t (.call s.next) }
      | some e => some { s with pcs := Function.update s.pcs t (.wait e) }
    | _ => none
  | .call t r =>
    match s.pcs t with
    | .call e => some { s with
        heap := Function.update s.heap e { s.heap e with res := r }
        pcs := Function.update s.pcs t (.close e)
        calls := s.calls ++ [(key t, r)] }
    | _ => none
  | .close t =>
    match s.pcs t with
    | .close e => some { s with
        heap := Function.update s.heap e { s.heap e with ready := true }
        pcs := Function.update s.pcs t (.ret e) }
    | _ => none
  | .wake t =>
    match s.pcs t with
    | .wait e => if (s.heap e).ready then some { s with pcs := Function.update s.pcs t (.ret e) }
      else none
    | _ => none
  | .ret t =>
    match s.pcs t with
    | .ret e => some { s with pcs := Function.update s.pcs t (.done (s.heap e).res) }
    | _ => none

/-- One step of some goroutine. -/
def Step [Inhabited R] (s s' : State R) : Prop := ∃ a, step key s a = some s'

/-- The states some interleaving reaches from `init`. -/
def Reachable [Inhabited R] (s : State R) : Prop := Relation.ReflTransGen (Step key) init s

/-- The state after the actions `as` one after another, or `none` if one is not enabled. -/
def exec [Inhabited R] (s : State R) : List (Action R) → Option (State R)
  | [] => some s
  | a :: as => (step key s a).bind fun s' => exec s' as

/-! ## The invariant -/

/-- What holds in every reachable state.  The pointers in the cache are allocated and name
one key each; the log holds at most one call per key, each for a cached key; an entry whose
`ready` is closed holds the logged result of its key; a goroutine holding an entry holds the
one cached for its key; an entry has at most one owner, which has not closed `ready`; and a
goroutine that has returned returned the logged result of its key. -/
structure Inv (s : State R) : Prop where
  cache_lt : ∀ k e, s.cache k = some e → e < s.next
  cache_inj : ∀ k k' e, s.cache k = some e → s.cache k' = some e → k = k'
  calls_nodup : (s.calls.map Prod.fst).Nodup
  calls_cached : ∀ k r, (k, r) ∈ s.calls → ∃ e, s.cache k = some e
  ready_called : ∀ k e, s.cache k = some e → (s.heap e).ready = true →
    (k, (s.heap e).res) ∈ s.calls
  pc_cached : ∀ t e, (s.pcs t).entry = some e → s.cache (key t) = some e
  owner_unique : ∀ t t' e, (s.pcs t).owns e → (s.pcs t').owns e → t = t'
  calling : ∀ t e, s.pcs t = .call e →
    (s.heap e).ready = false ∧ key t ∉ s.calls.map Prod.fst
  closing : ∀ t e, s.pcs t = .close e →
    (s.heap e).ready = false ∧ (key t, (s.heap e).res) ∈ s.calls
  returning : ∀ t e, s.pcs t = .ret e → (s.heap e).ready = true
  done_called : ∀ t r, s.pcs t = .done r → (key t, r) ∈ s.calls

/-- The invariant's assertion at each point of `Get` for goroutine `t`: holding an entry, it
holds the one cached for its key; about to call `f`, it finds `ready` open and no call
logged for its key; about to close `ready`, it has logged its call; about to return, it finds
`ready` closed; having returned, it returned the logged result of its key. -/
def PcOk (s : State R) (t : Nat) : Pc R → Prop
  | .start => True
  | .call e => s.cache (key t) = some e ∧ (s.heap e).ready = false ∧
      key t ∉ s.calls.map Prod.fst
  | .close e => s.cache (key t) = some e ∧ (s.heap e).ready = false ∧
      (key t, (s.heap e).res) ∈ s.calls
  | .wait e => s.cache (key t) = some e
  | .ret e => s.cache (key t) = some e ∧ (s.heap e).ready = true
  | .done r => (key t, r) ∈ s.calls

theorem inv_init [Inhabited R] : Inv key (init : State R) where
  cache_lt := by simp [init]
  cache_inj := by simp [init]
  calls_nodup := List.nodup_nil
  calls_cached := by simp [init]
  ready_called := by simp [init]
  pc_cached := by simp [init, Pc.entry]
  owner_unique := by simp [init, Pc.owns]
  calling := by simp [init]
  closing := by simp [init]
  returning := by simp [init]
  done_called := by simp [init]

variable {key} {s s' : State R}

theorem Pc.entry_of_owns {pc : Pc R} {e : Nat} (h : pc.owns e) : pc.entry = some e := by
  rcases h with rfl | rfl <;> rfl

theorem PcOk.cached {pc : Pc R} {t e : Nat} (h : PcOk key s t pc) (he : pc.entry = some e) :
    s.cache (key t) = some e := by
  cases pc <;> cases he
  exacts [h.1, h.1, h, h.1]

/-- Every goroutine meets its assertion in a state satisfying the invariant. -/
theorem Inv.pcOk (hs : Inv key s) (t : Nat) : PcOk key s t (s.pcs t) := by
  have hc := hs.pc_cached t
  cases hpc : s.pcs t with
  | start => trivial
  | call e => exact ⟨hc e (by rw [hpc]; rfl), hs.calling t e hpc⟩
  | close e => exact ⟨hc e (by rw [hpc]; rfl), hs.closing t e hpc⟩
  | wait e => exact hc e (by rw [hpc]; rfl)
  | ret e => exact ⟨hc e (by rw [hpc]; rfl), hs.returning t e hpc⟩
  | done r => exact hs.done_called t r hpc

/-! ## Each action keeps the invariant -/

/-- **One goroutine moves.**  Every action moves one goroutine `t` to a new position `p` and
may change the cache, the heap and the log.  The invariant holds afterwards if its facts about
the new cache, heap and log hold, `p` meets its assertion, every other goroutine's assertion
survives the change, and no other goroutine owns what `p` owns. -/
theorem Inv.move (hs : Inv key s) {t : Nat} {p : Pc R}
    (hpcs : s'.pcs = Function.update s.pcs t p)
    (cache_lt : ∀ k e, s'.cache k = some e → e < s'.next)
    (cache_inj : ∀ k k' e, s'.cache k = some e → s'.cache k' = some e → k = k')
    (calls_nodup : (s'.calls.map Prod.fst).Nodup)
    (calls_cached : ∀ k r, (k, r) ∈ s'.calls → ∃ e, s'.cache k = some e)
    (ready_called : ∀ k e, s'.cache k = some e → (s'.heap e).ready = true →
      (k, (s'.heap e).res) ∈ s'.calls)
    (hp : PcOk key s' t p) (hother : ∀ t', t' ≠ t → PcOk key s' t' (s.pcs t'))
    (hown : ∀ e, p.owns e → ∀ t', t' ≠ t → ¬(s.pcs t').owns e) : Inv key s' := by
  have hok : ∀ t', PcOk key s' t' (s'.pcs t') := by
    rw [hpcs]
    exact (Function.forall_update_iff s.pcs (PcOk key s')).2 ⟨hp, hother⟩
  refine ⟨cache_lt, cache_inj, calls_nodup, calls_cached, ready_called,
    fun t' e h => (hok t').cached h, fun t1 t2 e h1 h2 => ?_, fun t' e h => ?_,
    fun t' e h => ?_, fun t' e h => ?_, fun t' r h => ?_⟩
  · simp only [hpcs, Function.update_apply] at h1 h2
    split_ifs at h1 h2 with ht1 ht2 ht2
    · exact ht1.trans ht2.symm
    · exact absurd h2 (hown e h1 t2 ht2)
    · exact absurd h1 (hown e h2 t1 ht1)
    · exact hs.owner_unique t1 t2 e h1 h2
  all_goals have hk := hok t'; rw [h] at hk
  exacts [hk.2, hk.2, hk.2, hk]

/-- Moving one goroutine to a position that owns no entry, the cache, heap and log unchanged,
keeps the invariant if the new position's assertion holds. -/
theorem Inv.setPc (hs : Inv key s) {t : Nat} {p : Pc R} (hp : PcOk key s t p)
    (hown : ∀ e, ¬ p.owns e) : Inv key { s with pcs := Function.update s.pcs t p } :=
  hs.move rfl hs.cache_lt hs.cache_inj hs.calls_nodup hs.calls_cached hs.ready_called hp
    (fun t' _ => hs.pcOk t') fun e h => absurd h (hown e)

section Steps

variable [Inhabited R]

theorem Inv.lock (hs : Inv key s) {t : Nat} (h : step key s (.lock t) = some s') :
    Inv key s' := by
  simp only [step] at h
  split at h
  · split at h
    · -- a miss: a fresh entry is cached for a key that nothing has seen yet
      rename_i hmiss
      cases h
      have old : ∀ k e, s.cache k = some e → k ≠ key t := fun k e hk hkt => by
        rw [hkt, hmiss] at hk; cases hk
      have fresh : ∀ k e, s.cache k = some e → e ≠ s.next := fun k e hk =>
        Nat.ne_of_lt (hs.cache_lt k e hk)
      have uncalled : key t ∉ s.calls.map Prod.fst := fun hm => by
        obtain ⟨⟨k, r⟩, hkr, rfl⟩ := List.mem_map.1 hm
        obtain ⟨e, he⟩ := hs.calls_cached _ r hkr
        exact old _ e he rfl
      refine hs.move rfl (fun k e hk => ?_) (fun k k' e hk hk' => ?_) hs.calls_nodup
        (fun k r hkr => ?_) (fun k e hk hready => ?_) ⟨by simp, by simp, uncalled⟩
        (fun t' _ => ?_) (fun e he t' _ h' => ?_)
      · simp only [Function.update_apply] at hk ⊢
        split_ifs at hk
        · cases hk; omega
        · exact Nat.lt_succ_of_lt (hs.cache_lt k e hk)
      · simp only [Function.update_apply] at hk hk'
        split_ifs at hk hk' with h1 h2 h2
        · exact h1.trans h2.symm
        · cases hk; exact absurd rfl (fresh _ _ hk')
        · cases hk'; exact absurd rfl (fresh _ _ hk)
        · exact hs.cache_inj k k' e hk hk'
      · obtain ⟨e, he⟩ := hs.calls_cached k r hkr
        exact ⟨e, (Function.update_noteq (old k e he) _ _).trans he⟩
      · simp only [Function.update_apply] at hk
        split_ifs at hk
        · cases hk; simp at hready
        · simp only [Function.update_noteq (fresh k e hk)] at hready ⊢
          exact hs.ready_called k e hk hready
      · -- every other goroutine holds an older entry, cached for another key
        have hk := hs.pcOk t'
        cases hpc : s.pcs t' with
        | start => trivial
        | done r => rw [hpc] at hk; exact hk
        | call e | close e | wait e | ret e =>
          have hc := hs.pc_cached t' e (by rw [hpc]; rfl)
          rw [hpc] at hk
          simpa only [PcOk, Function.update_noteq (old _ _ hc),
            Function.update_noteq (fresh _ _ hc)] using hk
      · -- and owns nothing, let alone the fresh entry
        rcases he with he | he <;> cases he
        exact fresh _ _ (hs.pc_cached t' _ (Pc.entry_of_owns h')) rfl
    · -- a hit: wait on the cached entry
      rename_i e hhit
      cases h
      exact hs.setPc hhit (by simp [Pc.owns])
  · cases h

theorem Inv.call (hs : Inv key s) {t : Nat} {r : R} (h : step key s (.call t r) = some s') :
    Inv key s' := by
  simp only [step] at h
  split at h
  · rename_i e hpc
    cases h
    have hcache : s.cache (key t) = some e := hs.pc_cached t e (by rw [hpc]; rfl)
    obtain ⟨hnotready, huncalled⟩ := hs.calling t e hpc
    have hready : ∀ e', (Function.update s.heap e { s.heap e with res := r } e').ready =
        (s.heap e').ready := fun e' => by
      rw [Function.update_apply]; split_ifs with he <;> simp [he]
    -- every other owner owns another entry, cached for another key
    have hother : ∀ t', t' ≠ t → ∀ e', (s.pcs t').owns e' → e' ≠ e ∧ key t' ≠ key t :=
      fun t' htt e' h' => by
        have hne : e' ≠ e := fun he => htt (hs.owner_unique t' t e' h' (he ▸ .inl hpc))
        refine ⟨hne, fun hk => hne (Option.some.inj ?_)⟩
        rw [← hs.pc_cached t' e' (Pc.entry_of_owns h'), hk, hcache]
    refine hs.move rfl hs.cache_lt hs.cache_inj ?_ (fun k r' hkr => ?_) (fun k e' hk hr => ?_)
      ⟨hcache, (hready e).trans hnotready, by simp⟩ (fun t' htt => ?_)
      (fun e' he t' htt h' => ?_)
    · dsimp only
      rw [List.map_append, List.nodup_append]
      exact ⟨hs.calls_nodup, List.nodup_singleton _, by simpa using huncalled⟩
    · rcases List.mem_append.1 hkr with hkr | hkr
      · exact hs.calls_cached k r' hkr
      · rw [(Prod.mk.inj (List.mem_singleton.1 hkr)).1]
        exact ⟨e, hcache⟩
    · -- the entry being filled is not ready yet
      have hr' : (s.heap e').ready = true := (hready e').symm.trans hr
      have he : e' ≠ e := by rintro rfl; rw [hnotready] at hr'; cases hr'
      dsimp only
      rw [Function.update_noteq he]
      exact List.mem_append_left _ (hs.ready_called k e' hk hr')
    · have hk := hs.pcOk t'
      cases hpc' : s.pcs t' with
      | start => trivial
      | call e' | close e' =>
        obtain ⟨hne, hkne⟩ := hother t' htt e' (by simp [hpc', Pc.owns])
        rw [hpc'] at hk
        simpa [PcOk, Function.update_noteq hne, hkne] using hk
      | wait e' => rw [hpc'] at hk; exact hk
      | ret e' => rw [hpc'] at hk; exact ⟨hk.1, (hready e').trans hk.2⟩
      | done r' => rw [hpc'] at hk; exact List.mem_append_left _ hk
    · rcases he with he | he <;> cases he
      exact htt (hs.owner_unique t' t e h' (.inl hpc))
  · cases h

theorem Inv.close (hs : Inv key s) {t : Nat} (h : step key s (.close t) = some s') :
    Inv key s' := by
  simp only [step] at h
  split at h
  · rename_i e hpc
    cases h
    have hcache : s.cache (key t) = some e := hs.pc_cached t e (by rw [hpc]; rfl)
    have hcalled := (hs.closing t e hpc).2
    have hres : ∀ e', (Function.update s.heap e { s.heap e with ready := true } e').res =
        (s.heap e').res := fun e' => by
      rw [Function.update_apply]; split_ifs with he <;> simp [he]
    have hmono : ∀ e', (s.heap e').ready = true →
        (Function.update s.heap e { s.heap e with ready := true } e').ready = true :=
      fun e' hr => by rw [Function.update_apply]; split_ifs <;> simp [hr]
    refine hs.move rfl hs.cache_lt hs.cache_inj hs.calls_nodup hs.calls_cached
      (fun k e' hk hr => ?_) ⟨hcache, by simp⟩ (fun t' htt => ?_)
      fun e' he => absurd he (by simp [Pc.owns])
    · -- the entry just closed holds the logged result of its key
      dsimp only at hr ⊢
      rw [hres]
      by_cases he : e' = e
      · subst he
        rw [hs.cache_inj k (key t) e' hk hcache]
        exact hcalled
      · rw [Function.update_noteq he] at hr
        exact hs.ready_called k e' hk hr
    · have hk := hs.pcOk t'
      cases hpc' : s.pcs t' with
      | call e' | close e' =>
        have hne : e' ≠ e := fun he =>
          htt (hs.owner_unique t' t e' (by simp [hpc', Pc.owns]) (he ▸ .inr hpc))
        rw [hpc'] at hk
        simpa [PcOk, Function.update_noteq hne] using hk
      | ret e' => rw [hpc'] at hk; exact ⟨hk.1, hmono e' hk.2⟩
      | start | wait _ | done _ => rw [hpc'] at hk; exact hk
  · cases h

theorem Inv.wake (hs : Inv key s) {t : Nat} (h : step key s (.wake t) = some s') :
    Inv key s' := by
  simp only [step] at h
  split at h
  · rename_i e hpc
    split at h
    · rename_i hready
      cases h
      exact hs.setPc ⟨hs.pc_cached t e (by rw [hpc]; rfl), hready⟩ (by simp [Pc.owns])
    · cases h
  · cases h

theorem Inv.ret (hs : Inv key s) {t : Nat} (h : step key s (.ret t) = some s') :
    Inv key s' := by
  simp only [step] at h
  split at h
  · rename_i e hpc
    cases h
    exact hs.setPc (hs.ready_called _ e (hs.pc_cached t e (by rw [hpc]; rfl))
      (hs.returning t e hpc)) (by simp [Pc.owns])
  · cases h

theorem Inv.step (hs : Inv key s) {a : Action R} (h : step key s a = some s') : Inv key s' := by
  cases a with
  | lock t => exact hs.lock h
  | call t r => exact hs.call h
  | close t => exact hs.close h
  | wake t => exact hs.wake h
  | ret t => exact hs.ret h

/-- A step never changes an entry already cached: `lock` only caches a key that has none. -/
theorem step_cache_mono {a : Action R} (h : step key s a = some s') {k : String} {e : Nat}
    (hk : s.cache k = some e) : s'.cache k = some e := by
  cases a with
  | lock t =>
    simp only [step] at h
    split at h
    · split at h
      · rename_i hmiss
        cases h
        have hkt : k ≠ key t := fun hkt => by rw [hkt, hmiss] at hk; cases hk
        exact (Function.update_noteq hkt _ _).trans hk
      · cases h
        exact hk
    · cases h
  | wake t =>
    simp only [step] at h
    split at h
    · split at h
      · cases h
        exact hk
      · cases h
    · cases h
  | call t r | close t | ret t =>
    simp only [step] at h
    split at h
    · cases h
      exact hk
    · cases h

/-- Along any run the cached entries stay. -/
theorem run_cache_mono (h : Relation.ReflTransGen (Step key) s s') {k : String} {e : Nat}
    (hk : s.cache k = some e) : s'.cache k = some e := by
  induction h with
  | refl => exact hk
  | tail _ hstep ih =>
    obtain ⟨a, ha⟩ := hstep
    exact step_cache_mono ha ih

/-- The actions of `exec` make a run. -/
theorem exec_run {as : List (Action R)} (h : exec key s as = some s') :
    Relation.ReflTransGen (Step key) s s' := by
  induction as generalizing s with
  | nil => cases h; exact .refl
  | cons a as ih =>
    obtain ⟨s₁, h₁, h⟩ := Option.bind_eq_some.1 h
    exact .head ⟨a, h₁⟩ (ih h)

end Steps

/-- Every reachable state satisfies the invariant. -/
theorem Reachable.inv [Inhabited R] {s : State R} (h : Reachable key s) : Inv key s := by
  induction h with
  | refl => exact inv_init key
  | tail _ hstep ih =>
    obtain ⟨a, ha⟩ := hstep
    exact ih.step ha

/-- **Single flight.**  In every interleaving of any number of `Get` calls, from any reachable
state `s` to any later state `s'`: each key's `f` has been called at most once, the entry
cached for a key in `s` is still cached for it in `s'`, and every goroutine that has returned
from `Get` returned the result of the logged call of `f` for its key. -/
theorem single_flight [Inhabited R] {s s' : State R} (hs : Reachable key s)
    (hrun : Relation.ReflTransGen (Step key) s s') :
    (∀ k, (s'.calls.map Prod.fst).count k ≤ 1) ∧
      (∀ k e, s.cache k = some e → s'.cache k = some e) ∧
      (∀ t r, s'.pcs t = .done r → (key t, r) ∈ s'.calls) := by
  have hs' : Inv key s' := Reachable.inv (hs.trans hrun)
  exact ⟨fun k => List.nodup_iff_count_le_one.1 hs'.calls_nodup k,
    fun k e hk => run_cache_mono hrun hk, hs'.done_called⟩

/-- Two `Get("x")`: goroutine `0` misses and creates the entry, goroutine `1` finds it and
waits on `ready` until `0` has called `f` and closed `ready`.  From the state after the first
`mu.Lock()` to the end, `f` is called once, the entry stays cached, and both goroutines return
its answer. -/
theorem single_flight_waiter :
    ∃ s s', exec (fun _ => "x") (init : State Bool) [.lock 0] = some s ∧
      exec (fun _ => "x") s [.lock 1, .call 0 true, .close 0, .wake 1, .ret 0, .ret 1] = some s' ∧
      s'.pcs 0 = .done true ∧ s'.pcs 1 = .done true ∧
      Reachable (fun _ => "x") s ∧ Relation.ReflTransGen (Step fun _ => "x") s s' ∧
      (∀ k, (s'.calls.map Prod.fst).count k ≤ 1) ∧
      (∀ k e, s.cache k = some e → s'.cache k = some e) ∧
      (∀ t r, s'.pcs t = .done r → ("x", r) ∈ s'.calls) := by
  obtain ⟨s, hs, s', hs', h0, h1⟩ : ∃ s, exec (fun _ => "x") (init : State Bool) [.lock 0] = some s ∧
      ∃ s', exec (fun _ => "x") s [.lock 1, .call 0 true, .close 0, .wake 1, .ret 0, .ret 1] =
        some s' ∧ s'.pcs 0 = .done true ∧ s'.pcs 1 = .done true :=
    ⟨_, rfl, _, rfl, rfl, rfl⟩
  have hreach : Reachable (fun _ => "x") s := exec_run hs
  have hrun := exec_run hs'
  exact ⟨s, s', hs, hs', h0, h1, hreach, hrun, single_flight hreach hrun⟩

end Memo
