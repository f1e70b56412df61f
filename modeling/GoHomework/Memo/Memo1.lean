import Mathlib.Data.List.Basic
import Mathlib.Logic.Function.Basic

/-!
# `memo1`: memoization without synchronization

`Memo.Get` of `memo1` (`unnamed/part_002`, lines 452–502) looks the key up in `memo.cache` and,
on a miss, calls `f(key)` and caches its result.  Two goroutines calling it at once race on the
map, so `memo1` is modelled for one goroutine: `get` is one call and `run` a sequence of calls.
`f` may answer anything: `get` takes the answer `f(key)` would give, and uses it only on a miss.
The `result` pair of value and error is the type `R`.

The main result, `run_eq_lookup`, is that `memo1` memoizes: along any sequence of calls, a
`Get(k)` returns the result cached for `k` before the sequence, if any, and otherwise the answer
`f` gave at the first `Get(k)` of the sequence; the cache ends up holding the same.  It is the
sequential specification that `memo2` refines (`Memo2.linearizable`).
-/

namespace Memo1

variable {R : Type}

/-- `memo.Get(key)`, where `r` is what `f(key)` answers if it is called: on a hit the cached
result, on a miss `r`, which is cached for `key`. -/
def get (cache : String → Option R) (key : String) (r : R) : R × (String → Option R) :=
  match cache key with
  | some res => (res, cache)
  | none => (r, Function.update cache key (some r))

/-- Calls of `Get` one after another, each with its key and what `f` would answer: the results
in order, and the cache after the last call. -/
def run (ops : List (String × R)) (cache : String → Option R) :
    List R × (String → Option R) :=
  ops.foldl (fun acc op => ((acc.1 ++ [(get acc.2 op.1 op.2).1]), (get acc.2 op.1 op.2).2))
    ([], cache)

theorem get_hit {cache : String → Option R} {key : String} {res : R} (h : cache key = some res)
    (r : R) : get cache key r = (res, cache) := by
  rw [get, h]

theorem get_miss {cache : String → Option R} {key : String} (h : cache key = none) (r : R) :
    get cache key r = (r, Function.update cache key (some r)) := by
  rw [get, h]

/-- `get` in one piece: the result is the cached one or `r`, and the cache gains `r` for a key
that had nothing. -/
theorem get_eq_or (cache : String → Option R) (key : String) (r : R) :
    get cache key r =
      ((cache key).getD r, fun k => (cache k).or (if k = key then some r else none)) := by
  unfold get
  cases hc : cache key <;> refine Prod.ext rfl (funext fun k => ?_) <;> by_cases hk : k = key <;>
    simp [hk, hc, Function.update_apply]

@[simp]
theorem run_nil (cache : String → Option R) : run [] cache = ([], cache) := rfl

/-- One more call runs `get` on the cache the others left. -/
theorem run_append_singleton (ops : List (String × R)) (op : String × R)
    (cache : String → Option R) :
    run (ops ++ [op]) cache =
      ((run ops cache).1 ++ [(get (run ops cache).2 op.1 op.2).1],
        (get (run ops cache).2 op.1 op.2).2) := by
  rw [run, List.foldl_append]
  rfl

/-- A key that some call asks for has an answer in the calls. -/
theorem lookup_isSome_of_mem {ops : List (String × R)} {op : String × R} (h : op ∈ ops) :
    (ops.lookup op.1).isSome := List.lookup_isSome_iff.2 ⟨op, h, beq_self_eq_true _⟩

/-- **`memo1` memoizes.**  Along any sequence of calls `ops` from the cache `cache`, the call
`(k, r)` returns the result cached for `k` before the sequence, or else the answer of the first
call for `k` in `ops`; the cache afterwards holds the same for every key. -/
theorem run_eq_lookup (ops : List (String × R)) (cache : String → Option R) :
    run ops cache =
      (ops.map fun op => ((cache op.1).or (ops.lookup op.1)).getD op.2,
        fun k => (cache k).or (ops.lookup k)) := by
  induction ops using List.reverseRecOn with
  | nil => simp [Option.or_none]
  | append_singleton ops op ih =>
    obtain ⟨k, r⟩ := op
    -- the answers after one more call: the old ones, and `r` for a key that had none
    have hnew : ∀ k', (cache k').or ((ops ++ [(k, r)]).lookup k') =
        ((cache k').or (ops.lookup k')).or (if k' = k then some r else none) := fun k' => by
      rw [List.lookup_append, Option.or_assoc, List.lookup_cons]
      by_cases hk : k' = k
      · simp [hk]
      · simp [hk, beq_false_of_ne hk]
    have hold : ∀ op ∈ ops, ((cache op.1).or ((ops ++ [(k, r)]).lookup op.1)).getD op.2 =
        ((cache op.1).or (ops.lookup op.1)).getD op.2 := fun op hop => by
      rw [List.lookup_append, Option.or_of_isSome (lookup_isSome_of_mem hop)]
    rw [run_append_singleton, ih, get_eq_or, List.map_append, List.map_singleton,
      List.map_congr_left hold]
    refine Prod.ext ?_ (funext fun k' => (hnew k').symm)
    simp only [hnew k, if_pos rfl]
    cases (cache k).or (ops.lookup k) <;> rfl

end Memo1
