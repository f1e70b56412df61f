import GoHomework.Lrucache.Refinement

/-!
# A negative capacity acts as capacity one

`New(cap)` does not check its argument.  With `cap < 0`, `Set` never takes the early return
of `c.capacity == 0`, and `c.order.Len() >= c.capacity` always holds, so every `Set` of a new
key first drops the back element, if there is one: the list never holds more than one
element.  A cache of capacity one drops its back element exactly when it holds one, which
comes to the same.  `get`, `clear` and `range` do not read the capacity at all.

So `New(cap)` with `cap < 0` answers every sequence of calls as `New(1)` does, and hence as
the abstract LRU list of capacity one (`run_new_neg`).
-/

namespace Lrucache

namespace LRUCache

/-- The same map and list under another capacity. -/
def withCapacity (c : LRUCache) (n : Int) : LRUCache := { c with capacity := n }

variable {c : LRUCache}

theorem get_withCapacity (c : LRUCache) (n key : Int) :
    (c.withCapacity n).get key = ((c.get key).1, (c.get key).2.withCapacity n) := by
  cases hl : c.storage.lookup key <;> simp [get, withCapacity, hl]

/-- Under a negative capacity, evicting empties a list of at most one element. -/
theorem evict_len (hneg : c.capacity < 0) (hlen : c.order.len ≤ 1) : c.evict.order.len = 0 := by
  unfold evict
  rw [if_pos (by omega)]
  split
  · rename_i last hlast
    have hmem := List.mem_of_getLast?_eq_some hlast
    simp only [GoList.len, GoList.remove_elems, List.length_erase_of_mem hmem] at hlen ⊢
    omega
  · rename_i hnone
    simp [GoList.len, List.getLast?_eq_none_iff.1 hnone]

/-- Under a negative capacity and at capacity one, `Set` evicts alike. -/
theorem evict_withCapacity (hneg : c.capacity < 0) (hlen : c.order.len ≤ 1) :
    (c.withCapacity 1).evict = c.evict.withCapacity 1 := by
  have hc : c.capacity ≤ c.order.len := by omega
  rcases Nat.le_one_iff_eq_zero_or_eq_one.1 hlen with h0 | h1
  · have hback : c.order.back = none := by
      simp [GoList.back, List.eq_nil_of_length_eq_zero (show c.order.elems.length = 0 from h0)]
    simp [evict, withCapacity, hc, hback, h0]
  · cases hb : c.order.back <;>
      simp [evict, withCapacity, hc, hb, h1, show c.capacity ≤ 1 by omega]

theorem set_withCapacity (hneg : c.capacity < 0) (hlen : c.order.len ≤ 1) (key value : Int) :
    (c.withCapacity 1).set key value = (c.set key value).withCapacity 1 ∧
      (c.set key value).order.len ≤ 1 := by
  have hs : (c.withCapacity 1).storage = c.storage := rfl
  unfold set
  rw [if_neg (by simp [withCapacity]), if_neg (by omega), hs]
  cases c.storage.lookup key with
  | some e =>
    refine ⟨rfl, ?_⟩
    show ((c.order.setValue e ⟨key, value⟩).moveToFront e).len ≤ 1
    rw [GoList.len, (GoList.moveToFront_perm _ _).length_eq, GoList.setValue_elems]
    exact hlen
  | none =>
    refine ⟨by dsimp only; rw [evict_withCapacity hneg hlen]; rfl, ?_⟩
    have := evict_len hneg hlen
    simp only [GoList.len, insertFront_order, GoList.pushFront_elems, List.length_cons] at this ⊢
    omega

/-- **A cache of negative capacity answers as one of capacity one**, from every state whose
list holds at most one element. -/
theorem run_withCapacity {m : Type → Type} [Monad m] (ops : List (Op m)) :
    ∀ {c : LRUCache}, c.capacity < 0 → c.order.len ≤ 1 → c.run ops = (c.withCapacity 1).run ops := by
  induction ops with
  | nil => intro _ _ _; rfl
  | cons op ops ih =>
    intro c hneg hlen
    cases op with
    | set k v =>
      obtain ⟨h1, h2⟩ := set_withCapacity hneg hlen k v
      simp only [LRUCache.run, h1]
      exact ih (by simpa using hneg) h2
    | get k =>
      have hlen' : (c.get k).2.order.len ≤ 1 := by
        cases hl : c.storage.lookup k with
        | none => rwa [get_of_lookup_none hl]
        | some e =>
          simpa only [get_of_lookup_some hl, GoList.len, (GoList.moveToFront_perm _ _).length_eq]
            using hlen
      simp only [LRUCache.run, get_withCapacity, ih (by simpa using hneg) hlen']
    | clear => exact ih hneg (by simp [clear, GoList.len])
    | range f => simp only [LRUCache.run, ih hneg hlen]; rfl

end LRUCache

/-- **`New(cap)` with `cap < 0` is an LRU cache of capacity one.**  For every negative
capacity and every sequence of `Set`, `Get`, `Clear` and `Range` calls, the cache makes the
same callback calls and returns the same `Get` results as the abstract LRU list of capacity
one. -/
theorem run_new_neg {m : Type → Type} [Monad m] {cap : Int} (hcap : cap < 0) (ops : List (Op m)) :
    (new cap).run ops = (LRU.new 1).run ops := by
  rw [LRUCache.run_withCapacity ops hcap (by simp [new, GoList.new, GoList.len])]
  exact (refines_new 1).run ops

theorem run_new_neg_minus_one :
    (new (-1)).run ([.set 1 10, .set 2 20, .get 1, .get 2] : List (Op Id)) =
      (LRU.new 1).run [.set 1 10, .set 2 20, .get 1, .get 2] :=
  run_new_neg (by decide) _

end Lrucache
