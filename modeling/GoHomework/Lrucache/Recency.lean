import GoHomework.Lrucache.Refinement

/-!
# The cache holds the most recently used keys

What an LRU cache of capacity `cap` is for: at every moment it holds exactly the `cap` keys
used most recently, where a use of `k` is a `Set(k, v)` or a `Get(k)` that finds `k`, counted
since the last `Clear()`.  `recent uses` lists the keys of a history of uses once each, the
most recently used first, and `Used cap c uses` is a state `c` reachable from `New(cap)` with
the uses since the last `Clear`.

The main result, `keys_eq_take_recent`, is that the list of the cache holds, front to back,
the first `cap` keys of `recent uses`, and that `Get(k)` finds `k` exactly when `k` is one of
them; in particular `Set` evicts the least recently used key.  It is proved on the abstract
list of `Refinement.lean`, one lemma per call (`HoldsRecent.set`, `HoldsRecent.get`), and
carried to the cache along the refinement.
-/

namespace Lrucache

/-- The keys of a history of uses, once each, from the most to the least recently used. -/
def recent (uses : List Int) : List Int := uses.foldl (fun r k => k :: r.erase k) []

@[simp] theorem recent_nil : recent [] = [] := rfl

theorem recent_append_singleton (uses : List Int) (k : Int) :
    recent (uses ++ [k]) = k :: (recent uses).erase k := by
  simp only [recent, List.foldl_append, List.foldl_cons, List.foldl_nil]

/-! ## The first `n` keys after a use -/

/-- Using a key among the first `n + 1` moves it to the front of them. -/
theorem take_erase_of_mem {k : Int} :
    ∀ {l : List Int} {n : Nat}, k ∈ l.take (n + 1) → (l.erase k).take n = (l.take (n + 1)).erase k
  | [], _, h => absurd h (List.not_mem_nil _)
  | x :: l, n, h => by
    by_cases hx : x = k
    · subst hx; simp
    · rw [List.take_succ_cons, List.mem_cons, or_iff_right (Ne.symm hx)] at h
      cases n with
      | zero => simp at h
      | succ m => simp [List.erase_cons, hx, take_erase_of_mem h]

/-- Using a key not among the first `n + 1` keeps the first `n` in place. -/
theorem take_erase_of_not_mem {k : Int} :
    ∀ {l : List Int} {n : Nat}, k ∉ l.take (n + 1) → (l.erase k).take n = l.take n
  | [], _, _ => rfl
  | x :: l, n, h => by
    have hx : x ≠ k := fun hx => h (by simp [hx])
    cases n with
    | zero => simp
    | succ m =>
      rw [List.take_succ_cons, List.mem_cons, not_or] at h
      simp [List.erase_cons, hx, take_erase_of_not_mem h.2]

/-- Dropping the last of the first `n + 1` keys when there are `n + 1` of them leaves the
first `n`. -/
theorem take_succ_dropLast (l : List Int) (n : Nat) :
    (if (l.take (n + 1)).length = n + 1 then (l.take (n + 1)).dropLast else l.take (n + 1)) =
      l.take n := by
  split_ifs with h
  · rw [List.dropLast_eq_take, h, Nat.add_sub_cancel, List.take_take, Nat.min_eq_left (Nat.le_succ n)]
  · have hl : l.length ≤ n := by simp at h; omega
    rw [List.take_of_length_le (by omega), List.take_of_length_le hl]

/-! ## The abstract list -/

namespace LRU

@[simp] theorem set_capacity (a : LRU) (k v : Int) : (a.set k v).capacity = a.capacity := by
  unfold set; split_ifs <;> rfl

/-- The keys of `promote`, most recent first: the promoted key, then the others. -/
theorem keys_dropKey_append {ps : List (Int × Int)} (hps : (ps.map Prod.fst).Nodup) (k v : Int) :
    ((dropKey k ps ++ [(k, v)]).map Prod.fst).reverse =
      k :: ((ps.map Prod.fst).reverse).erase k := by
  rw [(List.nodup_reverse.2 hps).erase_eq_filter, List.filter_reverse, List.filter_map]
  simp [dropKey, Function.comp_def]

/-- `Get(k)` finds `k` exactly when it is a key of the list. -/
theorem get_found (a : LRU) (k : Int) : (a.get k).1.2 = true ↔ k ∈ a.pairs.map Prod.fst := by
  cases hl : a.pairs.lookup k with
  | none =>
    rw [get_of_lookup_none hl]
    simp only [Bool.false_eq_true, false_iff, List.mem_map, not_exists, not_and]
    rintro p hp rfl
    simpa using List.lookup_eq_none_iff.1 hl p hp
  | some v =>
    obtain ⟨p, hp, hk⟩ := List.lookup_isSome_iff.1 (by rw [hl]; rfl : (a.pairs.lookup k).isSome)
    rw [(get_of_lookup_some hl).1]
    exact iff_of_true rfl (List.mem_map.2 ⟨p, hp, (beq_iff_eq.1 hk).symm⟩)

@[simp] theorem get_capacity (a : LRU) (k : Int) : (a.get k).2.capacity = a.capacity := by
  unfold get; split <;> rfl

/-- The list holds, most recent first, the first `capacity` keys of `recent uses`. -/
def HoldsRecent (a : LRU) (uses : List Int) : Prop :=
  (a.pairs.map Prod.fst).reverse = (recent uses).take a.capacity

variable {a : LRU} {uses : List Int}

theorem holdsRecent_clear (a : LRU) : a.clear.HoldsRecent [] := by
  simp [HoldsRecent, clear]

theorem HoldsRecent.mem_iff (h : a.HoldsRecent uses) (k : Int) :
    k ∈ a.pairs.map Prod.fst ↔ k ∈ (recent uses).take a.capacity := by
  rw [← h, List.mem_reverse]

/-- A use of `k` that finds it at capacity `n + 1` moves it to the front. -/
theorem HoldsRecent.promote (h : a.HoldsRecent uses) {n : Nat} (hn : a.capacity = n + 1)
    {k v : Int} (hk : k ∈ a.pairs.map Prod.fst) :
    ((dropKey k a.pairs ++ [(k, v)]).map Prod.fst).reverse = (recent (uses ++ [k])).take (n + 1) := by
  rw [keys_dropKey_append a.keys_nodup, recent_append_singleton, List.take_succ_cons, h, hn,
    take_erase_of_mem (hn ▸ (h.mem_iff k).1 hk)]

/-- **`Set`** keeps the recent keys. -/
theorem HoldsRecent.set (h : a.HoldsRecent uses) (k v : Int) :
    (a.set k v).HoldsRecent (uses ++ [k]) := by
  unfold HoldsRecent
  rw [set_capacity]
  unfold LRU.set
  split_ifs with h0 hk
  · have hp : a.pairs = [] := List.eq_nil_of_length_eq_zero (by have := a.length_le; omega)
    rw [h0, List.take_zero, hp]
    rfl
  · obtain ⟨n, hn⟩ : ∃ n, a.capacity = n + 1 := ⟨a.capacity - 1, by omega⟩
    rw [hn]
    exact h.promote hn hk
  · obtain ⟨n, hn⟩ : ∃ n, a.capacity = n + 1 := ⟨a.capacity - 1, by omega⟩
    have h' : (a.pairs.map Prod.fst).reverse = (recent uses).take (n + 1) := hn ▸ h
    have hk' : k ∉ (recent uses).take (n + 1) := by rw [← h', List.mem_reverse]; exact hk
    have hkeys : ((if a.pairs.length = a.capacity then a.pairs.tail else a.pairs).map
        Prod.fst).reverse = (recent uses).take n := by
      rw [← take_succ_dropLast, ← h', hn]
      simp only [List.length_reverse, List.length_map]
      split_ifs <;> simp [List.map_tail]
    show (((if a.pairs.length = a.capacity then a.pairs.tail else a.pairs) ++ [(k, v)]).map
      Prod.fst).reverse = _
    rw [List.map_append, List.reverse_append, hkeys, recent_append_singleton, hn,
      List.take_succ_cons, take_erase_of_not_mem hk']
    rfl

/-- **`Get`** keeps the recent keys, with `k` used when it is found. -/
theorem HoldsRecent.get (h : a.HoldsRecent uses) (k : Int) :
    (a.get k).2.HoldsRecent (if (a.get k).1.2 then uses ++ [k] else uses) := by
  cases hl : a.pairs.lookup k with
  | none => rw [get_of_lookup_none hl]; exact h
  | some v =>
    obtain ⟨h1, h2, h3⟩ := get_of_lookup_some hl
    have hk := (get_found a k).1 (by rw [h1])
    have hn : a.capacity ≠ 0 := fun h0 => by
      rw [h.mem_iff, h0, List.take_zero] at hk; exact List.not_mem_nil k hk
    obtain ⟨n, hn⟩ := Nat.exists_eq_succ_of_ne_zero hn
    rw [h1, if_pos rfl, HoldsRecent, h2, h3, hn]
    exact h.promote hn hk

end LRU

/-! ## The cache -/

/-- The states reachable from `New(cap)`, each with the keys used since the last `Clear`:
the key of every `Set`, and of every `Get` that finds its key. -/
inductive Used (cap : Int) : LRUCache → List Int → Prop
  | new : Used cap (new cap) []
  | set {c : LRUCache} {uses : List Int} (key value : Int) :
      Used cap c uses → Used cap (c.set key value) (uses ++ [key])
  | getHit {c : LRUCache} {uses : List Int} (key : Int) :
      Used cap c uses → (c.get key).1.2 = true → Used cap (c.get key).2 (uses ++ [key])
  | getMiss {c : LRUCache} {uses : List Int} (key : Int) :
      Used cap c uses → (c.get key).1.2 = false → Used cap (c.get key).2 uses
  | clear {c : LRUCache} {uses : List Int} : Used cap c uses → Used cap c.clear []

/-- Every state with its uses stands for an abstract list that holds the recent keys. -/
theorem Used.holdsRecent {cap : Nat} {c : LRUCache} {uses : List Int} (h : Used cap c uses) :
    ∃ a : LRU, c.Refines a ∧ a.capacity = cap ∧ a.HoldsRecent uses := by
  induction h with
  | new => exact ⟨LRU.new cap, refines_new cap, rfl, by simp [LRU.HoldsRecent, LRU.new]⟩
  | set k v _ ih =>
    obtain ⟨a, hr, hcap, hh⟩ := ih
    exact ⟨a.set k v, hr.set k v, by rw [LRU.set_capacity, hcap], hh.set k v⟩
  | getHit k _ hit ih =>
    obtain ⟨a, hr, hcap, hh⟩ := ih
    obtain ⟨h1, h2⟩ := hr.get k
    have hh' := hh.get k
    rw [← h1, hit, if_pos rfl] at hh'
    exact ⟨_, h2, by rw [LRU.get_capacity, hcap], hh'⟩
  | getMiss k _ miss ih =>
    obtain ⟨a, hr, hcap, hh⟩ := ih
    obtain ⟨h1, h2⟩ := hr.get k
    have hh' := hh.get k
    rw [← h1, miss, if_neg Bool.false_ne_true] at hh'
    exact ⟨_, h2, by rw [LRU.get_capacity, hcap], hh'⟩
  | clear _ ih =>
    obtain ⟨a, hr, hcap, -⟩ := ih
    exact ⟨a.clear, hr.clear, hcap, LRU.holdsRecent_clear a⟩

/-- **The cache holds the most recently used keys.**  In every state reachable from
`New(cap)`, with `uses` the keys used since the last `Clear`, the list of the cache holds,
front to back, the first `cap` keys of `recent uses`, and `Get(k)` finds `k` exactly when `k`
is one of them. -/
theorem keys_eq_take_recent {cap : Nat} {c : LRUCache} {uses : List Int} (h : Used cap c uses) :
    c.order.keys = (recent uses).take cap ∧
      ∀ k, (c.get k).1.2 = true ↔ k ∈ (recent uses).take cap := by
  obtain ⟨a, hr, rfl, hh⟩ := h.holdsRecent
  have hkeys : c.order.keys = (a.pairs.map Prod.fst).reverse := by
    rw [← hr.pairs_eq, LRUCache.toPairs_keys, List.reverse_reverse]
  refine ⟨hkeys.trans hh, fun k => ?_⟩
  rw [(hr.get k).1, LRU.get_found, hh.mem_iff]

/-- At capacity two, `Set(1)`, `Set(2)`, `Get(1)`, `Set(3)` leave `3` and `1`: `2` is
evicted. -/
theorem keys_eq_take_recent_evicts :
    (recent [1, 2, 1, 3]).take 2 = [3, 1] ∧
      (((((new 2).set 1 10).set 2 20).get 1).2.set 3 30).order.keys =
        (recent [1, 2, 1, 3]).take 2 :=
  ⟨rfl, (keys_eq_take_recent (.set 3 30 (.getHit 1 (.set 2 20 (.set 1 10 .new)) (by decide)))).1⟩

end Lrucache
