import GoHomework.Lrucache.Invariant

/-!
# `LRUCache` refines the abstract LRU list

The abstract model `LRU` is a list of `(key, value)` pairs with pairwise distinct keys,
ordered from least to most recently used and no longer than the capacity; both facts are
fields, so no other list can be built.  Its operations are read off the description of an
LRU cache, not off `lru.go`.

The abstraction `LRUCache.toPairs` reads the cache's list from back to front.  Under the
invariant of `Invariant.lean`, every call on the cache is the same call on its abstraction
(`Refines.set`, `Refines.get`, `Refines.clear`, `Refines.range`), so a whole run of calls on
`New(cap)`, with `Range` callbacks having effects in any monad, is the run of the same
calls on the empty abstract list (`run_new_eq`).
-/

namespace Lrucache

/-- The abstract LRU state: pairs from least to most recently used. -/
structure LRU where
  capacity : Nat
  pairs : List (Int × Int)
  keys_nodup : (pairs.map Prod.fst).Nodup
  length_le : pairs.length ≤ capacity

namespace LRU

/-- The pairs other than the one under key `k`. -/
def dropKey (k : Int) (ps : List (Int × Int)) : List (Int × Int) :=
  ps.filter fun p => p.1 != k

theorem not_mem_dropKey (k : Int) (ps : List (Int × Int)) : k ∉ (dropKey k ps).map Prod.fst := by
  simp [dropKey]

theorem dropKey_length_lt {k : Int} {ps : List (Int × Int)} (h : k ∈ ps.map Prod.fst) :
    (dropKey k ps).length < ps.length := by
  obtain ⟨p, hp, rfl⟩ := List.mem_map.1 h
  exact List.length_filter_lt_length_iff_exists.2 ⟨p, hp, by simp⟩

/-- Appending a pair under a fresh key keeps the keys distinct. -/
theorem keys_nodup_append {ps : List (Int × Int)} (h : (ps.map Prod.fst).Nodup) {k : Int}
    (hk : k ∉ ps.map Prod.fst) (v : Int) : ((ps ++ [(k, v)]).map Prod.fst).Nodup := by
  rw [List.map_append, List.nodup_append]
  exact ⟨h, List.nodup_singleton _, fun x hx hy => by simp at hy; exact hk (hy ▸ hx)⟩

/-- The empty list of `New(cap)`. -/
def new (cap : Nat) : LRU := ⟨cap, [], List.nodup_nil, Nat.zero_le _⟩

/-- The pair under a present key `k` replaced by `(k, v)`, made the most recent. -/
def promote (a : LRU) (k v : Int) (h : k ∈ a.pairs.map Prod.fst) : LRU where
  capacity := a.capacity
  pairs := dropKey k a.pairs ++ [(k, v)]
  keys_nodup :=
    keys_nodup_append (a.keys_nodup.sublist ((List.filter_sublist _).map _)) (not_mem_dropKey k _) v
  length_le := by
    have := dropKey_length_lt h
    have := a.length_le
    simp only [List.length_append, List.length_singleton]
    omega

/-- A pair under an absent key appended as the most recent, after dropping the least
recently used pair when the list already has `capacity` pairs. -/
def append (a : LRU) (k v : Int) (hk : k ∉ a.pairs.map Prod.fst) (hpos : a.capacity ≠ 0) :
    LRU where
  capacity := a.capacity
  pairs := (if a.pairs.length = a.capacity then a.pairs.tail else a.pairs) ++ [(k, v)]
  keys_nodup := by
    split
    · exact keys_nodup_append (a.keys_nodup.sublist ((List.tail_sublist _).map _))
        (fun h => hk ((List.tail_sublist _).map _ |>.subset h)) v
    · exact keys_nodup_append a.keys_nodup hk v
  length_le := by
    have := a.length_le
    split <;> simp only [List.length_append, List.length_tail, List.length_singleton] <;> omega

/-- `Set(k, v)`: nothing at capacity zero, else `promote` or `append`. -/
def set (a : LRU) (k v : Int) : LRU :=
  if hpos : a.capacity = 0 then a
  else if hk : k ∈ a.pairs.map Prod.fst then a.promote k v hk
  else a.append k v hk hpos

/-- `Get(k)`: the value under `k`, made the most recent, or `(0, false)` and no change. -/
def get (a : LRU) (k : Int) : (Int × Bool) × LRU :=
  match h : a.pairs.lookup k with
  | some v => ((v, true), a.promote k v (by
      obtain ⟨p, hp, hk⟩ := List.lookup_isSome_iff.1 (Option.isSome_iff_exists.2 ⟨v, h⟩)
      exact List.mem_map.2 ⟨p, hp, (beq_iff_eq.1 hk).symm⟩))
  | none => ((0, false), a)

/-- `Clear()`. -/
def clear (a : LRU) : LRU := ⟨a.capacity, [], List.nodup_nil, Nat.zero_le _⟩

/-- Calling `f` on the pairs in order, stopping right after the first `false`. -/
def rangeFrom {m : Type → Type} [Monad m] (f : Int → Int → m Bool) : List (Int × Int) → m Unit
  | [] => pure ()
  | p :: ps => do
    if ← f p.1 p.2 then rangeFrom f ps else pure ()

/-- `Range(f)` from the least to the most recently used pair. -/
def range {m : Type → Type} [Monad m] (a : LRU) (f : Int → Int → m Bool) : m Unit :=
  rangeFrom f a.pairs

/-- A sequence of calls, returning the results of the `Get` calls. -/
def run {m : Type → Type} [Monad m] : LRU → List (Op m) → m (List (Int × Bool))
  | _, [] => pure []
  | a, .set k v :: ops => run (a.set k v) ops
  | a, .get k :: ops => do
    let rs ← run (a.get k).2 ops
    pure ((a.get k).1 :: rs)
  | a, .clear :: ops => run a.clear ops
  | a, .range f :: ops => do
    a.range f
    run a ops

end LRU

namespace LRU

/-- In a list with distinct keys, the lookup of a listed pair's key finds its value. -/
theorem lookup_of_mem {k v : Int} :
    ∀ {ps : List (Int × Int)}, (ps.map Prod.fst).Nodup → (k, v) ∈ ps → ps.lookup k = some v
  | [], _, hm => absurd hm (List.not_mem_nil _)
  | (k', v') :: ps, hn, hm => by
    rw [List.map_cons, List.nodup_cons] at hn
    rcases List.mem_cons.1 hm with h | h
    · cases h
      exact List.lookup_cons_self
    · have hne : k ≠ k' := by
        rintro rfl
        exact hn.1 (List.mem_map.2 ⟨_, h, rfl⟩)
      rw [List.lookup_cons, beq_false_of_ne hne]
      exact lookup_of_mem hn.2 h

theorem get_of_lookup_some {a : LRU} {k v : Int} (h : a.pairs.lookup k = some v) :
    (a.get k).1 = (v, true) ∧ (a.get k).2.capacity = a.capacity ∧
      (a.get k).2.pairs = dropKey k a.pairs ++ [(k, v)] := by
  unfold get
  split <;> simp_all [promote]

theorem get_of_lookup_none {a : LRU} {k : Int} (h : a.pairs.lookup k = none) :
    a.get k = ((0, false), a) := by
  unfold get
  split <;> simp_all

end LRU

/-- An element's item as a pair. -/
def pairOf (value : Ptr → CacheItem) (e : Ptr) : Int × Int := ((value e).key, (value e).value)

namespace LRUCache

/-- The abstraction of a cache: its items from the back of the list to the front. -/
def toPairs (c : LRUCache) : List (Int × Int) := c.order.elems.reverse.map (pairOf c.order.value)

/-- The cache `c` stands for the abstract list `a`. -/
structure Refines (c : LRUCache) (a : LRU) : Prop where
  inv : c.Inv
  capacity_eq : c.capacity = a.capacity
  pairs_eq : c.toPairs = a.pairs

variable {c : LRUCache} {a : LRU}

theorem toPairs_keys (c : LRUCache) : c.toPairs.map Prod.fst = c.order.keys.reverse := by
  simp [toPairs, GoList.keys, pairOf, List.map_reverse]

theorem Refines.mem_keys_iff (h : Refines c a) (k : Int) :
    k ∈ a.pairs.map Prod.fst ↔ k ∈ c.storage := by
  rw [← h.pairs_eq, toPairs_keys, List.mem_reverse, h.inv.mem_storage_iff]

theorem Refines.length_eq (h : Refines c a) : c.order.len = a.pairs.length := by
  rw [← h.pairs_eq, toPairs, List.length_map, List.length_reverse, GoList.len]

/-- Moving the element holding key `k` to the front, its item now `(k, v)`, drops the
pair under `k` from the abstraction and appends `(k, v)`. -/
theorem Inv.toPairs_promote (hc : c.Inv) {e : Ptr} (he : e ∈ c.order.elems) {k v : Int}
    (hk : (c.order.value e).key = k) (value : Ptr → CacheItem)
    (hother : ∀ x, x ≠ e → value x = c.order.value x) (hnew : value e = ⟨k, v⟩) :
    (e :: c.order.elems.erase e).reverse.map (pairOf value) =
      LRU.dropKey k c.toPairs ++ [(k, v)] := by
  have hrest : (c.order.elems.erase e).reverse.map (pairOf value) =
      (c.order.elems.erase e).reverse.map (pairOf c.order.value) :=
    List.map_congr_left fun x hx => by
      rw [pairOf, pairOf, hother x (c.order.nodup.mem_erase_iff.1 (List.mem_reverse.1 hx)).1]
  rw [List.reverse_cons, List.map_append, hrest, c.order.nodup.erase_eq_filter, toPairs,
    LRU.dropKey, List.filter_map, ← List.filter_reverse]
  simp only [List.map_cons, List.map_nil, pairOf, hnew]
  congr 2
  refine List.filter_congr fun x hx => ?_
  rw [Function.comp, Bool.eq_iff_iff, bne_iff_ne, bne_iff_ne, pairOf]
  exact ⟨fun hxe h => hxe (hc.eq_of_key_eq (List.mem_reverse.1 hx) he (h.trans hk.symm)),
    fun h hxe => h (hxe ▸ hk)⟩

/-- Dropping the back element removes the least recently used pair when the list is full,
and evicting does nothing otherwise. -/
theorem Inv.toPairs_evict (hc : c.Inv) (hpos : c.capacity ≠ 0) :
    c.evict.toPairs = if (c.order.len : Int) = c.capacity then c.toPairs.tail else c.toPairs := by
  have hlen := hc.len_le
  unfold LRUCache.evict
  split
  · rename_i hfull
    rw [if_pos (by omega)]
    split
    · rename_i last hlast
      have hsplit := List.dropLast_append_getLast? last hlast
      have hnot : last ∉ c.order.elems.dropLast := fun hm => by
        have hnd := c.order.nodup
        rw [← hsplit] at hnd
        exact (List.nodup_append.1 hnd).2.2 hm (List.mem_singleton_self _)
      have herase : c.order.elems.erase last = c.order.elems.dropLast := by
        conv_lhs => rw [← hsplit]
        rw [List.erase_append_right _ hnot, List.erase_cons_head, List.append_nil]
      simp only [toPairs, GoList.remove_elems, GoList.remove_value, herase, ← List.map_tail,
        List.tail_reverse]
    · rename_i hnone
      simp only [GoList.len, List.getLast?_eq_none_iff.1 hnone, List.length_nil] at hfull hlen
      omega
  · rw [if_neg (by omega)]

/-- Pushing a new item appends its pair as the most recent. -/
theorem toPairs_insertFront (c : LRUCache) (k v : Int) :
    (c.insertFront k v).toPairs = c.toPairs ++ [(k, v)] := by
  simp only [toPairs, insertFront_order, GoList.pushFront_elems, GoList.pushFront_value,
    List.reverse_cons, List.map_append, List.map_cons, List.map_nil]
  congr 1
  · refine List.map_congr_left fun x hx => ?_
    have hne : x ≠ c.order.fresh := by
      rintro rfl
      exact c.order.fresh_not_mem (List.mem_reverse.1 hx)
    simp only [pairOf, Function.update_noteq hne]
  · simp [pairOf]

theorem Refines.toPairs_set (h : Refines c a) (k v : Int) :
    (c.set k v).toPairs = (a.set k v).pairs := by
  have hcap := h.capacity_eq
  unfold LRUCache.set LRU.set
  by_cases hpos : a.capacity = 0
  · rw [dif_pos hpos, if_pos (by omega)]
    exact h.pairs_eq
  rw [dif_neg hpos, if_neg (by omega)]
  split
  · rename_i e hl
    obtain ⟨he, hek⟩ := (h.inv.lookup_iff k e).1 hl
    have hk : k ∈ a.pairs.map Prod.fst :=
      (h.mem_keys_iff k).2 (AList.lookup_isSome.1 (by simp [hl]))
    rw [dif_pos hk, toPairs, GoList.moveToFront_elems_of_mem (by simpa using he),
      GoList.moveToFront_value, GoList.setValue_value, GoList.setValue_elems,
      h.inv.toPairs_promote he hek _ (fun x hx => Function.update_noteq hx _ _)
        (Function.update_same _ _ _), h.pairs_eq]
    rfl
  · rename_i hl
    have hk : k ∉ a.pairs.map Prod.fst := by
      rw [h.mem_keys_iff, ← AList.lookup_isSome, hl]
      exact Bool.false_ne_true
    rw [dif_neg hk, toPairs_insertFront, h.inv.toPairs_evict (by omega), h.pairs_eq, h.length_eq,
      hcap]
    simp only [Int.ofNat_inj]
    rfl

theorem Refines.set (h : Refines c a) (k v : Int) : Refines (c.set k v) (a.set k v) where
  inv := h.inv.set k v
  capacity_eq := by
    rw [set_capacity, h.capacity_eq]
    unfold LRU.set
    split
    · rfl
    · split <;> rfl
  pairs_eq := h.toPairs_set k v

theorem Refines.get (h : Refines c a) (k : Int) :
    (c.get k).1 = (a.get k).1 ∧ Refines (c.get k).2 (a.get k).2 := by
  cases hl : c.storage.lookup k with
  | none =>
    have hk : k ∉ a.pairs.map Prod.fst := by
      rw [h.mem_keys_iff, ← AList.lookup_isSome, hl]
      exact Bool.false_ne_true
    have ha : a.pairs.lookup k = none := List.lookup_eq_none_iff.2 fun p hp =>
      bne_iff_ne.2 fun hkp => hk (List.mem_map.2 ⟨p, hp, hkp.symm⟩)
    rw [get_of_lookup_none hl, LRU.get_of_lookup_none ha]
    exact ⟨rfl, h⟩
  | some e =>
    obtain ⟨he, hek⟩ := (h.inv.lookup_iff k e).1 hl
    have hmem : (k, (c.order.value e).value) ∈ a.pairs := by
      rw [← h.pairs_eq, toPairs, List.mem_map]
      exact ⟨e, List.mem_reverse.2 he, by rw [pairOf, hek]⟩
    obtain ⟨h1, h2, h3⟩ := LRU.get_of_lookup_some (LRU.lookup_of_mem a.keys_nodup hmem)
    have hinv := h.inv.get k
    rw [get_of_lookup_some hl] at hinv ⊢
    refine ⟨h1.symm, hinv, h2 ▸ h.capacity_eq, ?_⟩
    rw [h3, toPairs, GoList.moveToFront_elems_of_mem he, GoList.moveToFront_value,
      h.inv.toPairs_promote he hek _ (fun _ _ => rfl) (by rw [← hek]), h.pairs_eq]

theorem Refines.clear (h : Refines c a) : Refines c.clear a.clear where
  inv := h.inv.clear
  capacity_eq := h.capacity_eq
  pairs_eq := rfl

/-- The cache's `Range` loop over elements is the abstract loop over their pairs. -/
theorem rangeFrom_eq {m : Type → Type} [Monad m] (f : Int → Int → m Bool)
    (value : Ptr → CacheItem) (es : List Ptr) :
    rangeFrom f value es = LRU.rangeFrom f (es.map (pairOf value)) := by
  induction es with
  | nil => rfl
  | cons e es ih => simp only [rangeFrom, LRU.rangeFrom, List.map_cons, pairOf, ih]

theorem Refines.range {m : Type → Type} [Monad m] (h : Refines c a) (f : Int → Int → m Bool) :
    c.range f = a.range f := by
  rw [LRUCache.range, LRU.range, ← h.pairs_eq, rangeFrom_eq]
  rfl

/-- Related states answer every sequence of calls alike. -/
theorem Refines.run {m : Type → Type} [Monad m] (ops : List (Op m)) :
    ∀ {c : LRUCache} {a : LRU}, Refines c a → c.run ops = a.run ops := by
  induction ops with
  | nil => intro _ _ _; rfl
  | cons op ops ih =>
    intro c a h
    cases op with
    | set k v => exact ih (h.set k v)
    | get k =>
      obtain ⟨h1, h2⟩ := h.get k
      simp only [LRUCache.run, LRU.run, h1, ih h2]
    | clear => exact ih h.clear
    | range f => simp only [LRUCache.run, LRU.run, h.range f, ih h]

end LRUCache

theorem refines_new (cap : Nat) : LRUCache.Refines (new cap) (LRU.new cap) where
  inv := LRUCache.inv_new (by omega)
  capacity_eq := rfl
  pairs_eq := rfl

/-- **`LRUCache` refines the abstract LRU list.**  For every capacity `cap ≥ 0`, every
sequence of `Set`, `Get`, `Clear` and `Range` calls on `New(cap)`, and every monad the
`Range` callbacks run in, the concrete cache and the abstract list make the same callback
calls in the same order and return the same `Get` results. -/
theorem run_new_eq {m : Type → Type} [Monad m] (cap : Nat) (ops : List (Op m)) :
    (new cap).run ops = (LRU.new cap).run ops :=
  (refines_new cap).run ops

end Lrucache
