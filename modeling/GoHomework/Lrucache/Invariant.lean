import GoHomework.Lrucache.Basic

/-!
# The map and the list of an `LRUCache` agree

`LRUCache.Inv` is the invariant tying `storage` to `order`: the keys of the items in the
list are pairwise distinct, the map sends a key to exactly the element whose item has that
key, and the list is no longer than the capacity.  Every operation keeps it
(`Inv.set`, `Inv.get`, `Inv.clear`), so it holds in every state reachable from `New(cap)`
(`reachable_inv`).
-/

namespace Lrucache

/-- The keys of the items in a list, front to back. -/
def GoList.keys (l : GoList) : List Int := l.elems.map fun e => (l.value e).key

namespace LRUCache

/-- The map and the list agree, and the list fits the capacity. -/
structure Inv (c : LRUCache) : Prop where
  keys_nodup : c.order.keys.Nodup
  lookup_iff : ∀ k e, c.storage.lookup k = some e ↔ e ∈ c.order.elems ∧ (c.order.value e).key = k
  len_le : (c.order.len : Int) ≤ c.capacity

variable {c : LRUCache}

/-- Two elements of the list with the same key are the same element. -/
theorem Inv.eq_of_key_eq (hc : c.Inv) {x y : Ptr} (hx : x ∈ c.order.elems)
    (hy : y ∈ c.order.elems) (h : (c.order.value x).key = (c.order.value y).key) : x = y :=
  List.inj_on_of_nodup_map hc.keys_nodup hx hy h

/-- A key the map does not hold is the key of no element. -/
theorem Inv.key_ne_of_lookup_none (hc : c.Inv) {k : Int} (hk : c.storage.lookup k = none)
    {x : Ptr} (hx : x ∈ c.order.elems) : (c.order.value x).key ≠ k := by
  intro h
  rw [((hc.lookup_iff k x).2 ⟨hx, h⟩)] at hk
  cases hk

/-- The invariant only looks at the map, the capacity, which elements are listed, and
the key each one holds. -/
theorem Inv.congr {c' : LRUCache} (hc : c.Inv) (hs : c'.storage = c.storage)
    (hcap : c'.capacity = c.capacity) (hp : c'.order.elems.Perm c.order.elems)
    (hkey : ∀ x ∈ c.order.elems, (c'.order.value x).key = (c.order.value x).key) : c'.Inv := by
  have hkeys : c'.order.keys.Perm c.order.keys := by
    unfold GoList.keys
    rw [List.map_congr_left (fun x hx => hkey x (hp.subset hx))]
    exact hp.map _
  refine ⟨hkeys.nodup_iff.2 hc.keys_nodup, fun k e => ?_, ?_⟩
  · rw [hs, hc.lookup_iff, hp.mem_iff]
    exact and_congr_right fun he => by rw [hkey e he]
  · rw [GoList.len, hp.length_eq, hcap]
    exact hc.len_le

theorem inv_new {cap : Int} (h : 0 ≤ cap) : (new cap).Inv where
  keys_nodup := List.nodup_nil
  lookup_iff := fun k e => by simp [new, GoList.new]
  len_le := by simpa [new, GoList.new, GoList.len] using h

theorem Inv.clear (hc : c.Inv) : c.clear.Inv where
  keys_nodup := List.nodup_nil
  lookup_iff := fun k e => by simp [LRUCache.clear]
  len_le := by
    have := hc.len_le
    simp only [LRUCache.clear, GoList.len, GoList.init_elems, List.length_nil] at this ⊢
    omega

theorem Inv.get (hc : c.Inv) (key : Int) : (c.get key).2.Inv := by
  unfold LRUCache.get
  split
  · exact hc
  · exact hc.congr rfl rfl (GoList.moveToFront_perm _ _) (fun _ _ => by simp)

/-- Dropping the back element keeps the invariant and leaves a key the map did not hold
still absent; afterwards the list is shorter than a positive capacity. -/
theorem Inv.evict (hc : c.Inv) (hpos : c.capacity ≠ 0) {key : Int}
    (hkey : c.storage.lookup key = none) :
    c.evict.Inv ∧ c.evict.storage.lookup key = none ∧ (c.evict.order.len : Int) < c.capacity ∧
      c.evict.capacity = c.capacity := by
  have hlen := hc.len_le
  unfold LRUCache.evict
  split
  · rename_i hfull
    split
    · rename_i last hlast
      have hmem : last ∈ c.order.elems := List.mem_of_mem_getLast? hlast
      have herase : ∀ x, x ∈ c.order.elems.erase last ↔ x ≠ last ∧ x ∈ c.order.elems :=
        fun x => c.order.nodup.mem_erase_iff
      have hlen' : (c.order.elems.erase last).length + 1 = c.order.len :=
        List.length_erase_add_one hmem
      have hlookup : ∀ k, k ≠ (c.order.value last).key →
          (c.storage.erase (c.order.value last).key).lookup k = c.storage.lookup k :=
        fun k hk => AList.lookup_erase_ne hk
      have hlt : ((c.order.remove last).len : Int) < c.capacity := by
        simp only [GoList.len, GoList.remove_elems] at hlen hlen' hfull ⊢
        omega
      refine ⟨⟨?_, fun k e => ?_, hlt.le⟩, ?_, hlt, rfl⟩
      · exact hc.keys_nodup.sublist ((c.order.elems.erase_sublist last).map _)
      · simp only [GoList.remove_elems, GoList.remove_value, herase]
        by_cases hk : k = (c.order.value last).key
        · subst hk
          simp only [AList.lookup_erase, reduceCtorEq, false_iff, not_and]
          exact fun ⟨hne, he⟩ h => hne (hc.eq_of_key_eq he hmem h)
        · rw [hlookup k hk, hc.lookup_iff]
          exact ⟨fun ⟨he, h⟩ => ⟨⟨fun h' => hk (h' ▸ h).symm, he⟩, h⟩, fun ⟨⟨_, he⟩, h⟩ => ⟨he, h⟩⟩
      · by_cases hk : key = (c.order.value last).key
        · subst hk
          exact AList.lookup_erase _ _
        · rw [hlookup key hk, hkey]
    · rename_i hnone
      have : c.order.elems = [] := List.getLast?_eq_none_iff.1 hnone
      simp only [GoList.len, this, List.length_nil] at hfull hlen
      omega
  · exact ⟨hc, hkey, by omega, rfl⟩

/-- A new item under a key the map does not hold, pushed while there is room, keeps the
invariant. -/
theorem Inv.insertFront (hc : c.Inv) {key : Int} (value : Int)
    (hkey : c.storage.lookup key = none) (hlt : (c.order.len : Int) < c.capacity) :
    (c.insertFront key value).Inv := by
  have hold : ∀ x ∈ c.order.elems,
      Function.update c.order.value c.order.fresh ⟨key, value⟩ x = c.order.value x :=
    fun x hx => Function.update_noteq (by rintro rfl; exact c.order.fresh_not_mem hx) _ _
  have hkeys : (c.insertFront key value).order.keys = key :: c.order.keys := by
    simp only [GoList.keys, insertFront_order, GoList.pushFront_elems, GoList.pushFront_value,
      List.map_cons, Function.update_same, List.map_congr_left fun x hx => congrArg _ (hold x hx)]
  refine ⟨?_, fun k e => ?_, ?_⟩
  · rw [hkeys]
    exact List.nodup_cons.2 ⟨fun h => by
      obtain ⟨x, hx, h⟩ := List.mem_map.1 h
      exact hc.key_ne_of_lookup_none hkey hx h, hc.keys_nodup⟩
  · simp only [insertFront_order, insertFront_storage, GoList.pushFront_elems,
      GoList.pushFront_value, List.mem_cons]
    by_cases hk : k = key
    · subst hk
      rw [AList.lookup_insert, Option.some.injEq]
      constructor
      · rintro rfl
        simp
      · rintro ⟨rfl | he, h⟩
        · rfl
        · rw [hold e he] at h
          exact absurd h (hc.key_ne_of_lookup_none hkey he)
    · rw [AList.lookup_insert_ne hk, hc.lookup_iff]
      constructor
      · rintro ⟨he, h⟩
        exact ⟨.inr he, by rw [hold e he, h]⟩
      · rintro ⟨rfl | he, h⟩
        · simp at h
          exact absurd h.symm hk
        · exact ⟨he, by rw [← hold e he, h]⟩
  · simp only [insertFront_order, insertFront_capacity, GoList.len, GoList.pushFront_elems,
      List.length_cons] at hlt ⊢
    omega

theorem Inv.set (hc : c.Inv) (key value : Int) : (c.set key value).Inv := by
  unfold LRUCache.set
  split
  · exact hc
  · rename_i hpos
    split
    · rename_i element hel
      obtain ⟨-, hkey⟩ := (hc.lookup_iff key element).1 hel
      refine hc.congr rfl rfl (GoList.moveToFront_perm _ _) (fun x _ => ?_)
      simp only [GoList.moveToFront_value, GoList.setValue_value]
      by_cases hx : x = element
      · subst hx
        simp [hkey]
      · rw [Function.update_noteq hx]
    · rename_i hnone
      obtain ⟨hi, hk, hlt, -⟩ := hc.evict hpos hnone
      exact hi.insertFront value hk (by rwa [evict_capacity])

end LRUCache

/-- The map holds a key exactly when some listed item has it. -/
theorem LRUCache.Inv.mem_storage_iff {c : LRUCache} (hc : c.Inv) (k : Int) :
    k ∈ c.storage ↔ k ∈ c.order.keys := by
  rw [← AList.lookup_isSome, Option.isSome_iff_exists, GoList.keys, List.mem_map]
  exact exists_congr fun e => hc.lookup_iff k e

/-- The map has as many entries as the list has elements. -/
theorem LRUCache.Inv.storage_length {c : LRUCache} (hc : c.Inv) :
    c.storage.entries.length = c.order.len := by
  have hperm : c.storage.keys.Perm c.order.keys :=
    (List.perm_ext_iff_of_nodup c.storage.keys_nodup hc.keys_nodup).2 fun k => by
      rw [← AList.mem_keys, hc.mem_storage_iff]
  rw [GoList.len, ← List.length_map c.order.elems, ← GoList.keys, ← hperm.length_eq,
    AList.keys, List.keys, List.length_map]

/-- Every state reachable from `New(cap)` with `cap ≥ 0` satisfies the invariant. -/
theorem Reachable.inv {cap : Int} (hcap : 0 ≤ cap) {c : LRUCache} (h : Reachable cap c) :
    c.Inv := by
  induction h with
  | new => exact LRUCache.inv_new hcap
  | set key value _ ih => exact ih.set key value
  | get key _ ih => exact ih.get key
  | clear _ ih => exact ih.clear

/-- **The map and the list agree in every reachable state.**  For a capacity `cap ≥ 0` and a
state reached from `New(cap)`: the map's keys are the keys of the listed items, those keys
are pairwise distinct, each map entry points at the listed element holding its key, and the
map has as many entries as the list, at most `cap`. -/
theorem storage_agrees_with_order (cap : Nat) (c : LRUCache) (h : Reachable cap c) :
    (∀ k, k ∈ c.storage ↔ k ∈ c.order.keys) ∧ c.order.keys.Nodup ∧
      (∀ k e, c.storage.lookup k = some e → e ∈ c.order.elems ∧ (c.order.value e).key = k) ∧
      c.storage.entries.length = c.order.len ∧ (c.order.len : Int) ≤ cap := by
  have hc := h.inv (by omega)
  exact ⟨hc.mem_storage_iff, hc.keys_nodup, fun k e => (hc.lookup_iff k e).1, hc.storage_length,
    h.capacity ▸ hc.len_le⟩

/-- The agreement at a state reached by a `Set` that evicts: capacity one, two keys. -/
theorem storage_agrees_with_order_evicted :
    Reachable 1 (((new 1).set 3 30).set 4 40) ∧
      (∀ k, k ∈ (((new 1).set 3 30).set 4 40).storage ↔
        k ∈ (((new 1).set 3 30).set 4 40).order.keys) ∧
      (((new 1).set 3 30).set 4 40).order.keys.Nodup ∧
      (∀ k e, (((new 1).set 3 30).set 4 40).storage.lookup k = some e →
        e ∈ (((new 1).set 3 30).set 4 40).order.elems ∧
          ((((new 1).set 3 30).set 4 40).order.value e).key = k) ∧
      (((new 1).set 3 30).set 4 40).storage.entries.length =
        (((new 1).set 3 30).set 4 40).order.len ∧
      ((((new 1).set 3 30).set 4 40).order.len : Int) ≤ (1 : Nat) :=
  have h : Reachable ((1 : Nat) : Int) (((new 1).set 3 30).set 4 40) := .set _ _ (.set _ _ .new)
  ⟨h, storage_agrees_with_order 1 _ h⟩

end Lrucache
