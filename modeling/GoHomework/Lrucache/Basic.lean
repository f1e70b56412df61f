import Mathlib.Data.List.AList

/-!
# The LRU cache of `lrucache/lru.go`

`LRUCache` pairs a Go map from keys to `*list.Element` with a `container/list` of
`CacheItem`s, the most recently used one at the front.  Elements are heap objects: a
pointer is a natural number handed out by `PushFront`, and `Element.Value` is read and
written through it, so that a map entry left pointing at an evicted element could be
represented (the invariant of `Invariant.lean` is that none is).

`GoList` models the part of `container/list` the cache uses, by its documented
behaviour: `MoveToFront` and `Remove` leave the list alone when the element is not in
it.  A `GoList` carries the two facts the library guarantees, that no element occurs
twice and that every element was allocated before the next fresh pointer.
-/

namespace Lrucache

/-- A pointer to a `list.Element`. -/
abbrev Ptr := Nat

/-- The `CacheItem` stored as the value of each list element. -/
structure CacheItem where
  key : Int
  value : Int
  deriving DecidableEq, Repr, Inhabited

/-! ## `container/list` -/

/-- A `list.List` of `CacheItem`s: its elements front to back, the `Value` field of every
allocated element, and the next pointer `PushFront` allocates. -/
structure GoList where
  elems : List Ptr
  value : Ptr → CacheItem
  fresh : Ptr
  nodup : elems.Nodup
  lt_fresh : ∀ e ∈ elems, e < fresh

namespace GoList

/-- The empty list of `list.New()`. -/
def new : GoList where
  elems := []
  value := fun _ => default
  fresh := 0
  nodup := List.nodup_nil
  lt_fresh := fun e h => absurd h (List.not_mem_nil e)

/-- `l.Len()`. -/
def len (l : GoList) : Nat := l.elems.length

/-- `l.Back()`: the last element, `nil` for an empty list. -/
def back (l : GoList) : Option Ptr := l.elems.getLast?

/-- `e.Value = v`: a write through the element pointer. -/
def setValue (l : GoList) (e : Ptr) (v : CacheItem) : GoList :=
  { l with value := Function.update l.value e v }

/-- `l.PushFront(v)`: a fresh element holding `v`, put at the front. -/
def pushFront (l : GoList) (v : CacheItem) : Ptr × GoList :=
  (l.fresh,
    { elems := l.fresh :: l.elems
      value := Function.update l.value l.fresh v
      fresh := l.fresh + 1
      nodup := List.nodup_cons.2 ⟨fun h => Nat.lt_irrefl _ (l.lt_fresh _ h), l.nodup⟩
      lt_fresh := by
        intro e he
        rcases List.mem_cons.1 he with rfl | he
        · exact Nat.lt_succ_self _
        · exact Nat.lt_succ_of_lt (l.lt_fresh e he) })

/-- `l.MoveToFront(e)`; the list is unchanged when `e` is not one of its elements. -/
def moveToFront (l : GoList) (e : Ptr) : GoList :=
  if h : e ∈ l.elems then
    { l with
      elems := e :: l.elems.erase e
      nodup := List.nodup_cons.2 ⟨l.nodup.not_mem_erase, l.nodup.erase e⟩
      lt_fresh := by
        intro x hx
        rcases List.mem_cons.1 hx with rfl | hx
        · exact l.lt_fresh _ h
        · exact l.lt_fresh x (List.mem_of_mem_erase hx) }
  else l

/-- `l.Remove(e)`; the list is unchanged when `e` is not one of its elements. -/
def remove (l : GoList) (e : Ptr) : GoList :=
  { l with
    elems := l.elems.erase e
    nodup := l.nodup.erase e
    lt_fresh := fun x hx => l.lt_fresh x (List.mem_of_mem_erase hx) }

/-- `l.Init()`: the list emptied; element values stay where they are. -/
def init (l : GoList) : GoList :=
  { l with elems := [], nodup := List.nodup_nil, lt_fresh := by simp }

variable (l : GoList) (e : Ptr) (v : CacheItem)

@[simp] theorem setValue_elems : (l.setValue e v).elems = l.elems := rfl
@[simp] theorem setValue_value : (l.setValue e v).value = Function.update l.value e v := rfl
@[simp] theorem moveToFront_value : (l.moveToFront e).value = l.value := by
  unfold moveToFront; split <;> rfl
@[simp] theorem remove_elems : (l.remove e).elems = l.elems.erase e := rfl
@[simp] theorem remove_value : (l.remove e).value = l.value := rfl
@[simp] theorem init_elems : l.init.elems = [] := rfl
@[simp] theorem init_value : l.init.value = l.value := rfl
@[simp] theorem pushFront_fst : (l.pushFront v).1 = l.fresh := rfl
@[simp] theorem pushFront_elems : (l.pushFront v).2.elems = l.fresh :: l.elems := rfl
@[simp] theorem pushFront_value :
    (l.pushFront v).2.value = Function.update l.value l.fresh v := rfl

theorem moveToFront_elems_of_mem {l : GoList} {e : Ptr} (h : e ∈ l.elems) :
    (l.moveToFront e).elems = e :: l.elems.erase e := by
  simp [moveToFront, h]

/-- Moving an element to the front permutes the elements. -/
theorem moveToFront_perm : (l.moveToFront e).elems.Perm l.elems := by
  by_cases h : e ∈ l.elems
  · rw [moveToFront_elems_of_mem h]
    exact (List.perm_cons_erase h).symm
  · simp [moveToFront, h]

theorem fresh_not_mem : l.fresh ∉ l.elems := fun h => Nat.lt_irrefl _ (l.lt_fresh _ h)

end GoList

/-! ## The cache -/

/-- The `LRUCache` struct: `storage` is `map[int]*list.Element`, `order` the list. -/
structure LRUCache where
  capacity : Int
  storage : AList (fun _ : Int => Ptr)
  order : GoList

namespace LRUCache

/-- Lines 27–34 of `Set`: at capacity, drop the back element from the map and the list. -/
def evict (c : LRUCache) : LRUCache :=
  if c.capacity ≤ c.order.len then
    match c.order.back with
    | some last =>
      { c with
        storage := c.storage.erase (c.order.value last).key
        order := c.order.remove last }
    | none => c
  else c

/-- Lines 35–37 of `Set`: `PushFront` of the new item, and the map entry for it. -/
def insertFront (c : LRUCache) (key value : Int) : LRUCache :=
  { c with
    order := (c.order.pushFront ⟨key, value⟩).2
    storage := c.storage.insert key (c.order.pushFront ⟨key, value⟩).1 }

@[simp] theorem insertFront_order (c : LRUCache) (key value : Int) :
    (c.insertFront key value).order = (c.order.pushFront ⟨key, value⟩).2 := rfl
@[simp] theorem insertFront_storage (c : LRUCache) (key value : Int) :
    (c.insertFront key value).storage = c.storage.insert key c.order.fresh := rfl
@[simp] theorem insertFront_capacity (c : LRUCache) (key value : Int) :
    (c.insertFront key value).capacity = c.capacity := rfl
@[simp] theorem evict_capacity (c : LRUCache) : c.evict.capacity = c.capacity := by
  unfold evict; split
  · split <;> rfl
  · rfl

/-- `Set(key, value)`. -/
def set (c : LRUCache) (key value : Int) : LRUCache :=
  if c.capacity = 0 then c
  else
    match c.storage.lookup key with
    | some element =>
      { c with order := (c.order.setValue element ⟨key, value⟩).moveToFront element }
    | none => c.evict.insertFront key value

/-- `Get(key)`: the value and `true`, or `(0, false)`, and the cache after the call. -/
def get (c : LRUCache) (key : Int) : (Int × Bool) × LRUCache :=
  match c.storage.lookup key with
  | none => ((0, false), c)
  | some element =>
    let order := c.order.moveToFront element
    (((order.value element).value, true), { c with order := order })

/-- `Clear()`: a fresh map, and `Init` on the list. -/
def clear (c : LRUCache) : LRUCache :=
  { c with storage := ∅, order := c.order.init }

/-- The loop of `Range` over the elements still to visit, back to front. -/
def rangeFrom {m : Type → Type} [Monad m] (f : Int → Int → m Bool) (value : Ptr → CacheItem) :
    List Ptr → m Unit
  | [] => pure ()
  | e :: es => do
    if ← f (value e).key (value e).value then rangeFrom f value es else pure ()

/-- `Range(f)`, for a callback `f` with effects in any monad `m` that does not call the
cache: from `Back()` along `Prev()`, stopping after the first `false`. -/
def range {m : Type → Type} [Monad m] (c : LRUCache) (f : Int → Int → m Bool) : m Unit :=
  rangeFrom f c.order.value c.order.elems.reverse

variable (c : LRUCache) (key value : Int)

@[simp] theorem set_capacity : (c.set key value).capacity = c.capacity := by
  unfold set; split
  · rfl
  · split <;> simp

@[simp] theorem get_capacity : (c.get key).2.capacity = c.capacity := by
  unfold get; split <;> rfl

@[simp] theorem clear_capacity : c.clear.capacity = c.capacity := rfl

theorem get_of_lookup_none {c : LRUCache} {key : Int} (h : c.storage.lookup key = none) :
    c.get key = ((0, false), c) := by
  simp [get, h]

theorem get_of_lookup_some {c : LRUCache} {key : Int} {e : Ptr}
    (h : c.storage.lookup key = some e) :
    c.get key = (((c.order.value e).value, true), { c with order := c.order.moveToFront e }) := by
  simp [get, h]

end LRUCache

/-- `New(cap)`. -/
def new (cap : Int) : LRUCache where
  capacity := cap
  storage := ∅
  order := GoList.new

/-- One call on the cache; `range` carries its callback. -/
inductive Op (m : Type → Type) where
  | set (key value : Int)
  | get (key : Int)
  | clear
  | range (f : Int → Int → m Bool)

namespace LRUCache

/-- A sequence of calls: the effects of the `Range` callbacks, returning the results of the
`Get` calls in order. -/
def run {m : Type → Type} [Monad m] : LRUCache → List (Op m) → m (List (Int × Bool))
  | _, [] => pure []
  | c, .set k v :: ops => run (c.set k v) ops
  | c, .get k :: ops => do
    let rs ← run (c.get k).2 ops
    pure ((c.get k).1 :: rs)
  | c, .clear :: ops => run c.clear ops
  | c, .range f :: ops => do
    c.range f
    run c ops

end LRUCache

/-- The states reachable from `New(cap)`; `Range` does not change the cache. -/
inductive Reachable (cap : Int) : LRUCache → Prop
  | new : Reachable cap (new cap)
  | set {c : LRUCache} (key value : Int) : Reachable cap c → Reachable cap (c.set key value)
  | get {c : LRUCache} (key : Int) : Reachable cap c → Reachable cap (c.get key).2
  | clear {c : LRUCache} : Reachable cap c → Reachable cap c.clear

/-- No call changes the capacity. -/
theorem Reachable.capacity {cap : Int} {c : LRUCache} (h : Reachable cap c) :
    c.capacity = cap := by
  induction h with
  | new => rfl
  | set _ _ _ ih | get _ _ ih | clear _ ih => simpa using ih

end Lrucache
