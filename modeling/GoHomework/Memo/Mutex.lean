import Mathlib.Logic.Function.Basic

/-!
# `sync.Mutex`

The mutex `mu` of `memo2` and `memo3` as the goroutines of a transition system use it:
`mu.Lock()` is an action enabled only while `mu` is unlocked, and locks it; `mu.Unlock()`
unlocks it.  The mutex itself is one flag, `locked`; which goroutine holds it is read off the
goroutines' positions through `holds`.

`LockOk` is the mutex's invariant: `mu` is locked exactly when some goroutine holds it, and no
two goroutines hold it at once.  Each way a goroutine can move keeps it: taking the lock,
releasing it, or moving without taking or releasing it.
-/

namespace Mutex

variable {P : Type} (holds : P → Bool)

/-- `mu` is locked exactly when a goroutine holds it, and at most one goroutine does. -/
structure LockOk (locked : Bool) (pcs : Nat → P) : Prop where
  locked_iff : locked = true ↔ ∃ t, holds (pcs t) = true
  excl : ∀ t t', holds (pcs t) = true → holds (pcs t') = true → t = t'

variable {holds} {locked : Bool} {pcs : Nat → P} {t : Nat} {p : P}

/-- Initially `mu` is unlocked and every goroutine is outside it. -/
theorem lockOk_init (h : holds p = false) : LockOk holds false fun _ => p :=
  ⟨by simp [h], fun t _ ht => by simp [h] at ht⟩

theorem holds_update (holds : P → Bool) (pcs : Nat → P) (t : Nat) (p : P) (t' : Nat) :
    holds (Function.update pcs t p t') = if t' = t then holds p else holds (pcs t') := by
  rw [Function.update_apply]; split_ifs <;> rfl

/-- **`mu.Lock()`**: on an unlocked mutex, the goroutine that locks it is its only holder. -/
theorem LockOk.acquire (h : LockOk holds false pcs) (hp : holds p = true) :
    LockOk holds true (Function.update pcs t p) := by
  have hfree : ∀ t', holds (pcs t') = false := fun t' =>
    Bool.eq_false_iff.2 fun ht' => Bool.false_ne_true (h.locked_iff.2 ⟨t', ht'⟩)
  refine ⟨iff_of_true rfl ⟨t, by rw [holds_update holds, if_pos rfl, hp]⟩,
    fun t₁ t₂ h₁ h₂ => ?_⟩
  rw [holds_update holds] at h₁ h₂
  split_ifs at h₁ h₂ with e₁ e₂ e₂
  · exact e₁.trans e₂.symm
  all_goals simp only [hfree] at h₁ h₂; cases ‹false = true›

/-- **`mu.Unlock()`**: when its holder leaves, `mu` is unlocked and held by nobody. -/
theorem LockOk.release (h : LockOk holds true pcs) (ht : holds (pcs t) = true)
    (hp : holds p = false) : LockOk holds false (Function.update pcs t p) := by
  -- the holder has left, and every other goroutine was outside
  have hfree : ∀ t', holds (Function.update pcs t p t') = false := fun t' => by
    rw [holds_update holds]
    split_ifs with e
    · exact hp
    · exact Bool.eq_false_iff.2 fun ht' => e (h.excl _ _ ht' ht)
  exact ⟨iff_of_false Bool.false_ne_true fun ⟨t', ht'⟩ => (by rw [hfree] at ht'; cases ht'),
    fun t₁ _ h₁ => (by rw [hfree] at h₁; cases h₁)⟩

/-- A goroutine that neither takes nor releases `mu` keeps the mutex's invariant. -/
theorem LockOk.move (h : LockOk holds locked pcs) (hp : holds p = holds (pcs t)) :
    LockOk holds locked (Function.update pcs t p) := by
  have hh : ∀ t', holds (Function.update pcs t p t') = holds (pcs t') := fun t' => by
    rw [holds_update holds]; split_ifs with e
    · rw [e, hp]
    · rfl
  exact ⟨by simp only [hh]; exact h.locked_iff,
    fun t₁ t₂ => by simp only [hh]; exact h.excl t₁ t₂⟩

end Mutex
