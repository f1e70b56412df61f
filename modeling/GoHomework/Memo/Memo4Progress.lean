import GoHomework.Memo.Memo4

/-!
# `memo4`: every `Get` can return

A repeat request of `memo4` blocks on `<-e.ready` until the goroutine that created `e` has
run `f` and closed `ready`.  Nothing in `Get` can block that goroutine, so no `Get` waits
forever: from every reachable state, whatever the goroutines have done so far, there is a run
in which a given goroutine returns (`get_returns`).

The one new fact this needs is `Owned`: an entry whose `ready` is still open has an owner, the
goroutine that created it and has not closed it yet.  A waiter's run lets that owner call `f`
and close `ready` first.
-/

namespace Memo

variable {R : Type} {key : Nat → String} {s s' : State R}

/-- An entry cached and not yet ready is owned by some goroutine. -/
def Owned (s : State R) : Prop :=
  ∀ k e, s.cache k = some e → (s.heap e).ready = false → ∃ t, (s.pcs t).owns e

/-- A move of goroutine `t` to `p` keeps `Owned` if every entry not ready afterwards was
cached and not ready before, or is owned by `p`, and `p` still owns what `t` owned while it
is not ready. -/
theorem Owned.move (h : Owned s) {t : Nat} {p : Pc R} (hpcs : s'.pcs = Function.update s.pcs t p)
    (hnew : ∀ k e, s'.cache k = some e → (s'.heap e).ready = false →
      (s.cache k = some e ∧ (s.heap e).ready = false) ∨ p.owns e)
    (hkeep : ∀ e, (s.pcs t).owns e → (s'.heap e).ready = false → p.owns e) : Owned s' := by
  intro k e hk hr
  rw [hpcs]
  rcases hnew k e hk hr with ⟨hk₀, hr₀⟩ | hp
  · obtain ⟨t₀, ht₀⟩ := h k e hk₀ hr₀
    by_cases ht : t₀ = t
    · subst ht
      exact ⟨t₀, by rw [Function.update_same]; exact hkeep e ht₀ hr⟩
    · exact ⟨t₀, by rw [Function.update_noteq ht]; exact ht₀⟩
  · exact ⟨t, by rw [Function.update_same]; exact hp⟩

/-- A goroutine that owns nothing moves, nothing else changing. -/
theorem Owned.setPc (ho : Owned s) {t : Nat} {p : Pc R} (hown : ∀ e, ¬(s.pcs t).owns e) :
    Owned { s with pcs := Function.update s.pcs t p } :=
  ho.move rfl (fun _ _ hk hr => .inl ⟨hk, hr⟩) fun e he => absurd he (hown e)

theorem owns_start (e : Nat) : ¬(Pc.start : Pc R).owns e := by simp [Pc.owns]

theorem owns_wait (e e' : Nat) : ¬(Pc.wait e : Pc R).owns e' := by simp [Pc.owns]

theorem owns_ret (e e' : Nat) : ¬(Pc.ret e : Pc R).owns e' := by simp [Pc.owns]

section Steps

variable [Inhabited R]

theorem Owned.of_step (ho : Owned s) (hs : Inv key s) {a : Action R}
    (h : step key s a = some s') : Owned s' := by
  cases a with
  | lock t =>
    simp only [step] at h
    split at h
    · rename_i hpc
      split at h
      · -- a miss: the fresh entry is owned by `t`
        cases h
        refine ho.move rfl (fun k e hk hr => ?_) fun e he => absurd he (hpc ▸ owns_start e)
        simp only [Function.update_apply] at hk hr
        split_ifs at hk with hkt
        · cases hk
          exact .inr (.inl rfl)
        · have hne : e ≠ s.next := Nat.ne_of_lt (hs.cache_lt k e hk)
          rw [if_neg hne] at hr
          exact .inl ⟨hk, hr⟩
      · cases h
        exact ho.setPc fun e => hpc ▸ owns_start e
    · cases h
  | call t r =>
    simp only [step] at h
    split at h
    · rename_i e hpc
      cases h
      have hready : ∀ e', (Function.update s.heap e { s.heap e with res := r } e').ready =
          (s.heap e').ready := fun e' => by
        rw [Function.update_apply]; split_ifs with he <;> simp [he]
      refine ho.move rfl (fun k e' hk hr => .inl ⟨hk, (hready e').symm.trans hr⟩)
        fun e' he _ => ?_
      rw [hpc] at he
      rcases he with he | he <;> cases he
      exact .inr rfl
    · cases h
  | close t =>
    simp only [step] at h
    split at h
    · rename_i e hpc
      cases h
      refine ho.move rfl (fun k e' hk hr => .inl ⟨hk, ?_⟩) fun e' he hr => ?_
      · -- the entry just closed is ready, so `e'` is another one
        by_cases he : e' = e
        · subst he; simp at hr
        · simpa [Function.update_noteq he] using hr
      · rw [hpc] at he
        rcases he with he | he <;> cases he
        simp at hr
    · cases h
  | wake t =>
    simp only [step] at h
    split at h
    · rename_i e hpc
      split at h
      · cases h
        exact ho.setPc fun e' => hpc ▸ owns_wait e e'
      · cases h
    · cases h
  | ret t =>
    simp only [step] at h
    split at h
    · rename_i e hpc
      cases h
      exact ho.setPc fun e' => hpc ▸ owns_ret e e'
    · cases h

/-- Every reachable state has an owner for each entry not yet ready. -/
theorem Reachable.owned (h : Reachable key s) : Owned s := by
  induction h with
  | refl => intro k e hk; simp [init] at hk
  | tail hreach hstep ih =>
    obtain ⟨a, ha⟩ := hstep
    exact ih.of_step (Reachable.inv hreach) ha

/-! ## Runs to the end of `Get` -/

section Runs

variable {t e : Nat}

theorem step_lock_miss (hpc : s.pcs t = .start) (hk : s.cache (key t) = none) :
    step key s (.lock t) = some { s with
      cache := Function.update s.cache (key t) (some s.next)
      heap := Function.update s.heap s.next ⟨default, false⟩
      next := s.next + 1
      pcs := Function.update s.pcs t (.call s.next) } := by
  simp only [step, hpc, hk]

theorem step_lock_hit (hpc : s.pcs t = .start) (hk : s.cache (key t) = some e) :
    step key s (.lock t) = some { s with pcs := Function.update s.pcs t (.wait e) } := by
  simp only [step, hpc, hk]

theorem step_call_eq (hpc : s.pcs t = .call e) (r : R) :
    step key s (.call t r) = some { s with
      heap := Function.update s.heap e { s.heap e with res := r }
      pcs := Function.update s.pcs t (.close e)
      calls := s.calls ++ [(key t, r)] } := by
  simp only [step, hpc]

theorem step_close_eq (hpc : s.pcs t = .close e) :
    step key s (.close t) = some { s with
      heap := Function.update s.heap e { s.heap e with ready := true }
      pcs := Function.update s.pcs t (.ret e) } := by
  simp only [step, hpc]

theorem step_wake_eq (hpc : s.pcs t = .wait e) (hready : (s.heap e).ready = true) :
    step key s (.wake t) = some { s with pcs := Function.update s.pcs t (.ret e) } := by
  simp only [step, hpc, hready, if_true]

theorem step_ret_eq (hpc : s.pcs t = .ret e) :
    step key s (.ret t) =
      some { s with pcs := Function.update s.pcs t (.done (s.heap e).res) } := by
  simp only [step, hpc]

variable (key) in
/-- Some run from `s` ends with goroutine `t` returned from `Get`. -/
def Returns (s : State R) (t : Nat) : Prop :=
  ∃ s', Relation.ReflTransGen (Step key) s s' ∧ ∃ r, s'.pcs t = .done r

theorem Returns.of_run (hrun : Relation.ReflTransGen (Step key) s s') (h : Returns key s' t) :
    Returns key s t :=
  let ⟨s'', hrun', hdone⟩ := h
  ⟨s'', hrun.trans hrun', hdone⟩

theorem Returns.head {a : Action R} (h : step key s a = some s') (h' : Returns key s' t) :
    Returns key s t :=
  .of_run (.single ⟨a, h⟩) h'

/-- `return e.res`. -/
theorem returns_of_ret (hpc : s.pcs t = .ret e) : Returns key s t :=
  ⟨_, .single ⟨.ret t, step_ret_eq hpc⟩, _, Function.update_same _ _ _⟩

/-- `<-e.ready` once `ready` is closed, then `return e.res`. -/
theorem returns_of_ready (hpc : s.pcs t = .wait e) (hready : (s.heap e).ready = true) :
    Returns key s t :=
  .head (step_wake_eq hpc hready) (returns_of_ret (Function.update_same _ _ _))

/-- The owner closes `ready`, then returns. -/
theorem returns_of_close (hpc : s.pcs t = .close e) : Returns key s t :=
  .head (step_close_eq hpc) (returns_of_ret (Function.update_same _ _ _))

/-- The owner runs `f`, closes `ready` and returns. -/
theorem returns_of_call (hpc : s.pcs t = .call e) : Returns key s t :=
  .head (step_call_eq hpc default) (returns_of_close (Function.update_same _ _ _))

variable (key) in
/-- The owner `t'` of an entry calls `f` if it has not yet, and closes `ready`; no other
goroutine moves. -/
theorem closes_of_owns {t' : Nat} (hown : (s.pcs t').owns e) :
    ∃ s', Relation.ReflTransGen (Step key) s s' ∧ (s'.heap e).ready = true ∧
      ∀ t, t ≠ t' → s'.pcs t = s.pcs t := by
  rcases hown with hpc | hpc
  · refine ⟨_, .head ⟨_, step_call_eq hpc default⟩ (.single ⟨_, step_close_eq
      (Function.update_same _ _ _)⟩), by simp, fun t ht => ?_⟩
    simp only [Function.update_noteq ht]
  · exact ⟨_, .single ⟨_, step_close_eq hpc⟩, by simp,
      fun t ht => Function.update_noteq ht _ _⟩

/-- A repeat request returns once the owner of its entry has closed `ready`. -/
theorem returns_of_wait (hs : Reachable key s) (hpc : s.pcs t = .wait e) : Returns key s t := by
  cases hready : (s.heap e).ready
  · have hcached := (Reachable.inv hs).pc_cached t e (by rw [hpc]; rfl)
    obtain ⟨t', hown⟩ := hs.owned _ e hcached hready
    have ht : t ≠ t' := fun ht => owns_wait e e (hpc ▸ ht ▸ hown)
    obtain ⟨s₁, hrun₁, hready₁, hrest⟩ := closes_of_owns key hown
    exact .of_run hrun₁ (returns_of_ready ((hrest t ht).trans hpc) hready₁)
  · exact returns_of_ready hpc hready

end Runs

/-- **Every `Get` can return.**  From every reachable state, for every goroutine `t`, some
run of the goroutines ends with `t` returned from `Get`, with the result of the one call of
`f` for its key. -/
theorem get_returns (hs : Reachable key s) (t : Nat) :
    ∃ s', Relation.ReflTransGen (Step key) s s' ∧ ∃ r, s'.pcs t = .done r ∧
      (key t, r) ∈ s'.calls := by
  suffices h : Returns key s t by
    obtain ⟨s', hrun, r, hr⟩ := h
    exact ⟨s', hrun, r, hr, (Reachable.inv (hs.trans hrun)).done_called t r hr⟩
  cases hpc : s.pcs t with
  | start =>
    -- `mu.Lock()`: a miss makes `t` the owner of a fresh entry, a hit makes it wait
    cases hk : s.cache (key t) with
    | none => exact .head (step_lock_miss hpc hk) (returns_of_call (Function.update_same _ _ _))
    | some e =>
      exact .head (step_lock_hit hpc hk)
        (returns_of_wait (hs.tail ⟨_, step_lock_hit hpc hk⟩) (Function.update_same _ _ _))
  | call e => exact returns_of_call hpc
  | close e => exact returns_of_close hpc
  | wait e => exact returns_of_wait hs hpc
  | ret e => exact returns_of_ret hpc
  | done r => exact ⟨s, .refl, r, hpc⟩

/-- Goroutine `1` blocked on `<-e.ready` of the entry that goroutine `0` created and has not
filled yet: some run brings it back from `Get`, with the answer of the one call of `f`. -/
theorem get_returns_blocked :
    ∃ s, exec (fun _ => "x") (init : State Bool) [.lock 0, .lock 1] = some s ∧
      s.pcs 0 = .call 0 ∧ s.pcs 1 = .wait 0 ∧ step (fun _ => "x") s (.wake 1) = none ∧
      Reachable (fun _ => "x") s ∧
      ∃ s', Relation.ReflTransGen (Step fun _ => "x") s s' ∧
        ∃ r, s'.pcs 1 = .done r ∧ ("x", r) ∈ s'.calls := by
  obtain ⟨s, hs, h0, h1, hwake⟩ : ∃ s, exec (fun _ => "x") (init : State Bool) [.lock 0, .lock 1] =
      some s ∧ s.pcs 0 = .call 0 ∧ s.pcs 1 = .wait 0 ∧ step (fun _ => "x") s (.wake 1) = none :=
    ⟨_, rfl, rfl, rfl, rfl⟩
  have hreach : Reachable (fun _ => "x") s := exec_run hs
  exact ⟨s, hs, h0, h1, hwake, hreach, get_returns hreach 1⟩

end Steps

end Memo
