import Mathlib.Data.List.Sort
import Mathlib.Data.List.Chain
import Mathlib.Tactic.Ring

/-!
# `hotelbusiness.ComputeLoad`

`ComputeLoad(guests)` (`hotelbusiness/hotels.go`) sorts the check-in days and the check-out days
separately and walks the two sorted arrays with two indices, one day at a time: on each day it
first lets out the guests leaving that day, then lets in those arriving, and appends
`(day, guestCount)` when the count differs from the last one appended.  The indices are kept as
the suffixes `checkIns[checkInIdx:]` and `checkOuts[checkOutIdx:]`.

The specification is `Changes f R`: `R` lists the days on which the function `f` of the day
changes, each with its new value, in increasing order of day.  Such a list is unique
(`Changes.unique`), its neighbouring values differ (`Changes.chain`) and its last value is the
value `f` settles at (`Changes.getLast`).

The main result, `computeLoad_eq_changes`, is that for stays with `CheckInDate < CheckOutDate`
the output is the list of changes of the load `L(d)`, the number of guests staying the night of
`d`.  It rests on a run lemma for the loop, `loadLoop_changes`: from any state with sorted
suffixes, the loop appends the changes of `countAfter`, the count it would reach once past every
remaining day up to `d`.  The same run lemma gives `computeLoad_of_le`, for stays that may end
on the day they start: the output is then the list of changes, possibly after one record
`(d, 0)` that is no change.
-/

namespace Hotelbusiness

/-- `Guest`. -/
structure Guest where
  checkInDate : Int
  checkOutDate : Int
deriving DecidableEq, Repr

/-- `Load`. -/
structure Load where
  startDate : Int
  guestCount : Int
deriving DecidableEq, Repr

/-! ## The list of changes of a function of the day -/

/-- `R` lists the days on which `f` changes, each with the new value, in increasing order of
day: `⟨d, k⟩ ∈ R` iff `f d ≠ f (d - 1)` and `k = f d`. -/
structure Changes (f : Int → Int) (R : List Load) : Prop where
  sorted : R.Pairwise (fun a b => a.startDate < b.startDate)
  mem_iff : ∀ d k, (⟨d, k⟩ : Load) ∈ R ↔ f d ≠ f (d - 1) ∧ k = f d

/-- A function of the day that does not change on `(a, b]` has the same value at `b` as at
`a`. -/
theorem eq_of_no_change {f : Int → Int} {a b : Int} (hab : a ≤ b)
    (h : ∀ d, a < d → d ≤ b → f d = f (d - 1)) : f b = f a := by
  revert h
  refine @Int.le_induction (fun b => (∀ d, a < d → d ≤ b → f d = f (d - 1)) → f b = f a) a
    (fun _ => rfl) ?_ b hab
  intro n hn ih h
  rw [h (n + 1) (by omega) le_rfl, add_sub_cancel_right]
  exact ih fun d h₁ h₂ => h d h₁ (by omega)

section Changes

variable {f : Int → Int} {R : List Load}

theorem Changes.of_mem (hR : Changes f R) {l : Load} (hl : l ∈ R) :
    f l.startDate ≠ f (l.startDate - 1) ∧ l.guestCount = f l.startDate :=
  (hR.mem_iff l.startDate l.guestCount).1 hl

/-- **The list of changes is unique**: a list is determined by its members and a strict
order on them. -/
theorem Changes.unique {R' : List Load} (h₁ : Changes f R) (h₂ : Changes f R') : R = R' := by
  let r : Load → Load → Prop := fun a b => a.startDate < b.startDate
  haveI : IsAntisymm Load r := ⟨fun a b hab hba => absurd (hab.trans hba) (lt_irrefl _)⟩
  have hnd : ∀ {S : List Load}, S.Pairwise r → S.Nodup := fun h =>
    h.imp fun {a b} hab heq => by subst heq; exact lt_irrefl _ hab
  refine List.eq_of_perm_of_sorted ?_ h₁.sorted h₂.sorted
  refine (List.perm_ext_iff_of_nodup (hnd h₁.sorted) (hnd h₂.sorted)).2 fun ⟨d, k⟩ => ?_
  rw [h₁.mem_iff, h₂.mem_iff]

/-- No day strictly between two neighbours of `R` is a change. -/
theorem Changes.no_change_between (hR : Changes f R) {a b : Load} (hab : [a, b] <:+: R)
    {d : Int} (h₁ : a.startDate < d) (h₂ : d < b.startDate) : f d = f (d - 1) := by
  by_contra hne
  obtain ⟨P, S, rfl⟩ := hab
  have hmem := (hR.mem_iff d (f d)).2 ⟨hne, rfl⟩
  have hs := hR.sorted
  simp only [List.append_assoc, List.cons_append, List.nil_append, List.pairwise_append,
    List.pairwise_cons, List.mem_cons, List.mem_append] at hs hmem
  obtain ⟨-, ⟨ha, hb, -⟩, hP⟩ := hs
  rcases hmem with hP' | rfl | rfl | hS
  · have := hP _ hP' a (.inl rfl); simp only at this; omega
  · simp only at h₁; omega
  · simp only at h₂; omega
  · have := hb _ hS; simp only at this; omega

/-- No day after the last entry of `R` is a change. -/
theorem Changes.no_change_after (hR : Changes f R) {l : Load} (hl : R.getLast? = some l)
    {d : Int} (h : l.startDate < d) : f d = f (d - 1) := by
  by_contra hne
  obtain ⟨P, rfl⟩ := List.getLast?_eq_some_iff.1 hl
  have hmem := (hR.mem_iff d (f d)).2 ⟨hne, rfl⟩
  have hs := hR.sorted
  simp only [List.pairwise_append, List.mem_singleton, List.mem_append] at hs hmem
  rcases hmem with hP | rfl
  · have := hs.2.2 _ hP l rfl; simp only at this; omega
  · simp only at h; omega

/-- **Neighbouring entries of the list of changes have different values.** -/
theorem Changes.chain (hR : Changes f R) : R.Chain' (fun a b => a.guestCount ≠ b.guestCount) := by
  refine (List.chain'_isInfix R).imp fun a b hab => ?_
  have hlt : a.startDate < b.startDate := by
    have := hR.sorted.sublist hab.sublist
    simpa using this
  obtain ⟨-, ha⟩ := hR.of_mem (hab.subset (List.mem_cons_self a [b]))
  obtain ⟨hb, hb'⟩ := hR.of_mem (hab.subset (by simp : b ∈ [a, b]))
  have hconst : f (b.startDate - 1) = f a.startDate :=
    eq_of_no_change (by omega) fun d h₁ h₂ => hR.no_change_between hab h₁ (by omega)
  rw [ha, hb', ← hconst]
  exact hb.symm

/-- **The last entry of the list of changes holds the value that `f` settles at.** -/
theorem Changes.getLast {M v : Int} (hR : Changes f R) (hf : ∀ d, M ≤ d → f d = v) {l : Load}
    (hl : R.getLast? = some l) : l.guestCount = v := by
  obtain ⟨P, rfl⟩ := List.getLast?_eq_some_iff.1 hl
  obtain ⟨-, hl'⟩ := hR.of_mem (List.mem_append_right P (List.mem_singleton_self l))
  have hconst : f (max M l.startDate) = f l.startDate :=
    eq_of_no_change (le_max_right _ _) fun d h₁ _ => hR.no_change_after hl h₁
  rw [hl', ← hconst, hf _ (le_max_left _ _)]

end Changes

/-! ## The model of `ComputeLoad` -/

/-- `slices.Sort` on `[]int`.  On integers the sorted permutation of a list is unique
(`sortInts_perm`), so any sorting function models it. -/
def sortInts (l : List Int) : List Int := l.mergeSort

/-- The `switch` that picks `nextDay` from `checkIns[checkInIdx:]` and
`checkOuts[checkOutIdx:]`.  The loop runs it only while one of them is non-empty. -/
def nextDay : List Int → List Int → Int
  | i :: _, [] => i
  | [], o :: _ => o
  | i :: _, o :: _ => if i < o then i else o
  | [], [] => 0

/-- The two inner loops `for idx < len(guests) && days[idx] == nextDay { ...; idx++ }`, which
add `delta` to `guestCount` for every day equal to `day`: `delta = -1` on the check-outs and
`delta = 1` on the check-ins. -/
def skipDay (day delta : Int) : List Int → Int → List Int × Int
  | [], guestCount => ([], guestCount)
  | x :: xs, guestCount =>
    if x = day then skipDay day delta xs (guestCount + delta) else (x :: xs, guestCount)

/-- The test `len(result) == 0 || result[len(result)-1].GuestCount != guestCount`. -/
def isNewLoad (result : List Load) (guestCount : Int) : Bool :=
  match result.getLast? with
  | none => true
  | some l => l.guestCount != guestCount

/-- The variables of the main loop: `checkIns[checkInIdx:]`, `checkOuts[checkOutIdx:]`,
`guestCount` and `result`. -/
structure LoopState where
  checkIns : List Int
  checkOuts : List Int
  guestCount : Int
  result : List Load

/-- One pass of the body of the main loop. -/
def step (st : LoopState) : LoopState :=
  let day := nextDay st.checkIns st.checkOuts
  let (checkOuts, guestCount) := skipDay day (-1) st.checkOuts st.guestCount
  let (checkIns, guestCount) := skipDay day 1 st.checkIns guestCount
  { checkIns, checkOuts, guestCount,
    result := if isNewLoad st.result guestCount then st.result ++ [⟨day, guestCount⟩]
      else st.result }

theorem skipDay_eq (day delta : Int) (l : List Int) (guestCount : Int) :
    skipDay day delta l guestCount =
      (l.dropWhile (· = day), guestCount + delta * (l.takeWhile (· = day)).length) := by
  induction l generalizing guestCount with
  | nil => simp [skipDay]
  | cons x xs ih =>
    by_cases h : x = day
    · rw [skipDay, if_pos h, ih]
      subst h
      simp only [List.dropWhile_cons_of_pos, decide_True, List.takeWhile_cons_of_pos,
        List.length_cons, Nat.cast_succ]
      congr 1; ring
    · simp [skipDay, h]

section Step

variable (st : LoopState)

@[simp] theorem step_checkIns :
    (step st).checkIns = st.checkIns.dropWhile (· = nextDay st.checkIns st.checkOuts) := by
  simp [step, skipDay_eq]

@[simp] theorem step_checkOuts :
    (step st).checkOuts = st.checkOuts.dropWhile (· = nextDay st.checkIns st.checkOuts) := by
  simp [step, skipDay_eq]

theorem step_guestCount : (step st).guestCount = st.guestCount
    - (st.checkOuts.takeWhile (· = nextDay st.checkIns st.checkOuts)).length
    + (st.checkIns.takeWhile (· = nextDay st.checkIns st.checkOuts)).length := by
  simp [step, skipDay_eq]
  omega

theorem step_result : (step st).result =
    if isNewLoad st.result (step st).guestCount then
      st.result ++ [⟨nextDay st.checkIns st.checkOuts, (step st).guestCount⟩]
    else st.result := by
  simp [step, skipDay_eq]

end Step

/-- The day the loop picks is the first day of one of the two suffixes. -/
theorem nextDay_head {ins outs : List Int} (h : ins ≠ [] ∨ outs ≠ []) :
    ins.head? = some (nextDay ins outs) ∨ outs.head? = some (nextDay ins outs) := by
  match ins, outs, h with
  | i :: _, [], _ => simp [nextDay]
  | [], o :: _, _ => simp [nextDay]
  | i :: _, o :: _, _ => by_cases hio : i < o <;> simp [nextDay, hio]

theorem length_dropWhile_lt {l : List Int} {n : Int} (h : l.head? = some n) :
    (l.dropWhile (· = n)).length < l.length := by
  obtain ⟨xs, rfl⟩ : ∃ xs, l = n :: xs := by
    cases l with
    | nil => simp at h
    | cons x xs => simp only [List.head?_cons, Option.some.injEq] at h; exact ⟨xs, h ▸ rfl⟩
  rw [List.dropWhile_cons_of_pos (by simp), List.length_cons]
  exact Nat.lt_succ_of_le (List.dropWhile_sublist _).length_le

/-- Each pass consumes at least one day. -/
theorem step_length_lt {st : LoopState} (h : st.checkIns ≠ [] ∨ st.checkOuts ≠ []) :
    (step st).checkIns.length + (step st).checkOuts.length <
      st.checkIns.length + st.checkOuts.length := by
  have hh := nextDay_head h
  rw [step_checkIns, step_checkOuts]
  set n := nextDay st.checkIns st.checkOuts
  have hi : (st.checkIns.dropWhile (· = n)).length ≤ st.checkIns.length :=
    (List.dropWhile_sublist _).length_le
  have ho : (st.checkOuts.dropWhile (· = n)).length ≤ st.checkOuts.length :=
    (List.dropWhile_sublist _).length_le
  rcases hh with hh | hh
  · have := length_dropWhile_lt hh; omega
  · have := length_dropWhile_lt hh; omega

/-- The main loop `for checkInIdx < len(guests) || checkOutIdx < len(guests)`; when it ends its
value is `result`. -/
def loadLoop (st : LoopState) : List Load :=
  if st.checkIns ≠ [] ∨ st.checkOuts ≠ [] then loadLoop (step st) else st.result
termination_by st.checkIns.length + st.checkOuts.length
decreasing_by exact step_length_lt ‹_›

/-- `ComputeLoad(guests)`. -/
def computeLoad (guests : List Guest) : List Load :=
  if guests = [] then []
  else
    loadLoop ⟨sortInts (guests.map Guest.checkInDate), sortInts (guests.map Guest.checkOutDate),
      0, []⟩

/-! ## The loop appends the changes of the count -/

/-- The count the loop reaches from `st` once it is past every remaining day up to `d`. -/
def countAfter (st : LoopState) (d : Int) : Int :=
  st.guestCount + st.checkIns.countP (· ≤ d) - st.checkOuts.countP (· ≤ d)

/-- With every remaining day after `d`, the count the loop would reach by `d` is the count it
has. -/
theorem countAfter_of_forall_lt {st : LoopState} {d : Int}
    (h : ∀ x ∈ st.checkIns ++ st.checkOuts, d < x) : countAfter st d = st.guestCount := by
  have h₀ : ∀ l : List Int, (∀ x ∈ l, d < x) → l.countP (· ≤ d) = 0 := fun l hl =>
    List.countP_eq_zero.2 fun x hx => by simpa using hl x hx
  rw [countAfter, h₀ _ fun x hx => h x (List.mem_append_left _ hx),
    h₀ _ fun x hx => h x (List.mem_append_right _ hx)]
  simp

/-- The days equal to `n` at the front of a list are counted by every `· ≤ d` with `n ≤ d`. -/
theorem countP_le_eq (l : List Int) {n d : Int} (h : n ≤ d) :
    l.countP (· ≤ d) = (l.takeWhile (· = n)).length + (l.dropWhile (· = n)).countP (· ≤ d) := by
  conv_lhs => rw [← List.takeWhile_append_dropWhile (· = n) l]
  rw [List.countP_append, List.countP_eq_length.2]
  intro x hx
  have := List.mem_takeWhile_imp hx
  simp only [decide_eq_true_eq] at this ⊢
  omega

/-- In a sorted list whose days are all at least `n`, what follows the days equal to `n` comes
after `n`. -/
theorem lt_of_mem_dropWhile {l : List Int} {n : Int} (hs : l.Sorted (· ≤ ·))
    (hn : ∀ x ∈ l, n ≤ x) : ∀ y ∈ l.dropWhile (· = n), n < y := by
  induction l with
  | nil => simp
  | cons x xs ih =>
    have hs' := List.sorted_cons.1 hs
    by_cases hx : x = n
    · rw [List.dropWhile_cons_of_pos (by simpa using hx)]
      exact ih hs'.2 fun y hy => hn y (List.mem_cons_of_mem x hy)
    · rw [List.dropWhile_cons_of_neg (by simpa using hx)]
      have hnx : n < x := lt_of_le_of_ne (hn x (List.mem_cons_self x xs)) (Ne.symm hx)
      intro y hy
      rcases List.mem_cons.1 hy with rfl | hy
      · exact hnx
      · exact lt_of_lt_of_le hnx (hs'.1 y hy)

/-- The day the loop picks is at most every remaining day. -/
theorem nextDay_le {ins outs : List Int} (hi : ins.Sorted (· ≤ ·)) (ho : outs.Sorted (· ≤ ·)) :
    ∀ x ∈ ins ++ outs, nextDay ins outs ≤ x := by
  have hhead : ∀ {l : List Int} {a}, (a :: l).Sorted (· ≤ ·) → ∀ x ∈ a :: l, a ≤ x :=
    fun h x hx => by
      rcases List.mem_cons.1 hx with rfl | hx
      · exact le_rfl
      · exact (List.sorted_cons.1 h).1 x hx
  intro x hx
  match ins, outs, hi, ho with
  | [], [], _, _ => simp at hx
  | i :: is, [], hi, _ => simpa using hhead hi x (by simpa using hx)
  | [], o :: os, _, ho => simpa using hhead ho x (by simpa using hx)
  | i :: is, o :: os, hi, ho =>
    rcases List.mem_append.1 hx with hx | hx
    · have := hhead hi x hx; simp only [nextDay]; split_ifs <;> omega
    · have := hhead ho x hx; simp only [nextDay]; split_ifs <;> omega

section Run

variable {st : LoopState} (hi : st.checkIns.Sorted (· ≤ ·)) (ho : st.checkOuts.Sorted (· ≤ ·))
include hi ho

/-- After a pass every remaining day comes after the day just handled. -/
theorem step_gt : ∀ y ∈ (step st).checkIns ++ (step st).checkOuts,
    nextDay st.checkIns st.checkOuts < y := by
  have hle := nextDay_le hi ho
  intro y hy
  rw [step_checkIns, step_checkOuts, List.mem_append] at hy
  rcases hy with hy | hy
  · exact lt_of_mem_dropWhile hi (fun x hx => hle x (List.mem_append_left _ hx)) y hy
  · exact lt_of_mem_dropWhile ho (fun x hx => hle x (List.mem_append_right _ hx)) y hy

/-- Before the day it picks, the count the loop would reach is the count it has. -/
theorem countAfter_of_lt {d : Int} (hd : d < nextDay st.checkIns st.checkOuts) :
    countAfter st d = st.guestCount :=
  countAfter_of_forall_lt fun x hx => lt_of_lt_of_le hd (nextDay_le hi ho x hx)

/-- After a pass, up to the day just handled the count the loop would reach is the count it
has. -/
theorem countAfter_step_of_le {d : Int} (hd : d ≤ nextDay st.checkIns st.checkOuts) :
    countAfter (step st) d = (step st).guestCount :=
  countAfter_of_forall_lt fun x hx => lt_of_le_of_lt hd (step_gt hi ho x hx)

end Run

/-- From the day it handles on, a pass does not change the count the loop would reach. -/
theorem countAfter_step_of_ge (st : LoopState) {d : Int}
    (hd : nextDay st.checkIns st.checkOuts ≤ d) : countAfter (step st) d = countAfter st d := by
  simp only [countAfter, step_guestCount, step_checkIns, step_checkOuts,
    countP_le_eq st.checkIns hd, countP_le_eq st.checkOuts hd]
  push_cast
  omega

/-- A change list that starts after `n`, for a function that agrees with `f` from `n` on and is
constant up to `n`, extends to the change list of `f` by the change at `n`, if there is one. -/
theorem Changes.extend {f f' : Int → Int} {R : List Load} {n c : Int} (hR : Changes f' R)
    (hge : ∀ d, n ≤ d → f' d = f d) (hlt : ∀ d, d < n → f d = c)
    (hle : ∀ d, d ≤ n → f' d = f n) :
    Changes f (if f n ≠ c then ⟨n, f n⟩ :: R else R) := by
  have hiff : ∀ d k, (⟨d, k⟩ : Load) ∈ R ↔ n < d ∧ f d ≠ f (d - 1) ∧ k = f d := fun d k => by
    rw [hR.mem_iff]
    by_cases hnd : n < d
    · rw [hge d hnd.le, hge (d - 1) (by omega)]
      simp [hnd]
    · rw [hle d (by omega), hle (d - 1) (by omega)]
      simp [hnd]
  have hmem : ∀ d k, (⟨d, k⟩ : Load) ∈ (if f n ≠ c then ⟨n, f n⟩ :: R else R) ↔
      (f n ≠ c ∧ d = n ∧ k = f n) ∨ (n < d ∧ f d ≠ f (d - 1) ∧ k = f d) := fun d k => by
    split_ifs with hc <;> simp [hiff, hc]
  refine ⟨?_, fun d k => ?_⟩
  · split_ifs
    · exact List.pairwise_cons.2 ⟨fun l hl => ((hiff _ _).1 hl).1, hR.sorted⟩
    · exact hR.sorted
  · have hn : f (n - 1) = c := hlt _ (by omega)
    rw [hmem]
    rcases lt_trichotomy d n with h | rfl | h
    · rw [hlt d h, hlt (d - 1) (by omega)]; omega
    · rw [hn]; omega
    · omega

/-- The loop appends exactly when the count changes, provided the last count appended is the
current one and a first append is a change. -/
theorem isNewLoad_eq {result : List Load} {c c' : Int}
    (hlast : ∀ l ∈ result.getLast?, l.guestCount = c) (hfirst : result = [] → c' ≠ c) :
    isNewLoad result c' = decide (c' ≠ c) := by
  unfold isNewLoad
  cases h : result.getLast? with
  | none => simp [List.getLast?_eq_none_iff.1 h, hfirst (List.getLast?_eq_none_iff.1 h)]
  | some l =>
    show (l.guestCount != c') = _
    rw [hlast l h]
    by_cases hc : c = c' <;> simp [hc, Ne.symm]

/-- **Run lemma.** From a state with sorted suffixes whose last appended count is its count,
the loop appends the changes of `countAfter`. -/
theorem loadLoop_changes (st : LoopState) (hi : st.checkIns.Sorted (· ≤ ·))
    (ho : st.checkOuts.Sorted (· ≤ ·)) (hlast : ∀ l ∈ st.result.getLast?, l.guestCount = st.guestCount)
    (hfirst : st.result = [] → countAfter st (nextDay st.checkIns st.checkOuts) ≠ st.guestCount) :
    ∃ R, loadLoop st = st.result ++ R ∧ Changes (countAfter st) R := by
  induction st using loadLoop.induct with
  | case1 st hne ih =>
    set n := nextDay st.checkIns st.checkOuts
    have hge : ∀ d, n ≤ d → countAfter (step st) d = countAfter st d :=
      fun d hd => countAfter_step_of_ge st hd
    have hc' : (step st).guestCount = countAfter st n := by
      rw [← countAfter_step_of_le hi ho le_rfl, hge n le_rfl]
    have hnew : isNewLoad st.result (step st).guestCount =
        decide (countAfter st n ≠ st.guestCount) := by
      rw [isNewLoad_eq hlast (hc' ▸ hfirst), hc']
    have hres := step_result st
    rw [hnew, hc'] at hres
    simp only [decide_eq_true_eq] at hres
    have hi' : (step st).checkIns.Sorted (· ≤ ·) := by
      rw [step_checkIns]; exact hi.sublist (List.dropWhile_sublist _)
    have ho' : (step st).checkOuts.Sorted (· ≤ ·) := by
      rw [step_checkOuts]; exact ho.sublist (List.dropWhile_sublist _)
    have hlast' : ∀ l ∈ (step st).result.getLast?, l.guestCount = (step st).guestCount := by
      rw [hres, hc']
      split_ifs with hc
      · simp
      · rwa [not_not.1 hc]
    have hfirst' : (step st).result = [] →
        countAfter (step st) (nextDay (step st).checkIns (step st).checkOuts) ≠
          (step st).guestCount := fun h => by
      rw [hres] at h
      split_ifs at h with hc
      · simp at h
      · exact absurd (hfirst h) hc
    obtain ⟨R, hrun, hR⟩ := ih hi' ho' hlast' hfirst'
    refine ⟨_, ?_, hR.extend hge (fun d hd => countAfter_of_lt hi ho hd)
      (fun d hd => by rw [countAfter_step_of_le hi ho hd, hc'])⟩
    rw [loadLoop, if_pos hne, hrun, hres]
    split_ifs <;> simp
  | case2 st hne =>
    rw [loadLoop, if_neg hne]
    refine ⟨[], (List.append_nil _).symm, List.Pairwise.nil, fun d k => ?_⟩
    simp only [not_or, not_not] at hne
    simp [countAfter, hne.1, hne.2]

/-! ## `ComputeLoad` lists the changes of the load -/

/-- `L(d)`: the guests staying the night of day `d`, counted with multiplicity. -/
def load (guests : List Guest) (d : Int) : Int :=
  guests.countP (fun g => g.checkInDate ≤ d ∧ d < g.checkOutDate)

/-- With every check-in on or before its check-out, the load is still the check-ins up to `d`
less the check-outs up to `d`: a guest leaving the day it arrives counts for neither. -/
theorem load_eq_of_le {guests : List Guest} (h : ∀ g ∈ guests, g.checkInDate ≤ g.checkOutDate)
    (d : Int) : load guests d = (guests.map Guest.checkInDate).countP (· ≤ d) -
      (guests.map Guest.checkOutDate).countP (· ≤ d) := by
  induction guests with
  | nil => simp [load]
  | cons g gs ih =>
    have hg := h g (List.mem_cons_self g gs)
    have ih := ih fun g' hg' => h g' (List.mem_cons_of_mem g hg')
    simp only [load, List.countP_cons, List.map_cons] at ih ⊢
    by_cases h₁ : g.checkInDate ≤ d <;> by_cases h₂ : g.checkOutDate ≤ d <;>
      simp [h₁, h₂] at ih ⊢ <;> omega

/-- In particular with every check-in before its check-out. -/
theorem load_eq {guests : List Guest} (h : ∀ g ∈ guests, g.checkInDate < g.checkOutDate)
    (d : Int) : load guests d = (guests.map Guest.checkInDate).countP (· ≤ d) -
      (guests.map Guest.checkOutDate).countP (· ≤ d) :=
  load_eq_of_le (fun g hg => (h g hg).le) d

/-- The load is zero from some day on. -/
theorem load_eventually_zero (guests : List Guest) : ∃ M, ∀ d, M ≤ d → load guests d = 0 := by
  induction guests with
  | nil => exact ⟨0, fun d _ => by simp [load]⟩
  | cons g gs ih =>
    obtain ⟨M, hM⟩ := ih
    refine ⟨max M g.checkOutDate, fun d hd => ?_⟩
    have h₁ := hM d (le_of_max_le_left hd)
    have h₂ : ¬ d < g.checkOutDate := not_lt.2 (le_of_max_le_right hd)
    simp only [load, List.countP_cons, h₂, and_false, decide_False] at h₁ ⊢
    simpa using h₁

theorem sortInts_sorted (l : List Int) : (sortInts l).Sorted (· ≤ ·) := List.sorted_mergeSort' l

theorem perm_sortInts (l : List Int) : (sortInts l).Perm l := List.mergeSort_perm l _

/-- Sorting integers gives one list for every order of the input. -/
theorem sortInts_perm {l l' : List Int} (h : l.Perm l') : sortInts l = sortInts l' :=
  List.eq_of_perm_of_sorted (((perm_sortInts l).trans h).trans (perm_sortInts l').symm)
    (sortInts_sorted l) (sortInts_sorted l')

/-- `ComputeLoad` does not depend on the order of the guests. -/
theorem computeLoad_perm {guests guests' : List Guest} (h : guests'.Perm guests) :
    computeLoad guests' = computeLoad guests := by
  simp only [computeLoad, sortInts_perm (h.map _), ← List.length_eq_zero, h.length_eq]

/-- On the first day the loop handles some guest is staying, since that day is the earliest
check-in. -/
theorem load_nextDay_ne_zero {guests : List Guest}
    (h : ∀ g ∈ guests, g.checkInDate < g.checkOutDate) (h0 : guests ≠ []) :
    load guests (nextDay (sortInts (guests.map Guest.checkInDate))
      (sortInts (guests.map Guest.checkOutDate))) ≠ 0 := by
  set I := sortInts (guests.map Guest.checkInDate)
  set O := sortInts (guests.map Guest.checkOutDate)
  have hI : ∀ x, x ∈ I ↔ ∃ g ∈ guests, g.checkInDate = x := fun x => by
    simp [I, (perm_sortInts _).mem_iff]
  have hO : ∀ x, x ∈ O ↔ ∃ g ∈ guests, g.checkOutDate = x := fun x => by
    simp [O, (perm_sortInts _).mem_iff]
  have hle : ∀ x ∈ I ++ O, nextDay I O ≤ x := nextDay_le (sortInts_sorted _) (sortInts_sorted _)
  have hne : I ≠ [] := by
    obtain ⟨g, hg⟩ := List.exists_mem_of_ne_nil _ h0
    exact List.ne_nil_of_mem ((hI _).2 ⟨g, hg, rfl⟩)
  have hmem : nextDay I O ∈ I := by
    rcases nextDay_head (Or.inl hne) with hh | hh
    · exact List.mem_of_mem_head? hh
    · obtain ⟨g, hg, hgo⟩ := (hO _).1 (List.mem_of_mem_head? hh)
      have := hle g.checkInDate (List.mem_append_left _ ((hI _).2 ⟨g, hg, rfl⟩))
      have := h g hg
      omega
  obtain ⟨g, hg, hgi⟩ := (hI _).1 hmem
  have hstay := h g hg
  rw [hgi] at hstay
  have : 0 < guests.countP (fun g => g.checkInDate ≤ nextDay I O ∧ nextDay I O < g.checkOutDate) :=
    List.countP_pos_iff.2 ⟨g, hg, by simp [hgi, hstay]⟩
  simp only [load]
  omega

/-- **`ComputeLoad` lists the changes of the load**, for stays that end after they start. -/
theorem computeLoad_changes {guests : List Guest}
    (h : ∀ g ∈ guests, g.checkInDate < g.checkOutDate) :
    Changes (load guests) (computeLoad guests) := by
  unfold computeLoad
  split_ifs with h0
  · subst h0
    exact ⟨List.Pairwise.nil, fun d k => by simp [load]⟩
  have hF : countAfter ⟨sortInts (guests.map Guest.checkInDate),
      sortInts (guests.map Guest.checkOutDate), 0, []⟩ = load guests := funext fun d => by
    rw [load_eq h]
    simp only [countAfter, (perm_sortInts _).countP_eq, zero_add]
  obtain ⟨R, hrun, hR⟩ := loadLoop_changes ⟨sortInts (guests.map Guest.checkInDate),
    sortInts (guests.map Guest.checkOutDate), 0, []⟩ (sortInts_sorted _) (sortInts_sorted _)
    (fun l hl => by simp at hl) (fun _ => by rw [hF]; exact load_nextDay_ne_zero h h0)
  rw [hrun, List.nil_append]
  exact hF ▸ hR

/-- **`ComputeLoad` is the list of changes of the load.** For guests who each check in before
they check out, `ComputeLoad(guests)` lists, in increasing order of day, every day `d` with
`L(d) ≠ L(d - 1)` together with `L(d)`; so neighbouring counts differ, the last count is `0`,
and the order of the guests does not matter. -/
theorem computeLoad_eq_changes (guests : List Guest)
    (h : ∀ g ∈ guests, g.checkInDate < g.checkOutDate) :
    Changes (load guests) (computeLoad guests) ∧
      (computeLoad guests).Chain' (fun a b => a.guestCount ≠ b.guestCount) ∧
      (∀ l ∈ (computeLoad guests).getLast?, l.guestCount = 0) ∧
      ∀ guests', guests'.Perm guests → computeLoad guests' = computeLoad guests := by
  have hch := computeLoad_changes h
  obtain ⟨M, hM⟩ := load_eventually_zero guests
  exact ⟨hch, hch.chain, fun l hl => hch.getLast hM hl, fun _ hp => computeLoad_perm hp⟩

/-- One guest leaves on the day another arrives. -/
theorem computeLoad_back_to_back :
    (∀ g ∈ [Guest.mk 1 3, Guest.mk 3 4], g.checkInDate < g.checkOutDate) ∧
      (Changes (load [⟨1, 3⟩, ⟨3, 4⟩]) (computeLoad [⟨1, 3⟩, ⟨3, 4⟩]) ∧
        (computeLoad [⟨1, 3⟩, ⟨3, 4⟩]).Chain' (fun a b => a.guestCount ≠ b.guestCount) ∧
        (∀ l ∈ (computeLoad [⟨1, 3⟩, ⟨3, 4⟩]).getLast?, l.guestCount = 0) ∧
        ∀ guests', guests'.Perm [⟨1, 3⟩, ⟨3, 4⟩] →
          computeLoad guests' = computeLoad [⟨1, 3⟩, ⟨3, 4⟩]) :=
  ⟨by decide, computeLoad_eq_changes _ (by decide)⟩

/-! ## Same-day stays -/

/-- From a state with no record and a zero count, when the count is still zero after the
first day `n` the loop handles, the loop records `(n, 0)` and then the changes of the count,
all after `n`. -/
theorem loadLoop_first_zero {st : LoopState} (hi : st.checkIns.Sorted (· ≤ ·))
    (ho : st.checkOuts.Sorted (· ≤ ·)) (hne : st.checkIns ≠ [] ∨ st.checkOuts ≠ [])
    (hc : st.guestCount = 0) (hres : st.result = [])
    (hz : countAfter st (nextDay st.checkIns st.checkOuts) = 0) :
    ∃ R, Changes (countAfter st) R ∧
      (∀ d, d ≤ nextDay st.checkIns st.checkOuts → countAfter st d = 0) ∧
      (∀ l ∈ R, nextDay st.checkIns st.checkOuts < l.startDate) ∧
      loadLoop st = ⟨nextDay st.checkIns st.checkOuts, 0⟩ :: R := by
  set n := nextDay st.checkIns st.checkOuts
  have hc' : (step st).guestCount = 0 := by
    rw [← countAfter_step_of_le hi ho le_rfl, countAfter_step_of_ge st le_rfl, hz]
  have hres' : (step st).result = [⟨n, 0⟩] := by rw [step_result, hc', hres]; rfl
  have hF : countAfter (step st) = countAfter st := funext fun d => by
    rcases le_or_lt n d with hd | hd
    · rw [countAfter_step_of_ge st hd]
    · rw [countAfter_step_of_le hi ho hd.le, hc', countAfter_of_lt hi ho hd, hc]
  have hzero : ∀ d, d ≤ n → countAfter st d = 0 := fun d hd => by
    rw [← hF, countAfter_step_of_le hi ho hd, hc']
  obtain ⟨R, hrun, hR⟩ := loadLoop_changes (step st)
    (by rw [step_checkIns]; exact hi.sublist (List.dropWhile_sublist _))
    (by rw [step_checkOuts]; exact ho.sublist (List.dropWhile_sublist _))
    (by rw [hres', hc']; simp) (by rw [hres']; intro h; cases h)
  rw [hF] at hR
  refine ⟨R, hR, hzero, fun ⟨d, k⟩ hl => show n < d from ?_, ?_⟩
  · -- every change comes after `n`, where the count is still zero
    obtain ⟨hch, -⟩ := (hR.mem_iff d k).1 hl
    by_contra hd
    exact hch (by rw [hzero d (by omega), hzero (d - 1) (by omega)])
  · rw [loadLoop, if_pos hne, hrun, hres']
    rfl

/-- **`ComputeLoad` with same-day stays.**  When guests may check out on the day they check
in, `ComputeLoad(guests)` is still the list of changes of the load, except that it may start
with one record `(d, 0)` that is no change: on the first day the loop handles, when the only
guests of that day leave on it, the count `0` differs from nothing appended yet. -/
theorem computeLoad_of_le (guests : List Guest)
    (h : ∀ g ∈ guests, g.checkInDate ≤ g.checkOutDate) :
    ∃ R, Changes (load guests) R ∧ (computeLoad guests = R ∨
      ∃ d, (∀ d', d' ≤ d → load guests d' = 0) ∧ (∀ l ∈ R, d < l.startDate) ∧
        computeLoad guests = ⟨d, 0⟩ :: R) := by
  unfold computeLoad
  split_ifs with h0
  · subst h0
    exact ⟨[], ⟨List.Pairwise.nil, fun d k => by simp [load]⟩, .inl rfl⟩
  set st : LoopState := ⟨sortInts (guests.map Guest.checkInDate),
    sortInts (guests.map Guest.checkOutDate), 0, []⟩
  have hi : st.checkIns.Sorted (· ≤ ·) := sortInts_sorted _
  have ho : st.checkOuts.Sorted (· ≤ ·) := sortInts_sorted _
  have hF : countAfter st = load guests := funext fun d => by
    rw [load_eq_of_le h]
    simp only [st, countAfter, (perm_sortInts _).countP_eq, zero_add]
  by_cases hz : countAfter st (nextDay st.checkIns st.checkOuts) = 0
  · have hne : st.checkIns ≠ [] ∨ st.checkOuts ≠ [] := .inl fun he => h0 (by
      simpa [st] using (perm_sortInts (guests.map Guest.checkInDate)).length_eq.symm.trans
        (congrArg List.length he))
    obtain ⟨R, hR, hzero, hafter, hrun⟩ := loadLoop_first_zero hi ho hne rfl rfl hz
    exact ⟨R, hF ▸ hR, .inr ⟨_, fun d hd => hF ▸ hzero d hd, hafter, hrun⟩⟩
  · obtain ⟨R, hrun, hR⟩ := loadLoop_changes st hi ho (by simp [st]) fun _ => by simpa [st] using hz
    exact ⟨R, hF ▸ hR, .inl (by rw [hrun]; rfl)⟩

/-- A guest who checks in and out on day 1: nobody ever stays a night, yet `ComputeLoad`
returns the record `(1, 0)`. -/
theorem computeLoad_same_day :
    (∀ g ∈ [Guest.mk 1 1], g.checkInDate ≤ g.checkOutDate) ∧
      computeLoad [⟨1, 1⟩] = [⟨1, 0⟩] ∧
      ∃ R, Changes (load [⟨1, 1⟩]) R ∧ (computeLoad [⟨1, 1⟩] = R ∨
        ∃ d, (∀ d', d' ≤ d → load [⟨1, 1⟩] d' = 0) ∧ (∀ l ∈ R, d < l.startDate) ∧
          computeLoad [⟨1, 1⟩] = ⟨d, 0⟩ :: R) := by
  refine ⟨by decide, ?_, computeLoad_of_le _ (by decide)⟩
  rw [computeLoad, if_neg (List.cons_ne_nil _ _)]
  simp only [sortInts, List.map_cons, List.map_nil, List.mergeSort_singleton]
  rw [loadLoop, if_pos (by simp), loadLoop, if_neg (by simp [step, nextDay, skipDay])]
  simp [step, nextDay, skipDay, isNewLoad]

end Hotelbusiness
