import Mathlib.Data.List.Dedup
import Mathlib.Data.String.Basic
import Mathlib.Logic.Relation
import Mathlib.Logic.Function.Basic

/-!
# `hogwarts.GetCourseList`

`GetCourseList(prereqs)` (`otp/cipher.go`, package `hogwarts`) collects every course that is a
key of `prereqs` or in one of its lists, sorts them, and runs a depth-first search from each:
`dfs(c)` returns at once on a `visited` course, panics with `"cycle detected"` on a course that is
`visiting` (on the current path), and otherwise marks `c` visiting, visits its prerequisites,
and appends `c` to `order`.

Go's recursion has no bound; the model's `dfs` carries fuel for the depth of the recursion, and
`getCourseList` gives it one more than the number of courses.  The run lemma `dfs_post` shows
that this never runs out: a call ends in a panic only on a graph with a cycle, and otherwise in
a state that keeps the invariant `Inv` (the order lists each visited course once, every course
after its prerequisites).  The main result is `getCourseList_spec`: `GetCourseList` panics iff
the graph has a cycle, and otherwise returns every course once, each after its prerequisites.
-/

namespace Hogwarts

open Relation

/-- `prereqs map[string][]string`: the entries of the map, whose keys are distinct. -/
structure Prereqs where
  entries : List (String × List String)
  keys_nodup : (entries.map Prod.fst).Nodup

namespace Prereqs

variable (p : Prereqs)

/-- `prereqs[c]`: `nil` for a course that is not a key. -/
def get (c : String) : List String := (p.entries.lookup c).getD []

/-- The edge `c → d` of the prerequisite graph: `d ∈ prereqs[c]`. -/
def Edge (c d : String) : Prop := d ∈ p.get c

/-- The prerequisite graph has a cycle, a self-loop included. -/
def HasCycle : Prop := ∃ c, TransGen p.Edge c c

/-- `c` is a course of the graph: a key of `prereqs` or in one of its lists. -/
def IsCourse (c : String) : Prop := ∃ e ∈ p.entries, c = e.1 ∨ c ∈ e.2

/-- `order` lists every course after all of its prerequisites. -/
def TopoOrder (order : List String) : Prop :=
  ∀ l₁ c l₂, order = l₁ ++ c :: l₂ → ∀ d ∈ p.get c, d ∈ l₁

end Prereqs

/-! ## The model -/

/-- The keys of `set`: every course once, in the order of first occurrence. -/
def courses (p : Prereqs) : List String := (p.entries.flatMap fun e => e.1 :: e.2).dedup

/-- `slices.Sort` on `[]string`. -/
def sortStrings (l : List String) : List String := l.mergeSort (fun a b => decide (a ≤ b))

/-- The maps `visited` and `visiting` and the slice `order`. -/
structure DfsState where
  visited : String → Bool
  visiting : String → Bool
  order : List String

/-- How `dfs` ends other than by returning: `panic("cycle detected")`, or, in the model only,
running out of fuel. -/
inductive DfsError
  | cycleDetected
  | outOfFuel
deriving DecidableEq, Repr

/-- `visiting[c] = true`. -/
def DfsState.enter (st : DfsState) (c : String) : DfsState :=
  { st with visiting := Function.update st.visiting c true }

/-- `visiting[c] = false; visited[c] = true; order = append(order, c)`. -/
def DfsState.finish (st : DfsState) (c : String) : DfsState :=
  { visiting := Function.update st.visiting c false,
    visited := Function.update st.visited c true, order := st.order ++ [c] }

/-- `dfs(c)`, with `fuel` bounding the depth of the recursion. -/
def dfs (p : Prereqs) : Nat → String → DfsState → Except DfsError DfsState
  | 0, _, _ => .error .outOfFuel
  | fuel + 1, c, st =>
    if st.visited c then .ok st
    else if st.visiting c then .error .cycleDetected
    else do
      let st ← (p.get c).foldlM (fun st d => dfs p fuel d st) (st.enter c)
      pure (st.finish c)

/-- The empty maps and slice that `GetCourseList` starts from. -/
def DfsState.init : DfsState := ⟨fun _ => false, fun _ => false, []⟩

/-- `GetCourseList(prereqs)`. -/
def getCourseList (p : Prereqs) : Except DfsError (List String) := do
  let all := sortStrings (courses p)
  let st ← all.foldlM (fun st c => dfs p (all.length + 1) c st) DfsState.init
  pure st.order

section Branches

variable {p : Prereqs} {fuel : Nat} {c : String} {st : DfsState}

theorem dfs_visited (h : st.visited c = true) : dfs p (fuel + 1) c st = .ok st := by
  simp [dfs, h]

theorem dfs_visiting (h₁ : st.visited c = false) (h₂ : st.visiting c = true) :
    dfs p (fuel + 1) c st = .error .cycleDetected := by
  simp [dfs, h₁, h₂]

theorem dfs_fresh (h₁ : st.visited c = false) (h₂ : st.visiting c = false) :
    dfs p (fuel + 1) c st =
      (p.get c).foldlM (fun st d => dfs p fuel d st) (st.enter c) >>= fun st =>
        pure (st.finish c) := by
  simp [dfs, h₁, h₂]

end Branches

/-! ## The graph -/

namespace Prereqs

variable {p : Prereqs}

theorem mem_get {c d : String} (h : d ∈ p.get c) : ∃ e ∈ p.entries, e.1 = c ∧ d ∈ e.2 := by
  unfold get at h
  cases hl : p.entries.lookup c with
  | none => simp [hl] at h
  | some deps =>
    obtain ⟨l₁, l₂, he, -⟩ := List.lookup_eq_some_iff.1 hl
    rw [hl, Option.getD_some] at h
    exact ⟨(c, deps), he ▸ List.mem_append_right l₁ (List.mem_cons_self _ _), rfl, h⟩

theorem mem_courses {c : String} : c ∈ courses p ↔ p.IsCourse c := by
  simp [courses, IsCourse, List.mem_flatMap, eq_comm]

theorem isCourse_of_edge {c d : String} (h : p.Edge c d) : p.IsCourse c ∧ p.IsCourse d := by
  obtain ⟨e, he, rfl, hd⟩ := mem_get h
  exact ⟨⟨e, he, .inl rfl⟩, ⟨e, he, .inr hd⟩⟩

theorem TopoOrder.nil : p.TopoOrder [] := fun l₁ c l₂ h => by simp at h

/-- Appending a course whose prerequisites are all listed keeps the order topological. -/
theorem TopoOrder.snoc {o : List String} {c : String} (h : p.TopoOrder o)
    (hc : ∀ d ∈ p.get c, d ∈ o) : p.TopoOrder (o ++ [c]) := by
  intro l₁ x l₂ he d hd
  rcases List.eq_nil_or_concat l₂ with rfl | ⟨l₂, y, rfl⟩
  · obtain ⟨rfl, hx⟩ := List.append_inj' he rfl
    obtain rfl : c = x := by simpa using hx
    exact hc d hd
  · rw [List.concat_eq_append, ← List.cons_append, ← List.append_assoc] at he
    exact h l₁ x l₂ (List.append_inj' he rfl).1 d hd

theorem TopoOrder.init {o : List String} {c : String} (h : p.TopoOrder (o ++ [c])) :
    p.TopoOrder o := fun l₁ x l₂ he => h l₁ x (l₂ ++ [c]) (by simp [he])

/-- What a topological order lists is closed under prerequisites. -/
theorem TopoOrder.closed {o : List String} (h : p.TopoOrder o) {x y : String}
    (hxy : ReflTransGen p.Edge x y) (hx : x ∈ o) : y ∈ o := by
  induction hxy with
  | refl => exact hx
  | tail _ hyz ih =>
    obtain ⟨l₁, l₂, he⟩ := List.append_of_mem ih
    exact he ▸ List.mem_append_left _ (h l₁ _ l₂ he _ hyz)

/-- **A topological order without repeats lists no course on a cycle.** -/
theorem TopoOrder.not_cycle {o : List String} (h : p.TopoOrder o) (hnd : o.Nodup) {x : String}
    (hx : x ∈ o) : ¬ TransGen p.Edge x x := by
  induction o using List.reverseRecOn with
  | nil => simp at hx
  | append_singleton o c ih =>
    have hc : c ∉ o := by simpa using (List.nodup_append.1 hnd).2.2
    rcases List.mem_append.1 hx with hx | hx
    · exact ih h.init (List.nodup_append.1 hnd).1 hx
    · obtain rfl : x = c := List.mem_singleton.1 hx
      intro hcyc
      obtain ⟨d, hd, hdx⟩ := TransGen.head'_iff.1 hcyc
      exact hc (h.init.closed hdx (h o x [] rfl d hd))

end Prereqs

/-! ## The invariant and the run lemma -/

section Run

variable {p : Prereqs}

/-- What holds of the state between two calls of `dfs`: `visited` is the set of courses in
`order`, which lists each once and each after its prerequisites, and no visited course is on
the current path. -/
structure Inv (p : Prereqs) (st : DfsState) : Prop where
  visited_iff : ∀ x, st.visited x = true ↔ x ∈ st.order
  nodup : st.order.Nodup
  topo : p.TopoOrder st.order
  not_visiting : ∀ x, st.visited x = true → st.visiting x = false
  order_sub : ∀ x ∈ st.order, x ∈ courses p
  visiting_sub : ∀ x, st.visiting x = true → x ∈ courses p

theorem inv_init : Inv p DfsState.init :=
  ⟨by simp [DfsState.init], List.nodup_nil, Prereqs.TopoOrder.nil, by simp [DfsState.init],
    by simp [DfsState.init], by simp [DfsState.init]⟩

theorem Inv.enter {st : DfsState} {c : String} (h : Inv p st) (hc : c ∈ courses p)
    (hvd : st.visited c = false) : Inv p (st.enter c) := by
  refine ⟨h.visited_iff, h.nodup, h.topo, fun x hx => ?_, h.order_sub, fun x hx => ?_⟩
  · have hxc : x ≠ c := by rintro rfl; simp_all [DfsState.enter]
    simpa [DfsState.enter, hxc] using h.not_visiting x hx
  · by_cases hxc : x = c
    · exact hxc ▸ hc
    · exact h.visiting_sub x (by simpa [DfsState.enter, hxc] using hx)

theorem Inv.finish {st : DfsState} {c : String} (h : Inv p st) (hc : c ∈ courses p)
    (hvg : st.visiting c = true) (hdeps : ∀ d ∈ p.get c, d ∈ st.order) :
    Inv p (st.finish c) := by
  have hco : c ∉ st.order := fun hm => by
    simp [h.not_visiting c ((h.visited_iff c).2 hm)] at hvg
  refine ⟨fun x => ?_, ?_, h.topo.snoc hdeps, fun x hx => ?_, fun x hx => ?_, fun x hx => ?_⟩
  · by_cases hxc : x = c
    · simp [DfsState.finish, hxc]
    · simp [DfsState.finish, hxc, h.visited_iff]
  · simpa [List.concat_eq_append] using h.nodup.concat hco
  · by_cases hxc : x = c
    · simp [DfsState.finish, hxc]
    · simp only [DfsState.finish, Function.update_noteq hxc] at hx ⊢
      exact h.not_visiting x hx
  · rcases List.mem_append.1 hx with hx | hx
    · exact h.order_sub x hx
    · exact List.mem_singleton.1 hx ▸ hc
  · by_cases hxc : x = c
    · exact hxc ▸ hc
    · exact h.visiting_sub x (by simpa [DfsState.finish, hxc] using hx)

/-- How a call, or a loop of calls over the courses `cs`, from `st` can end: a panic, on a
graph with a cycle, or a state that keeps the invariant and the path, extends the order and
has every course of `cs` in it. -/
def Post (p : Prereqs) (st : DfsState) (cs : List String) : Except DfsError DfsState → Prop
  | .error e => e = .cycleDetected ∧ p.HasCycle
  | .ok st' => Inv p st' ∧ st'.visiting = st.visiting ∧ st.order <+: st'.order ∧
      ∀ c ∈ cs, c ∈ st'.order

/-- **Loop lemma.** Calls of `dfs` one after another, each from a state with the same path,
compose. -/
theorem foldlM_dfs_post {fuel : Nat} (cs : List String) (st : DfsState) (hinv : Inv p st)
    (hdfs : ∀ c ∈ cs, ∀ st', Inv p st' → st'.visiting = st.visiting →
      Post p st' [c] (dfs p fuel c st')) :
    Post p st cs (cs.foldlM (fun st c => dfs p fuel c st) st) := by
  induction cs generalizing st with
  | nil => exact ⟨hinv, rfl, List.prefix_refl _, by simp⟩
  | cons c cs ih =>
    have h₁ := hdfs c (List.mem_cons_self c cs) st hinv rfl
    rw [List.foldlM_cons]
    cases hr : dfs p fuel c st with
    | error e => rw [hr] at h₁; exact h₁
    | ok st₁ =>
      rw [hr] at h₁
      obtain ⟨hinv₁, hvis₁, hpre₁, hc₁⟩ := h₁
      have h₂ := ih st₁ hinv₁ fun c' hc' st' hi hv =>
        hdfs c' (List.mem_cons_of_mem c hc') st' hi (hv.trans hvis₁)
      show Post p st (c :: cs) (cs.foldlM (fun st c => dfs p fuel c st) st₁)
      cases hr₂ : cs.foldlM (fun st c => dfs p fuel c st) st₁ with
      | error e => rw [hr₂] at h₂; exact h₂
      | ok st₂ =>
        rw [hr₂] at h₂
        obtain ⟨hinv₂, hvis₂, hpre₂, hcs₂⟩ := h₂
        refine ⟨hinv₂, hvis₂.trans hvis₁, hpre₁.trans hpre₂, fun x hx => ?_⟩
        rcases List.mem_cons.1 hx with rfl | hx
        · exact hpre₂.subset (hc₁ x (List.mem_singleton_self x))
        · exact hcs₂ x hx

/-- Marking a course of the list as in progress counts one more course in progress. -/
theorem countP_update_lt {S : String → Bool} {c : String} {l : List String} (hS : S c = false)
    (hc : c ∈ l) : l.countP S < l.countP (Function.update S c true) := by
  induction l with
  | nil => simp at hc
  | cons x xs ih =>
    have hmono : xs.countP S ≤ xs.countP (Function.update S c true) :=
      List.countP_mono_left fun y _ hy => by
        by_cases hyc : y = c
        · rw [hyc, Function.update_same]
        · simpa [hyc] using hy
    by_cases hxc : x = c
    · subst hxc
      simp only [List.countP_cons, hS, Function.update_same, Bool.false_eq_true, if_false,
        if_true]
      omega
    · have := ih ((List.mem_cons.1 hc).resolve_left (Ne.symm hxc))
      simp only [List.countP_cons, Function.update_noteq hxc]
      omega

/-- **Run lemma.** A call `dfs(c)` from a state with the invariant, whose path all reaches `c`
and whose fuel exceeds the courses not in progress, panics only on a cycle and otherwise keeps
the invariant and the path, extends the order and lists `c`. -/
theorem dfs_post (fuel : Nat) : ∀ (c : String) (st : DfsState), c ∈ courses p → Inv p st →
    (∀ x, st.visiting x = true → TransGen p.Edge x c) →
    (courses p).length < fuel + (courses p).countP st.visiting →
    Post p st [c] (dfs p fuel c st) := by
  induction fuel with
  | zero =>
    intro c st _ _ _ hfuel
    have : (courses p).countP st.visiting ≤ (courses p).length := List.countP_le_length _
    omega
  | succ fuel ih =>
    intro c st hc hinv hpath hfuel
    cases hvd : st.visited c
    case true =>
      rw [dfs_visited hvd]
      exact ⟨hinv, rfl, List.prefix_refl _, by simpa using (hinv.visited_iff c).1 hvd⟩
    cases hvg : st.visiting c
    case true =>
      rw [dfs_visiting hvd hvg]
      exact ⟨rfl, c, hpath c hvg⟩
    rw [dfs_fresh hvd hvg]
    have hloop := @foldlM_dfs_post p fuel (p.get c) (st.enter c) (hinv.enter hc hvd)
      fun d hd st' hi hv => ih d st' (Prereqs.mem_courses.2 (Prereqs.isCourse_of_edge hd).2) hi
        (fun x hx => by
          rw [hv] at hx
          by_cases hxc : x = c
          · exact hxc ▸ TransGen.single hd
          · exact (hpath x (by simpa [DfsState.enter, hxc] using hx)).tail hd)
        (by
          have := countP_update_lt hvg hc
          rw [hv]
          simp only [DfsState.enter]
          omega)
    cases hr : (p.get c).foldlM (fun st d => dfs p fuel d st) (st.enter c) with
    | error e => rw [hr] at hloop; exact hloop
    | ok st₂ =>
      rw [hr] at hloop
      obtain ⟨hinv₂, hvis₂, hpre₂, hdeps₂⟩ := hloop
      have hvis : (st₂.finish c).visiting = st.visiting := by
        simp [DfsState.finish, hvis₂, DfsState.enter, hvg]
      refine ⟨hinv₂.finish hc ?_ hdeps₂, hvis, hpre₂.trans (List.prefix_append _ _),
        by simp [DfsState.finish]⟩
      simp [hvis₂, DfsState.enter]

end Run

/-! ## `GetCourseList` -/

theorem perm_sortStrings (l : List String) : (sortStrings l).Perm l := List.mergeSort_perm l _

/-- The loop over all courses ends in a panic on a graph with a cycle, or with every course
listed. -/
theorem getCourseList_post (p : Prereqs) :
    let all := sortStrings (courses p)
    Post p DfsState.init all (all.foldlM (fun st c => dfs p (all.length + 1) c st) DfsState.init) := by
  intro all
  have hlen : all.length = (courses p).length := (perm_sortStrings _).length_eq
  refine foldlM_dfs_post all _ inv_init fun c hc st' hi hv => ?_
  refine dfs_post _ c st' ((perm_sortStrings _).subset hc) hi (fun x hx => ?_) (by omega)
  simp [hv, DfsState.init] at hx

/-- **`GetCourseList` panics iff the prerequisite graph has a cycle; otherwise it returns every
course once, each after all of its prerequisites.** -/
theorem getCourseList_spec (p : Prereqs) :
    (getCourseList p = .error .cycleDetected ↔ p.HasCycle) ∧
      (¬ p.HasCycle → ∃ order, getCourseList p = .ok order ∧ order.Nodup ∧
        (∀ c, c ∈ order ↔ p.IsCourse c) ∧
        ∀ l₁ c l₂, order = l₁ ++ c :: l₂ → ∀ d ∈ p.get c, d ∈ l₁) := by
  have hpost := getCourseList_post p
  simp only at hpost
  unfold getCourseList
  simp only
  cases hr : (sortStrings (courses p)).foldlM
      (fun st c => dfs p ((sortStrings (courses p)).length + 1) c st) DfsState.init with
  | error e =>
    rw [hr] at hpost
    obtain ⟨rfl, hcyc⟩ := hpost
    exact ⟨iff_of_true rfl hcyc, fun h => absurd hcyc h⟩
  | ok st =>
    rw [hr] at hpost
    obtain ⟨hinv, -, -, hall⟩ := hpost
    have hmem : ∀ c, c ∈ st.order ↔ p.IsCourse c := fun c =>
      ⟨fun h => Prereqs.mem_courses.1 (hinv.order_sub c h),
        fun h => hall c ((perm_sortStrings _).mem_iff.2 (Prereqs.mem_courses.2 h))⟩
    have hacyc : ¬ p.HasCycle := fun ⟨c, hc⟩ => by
      obtain ⟨d, hd, -⟩ := TransGen.head'_iff.1 hc
      exact hinv.topo.not_cycle hinv.nodup ((hmem c).2 (Prereqs.isCourse_of_edge hd).1) hc
    exact ⟨iff_of_false (by simp [bind, Except.bind, pure, Except.pure]) hacyc,
      fun _ => ⟨st.order, rfl, hinv.nodup, hmem, hinv.topo⟩⟩

end Hogwarts
