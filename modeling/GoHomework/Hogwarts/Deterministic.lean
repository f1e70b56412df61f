import GoHomework.Hogwarts.CourseList
import Mathlib.Data.List.Sort

/-!
# `GetCourseList` does not depend on the map's iteration order

Go visits a map in an order it chooses anew on every `range`.  `GetCourseList` ranges over
`prereqs` to collect the courses, and over the set it builds to list them, but sorts that list
with `slices.Sort` before its depth-first search; the search itself follows the slices
`prereqs[c]`, whose order is fixed.  So the result is a function of the map alone: the model,
which takes the map's entries in one iteration order, gives the same result for every order
of them (`getCourseList_perm`).
-/

namespace Hogwarts

/-- In a map with distinct keys, `lookup` finds exactly the listed entries. -/
theorem lookup_eq_some_iff_mem {l : List (String × List String)} (hl : (l.map Prod.fst).Nodup)
    {c : String} {ds : List String} : l.lookup c = some ds ↔ (c, ds) ∈ l := by
  induction l with
  | nil => simp
  | cons e l ih =>
    obtain ⟨c', ds'⟩ := e
    rw [List.map_cons, List.nodup_cons] at hl
    by_cases hc : c = c'
    · subst hc
      simp only [List.lookup_cons_self, Option.some.injEq, List.mem_cons, Prod.mk.injEq, true_and]
      exact ⟨fun h => .inl h.symm, fun h => h.elim Eq.symm fun hm =>
        absurd (List.mem_map.2 ⟨_, hm, rfl⟩) hl.1⟩
    · simp [List.lookup_cons, beq_false_of_ne hc, hc, ih hl.2]

/-- Two orders of one map's entries give the same `prereqs[c]`. -/
theorem get_perm {p q : Prereqs} (h : p.entries.Perm q.entries) : p.get = q.get := by
  funext c
  have : p.entries.lookup c = q.entries.lookup c := Option.ext fun ds => by
    rw [Option.mem_def, Option.mem_def, lookup_eq_some_iff_mem p.keys_nodup,
      lookup_eq_some_iff_mem q.keys_nodup, h.mem_iff]
  rw [Prereqs.get, Prereqs.get, this]

/-- `dfs` reads the map only through `prereqs[c]`. -/
theorem dfs_congr {p q : Prereqs} (h : p.get = q.get) : dfs p = dfs q := by
  funext fuel
  induction fuel with
  | zero => rfl
  | succ n ih => funext c st; simp only [dfs, h, ih]

theorem courses_perm {p q : Prereqs} (h : p.entries.Perm q.entries) :
    (courses p).Perm (courses q) :=
  (h.flatMap_right _).dedup

theorem sortStrings_sorted (l : List String) : (sortStrings l).Sorted (· ≤ ·) :=
  List.sorted_mergeSort' l

/-- Sorting gives one list for every order of the input. -/
theorem sortStrings_eq_of_perm {l l' : List String} (h : l.Perm l') :
    sortStrings l = sortStrings l' :=
  List.eq_of_perm_of_sorted (((perm_sortStrings l).trans h).trans (perm_sortStrings l').symm)
    (sortStrings_sorted l) (sortStrings_sorted l')

/-- **`GetCourseList` does not depend on the map's iteration order.**  Two lists of the same
entries in any two orders give the same result: the same panic, or the same list of
courses. -/
theorem getCourseList_perm {p q : Prereqs} (h : p.entries.Perm q.entries) :
    getCourseList p = getCourseList q := by
  simp only [getCourseList, sortStrings_eq_of_perm (courses_perm h), dfs_congr (get_perm h)]

theorem getCourseList_perm_swap :
    getCourseList ⟨[("b", ["a"]), ("a", [])], by decide⟩ =
      getCourseList ⟨[("a", []), ("b", ["a"])], by decide⟩ :=
  getCourseList_perm (List.Perm.swap _ _ _)

end Hogwarts
