import GoHomework.Utf8.Reverse
import Mathlib.Data.List.Chain

/-!
# `spacecollapse.CollapseSpaces`

`CollapseSpaces(input)` (`unnamed/part_000`, lines 11–29) ranges over the runes of `input`
and keeps one flag, `isInSpaces`: the first rune of a run of `unicode.IsSpace` runes is
written as one `' '` and sets the flag, the others of the run are skipped, and every other
rune is written as it is and clears the flag.  `builder.Grow` only reserves capacity and is
left out.

The main result, `collapseSpaces_eq_collapse`, is that `CollapseSpaces(s)` is `string` of
`collapse([]rune(s))` for every byte string `s`, where `collapse` replaces each maximal run of
spaces by one `' '`.  It rests on the loop lemma `foldl_collapseStep`.  Idempotence and the
absence of adjacent spaces follow from two facts about `collapse` alone: what it writes first
is not a space when the input does not start with one (`collapse_head`), so a run of spaces is
never followed by another space.
-/

namespace Spacecollapse

open Utf8 Reverse

/-- `unicode.IsSpace(r)` of the Go standard library: in Latin-1, `'\t'`, `'\n'`, `'\v'`,
`'\f'`, `'\r'`, `' '`, U+0085 and U+00A0; above it, the runes of the `White_Space` table
outside Latin-1: U+1680, U+2000 to U+200A, U+2028, U+2029, U+202F, U+205F and U+3000. -/
def isSpace (r : Nat) : Bool :=
  if r ≤ 0xFF then
    r == 0x09 || r == 0x0A || r == 0x0B || r == 0x0C || r == 0x0D || r == 0x20 || r == 0x85 ||
      r == 0xA0
  else
    r == 0x1680 || (0x2000 ≤ r && r ≤ 0x200A) || r == 0x2028 || r == 0x2029 || r == 0x202F ||
      r == 0x205F || r == 0x3000

/-- One iteration of the loop of `CollapseSpaces` on the rune `r`, on the state
`(isInSpaces, builder)`. -/
def collapseStep (st : Bool × List UInt8) (r : Nat) : Bool × List UInt8 :=
  if isSpace r then
    if st.1 then st else (true, st.2 ++ encodeRune 0x20)
  else (false, st.2 ++ encodeRune r)

/-- `CollapseSpaces(input)`. -/
def collapseSpaces (input : List UInt8) : List UInt8 :=
  ((runes input).foldl collapseStep (false, [])).2

/-! ## The specification `collapse` -/

/-- `collapse` on runes: each maximal run of spaces becomes one `' '`, every other rune is
kept. -/
def collapse : List Nat → List Nat
  | [] => []
  | r :: rs => if isSpace r then 0x20 :: collapse (rs.dropWhile isSpace) else r :: collapse rs
termination_by l => l.length
decreasing_by
  all_goals simp_wf
  all_goals have := (List.dropWhile_sublist isSpace (l := rs)).length_le
  all_goals omega

@[simp]
theorem collapse_nil : collapse [] = [] := by rw [collapse]

theorem collapse_cons_space {r : Nat} {rs : List Nat} (h : isSpace r = true) :
    collapse (r :: rs) = 0x20 :: collapse (rs.dropWhile isSpace) := by
  rw [collapse, if_pos h]

theorem collapse_cons_nonspace {r : Nat} {rs : List Nat} (h : ¬isSpace r = true) :
    collapse (r :: rs) = r :: collapse rs := by
  rw [collapse, if_neg h]

/-- What `collapse` writes comes from its input, or is the `' '` of a run. -/
theorem collapse_subset (l : List Nat) : collapse l ⊆ 0x20 :: l := by
  induction l using collapse.induct with
  | case1 => simp
  | case2 r rs h ih =>
    rw [collapse_cons_space h]
    exact List.cons_subset.2 ⟨List.mem_cons_self _ _, ih.trans (List.cons_subset_cons _
      ((List.dropWhile_sublist _).subset.trans (List.subset_cons_self _ _)))⟩
  | case3 r rs h ih =>
    rw [collapse_cons_nonspace h]
    exact List.cons_subset.2 ⟨List.mem_cons_of_mem _ (List.mem_cons_self _ _),
      ih.trans (List.cons_subset_cons _ (List.subset_cons_self _ _))⟩

/-- The head of `l.dropWhile isSpace` is not a space: the run it drops is maximal. -/
theorem head?_dropWhile_isSpace (l : List Nat) :
    ∀ r ∈ (l.dropWhile isSpace).head?, isSpace r = false := by
  intro r hr
  simpa [Option.mem_def.1 hr] using List.head?_dropWhile_not isSpace l

/-- A list that does not start with a space loses nothing to `dropWhile isSpace`. -/
theorem dropWhile_isSpace_of_head {l : List Nat} (h : ∀ r ∈ l.head?, isSpace r = false) :
    l.dropWhile isSpace = l := by
  cases l with
  | nil => rfl
  | cons r rs => exact List.dropWhile_cons_of_neg (by simp [h r rfl])

/-- **`collapse` keeps a non-space head in front.** -/
theorem collapse_head {l : List Nat} (h : ∀ r ∈ l.head?, isSpace r = false) :
    ∀ r ∈ (collapse l).head?, isSpace r = false := by
  cases l with
  | nil => simp
  | cons r rs =>
    rw [collapse_cons_nonspace (by simp [h r rfl])]
    exact h

/-- **`collapse` never writes two spaces in a row.** -/
theorem chain'_collapse (l : List Nat) :
    (collapse l).Chain' fun a b => ¬(isSpace a = true ∧ isSpace b = true) := by
  induction l using collapse.induct with
  | case1 => simp
  | case2 r rs _ ih =>
    rw [collapse_cons_space ‹_›]
    exact List.chain'_cons'.2 ⟨fun y hy hsp => Bool.eq_false_iff.1
      (collapse_head (head?_dropWhile_isSpace rs) y hy) hsp.2, ih⟩
  | case3 r rs h ih =>
    rw [collapse_cons_nonspace h]
    exact List.chain'_cons'.2 ⟨fun _ _ hsp => h hsp.1, ih⟩

/-- **`collapse` is idempotent.** -/
theorem collapse_collapse (l : List Nat) : collapse (collapse l) = collapse l := by
  induction l using collapse.induct with
  | case1 => simp
  | case2 r rs _ ih =>
    rw [collapse_cons_space ‹_›, collapse_cons_space (by decide),
      dropWhile_isSpace_of_head (collapse_head (head?_dropWhile_isSpace rs)), ih]
  | case3 r rs h ih => rw [collapse_cons_nonspace h, collapse_cons_nonspace h, ih]

/-! ## The loop -/

/-- **The loop writes `collapse` of the runes still to read**; inside a run of spaces
(`isInSpaces`) the rest of the run is skipped first. -/
theorem foldl_collapseStep (rs : List Nat) (b : Bool) (out : List UInt8) :
    (rs.foldl collapseStep (b, out)).2 =
      out ++ encodeRunes (collapse (if b then rs.dropWhile isSpace else rs)) := by
  induction rs generalizing b out with
  | nil => cases b <;> simp [encodeRunes]
  | cons r rs ih =>
    rw [List.foldl_cons]
    by_cases h : isSpace r = true
    · cases b <;> simp [collapseStep, h, ih, collapse_cons_space, encodeRunes]
    · cases b <;> simp [collapseStep, h, ih, collapse_cons_nonspace, encodeRunes]

/-- `CollapseSpaces` runs the loop from `isInSpaces = false` and an empty builder. -/
theorem collapseSpaces_eq (s : List UInt8) :
    collapseSpaces s = encodeRunes (collapse (runes s)) := by
  simpa using foldl_collapseStep (runes s) false []

/-- Every rune that `CollapseSpaces` writes is valid, so decoding its output gives them
back. -/
theorem runes_collapseSpaces (s : List UInt8) :
    runes (collapseSpaces s) = collapse (runes s) := by
  rw [collapseSpaces_eq]
  refine runes_flatten_encodeRune fun r hr => ?_
  rcases List.mem_cons.1 (collapse_subset _ hr) with rfl | hr
  · decide
  · exact validRune_of_mem_runes hr

/-- **`CollapseSpaces` is `string(collapse([]rune(s)))`** for every byte string `s`; hence it
is idempotent, and its output has no two adjacent spaces. -/
theorem collapseSpaces_eq_collapse (s : List UInt8) :
    collapseSpaces s = encodeRunes (collapse (runes s)) ∧
      collapseSpaces (collapseSpaces s) = collapseSpaces s ∧
      (runes (collapseSpaces s)).Chain' fun a b => ¬(isSpace a = true ∧ isSpace b = true) := by
  refine ⟨collapseSpaces_eq s, ?_, runes_collapseSpaces s ▸ chain'_collapse _⟩
  rw [collapseSpaces_eq (collapseSpaces s), runes_collapseSpaces, collapse_collapse,
    ← collapseSpaces_eq]

end Spacecollapse
