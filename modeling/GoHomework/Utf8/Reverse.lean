import GoHomework.Utf8.DecodeLast

/-!
# `reverse.Reverse`

`Reverse(input)` (`utf8/reverse/reverse.go`) walks the string backwards with
`DecodeLastRuneInString`, writing each valid unit byte for byte and each error as the
encoding of `RuneError`.  The loop state `idx` is kept as the prefix `input[:idx]`.

The main result, `reverse_eq_runes_reverse`, is that `Reverse(s)` is `string` of the reversed
`[]rune(s)` for every byte string `s`, valid UTF-8 or not, and hence that `Reverse` is an
involution on valid UTF-8.  It rests on `decodeLastRune_spec`: backward decoding cuts off the
last unit of forward decoding.
-/

namespace Reverse

open Utf8

/-- The loop `for idx := len(input); idx > 0;` of `Reverse`, on `s = input[:idx]`, with what
the builder holds. -/
def reverseLoop (s out : List UInt8) : List UInt8 :=
  if s = [] then out
  else
    let r := (decodeLastRune s).1
    let rSize := (decodeLastRune s).2
    let out := if r = runeError then out ++ encodeRune runeError
      else out ++ s.drop (s.length - rSize)
    reverseLoop (s.take (s.length - rSize)) out
termination_by s.length
decreasing_by
  have h : s ≠ [] := by assumption
  have := (decodeLastRune_spec h).1
  simp only [List.length_take]
  have := List.length_pos.2 h
  omega

/-- `Reverse(input)`. -/
def reverse (input : List UInt8) : List UInt8 :=
  if input = [] then [] else reverseLoop input []

/-- `string(runes)`: the runes encoded one after another. -/
def encodeRunes (l : List Nat) : List UInt8 := (l.map encodeRune).flatten

/-- **The loop writes the runes of forward decoding in reverse order.** -/
theorem reverseLoop_eq (s out : List UInt8) :
    reverseLoop s out = out ++ encodeRunes (runes s).reverse := by
  induction s, out using reverseLoop.induct with
  | case1 out => rw [reverseLoop, if_pos rfl]; simp [encodeRunes]
  | case2 s out hs r rSize out' ih =>
    obtain ⟨-, -, hrunes, hbytes⟩ := decodeLastRune_spec hs
    simp only [r, rSize, out', dite_eq_ite] at ih
    rw [reverseLoop, if_neg hs]
    dsimp only
    rw [ih]
    conv_rhs => rw [hrunes]
    have hw : (if (decodeLastRune s).1 = runeError then out ++ encodeRune runeError
        else out ++ s.drop (s.length - (decodeLastRune s).2)) =
          out ++ encodeRune (decodeLastRune s).1 := by
      split_ifs with h
      · rw [h]
      · rw [hbytes h]
    simp only [hw, encodeRunes, List.reverse_append, List.reverse_singleton, List.singleton_append,
      List.map_cons, List.flatten_cons, List.append_assoc]

/-- `Reverse` writes the runes of forward decoding in reverse order. -/
theorem reverse_eq_encodeRunes (s : List UInt8) : reverse s = encodeRunes (runes s).reverse := by
  unfold reverse
  split_ifs with h
  · simp [h, encodeRunes]
  · rw [reverseLoop_eq, List.nil_append]

/-- Decoding what `Reverse` writes gives the runes of `s` reversed, every rune that forward
decoding gives being valid. -/
theorem runes_reverse (s : List UInt8) : runes (reverse s) = (runes s).reverse := by
  rw [reverse_eq_encodeRunes, encodeRunes,
    runes_flatten_encodeRune fun r hr => validRune_of_mem_runes (List.mem_reverse.1 hr)]

/-- **`Reverse(s) = string(reverse([]rune(s)))`** for every byte string, and `Reverse` undoes
itself on valid UTF-8. -/
theorem reverse_eq_runes_reverse (s : List UInt8) :
    reverse s = encodeRunes (runes s).reverse ∧ (validString s → reverse (reverse s) = s) := by
  refine ⟨reverse_eq_encodeRunes s, fun hv => ?_⟩
  rw [reverse_eq_encodeRunes (reverse s), runes_reverse, List.reverse_reverse]
  exact flatten_encodeRune_runes hv

/-- **`Reverse` always writes valid UTF-8.**  For every byte string `s`, valid or not,
`Reverse(s)` is valid UTF-8 and its runes are those of `s` in reverse order; so
`Reverse(Reverse(s))` is `string([]rune(s))`, `s` with every byte that starts no valid
encoding replaced by `U+FFFD`. -/
theorem reverse_valid (s : List UInt8) :
    validString (reverse s) ∧ runes (reverse s) = (runes s).reverse ∧
      reverse (reverse s) = encodeRunes (runes s) := by
  refine ⟨?_, runes_reverse s, ?_⟩
  · rw [reverse_eq_encodeRunes, encodeRunes]
    exact validString_flatten_encodeRune fun r hr => validRune_of_mem_runes (List.mem_reverse.1 hr)
  · rw [reverse_eq_encodeRunes (reverse s), runes_reverse, List.reverse_reverse]

end Reverse
