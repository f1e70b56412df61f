import GoHomework.Utf8.Decode
import Mathlib.Data.List.GetD

/-!
# `utf8.DecodeLastRuneInString` against forward decoding

`DecodeLastRuneInString` looks back from the end of the string for a rune start, at most
three bytes back (`scanBack`), decodes forwards from there, and accepts the result only if
it ends exactly at the end of the string; otherwise it reports `(RuneError, 1)`.

The main result, `decodeLastRune_spec`, says that it cuts off exactly the last unit of
forward decoding: for every non-empty byte string `s`, with `(r, n) = decodeLastRune s`,
`runes s = runes (s.take (s.length - n)) ++ [r]`, and the bytes cut off are the encoding of
`r` unless `r` is `RuneError`.  It is assembled from one lemma for each way the code can end:

* `runes_of_last_ascii`: the last byte is ASCII, a rune start, and forward decoding splits
  before it (`runes_append`);
* `runes_of_fit`: the decoded sequence reaches the end; the scan stopped at a rune start, so
  forward decoding splits there too;
* `runes_of_short`: the decoded sequence falls short; then no sequence that decodes in full
  ends at the end of the string, since the scan would have found its leading byte, and the
  last byte is an error of its own (`runes_append_cont`).
-/

namespace Utf8

/-- The loop `for start--; start >= lim; start-- { if RuneStart(s[start]) { break } }` of
`DecodeLastRuneInString`, entered with `start = k`: the value of `start` when it ends. -/
def scanBack (s : List UInt8) (lim : Int) : Nat → Int
  | 0 => -1
  | k + 1 => if (k : Int) < lim then k else if runeStart (s.getD k 0) then k else scanBack s lim k

/-- Where `DecodeLastRuneInString` starts decoding: `lim = max(end - UTFMax, 0)`, the scan
from `end - 1`, and the clamp `if start < 0 { start = 0 }`. -/
def lastRuneStart (s : List UInt8) : Nat :=
  let endPos := s.length
  let lim : Int := endPos - utfMax
  let lim : Int := if lim < 0 then 0 else lim
  let start := scanBack s lim (endPos - 1)
  (if start < 0 then 0 else start).toNat

/-- `utf8.DecodeLastRuneInString(s)`: the last rune and its width in bytes. -/
def decodeLastRune (s : List UInt8) : Nat × Nat :=
  let endPos := s.length
  if endPos = 0 then (runeError, 0)
  else
    let r := (s.getD (endPos - 1) 0).toNat
    if r < runeSelf then (r, 1)
    else
      let start := lastRuneStart s
      let (r, size) := decodeRune (s.drop start)
      if start + size ≠ endPos then (runeError, 1) else (r, size)

/-! ## The scan -/

section Scan

variable (s : List UInt8) (lim : Int)

theorem scanBack_lt (k : Nat) : scanBack s lim k < k := by
  induction k with
  | zero => simp [scanBack]
  | succ k ih => simp only [scanBack]; split_ifs <;> omega

/-- When the scan stops at or above `lim`, it stopped at a rune start, and nothing between
it and `k` is one. -/
theorem scanBack_found {k : Nat} (hlim : 0 ≤ lim) (h : lim ≤ scanBack s lim k) :
    runeStart (s.getD (scanBack s lim k).toNat 0) ∧
      ∀ i : Nat, scanBack s lim k < i → i < k → runeStart (s.getD i 0) = false := by
  induction k with
  | zero => simp only [scanBack] at h ⊢; omega
  | succ k ih =>
    simp only [scanBack] at h ⊢
    split_ifs at h ⊢ with h₁ h₂
    · omega
    · exact ⟨by simpa using h₂, fun i hi hi' => by omega⟩
    · obtain ⟨ih₁, ih₂⟩ := ih h
      refine ⟨ih₁, fun i hi hi' => ?_⟩
      rcases Nat.lt_succ_iff_lt_or_eq.1 hi' with hi' | rfl
      · exact ih₂ i hi hi'
      · simpa using h₂

/-- When the scan runs below `lim` from `k ≥ lim`, it ends at `lim - 1` and saw no rune
start. -/
theorem scanBack_not_found {k : Nat} (hk : lim ≤ k) (h : scanBack s lim k < lim) :
    scanBack s lim k = lim - 1 ∧ ∀ i : Nat, lim ≤ i → i < k → runeStart (s.getD i 0) = false := by
  induction k with
  | zero => simp only [scanBack] at h ⊢; exact ⟨by omega, fun i _ hi => by omega⟩
  | succ k ih =>
    simp only [scanBack] at h ⊢
    split_ifs at h ⊢ with h₁ h₂
    · exact ⟨by omega, fun i hi hi' => by omega⟩
    · omega
    · obtain ⟨ih₁, ih₂⟩ := ih (by omega) h
      refine ⟨ih₁, fun i hi hi' => ?_⟩
      rcases Nat.lt_succ_iff_lt_or_eq.1 hi' with hi' | rfl
      · exact ih₂ i hi hi'
      · simpa using h₂

/-- The scan stops at the last rune start in `[lim, k)`. -/
theorem scanBack_eq {k i : Nat} (hi : lim ≤ i) (hik : i < k) (hs : runeStart (s.getD i 0))
    (hbetween : ∀ m : Nat, i < m → m < k → runeStart (s.getD m 0) = false) :
    scanBack s lim k = i := by
  induction k with
  | zero => omega
  | succ k ih =>
    simp only [scanBack]
    rcases Nat.lt_succ_iff_lt_or_eq.1 hik with hik | rfl
    · rw [if_neg (by omega),
        if_neg (by rw [hbetween k hik (Nat.lt_succ_self k)]; exact Bool.false_ne_true)]
      exact ih hik fun m hm hm' => hbetween m hm (Nat.lt_succ_of_lt hm')
    · rw [if_neg (by omega), if_pos hs]

end Scan

/-! ## Positions in a string -/

theorem runeStart_eq_false_iff (b : UInt8) : runeStart b = false ↔ IsCont b := by
  simp [runeStart]

theorem startsRune_of_runeStart {b : UInt8} (t : List UInt8) (h : runeStart b) :
    StartsRune (b :: t) := by
  simpa [runeStart] using h

theorem getD_append_cons_length (x l : List UInt8) (c : UInt8) :
    (x ++ c :: l).getD x.length 0 = c := by
  rw [List.getD_append_right _ _ _ _ le_rfl, Nat.sub_self, List.getD_cons_zero]

theorem getD_append_cons_mem {x l : List UInt8} {c : UInt8} {m : Nat} (h₁ : x.length < m)
    (h₂ : m < (x ++ c :: l).length) : (x ++ c :: l).getD m 0 ∈ l := by
  obtain ⟨k, rfl⟩ : ∃ k, m = x.length + (k + 1) := ⟨m - x.length - 1, by omega⟩
  simp only [List.length_append, List.length_cons] at h₂
  rw [List.getD_append_right _ _ _ _ (by omega), Nat.add_sub_cancel_left, List.getD_cons_succ,
    List.getD_eq_getElem _ _ (by omega)]
  exact List.getElem_mem _

/-- A non-empty string is its first `length - 1` bytes and its last byte. -/
theorem eq_take_append_last {s : List UInt8} (hs : s ≠ []) :
    s = s.take (s.length - 1) ++ [s.getD (s.length - 1) 0] := by
  have hl := List.length_pos.2 hs
  conv_lhs => rw [← List.take_append_drop (s.length - 1) s]
  rw [List.drop_eq_getElem_cons (by omega), List.drop_eq_nil_of_le (by omega),
    List.getD_eq_getElem _ _ (by omega)]

/-! ## Where the last rune starts -/

/-- `lastRuneStart` is a position of the string, and either a rune start, the first byte, or
five bytes before the end (the scan found no rune start in its window). -/
theorem lastRuneStart_cases {s : List UInt8} (hs : s ≠ []) :
    lastRuneStart s < s.length ∧
      (runeStart (s.getD (lastRuneStart s) 0) ∨ lastRuneStart s = 0 ∨
        lastRuneStart s + 5 = s.length) := by
  have hL := List.length_pos.2 hs
  unfold lastRuneStart
  simp only [utfMax]
  generalize hlim : (if (s.length : Int) - 4 < 0 then 0 else (s.length : Int) - 4) = lim
  have hlim₀ : 0 ≤ lim := by rw [← hlim]; split_ifs <;> omega
  have hlimL : lim ≤ (s.length - 1 : Nat) := by rw [← hlim]; split_ifs <;> omega
  have hlt := scanBack_lt s lim (s.length - 1)
  by_cases hfound : lim ≤ scanBack s lim (s.length - 1)
  · rw [if_neg (by omega)]
    exact ⟨by omega, Or.inl (scanBack_found s lim hlim₀ hfound).1⟩
  · obtain ⟨heq, -⟩ := scanBack_not_found s lim hlimL (by omega)
    rw [heq]
    refine ⟨by split_ifs <;> omega, Or.inr ?_⟩
    rw [← hlim] at heq ⊢
    split_ifs <;> omega

/-- If a rune start sits in the last four bytes but the last, with continuation bytes after
it up to the last byte, `lastRuneStart` finds it. -/
theorem lastRuneStart_eq {s : List UInt8} {i : Nat} (hi₁ : s.length ≤ i + 4)
    (hi₂ : i + 1 < s.length) (hs : runeStart (s.getD i 0))
    (hbetween : ∀ m : Nat, i < m → m < s.length - 1 → runeStart (s.getD m 0) = false) :
    lastRuneStart s = i := by
  unfold lastRuneStart
  simp only [utfMax]
  rw [scanBack_eq s _ (by split_ifs <;> omega) (by omega) hs hbetween,
    if_neg (show ¬((i : Int) < 0) by omega)]
  rfl

/-! ## The last rune -/

/-- The last byte is ASCII: it is a rune of its own, and forward decoding splits before it. -/
theorem runes_of_last_ascii {s : List UInt8} (hs : s ≠ [])
    (hascii : (s.getD (s.length - 1) 0).toNat < runeSelf) :
    runes s = runes (s.take (s.length - 1)) ++ [(s.getD (s.length - 1) 0).toNat] ∧
      s.drop (s.length - 1) = encodeRune (s.getD (s.length - 1) 0).toNat := by
  have hL := List.length_pos.2 hs
  have hsplit := eq_take_append_last hs
  set b := s.getD (s.length - 1) 0 with hb
  have hb1 : decodeRune [b] = (b.toNat, 1) := by simp [decodeRune, hascii]
  constructor
  · conv_lhs => rw [hsplit]
    rw [runes_append (show StartsRune [b] by
        simp only [StartsRune, isCont_iff]; unfold runeSelf at hascii; omega),
      runes_of_size_eq (List.cons_ne_nil b []) (by rw [hb1]; rfl), hb1]
  · rw [List.drop_eq_getElem_cons (by omega), List.drop_eq_nil_of_le (by omega),
      ← List.getD_eq_getElem _ 0 (by omega), ← hb]
    simp [encodeRune, show b.toNat ≤ 0x7F by unfold runeSelf at hascii; omega, toUInt8_eq rfl]

/-- A sequence decoded from a rune start, or from the first byte, that ends at the end of the
string is the last unit of forward decoding, and unless it is an error its bytes are the
encoding of its rune. -/
theorem runes_of_fit {s : List UInt8} {start : Nat} (hst : start < s.length)
    (hstart : runeStart (s.getD start 0) ∨ start = 0)
    (hfit : start + (decodeRune (s.drop start)).2 = s.length) :
    runes s = runes (s.take start) ++ [(decodeRune (s.drop start)).1] ∧
      ((decodeRune (s.drop start)).1 ≠ runeError →
        s.drop start = encodeRune (decodeRune (s.drop start)).1) := by
  have hy : s.drop start ≠ [] := by simp; omega
  have hry : runes (s.drop start) = [(decodeRune (s.drop start)).1] :=
    runes_of_size_eq hy (by simp; omega)
  refine ⟨?_, fun hr => ?_⟩
  · conv_lhs => rw [← List.take_append_drop start s]
    rcases hstart with hrs | rfl
    · rw [runes_append (by
        rw [List.drop_eq_getElem_cons hst, ← List.getD_eq_getElem _ 0 hst]
        exact startsRune_of_runeStart _ hrs), hry]
    · simpa using hry
  · have hne : decodeRune (s.drop start) ≠ (runeError, 1) := fun h => hr (by rw [h])
    rw [encodeRune_decodeRune hy hne, List.take_of_length_le (by simp; omega)]

/-- A sequence decoded from `lastRuneStart s` that does not end at the end of the string
leaves the last byte, not ASCII, an error of its own: a sequence that decodes in full up to the
end would start in the scan's window, and the scan would have stopped at its leading byte. -/
theorem runes_of_short {s : List UInt8} (hs : s ≠ [])
    (hascii : ¬(s.getD (s.length - 1) 0).toNat < runeSelf)
    (hshort : lastRuneStart s + (decodeRune (s.drop (lastRuneStart s))).2 ≠ s.length) :
    runes s = runes (s.take (s.length - 1)) ++ [runeError] := by
  have hsplit := eq_take_append_last hs
  set b := s.getD (s.length - 1) 0
  have hb : 0x80 ≤ b.toNat := by unfold runeSelf at hascii; omega
  conv_lhs => rw [hsplit]
  by_cases hcont : IsCont b
  · apply runes_append_cont hcont
    intro x c conts hx hc hconts hsize
    rw [← hsplit] at hx
    have hlen : s.length = x.length + 1 + conts.length := by rw [hx]; simp; omega
    have hconts_ne : conts ≠ [] := by
      rintro rfl
      rw [hsplit] at hx
      have hbc := (List.append_inj' hx rfl).2
      simp only [List.cons.injEq, and_true] at hbc
      exact hc (hbc ▸ hcont)
    have h4 := (decodeRune_size (List.cons_ne_nil c conts)).2.2
    have hstart : lastRuneStart s = x.length := by
      apply lastRuneStart_eq (by omega) (by have := List.length_pos.2 hconts_ne; omega)
      · rw [hx, getD_append_cons_length]; simpa [runeStart] using hc
      · intro m hm hm'
        rw [runeStart_eq_false_iff]
        exact hconts _ (hx ▸ getD_append_cons_mem hm (by rw [← hx]; omega))
    have hd : s.drop x.length = c :: conts := by rw [hx, List.drop_left' rfl]
    rw [hstart, hd] at hshort
    omega
  · rw [runes_append (show StartsRune [b] from hcont),
      runes_of_size_eq (List.cons_ne_nil b []) (by rw [decodeRune_single hb]; rfl),
      decodeRune_single hb]

/-- **`DecodeLastRuneInString` cuts off the last unit of forward decoding.**  On a non-empty
string it reads one byte or more, forward decoding of the string is forward decoding of what
is left followed by the rune it returns, and unless that rune is `RuneError` the bytes it
cut off are its encoding. -/
theorem decodeLastRune_spec {s : List UInt8} (hs : s ≠ []) :
    1 ≤ (decodeLastRune s).2 ∧ (decodeLastRune s).2 ≤ s.length ∧
      runes s = runes (s.take (s.length - (decodeLastRune s).2)) ++ [(decodeLastRune s).1] ∧
      ((decodeLastRune s).1 ≠ runeError →
        s.drop (s.length - (decodeLastRune s).2) = encodeRune (decodeLastRune s).1) := by
  have hL := List.length_pos.2 hs
  unfold decodeLastRune
  simp only [if_neg (Nat.pos_iff_ne_zero.1 hL)]
  by_cases hascii : (s.getD (s.length - 1) 0).toNat < runeSelf
  · rw [if_pos hascii]
    obtain ⟨hrunes, hbytes⟩ := runes_of_last_ascii hs hascii
    exact ⟨le_rfl, hL, hrunes, fun _ => hbytes⟩
  · rw [if_neg hascii]
    obtain ⟨hstL, hcases⟩ := lastRuneStart_cases hs
    have hsz := decodeRune_size (show s.drop (lastRuneStart s) ≠ [] by simp; omega)
    split_ifs with hshort
    · exact ⟨le_rfl, hL, runes_of_short hs hascii hshort, fun h => absurd rfl h⟩
    · -- the scan stopped at a rune start or the first byte, not five bytes back
      have hfit := not_not.1 hshort
      have hstart := hcases.imp_right fun h => h.resolve_right (by omega)
      dsimp only
      rw [show s.length - (decodeRune (s.drop (lastRuneStart s))).2 = lastRuneStart s by omega]
      exact ⟨hsz.1, by omega, runes_of_fit hstL hstart hfit⟩

end Utf8
