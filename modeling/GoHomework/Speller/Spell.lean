import GoHomework.Duration.Parse

/-!
# `speller.Spell`

`Spell(n)` (`unnamed/part_004`, lines 18–85) spells an `int64` in English: `minus` and the
spelling of `-n` for a negative `n`; otherwise the groups of billions, millions and thousands,
each spelled by a recursive call and followed by its scale word, and then `spellRest` of the
last three digits, the parts joined by single spaces.

The recursion is modelled with fuel: `spell fuel n` makes at most `fuel` nested calls and is
`none` when the calls would go deeper.  `-n` is `int64` negation, which wraps around
(`Duration.wrap64`).  Fuel is only a resource bound (`spell_mono`), four levels of calls are
enough for every `int64` but `-2^63` (`spell_four`), and no fuel is enough for `-2^63`, whose
negation is itself, so that `Spell(-2^63)` calls itself for ever (`spell_minInt64`).  The main
result is `spell_terminates_iff`.
-/

namespace Speller

open Duration (wrap64)

/-- `ones`. -/
def ones : List String :=
  ["zero", "one", "two", "three", "four", "five", "six", "seven", "eight", "nine"]

/-- `teens`. -/
def teens : List String :=
  ["ten", "eleven", "twelve", "thirteen", "fourteen", "fifteen", "sixteen", "seventeen",
    "eighteen", "nineteen"]

/-- `tens`. -/
def tens : List String :=
  ["", "", "twenty", "thirty", "forty", "fifty", "sixty", "seventy", "eighty", "ninety"]

/-- The idiom `if result != "" { result += " " }; result += part`. -/
def addPart (result part : String) : String :=
  (if result ≠ "" then result ++ " " else result) ++ part

/-- `spellRest(n)`, called for `0 < n < 1000`.  The slices are indexed with `getD`; no call
reaches the default. -/
def spellRest (n : Int) : String :=
  let hundreds := n / 100
  let rest := n % 100
  let result := ""
  let result := if hundreds > 0 then result ++ (ones.getD hundreds.toNat "" ++ " hundred")
    else result
  let result := if rest ≥ 20 then
      let result := addPart result (tens.getD (rest / 10).toNat "")
      if rest % 10 > 0 then result ++ ("-" ++ ones.getD (rest % 10).toNat "") else result
    else result
  let result := if rest ≥ 10 ∧ rest < 20 then addPart result (teens.getD (rest - 10).toNat "")
    else result
  if rest > 0 ∧ rest < 10 then addPart result (ones.getD rest.toNat "") else result

/-- The step `if k > 0 { if result != "" { result += " " }; result += Spell(k) + scale }` of
`Spell` for the millions and the thousands, with `sp` for the recursive call. -/
def addGroup (sp : Int → Option String) (k : Int) (scale result : String) : Option String :=
  if k > 0 then (sp k).map fun w => addPart result (w ++ scale) else some result

/-- The body of `Spell(n)` for `n > 0`, with `sp` for the recursive calls.  Go's truncating
`/` and `%` agree with Lean's on positive operands. -/
def spellPos (sp : Int → Option String) (n : Int) : Option String := do
  let billions := n / 1000000000
  let millions := n % 1000000000 / 1000000
  let thousands := n % 1000000 / 1000
  let rest := n % 1000
  let result := ""
  let result ← (if billions > 0 then (sp billions).map fun w => result ++ (w ++ " billion")
    else some result)
  let result ← addGroup sp millions " million" result
  let result ← addGroup sp thousands " thousand" result
  return if rest > 0 then addPart result (spellRest rest) else result

/-- `Spell(n)` with at most `fuel` nested calls; `none` when the calls would go deeper. -/
def spell : Nat → Int → Option String
  | 0, _ => none
  | fuel + 1, n =>
    if n = 0 then some (ones.getD 0 "")
    else if n < 0 then (spell fuel (wrap64 (-n))).map ("minus " ++ ·)
    else spellPos (spell fuel) n

/-! ## The body as a chain of groups -/

/-- The billions step lacks the test `result != ""` of the other two; on the empty result it
starts from, it is the same step. -/
theorem billions_eq_addGroup (sp : Int → Option String) (k : Int) :
    (if k > 0 then (sp k).map fun w => "" ++ (w ++ " billion") else some "") =
      addGroup sp k " billion" "" := rfl

theorem spellPos_eq (sp : Int → Option String) (n : Int) :
    spellPos sp n =
      (addGroup sp (n / 1000000000) " billion" "").bind fun r =>
        (addGroup sp (n % 1000000000 / 1000000) " million" r).bind fun r =>
          (addGroup sp (n % 1000000 / 1000) " thousand" r).bind fun r =>
            some (if n % 1000 > 0 then addPart r (spellRest (n % 1000)) else r) := by
  simp only [spellPos, billions_eq_addGroup]
  rfl

theorem addGroup_mono {sp sp' : Int → Option String} {k : Int} {scale result s : String}
    (hsp : ∀ w, sp k = some w → sp' k = some w) (h : addGroup sp k scale result = some s) :
    addGroup sp' k scale result = some s := by
  unfold addGroup at h ⊢
  split_ifs at h ⊢
  · obtain ⟨w, hw, rfl⟩ := Option.map_eq_some'.1 h
    rw [hsp w hw]; rfl
  · exact h

theorem addGroup_isSome {sp : Int → Option String} {k : Int} (scale result : String)
    (hsp : 0 < k → (sp k).isSome) : (addGroup sp k scale result).isSome := by
  unfold addGroup
  split_ifs with hk
  · rw [Option.isSome_map']; exact hsp hk
  · rfl

/-- A spelling that succeeds with some recursive calls succeeds, with the same words, with
calls that succeed wherever those did. -/
theorem spellPos_mono {sp sp' : Int → Option String} {n : Int} {s : String}
    (hsp : ∀ k w, sp k = some w → sp' k = some w) (h : spellPos sp n = some s) :
    spellPos sp' n = some s := by
  rw [spellPos_eq] at h ⊢
  obtain ⟨r₁, h₁, h⟩ := Option.bind_eq_some.1 h
  obtain ⟨r₂, h₂, h⟩ := Option.bind_eq_some.1 h
  obtain ⟨r₃, h₃, h⟩ := Option.bind_eq_some.1 h
  rw [addGroup_mono (hsp _) h₁, Option.some_bind, addGroup_mono (hsp _) h₂, Option.some_bind,
    addGroup_mono (hsp _) h₃, Option.some_bind, h]

/-- The body succeeds when the calls for the billions and for every group below a thousand
succeed. -/
theorem spellPos_isSome {sp : Int → Option String} {n : Int}
    (hsp : ∀ k, 0 < k → (k ≤ n / 1000000000 ∨ k < 1000) → (sp k).isSome) :
    (spellPos sp n).isSome := by
  rw [spellPos_eq]
  obtain ⟨r₁, h₁⟩ := Option.isSome_iff_exists.1
    (addGroup_isSome " billion" "" fun hk => hsp _ hk (.inl (Int.le_refl _)))
  obtain ⟨r₂, h₂⟩ := Option.isSome_iff_exists.1
    (addGroup_isSome " million" r₁ fun hk => hsp (n % 1000000000 / 1000000) hk (.inr (by omega)))
  obtain ⟨r₃, h₃⟩ := Option.isSome_iff_exists.1
    (addGroup_isSome " thousand" r₂ fun hk => hsp (n % 1000000 / 1000) hk (.inr (by omega)))
  rw [h₁, Option.some_bind, h₂, Option.some_bind, h₃, Option.some_bind]
  rfl

/-- Below a thousand, `Spell` is `spellRest`, with no recursive call. -/
theorem spellPos_small (sp : Int → Option String) {k : Int} (h₀ : 0 < k) (h₁ : k < 1000) :
    spellPos sp k = some (spellRest k) := by
  rw [spellPos_eq]
  simp only [addGroup, show ¬k / 1000000000 > 0 by omega, show ¬k % 1000000000 / 1000000 > 0 by
    omega, show ¬k % 1000000 / 1000 > 0 by omega, if_false, Option.some_bind,
    show k % 1000 = k by omega, if_pos h₀, addPart, ne_eq, not_true_eq_false, String.empty_append]

/-! ## Fuel -/

/-- **Fuel is only a bound.**  One more level of calls gives the same words. -/
theorem spell_succ {fuel : Nat} {n : Int} {s : String} (h : spell fuel n = some s) :
    spell (fuel + 1) n = some s := by
  induction fuel generalizing n s with
  | zero => cases h
  | succ fuel ih =>
    unfold spell at h ⊢
    split_ifs at h ⊢ with h₀ hneg
    · exact h
    · obtain ⟨w, hw, rfl⟩ := Option.map_eq_some'.1 h
      rw [ih hw]; rfl
    · exact spellPos_mono (fun _ _ => ih) h

theorem spell_mono {fuel fuel' : Nat} {n : Int} {s : String} (h : spell fuel n = some s)
    (hle : fuel ≤ fuel') : spell fuel' n = some s := by
  induction hle with
  | refl => exact h
  | step _ ih => exact spell_succ ih

theorem spell_small {fuel : Nat} {k : Int} (h₀ : 0 < k) (h₁ : k < 1000) :
    spell (fuel + 1) k = some (spellRest k) := by
  rw [spell, if_neg (by omega), if_neg (by omega), spellPos_small _ h₀ h₁]

/-- Three levels of calls spell every positive `int64`: its billions are below `10^12`, and
theirs below a thousand. -/
theorem spell_three_pos {n : Int} (h₀ : 0 < n) (h₁ : n ≤ 2 ^ 63 - 1) :
    (spell 3 n).isSome := by
  have two : ∀ k : Int, 0 < k → k < 10 ^ 12 → (spell 2 k).isSome := fun k hk₀ hk₁ => by
    rw [spell, if_neg (by omega), if_neg (by omega)]
    exact spellPos_isSome fun j hj₀ hj => by rw [spell_small hj₀ (by omega)]; rfl
  rw [spell, if_neg (by omega), if_neg (by omega)]
  exact spellPos_isSome fun k hk₀ hk => two k hk₀ (by omega)

/-- **Four levels of calls spell every `int64` but `-2^63`.** -/
theorem spell_four {n : Int} (h₀ : -2 ^ 63 < n) (h₁ : n ≤ 2 ^ 63 - 1) : (spell 4 n).isSome := by
  by_cases hneg : n < 0
  · rw [spell, if_neg (by omega), if_pos hneg, Option.isSome_map',
      Duration.wrap64_of_le (by omega) (by omega)]
    exact spell_three_pos (by omega) (by omega)
  · by_cases hz : n = 0
    · subst hz; rfl
    · obtain ⟨s, hs⟩ := Option.isSome_iff_exists.1 (spell_three_pos (by omega) h₁)
      rw [spell_succ hs]; rfl

/-- **`Spell(-2^63)` never reaches the base case**: `int64` negation maps `-2^63` to itself,
so the call for a negative number calls itself. -/
theorem spell_minInt64 (fuel : Nat) : spell fuel (-2 ^ 63) = none := by
  induction fuel with
  | zero => rfl
  | succ fuel ih =>
    rw [spell, if_neg (by decide), if_pos (by decide),
      show wrap64 (-(-2 ^ 63)) = -2 ^ 63 by decide, ih]
    rfl

/-- **Termination of `Spell`.**  On an `int64` `n`, the recursion of `Spell(n)` reaches its
base case for some depth exactly when `n ≠ -2^63`. -/
theorem spell_terminates_iff (n : Int) (h₀ : -2 ^ 63 ≤ n) (h₁ : n ≤ 2 ^ 63 - 1) :
    (∃ fuel s, spell fuel n = some s) ↔ n ≠ -2 ^ 63 := by
  constructor
  · rintro ⟨fuel, s, h⟩ rfl
    rw [spell_minInt64] at h
    cases h
  · intro hn
    obtain ⟨s, hs⟩ := Option.isSome_iff_exists.1 (spell_four (by omega) h₁)
    exact ⟨4, s, hs⟩

/-- At `-2^63`, no depth of calls is enough. -/
theorem spell_minInt64_diverges :
    (-2 ^ 63 : Int) ≤ -2 ^ 63 ∧ (-2 ^ 63 : Int) ≤ 2 ^ 63 - 1 ∧
      ¬∃ fuel s, spell fuel (-2 ^ 63) = some s :=
  ⟨Int.le_refl _, by decide,
    fun h => (spell_terminates_iff _ (Int.le_refl _) (by decide)).1 h rfl⟩

end Speller
