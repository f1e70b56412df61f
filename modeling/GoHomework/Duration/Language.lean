import GoHomework.Duration.Parse
import Mathlib.Tactic.Linarith

/-!
# The language `ParseDuration` accepts, and the value it returns

A duration string is an optional sign and either `"0"` or a non-empty sequence of segments
`num unit`, where `num` is `D+`, `D+ '.' D*` or `D* '.' D+` and `unit` is a key of `unitMap`.
A `Segment` carries these conditions as fields, so `render gs` is in the language for every
list `gs`.

The bridge between the loop of `ParseDuration` and the segments is `parseLoop_render`: the
loop cuts `render gs ++ rest` at the segment boundaries and adds up the values `segValue`
of the segments, each computed from its own bytes only, stopping with `invalid orig` at the
first segment or partial sum that does not fit an `int64` (`sumFrom`).  From it:

* `parseDuration_language_and_value`: `ParseDuration` never panics, accepts only strings of
  the language, and on strings without `'.'` returns `sign * Σ vᵢ uᵢ` exactly when the sum
  fits an `int64`;
* `parseDuration_concat`: on two sign-free segment strings, `ParseDuration` of the
  concatenation succeeds exactly when both parts do and their sum fits, and returns the sum.
-/

namespace Duration

/-! ## Segments and signs -/

/-- A segment `num unit` of a duration string: digits `int`, an optional `'.'` with digits
`frac`, at least one digit in all, and a unit of `unitMap`. -/
structure Segment where
  int : List UInt8
  frac : Option (List UInt8)
  unit : List UInt8
  int_digits : ∀ c ∈ int, isDigit c
  frac_digits : ∀ c ∈ frac.getD [], isDigit c
  has_digit : int ≠ [] ∨ frac.getD [] ≠ []
  unit_known : (unitMap.lookup unit).isSome

/-- The bytes of a segment. -/
def Segment.bytes (g : Segment) : List UInt8 := g.int ++ fracPart g.frac ++ g.unit

/-- The bytes of a sequence of segments. -/
def render (gs : List Segment) : List UInt8 := (gs.map Segment.bytes).flatten

/-- The optional sign `[+-]?`. -/
inductive Sign where
  | none
  | plus
  | minus
  deriving DecidableEq, Repr

/-- The bytes of a sign. -/
def Sign.bytes : Sign → List UInt8
  | .none => []
  | .plus => [0x2B]
  | .minus => [0x2D]

/-- A value with the sign applied. -/
def Sign.apply : Sign → Int → Int
  | .minus, d => -d
  | _, d => d

/-- The language `[+-]? ( "0" | seg+ )`. -/
def InDurationLanguage (s : List UInt8) : Prop :=
  ∃ sg : Sign, s = sg.bytes ++ [0x30] ∨ ∃ g gs, s = sg.bytes ++ render (g :: gs)

/-- The value of a unit in nanoseconds. -/
def unitNanos (u : List UInt8) : Int := (unitMap.lookup u).getD 0

/-- The value `v * u` of a segment without fraction: its digits read as an unbounded
integer, times its unit. -/
def Segment.nanos (g : Segment) : Int := digitsFrom 0 g.int * unitNanos g.unit

@[simp] theorem render_nil : render [] = [] := rfl

@[simp] theorem render_cons (g : Segment) (gs : List Segment) :
    render (g :: gs) = g.bytes ++ render gs := rfl

theorem render_append (as bs : List Segment) : render (as ++ bs) = render as ++ render bs := by
  simp [render]

theorem Segment.lookup_unit (g : Segment) : unitMap.lookup g.unit = some (unitNanos g.unit) := by
  have := g.unit_known
  unfold unitNanos
  cases h : unitMap.lookup g.unit <;> simp_all

theorem Segment.unit_wf (g : Segment) :
    g.unit ≠ [] ∧ (∀ c ∈ g.unit, isUnitByte c) ∧ 0 < unitNanos g.unit :=
  unitMap_entry g.lookup_unit

theorem Segment.nanos_nonneg (g : Segment) : 0 ≤ g.nanos :=
  Int.mul_nonneg (le_digitsFrom (Int.le_refl 0) g.int_digits) (Int.le_of_lt g.unit_wf.2.2)

/-- A byte that ends a unit run is no sign. -/
theorem not_sign_of_not_unitByte {c : UInt8} (h : isUnitByte c = false) :
    ¬(c = 0x2D ∨ c = 0x2B) := by
  rintro (rfl | rfl) <;> revert h <;> decide

/-- Every segment starts with a digit or `'.'`: no unit run goes on into it. -/
theorem endsRun_bytes_append (g : Segment) (rest : List UInt8) :
    EndsRun isUnitByte (g.bytes ++ rest) := by
  rcases g with ⟨_ | ⟨c, int⟩, frac, unit, hint, -, hdig, -⟩
  · cases frac with
    | none => simp at hdig
    | some fs => simp [Segment.bytes, fracPart]; decide
  · have := (isDigit_iff c).1 (hint c (List.mem_cons_self _ _))
    simp only [Segment.bytes, List.cons_append, endsRun_cons, isUnitByte, Bool.and_eq_false_iff,
      Bool.not_eq_false', hint c (List.mem_cons_self _ _), or_true]

theorem endsRun_render_append (gs : List Segment) {rest : List UInt8}
    (hr : EndsRun isUnitByte rest) : EndsRun isUnitByte (render gs ++ rest) := by
  cases gs with
  | nil => exact hr
  | cons g gs => rw [render_cons, List.append_assoc]; exact endsRun_bytes_append g _

/-! ## One segment -/

/-- The fraction digits kept and their count, for an optional fraction. -/
def fractionOf : Option (List UInt8) → Int × Nat
  | none => (0, 0)
  | some fs => ((leadingFraction fs).1, (leadingFraction fs).2.1)

variable (fracNanos : Int → Nat → Int → Int)

/-- The value the loop computes for a segment, `none` when it overflows. -/
def segValue (g : Segment) : Option Int :=
  if digitsFrom 0 g.int ≤ 2 ^ 63 - 1 then
    (computeValue fracNanos (digitsFrom 0 g.int) (fractionOf g.frac).1 (fractionOf g.frac).2
      (unitNanos g.unit) []).toOption
  else none

/-- `parseNumber` on a segment reads its number and stops at its unit. -/
theorem parseNumber_bytes (g : Segment) (rest orig : List UInt8) :
    parseNumber (g.int ++ (fracPart g.frac ++ (g.unit ++ rest))) orig =
      if digitsFrom 0 g.int ≤ 2 ^ 63 - 1 then
        .ok (digitsFrom 0 g.int, (fractionOf g.frac).1, (fractionOf g.frac).2, g.unit ++ rest)
      else .error (.invalid orig) := by
  obtain ⟨hu, hub, -⟩ := g.unit_wf
  obtain ⟨u₀, us, hu₀⟩ := List.exists_cons_of_ne_nil hu
  have hu₀b : isUnitByte u₀ := hub u₀ (by simp [hu₀])
  have hunit : EndsRun isDigit (g.unit ++ rest) := by
    rw [hu₀]; revert hu₀b; simp [isUnitByte]
  have hX : EndsRun isDigit (fracPart g.frac ++ (g.unit ++ rest)) := by
    cases g.frac with
    | none => exact hunit
    | some fs => simp [fracPart]; decide
  obtain ⟨c, t, hct, hc⟩ : ∃ c t, g.int ++ (fracPart g.frac ++ (g.unit ++ rest)) = c :: t ∧
      (c = 0x2E ∨ isDigit c) := by
    rcases g with ⟨_ | ⟨c, int⟩, frac, unit, hint, -, hdig, -⟩
    · cases frac with
      | none => simp at hdig
      | some fs => exact ⟨_, _, rfl, Or.inl rfl⟩
    · exact ⟨c, _, rfl, Or.inr (hint c (List.mem_cons_self _ _))⟩
  have hfirst : ¬(c ≠ 0x2E ∧ (!isDigit c) = true) := by
    rcases hc with rfl | hc
    · decide
    · simp [hc]
  rw [hct]
  simp only [parseNumber]
  rw [if_neg hfirst, ← hct, leadingInt_append g.int_digits hX]
  split_ifs with hv
  · have hpre := g.has_digit
    have hlen : (g.int ++ (fracPart g.frac ++ (g.unit ++ rest))).length =
        g.int.length + (fracPart g.frac ++ (g.unit ++ rest)).length := List.length_append _ _
    cases hf : g.frac with
    | none =>
      rw [hf] at hlen hpre
      simp only [fracPart, List.nil_append, hu₀, List.cons_append] at hlen ⊢
      have : u₀ ≠ 0x2E := by rintro rfl; revert hu₀b; decide
      have hpos : 0 < g.int.length := List.length_pos.2 (by simpa using hpre)
      simp only [this, if_false, fractionOf]
      rw [if_neg (by omega)]
    | some fs =>
      rw [hf] at hlen hpre
      have hfs : ∀ c ∈ fs, isDigit c := by simpa [hf] using g.frac_digits
      simp only [fracPart, List.cons_append, if_true, leadingFraction,
        leadingFractionLoop_append hfs hunit, fractionOf] at hlen ⊢
      rw [if_neg]
      simp only [List.length_cons, List.length_append, Option.getD_some] at hlen hpre ⊢
      rw [← List.length_pos, ← List.length_pos] at hpre
      omega
  · rfl

/-- **A segment is parsed from its own bytes.**  Whatever follows it, as long as it does not
continue the unit, the loop body returns the segment's value and leaves the rest. -/
theorem parseSegment_bytes (g : Segment) {rest : List UInt8} (orig : List UInt8)
    (hr : EndsRun isUnitByte rest) :
    parseSegment fracNanos (g.bytes ++ rest) orig =
      match segValue fracNanos g with
      | some v => .ok (v, rest)
      | none => .error (.invalid orig) := by
  have hs : g.bytes ++ rest = g.int ++ (fracPart g.frac ++ (g.unit ++ rest)) := by
    simp [Segment.bytes]
  rw [hs, parseSegment, parseNumber_bytes, segValue]
  split_ifs
  · simp only [parseUnit_append g.lookup_unit hr]
    rw [computeValue_orig fracNanos _ _ _ _ orig []]
    cases (computeValue fracNanos _ _ _ _ []).toOption <;> rfl
  · rfl

theorem segValue_bounds {g : Segment} {v : Int} (h : segValue fracNanos g = some v) :
    0 ≤ v ∧ v ≤ 2 ^ 63 - 1 := by
  unfold segValue at h
  split_ifs at h
  cases hc : computeValue fracNanos _ _ _ _ [] <;> rw [hc] at h <;> cases h
  exact computeValue_bounds fracNanos (le_digitsFrom (Int.le_refl 0) g.int_digits)
    g.unit_wf.2.2 hc

/-- Without a fraction, a segment's value is `v * u` when it fits an `int64`. -/
theorem segValue_of_frac_none {g : Segment} (hf : g.frac = none) :
    segValue fracNanos g = if g.nanos ≤ 2 ^ 63 - 1 then some g.nanos else none := by
  have hv := le_digitsFrom (Int.le_refl 0) g.int_digits
  have hu := g.unit_wf.2.2
  unfold segValue Segment.nanos
  rw [hf]
  split_ifs with h₁ h₂ h₂
  · rw [fractionOf, computeValue_of_frac_zero fracNanos [] hv hu, if_pos h₂]; rfl
  · rw [fractionOf, computeValue_of_frac_zero fracNanos [] hv hu, if_neg h₂]; rfl
  · nlinarith
  · rfl

/-! ## The loop over segments -/

/-- The running total of the loop over segments from `d`, `none` at the first segment or
partial sum that overflows. -/
def sumFrom (d : Int) : List Segment → Option Int
  | [] => some d
  | g :: gs =>
    match segValue fracNanos g with
    | none => none
    | some v => if d + v ≤ 2 ^ 63 - 1 then sumFrom (d + v) gs else none

/-- **The loop cuts at segment boundaries.**  On `render gs ++ rest`, the loop of
`ParseDuration` runs through the segments of `gs`, adding their values, and goes on with
`rest`; it fails with `invalid orig` at the first overflow. -/
theorem parseLoop_render (orig : List UInt8) (gs : List Segment) {d : Int}
    {rest : List UInt8} (hd₀ : 0 ≤ d) (hd₁ : d ≤ 2 ^ 63 - 1) (hr : EndsRun isUnitByte rest) :
    parseLoop fracNanos orig d (render gs ++ rest) =
      match sumFrom fracNanos d gs with
      | some d' => parseLoop fracNanos orig d' rest
      | none => .error (.invalid orig) := by
  induction gs generalizing d with
  | nil => rfl
  | cons g gs ih =>
    have hne : g.bytes ++ (render gs ++ rest) ≠ [] := by simp [Segment.bytes, g.unit_wf.1]
    have hseg := parseSegment_bytes fracNanos g orig (endsRun_render_append gs hr)
    rw [render_cons, List.append_assoc, sumFrom]
    cases hv : segValue fracNanos g with
    | none => rw [hv] at hseg; exact parseLoop_of_error fracNanos hne hseg
    | some v =>
      rw [hv] at hseg
      dsimp only at hseg ⊢
      obtain ⟨hv₀, hv₁⟩ := segValue_bounds fracNanos hv
      rw [parseLoop_of_ok fracNanos hne hseg]
      by_cases hfit : d + v ≤ 2 ^ 63 - 1
      · rw [wrap64_of_le (by omega) hfit, if_neg (by omega), if_pos hfit]
        exact ih (by omega) hfit
      · rw [if_pos (wrap64_neg (by omega) (by omega)), if_neg hfit]

/-- **What the loop body accepts** is a segment. -/
theorem parseSegment_sound {s orig rem : List UInt8} {value : Int}
    (h : parseSegment fracNanos s orig = .ok (value, rem)) : ∃ g : Segment, s = g.bytes ++ rem := by
  unfold parseSegment at h
  split at h; · cases h
  rename_i v f k s₂ hn
  split at h; · cases h
  rename_i unit rem' hu
  split at h <;> cases h
  obtain ⟨int, frac, hint, hfrac, hdig, rfl⟩ := parseNumber_sound hn
  obtain ⟨u, hlu, rfl⟩ := parseUnit_sound hu
  exact ⟨⟨int, frac, u, hint, hfrac, hdig, by simp [hlu]⟩, by simp [Segment.bytes]⟩

/-- **What the loop accepts** is a sequence of segments. -/
theorem parseLoop_sound {orig s : List UInt8} {d r : Int}
    (h : parseLoop fracNanos orig d s = .ok r) : ∃ gs, s = render gs := by
  induction d, s using parseLoop.induct fracNanos orig with
  | case1 d => exact ⟨[], rfl⟩
  | case2 d s hs e he => rw [parseLoop_of_error fracNanos hs he] at h; cases h
  | case3 d s hs v rem hseg _ hneg =>
    rw [parseLoop_of_ok fracNanos hs hseg, if_pos hneg] at h; cases h
  | case4 d s hs v rem hseg _ hpos ih =>
    rw [parseLoop_of_ok fracNanos hs hseg, if_neg hpos] at h
    obtain ⟨gs, rfl⟩ := ih h
    obtain ⟨g, rfl⟩ := parseSegment_sound fracNanos hseg
    exact ⟨g :: gs, rfl⟩

/-! ## Sums of segment values -/

theorem sumFrom_bounds {d t : Int} {gs : List Segment} (h₀ : 0 ≤ d) (h₁ : d ≤ 2 ^ 63 - 1)
    (h : sumFrom fracNanos d gs = some t) : d ≤ t ∧ t ≤ 2 ^ 63 - 1 := by
  induction gs generalizing d with
  | nil => cases h; omega
  | cons g gs ih =>
    simp only [sumFrom] at h
    cases hv : segValue fracNanos g with
    | none => rw [hv] at h; cases h
    | some v =>
      rw [hv] at h
      dsimp only at h
      obtain ⟨hv₀, -⟩ := segValue_bounds fracNanos hv
      split_ifs at h with hfit
      have := ih (by omega) hfit h; omega

theorem sumFrom_append (d : Int) (as bs : List Segment) :
    sumFrom fracNanos d (as ++ bs) = (sumFrom fracNanos d as).bind (sumFrom fracNanos · bs) := by
  induction as generalizing d with
  | nil => rfl
  | cons g as ih =>
    simp only [List.cons_append, sumFrom]
    cases segValue fracNanos g with
    | none => rfl
    | some v => dsimp only; split_ifs <;> simp [ih]

/-- Starting from `d` is starting from zero and adding `d` at the end, with one more
overflow check: the partial sums only grow. -/
theorem sumFrom_eq_bind {d : Int} (h₀ : 0 ≤ d) (h₁ : d ≤ 2 ^ 63 - 1) (gs : List Segment) :
    sumFrom fracNanos d gs = (sumFrom fracNanos 0 gs).bind
      fun t => if d + t ≤ 2 ^ 63 - 1 then some (d + t) else none := by
  induction gs generalizing d with
  | nil => simp only [sumFrom, Option.some_bind, Int.add_zero, if_pos h₁]
  | cons g gs ih =>
    simp only [sumFrom]
    cases hv : segValue fracNanos g with
    | none => rfl
    | some v =>
      obtain ⟨hv₀, hv₁⟩ := segValue_bounds fracNanos hv
      dsimp only
      rw [if_pos (by omega : 0 + v ≤ 2 ^ 63 - 1), Int.zero_add, ih hv₀ hv₁]
      by_cases hfit : d + v ≤ 2 ^ 63 - 1
      · rw [if_pos hfit, ih (by omega) hfit]
        cases ht : sumFrom fracNanos 0 gs with
        | none => rfl
        | some t =>
          have ht₀ := (sumFrom_bounds fracNanos (Int.le_refl 0) (by omega) ht).1
          simp only [Option.some_bind]
          by_cases h₃ : v + t ≤ 2 ^ 63 - 1
          · rw [if_pos h₃, Option.some_bind, Int.add_assoc]
          · rw [if_neg h₃, Option.none_bind, if_neg (by omega)]
      · rw [if_neg hfit]
        cases ht : sumFrom fracNanos 0 gs with
        | none => rfl
        | some t =>
          have ht₀ := (sumFrom_bounds fracNanos (Int.le_refl 0) (by omega) ht).1
          simp only [Option.some_bind]
          by_cases h₃ : v + t ≤ 2 ^ 63 - 1
          · rw [if_pos h₃, Option.some_bind, if_neg (by omega)]
          · rw [if_neg h₃, Option.none_bind]

theorem sum_nanos_nonneg (gs : List Segment) : 0 ≤ (gs.map Segment.nanos).sum := by
  induction gs with
  | nil => simp
  | cons g gs ih => have := g.nanos_nonneg; simp only [List.map_cons, List.sum_cons]; omega

/-- Without fractions, the loop's total is the exact sum `Σ vᵢ uᵢ`, when it fits. -/
theorem sumFrom_of_frac_none {d : Int} (h₀ : 0 ≤ d) (h₁ : d ≤ 2 ^ 63 - 1) {gs : List Segment}
    (hgs : ∀ g ∈ gs, g.frac = none) :
    sumFrom fracNanos d gs =
      if d + (gs.map Segment.nanos).sum ≤ 2 ^ 63 - 1 then some (d + (gs.map Segment.nanos).sum)
      else none := by
  induction gs generalizing d with
  | nil => simp only [sumFrom, List.map_nil, List.sum_nil, Int.add_zero, if_pos h₁]
  | cons g gs ih =>
    simp only [List.mem_cons, forall_eq_or_imp] at hgs
    have hn := g.nanos_nonneg
    have hs := sum_nanos_nonneg gs
    simp only [sumFrom, segValue_of_frac_none fracNanos hgs.1, List.map_cons, List.sum_cons]
    by_cases hg : g.nanos ≤ 2 ^ 63 - 1
    · rw [if_pos hg]
      dsimp only
      by_cases hfit : d + g.nanos ≤ 2 ^ 63 - 1
      · rw [if_pos hfit, ih (by omega) hfit hgs.2, Int.add_assoc]
      · rw [if_neg hfit, if_neg (by omega)]
    · rw [if_neg hg, if_neg (by omega)]

/-! ## `ParseDuration` -/

/-- The sign that `consumeSign` takes off. -/
theorem consumeSign_spec (s : List UInt8) : ∃ sg : Sign, s = sg.bytes ++ (consumeSign s).2 := by
  match s with
  | [] => exact ⟨.none, rfl⟩
  | c :: t =>
    simp only [consumeSign]
    split_ifs with h
    · rcases h with rfl | rfl
      · exact ⟨.minus, rfl⟩
      · exact ⟨.plus, rfl⟩
    · exact ⟨.none, rfl⟩

theorem consumeSign_append (sg : Sign) {body : List UInt8} (hb : EndsRun isUnitByte body) :
    consumeSign (sg.bytes ++ body) = (decide (sg = .minus), body) := by
  cases sg with
  | none =>
    cases body with
    | nil => rfl
    | cons c t => simp [Sign.bytes, consumeSign, not_sign_of_not_unitByte hb]
  | plus => rfl
  | minus => rfl

theorem render_ne_zero (g : Segment) (gs : List Segment) : render (g :: gs) ≠ [0x30] := by
  obtain ⟨hu, hub, -⟩ := g.unit_wf
  obtain ⟨u₀, us, hu₀⟩ := List.exists_cons_of_ne_nil hu
  intro h
  have hmem : u₀ ∈ render (g :: gs) := by simp [Segment.bytes, hu₀]
  rw [h, List.mem_singleton] at hmem
  have := hub u₀ (by simp [hu₀])
  rw [hmem] at this
  revert this; decide

/-- **`ParseDuration` of a signed segment string** is the signed total of the loop, or
`invalid` at the first overflow. -/
theorem parseDuration_render (sg : Sign) (g : Segment) (gs : List Segment) :
    parseDuration fracNanos (sg.bytes ++ render (g :: gs)) =
      match sumFrom fracNanos 0 (g :: gs) with
      | some d => .ok (sg.apply d)
      | none => .error (.invalid (sg.bytes ++ render (g :: gs))) := by
  have hb := endsRun_render_append (g :: gs) (endsRun_nil isUnitByte)
  have hloop := parseLoop_render fracNanos (sg.bytes ++ render (g :: gs)) (g :: gs)
    (Int.le_refl 0) (by omega) (endsRun_nil isUnitByte)
  rw [List.append_nil] at hb hloop
  have hne : render (g :: gs) ≠ [] := by simp [Segment.bytes, g.unit_wf.1]
  simp only [parseDuration, consumeSign_append sg hb, if_neg (render_ne_zero g gs), if_neg hne,
    hloop]
  cases hs : sumFrom fracNanos 0 (g :: gs) with
  | none => rfl
  | some d =>
    obtain ⟨h₀, h₁⟩ := sumFrom_bounds fracNanos (Int.le_refl 0) (by omega) hs
    cases sg <;> simp [Sign.apply, wrap64_of_le (x := -d) (by omega) (by omega)]

theorem parseDuration_render_iff (g : Segment) (gs : List Segment) (d : Int) :
    parseDuration fracNanos (render (g :: gs)) = .ok d ↔ sumFrom fracNanos 0 (g :: gs) = some d := by
  have := parseDuration_render fracNanos .none g gs
  rw [Sign.bytes, List.nil_append] at this
  rw [this]
  cases sumFrom fracNanos 0 (g :: gs) <;> simp [Sign.apply]

theorem parseDuration_ne_panic (s : List UInt8) : parseDuration fracNanos s ≠ .error .indexPanic := by
  intro h
  simp only [parseDuration] at h
  by_cases h0 : (consumeSign s).2 = [0x30]
  · rw [if_pos h0] at h; cases h
  by_cases h1 : (consumeSign s).2 = []
  · rw [if_neg h0, if_pos h1] at h; cases h
  rw [if_neg h0, if_neg h1] at h
  split at h
  · cases h; exact parseLoop_ne_panic fracNanos _ _ _ ‹_›
  · cases h

/-- **`ParseDuration` accepts only the language.** -/
theorem parseDuration_sound {s : List UInt8} {d : Int} (h : parseDuration fracNanos s = .ok d) :
    InDurationLanguage s := by
  obtain ⟨sg, hsg⟩ := consumeSign_spec s
  refine ⟨sg, ?_⟩
  simp only [parseDuration] at h
  by_cases h0 : (consumeSign s).2 = [0x30]
  · left; rw [hsg, h0]
  by_cases h1 : (consumeSign s).2 = []
  · rw [if_neg h0, if_pos h1] at h; cases h
  rw [if_neg h0, if_neg h1] at h
  split at h; · cases h
  obtain ⟨gs, hgs⟩ := parseLoop_sound fracNanos ‹_›
  cases gs with
  | nil => exact absurd hgs h1
  | cons g gs => exact Or.inr ⟨g, gs, hgs ▸ hsg⟩

theorem parseDuration_zero (sg : Sign) : parseDuration fracNanos (sg.bytes ++ [0x30]) = .ok 0 := by
  simp only [parseDuration,
    @consumeSign_append sg [0x30] (show isUnitByte 0x30 = false by decide), if_true]

/-- **`ParseDuration` never panics, accepts only the language, and is exact on segments
without fraction.**  Its result on `sign ++ "0"` is zero; on `sign ++ seg₁ ⋯ segₙ` with no
`'.'` it is `sign * Σ vᵢ uᵢ` when the sum fits an `int64`, and `invalid` otherwise. -/
theorem parseDuration_language_and_value :
    (∀ s, parseDuration fracNanos s ≠ .error .indexPanic) ∧
    (∀ s d, parseDuration fracNanos s = .ok d → InDurationLanguage s) ∧
    (∀ sg : Sign, parseDuration fracNanos (sg.bytes ++ [0x30]) = .ok 0) ∧
    (∀ (sg : Sign) (g : Segment) (gs : List Segment), (∀ x ∈ g :: gs, x.frac = none) →
      parseDuration fracNanos (sg.bytes ++ render (g :: gs)) =
        if ((g :: gs).map Segment.nanos).sum ≤ 2 ^ 63 - 1 then
          .ok (sg.apply ((g :: gs).map Segment.nanos).sum)
        else .error (.invalid (sg.bytes ++ render (g :: gs)))) := by
  refine ⟨parseDuration_ne_panic fracNanos, fun _ _ => parseDuration_sound fracNanos,
    parseDuration_zero fracNanos, fun sg g gs hf => ?_⟩
  rw [parseDuration_render, sumFrom_of_frac_none fracNanos (Int.le_refl 0) (by omega) hf,
    Int.zero_add]
  split_ifs <;> rfl

/-- **Concatenation adds.**  For two non-empty sign-free segment strings, `ParseDuration` of
their concatenation succeeds exactly when both parts succeed and their sum fits an `int64`,
and then returns the sum. -/
theorem parseDuration_concat (g₁ g₂ : Segment) (gs₁ gs₂ : List Segment) (d : Int) :
    parseDuration fracNanos (render (g₁ :: gs₁) ++ render (g₂ :: gs₂)) = .ok d ↔
      ∃ d₁ d₂, parseDuration fracNanos (render (g₁ :: gs₁)) = .ok d₁ ∧
        parseDuration fracNanos (render (g₂ :: gs₂)) = .ok d₂ ∧
        d₁ + d₂ ≤ 2 ^ 63 - 1 ∧ d = d₁ + d₂ := by
  rw [← render_append, List.cons_append, parseDuration_render_iff, ← List.cons_append,
    sumFrom_append]
  simp only [parseDuration_render_iff]
  constructor
  · intro h
    obtain ⟨d₁, h₁, h₂⟩ := Option.bind_eq_some.1 h
    obtain ⟨b₀, b₁⟩ := sumFrom_bounds fracNanos (Int.le_refl 0) (by omega) h₁
    rw [sumFrom_eq_bind fracNanos (by omega) b₁] at h₂
    obtain ⟨d₂, h₃, h₄⟩ := Option.bind_eq_some.1 h₂
    split_ifs at h₄ with hfit
    cases h₄
    exact ⟨d₁, d₂, h₁, h₃, hfit, rfl⟩
  · rintro ⟨d₁, d₂, h₁, h₂, hfit, rfl⟩
    obtain ⟨b₀, b₁⟩ := sumFrom_bounds fracNanos (Int.le_refl 0) (by omega) h₁
    rw [h₁, Option.some_bind, sumFrom_eq_bind fracNanos (by omega) b₁, h₂, Option.some_bind,
      if_pos hfit]

/-! ## The sign and the range of the result -/

/-- **`ParseDuration` never returns `math.MinInt64`.**  Every value it returns lies in
`[-(2^63 - 1), 2^63 - 1]`: the loop keeps its total in `[0, 2^63 - 1]`, so that negating it
cannot wrap, and `"-9223372036854775808ns"` is out of range. -/
theorem parseDuration_bounds {s : List UInt8} {d : Int} (h : parseDuration fracNanos s = .ok d) :
    -(2 ^ 63 - 1) ≤ d ∧ d ≤ 2 ^ 63 - 1 := by
  obtain ⟨sg, hs | ⟨g, gs, hs⟩⟩ := parseDuration_sound fracNanos h
  · rw [hs, parseDuration_zero] at h
    cases h
    omega
  · rw [hs, parseDuration_render] at h
    cases he : sumFrom fracNanos 0 (g :: gs) with
    | none => rw [he] at h; cases h
    | some e =>
      rw [he] at h
      cases h
      obtain ⟨h₀, h₁⟩ := sumFrom_bounds fracNanos (Int.le_refl 0) (by omega) he
      cases sg <;> simp only [Sign.apply] <;> omega

/-- The segment `1h`. -/
def oneHour : Segment := ⟨[0x31], none, [0x68], by decide, by decide, by decide, by decide⟩

theorem parseDuration_bounds_minus_hour :
    parseDuration (fun _ _ _ => 0) (Sign.minus.bytes ++ render [oneHour]) = .ok (-3600000000000) ∧
      -(2 ^ 63 - 1) ≤ (-3600000000000 : Int) ∧ (-3600000000000 : Int) ≤ 2 ^ 63 - 1 :=
  have h : parseDuration (fun _ _ _ => 0) (Sign.minus.bytes ++ render [oneHour]) =
      .ok (-3600000000000) := by
    rw [parseDuration_render, show sumFrom (fun _ _ _ => 0) 0 [oneHour] = some 3600000000000 by
      decide]
    rfl
  ⟨h, parseDuration_bounds _ h⟩

end Duration
