import Mathlib.Data.List.Basic
import Mathlib.Algebra.Group.Int

/-!
# `tabletest.ParseDuration`

`ParseDuration` (`tabletest/parse_duration.go`) reads an optional sign and then, segment by
segment, a number (`parseNumber`, with `leadingInt` and `leadingFraction`), a unit
(`parseUnit`) and the segment's value in nanoseconds (`computeValue`), adding each value to
the running total `d`.  Strings are byte lists; `int64` values are integers, and every `int64`
operation that can overflow wraps around through `wrap64`, so that the code's `x < 0`
overflow checks mean what they mean in Go.

Two things are left as parameters or simplified:

* the fraction term `int64(float64(f) * (float64(unit) / scale))` of `computeValue` is a
  floating-point computation; it is the parameter `fracNanos f k unit`, where `scale` is
  `10 ^ k` (the loop of `leadingFraction` multiplies `scale` by ten once per digit it keeps,
  so `scale` is a function of the count `k`);
* `errLeadingInt` is never printed (`parseNumber` replaces it), so `leadingInt` returns
  `none` for it.

Each function gets the lemma its callers need: `leadingInt` reads the maximal run of digits
and fails exactly when their value exceeds `2^63 - 1` (`leadingIntLoop_append`),
`leadingFraction` reads the run of digits and ignores what follows
(`leadingFractionLoop_append`), `parseUnit` reads a maximal run of unit bytes
(`parseUnit_append`, `parseUnit_sound`), `computeValue` returns a value in `[0, 2^63 - 1]`
and fails only with `invalid orig`.
-/

namespace Duration

/-! ## Bytes, runs and `int64` -/

/-- `'0' <= c && c <= '9'`. -/
def isDigit (c : UInt8) : Bool := 0x30 ≤ c.toNat && c.toNat ≤ 0x39

/-- A byte that `parseUnit` takes into a unit: neither `.` nor a digit. -/
def isUnitByte (c : UInt8) : Bool := c ≠ 0x2E && !isDigit c

/-- `rest` is empty or starts with a byte outside `p`: a run of `p`-bytes cannot go on
into it. -/
def EndsRun (p : UInt8 → Bool) : List UInt8 → Prop
  | [] => True
  | c :: _ => p c = false

/-- The two's-complement wrap-around of `int64` arithmetic. -/
def wrap64 (x : Int) : Int := (x + 2 ^ 63) % 2 ^ 64 - 2 ^ 63

theorem wrap64_of_le {x : Int} (h₀ : -2 ^ 63 ≤ x) (h₁ : x ≤ 2 ^ 63 - 1) : wrap64 x = x := by
  unfold wrap64; omega

theorem wrap64_neg {x : Int} (h₀ : 2 ^ 63 ≤ x) (h₁ : x < 2 ^ 64) : wrap64 x < 0 := by
  unfold wrap64; omega

theorem wrap64_le (x : Int) : wrap64 x ≤ 2 ^ 63 - 1 := by
  unfold wrap64; omega

theorem maxInt64_tdiv_ten : (2 ^ 63 - 1 : Int).tdiv 10 = 922337203685477580 := by decide

theorem isDigit_iff (c : UInt8) : isDigit c ↔ 0x30 ≤ c.toNat ∧ c.toNat ≤ 0x39 := by
  simp [isDigit]

@[simp] theorem endsRun_nil (p : UInt8 → Bool) : EndsRun p [] := trivial

@[simp] theorem endsRun_cons (p : UInt8 → Bool) (c : UInt8) (s : List UInt8) :
    EndsRun p (c :: s) ↔ p c = false := Iff.rfl

theorem endsRun_dropWhile (p : UInt8 → Bool) (s : List UInt8) : EndsRun p (s.dropWhile p) := by
  induction s with
  | nil => trivial
  | cons c s ih => by_cases h : p c <;> simp_all [List.dropWhile_cons]

/-- A run of `p`-bytes followed by what ends it: `takeWhile` stops at the join. -/
theorem takeWhile_append_of_endsRun {p : UInt8 → Bool} {ds rest : List UInt8}
    (hds : ∀ c ∈ ds, p c) (hr : EndsRun p rest) : (ds ++ rest).takeWhile p = ds := by
  induction ds with
  | nil => cases rest <;> simp_all [List.takeWhile_cons]
  | cons c ds ih => simp_all [List.takeWhile_cons]

theorem dropWhile_append_of_endsRun {p : UInt8 → Bool} {ds rest : List UInt8}
    (hds : ∀ c ∈ ds, p c) (hr : EndsRun p rest) : (ds ++ rest).dropWhile p = rest := by
  induction ds with
  | nil => cases rest <;> simp_all [List.dropWhile_cons]
  | cons c ds ih => simp_all [List.dropWhile_cons]

/-! ## The model -/

/-- The errors of `ParseDuration`, by the text `errors.New` is given. -/
inductive DurationError where
  /-- `"time: invalid duration " + orig` -/
  | invalid (orig : List UInt8)
  /-- `"time: missing unit in duration " + orig` -/
  | missingUnit (orig : List UInt8)
  /-- `"time: unknown unit " + u + " in duration " + orig` -/
  | unknownUnit (u orig : List UInt8)
  /-- Not an error value: the runtime panic of `s[0]` in `parseNumber` on an empty `s`. -/
  | indexPanic
  deriving DecidableEq, Repr

/-- The text of each error (the panic's is the runtime's message). -/
def DurationError.message : DurationError → List UInt8
  | .invalid orig => "time: invalid duration ".toUTF8.toList ++ orig
  | .missingUnit orig => "time: missing unit in duration ".toUTF8.toList ++ orig
  | .unknownUnit u orig =>
    "time: unknown unit ".toUTF8.toList ++ u ++ " in duration ".toUTF8.toList ++ orig
  | .indexPanic => "runtime error: index out of range [0] with length 0".toUTF8.toList

/-- The loop of `leadingInt(s)` with accumulator `x`; `none` is `errLeadingInt`. -/
def leadingIntLoop (x : Int) : List UInt8 → Option (Int × List UInt8)
  | [] => some (x, [])
  | c :: s =>
    if !isDigit c then some (x, c :: s)
    else if x > (2 ^ 63 - 1 : Int).tdiv 10 then none
    else
      let x := wrap64 (x * 10 + c.toNat - 0x30)
      if x < 0 then none else leadingIntLoop x s

/-- `leadingInt(s)`: the leading `[0-9]*` of `s` as an `int64`, and the rest. -/
def leadingInt (s : List UInt8) : Option (Int × List UInt8) := leadingIntLoop 0 s

/-- The loop of `leadingFraction(s)`: the accumulator `x`, the number `k` of digits kept
(`scale` is `10 ^ k`) and the flag `overflow`. -/
def leadingFractionLoop (x : Int) (k : Nat) (overflow : Bool) :
    List UInt8 → Int × Nat × List UInt8
  | [] => (x, k, [])
  | c :: s =>
    if !isDigit c then (x, k, c :: s)
    else if overflow then leadingFractionLoop x k overflow s
    else if x > (2 ^ 63 - 1 : Int).tdiv 10 then leadingFractionLoop x k true s
    else
      let y := wrap64 (x * 10 + c.toNat - 0x30)
      if y < 0 then leadingFractionLoop x k true s
      else leadingFractionLoop y (k + 1) overflow s

/-- `leadingFraction(s)`: the digits kept, their count (the exponent of `scale`), the rest. -/
def leadingFraction (s : List UInt8) : Int × Nat × List UInt8 := leadingFractionLoop 0 0 false s

/-- `parseNumber(s, orig)`: the integer part `v`, the fraction `f` with the exponent `k` of
its `scale`, and the rest of `s`. -/
def parseNumber (s orig : List UInt8) : Except DurationError (Int × Int × Nat × List UInt8) :=
  match s with
  | [] => .error .indexPanic
  | c :: _ =>
    if c ≠ 0x2E ∧ !isDigit c then .error (.invalid orig)
    else
      match leadingInt s with
      | none => .error (.invalid orig)
      | some (v, s₁) =>
        let pre := s₁.length ≠ s.length
        match s₁ with
        | c :: t =>
          if c = 0x2E then
            let (f, k, s₂) := leadingFraction t
            let post := s₂.length ≠ t.length
            if ¬pre ∧ ¬post then .error (.invalid orig) else .ok (v, f, k, s₂)
          else if ¬pre then .error (.invalid orig) else .ok (v, 0, 0, s₁)
        | [] => if ¬pre then .error (.invalid orig) else .ok (v, 0, 0, [])

/-- `time.Nanosecond` … `time.Hour`. -/
def nanosecond : Int := 1
def microsecond : Int := 1000 * nanosecond
def millisecond : Int := 1000 * microsecond
def second : Int := 1000 * millisecond
def minute : Int := 60 * second
def hour : Int := 60 * minute

/-- `unitMap`: `ns`, `us`, `µs` (U+00B5), `μs` (U+03BC), `ms`, `s`, `m`, `h`. -/
def unitMap : List (List UInt8 × Int) :=
  [([0x6E, 0x73], nanosecond), ([0x75, 0x73], microsecond),
    ([0xC2, 0xB5, 0x73], microsecond), ([0xCE, 0xBC, 0x73], microsecond),
    ([0x6D, 0x73], millisecond), ([0x73], second), ([0x6D], minute), ([0x68], hour)]

/-- `parseUnit(s, orig)`: the maximal run of unit bytes, looked up in `unitMap`. -/
def parseUnit (s orig : List UInt8) : Except DurationError (Int × List UInt8) :=
  let u := s.takeWhile isUnitByte
  if u = [] then .error (.missingUnit orig)
  else
    match unitMap.lookup u with
    | none => .error (.unknownUnit u orig)
    | some unit => .ok (unit, s.dropWhile isUnitByte)

variable (fracNanos : Int → Nat → Int → Int)

/-- `computeValue(v, f, scale, unit, orig)`, with `scale = 10 ^ k` and the float term
`int64(float64(f) * (float64(unit) / scale))` given by `fracNanos f k unit`. -/
def computeValue (v f : Int) (k : Nat) (unit : Int) (orig : List UInt8) :
    Except DurationError Int :=
  if v > (2 ^ 63 - 1 : Int).tdiv unit then .error (.invalid orig)
  else
    let v := wrap64 (v * unit)
    if f > 0 then
      let v := wrap64 (v + fracNanos f k unit)
      if v < 0 then .error (.invalid orig) else .ok v
    else .ok v

/-- One pass of the loop of `ParseDuration` (lines 183–200): number, unit, value. -/
def parseSegment (s orig : List UInt8) : Except DurationError (Int × List UInt8) :=
  match parseNumber s orig with
  | .error e => .error e
  | .ok (v, f, k, s) =>
    match parseUnit s orig with
    | .error e => .error e
    | .ok (unit, rem) =>
      match computeValue fracNanos v f k unit orig with
      | .error e => .error e
      | .ok value => .ok (value, rem)

/-! ## `leadingInt` and `leadingFraction` -/

/-- The value of the digits `ds` appended to the accumulator `x`, as an unbounded integer. -/
def digitsFrom (x : Int) (ds : List UInt8) : Int :=
  ds.foldl (fun x c => x * 10 + c.toNat - 0x30) x

@[simp] theorem digitsFrom_nil (x : Int) : digitsFrom x [] = x := rfl

@[simp] theorem digitsFrom_cons (x : Int) (c : UInt8) (ds : List UInt8) :
    digitsFrom x (c :: ds) = digitsFrom (x * 10 + c.toNat - 0x30) ds := rfl

theorem le_digitsFrom {x : Int} {ds : List UInt8} (hx : 0 ≤ x) (hds : ∀ c ∈ ds, isDigit c) :
    x ≤ digitsFrom x ds := by
  induction ds generalizing x with
  | nil => simp
  | cons c ds ih =>
    simp only [List.mem_cons, forall_eq_or_imp] at hds
    have hc := (isDigit_iff c).1 hds.1
    have := ih (x := x * 10 + c.toNat - 0x30) (by omega) hds.2
    simp only [digitsFrom_cons]; omega

/-- **`leadingInt` reads a maximal run of digits.**  From an accumulator in range, it
returns the value of the run and what follows it, and fails exactly when that value exceeds
`2^63 - 1`. -/
theorem leadingIntLoop_append {x : Int} {ds rest : List UInt8} (hx₀ : 0 ≤ x)
    (hx₁ : x ≤ 2 ^ 63 - 1) (hds : ∀ c ∈ ds, isDigit c) (hr : EndsRun isDigit rest) :
    leadingIntLoop x (ds ++ rest) =
      if digitsFrom x ds ≤ 2 ^ 63 - 1 then some (digitsFrom x ds, rest) else none := by
  induction ds generalizing x with
  | nil => cases rest <;> simp_all [leadingIntLoop]
  | cons c ds ih =>
    simp only [List.mem_cons, forall_eq_or_imp] at hds
    have hc := (isDigit_iff c).1 hds.1
    have hge := le_digitsFrom (x := x * 10 + c.toNat - 0x30) (by omega) hds.2
    simp only [List.cons_append, leadingIntLoop, hds.1, Bool.not_true, Bool.false_eq_true,
      if_false, maxInt64_tdiv_ten, digitsFrom_cons]
    by_cases hbig : x > 922337203685477580
    · rw [if_pos hbig, if_neg (by omega)]
    · by_cases hfit : x * 10 + c.toNat - 0x30 ≤ 2 ^ 63 - 1
      · rw [if_neg hbig, wrap64_of_le (by omega) hfit, if_neg (by omega)]
        exact ih (by omega) hfit hds.2
      · rw [if_neg hbig, if_pos (wrap64_neg (by omega) (by omega)), if_neg (by omega)]

theorem leadingInt_append {ds rest : List UInt8} (hds : ∀ c ∈ ds, isDigit c)
    (hr : EndsRun isDigit rest) :
    leadingInt (ds ++ rest) =
      if digitsFrom 0 ds ≤ 2 ^ 63 - 1 then some (digitsFrom 0 ds, rest) else none :=
  leadingIntLoop_append (Int.le_refl 0) (by omega) hds hr

/-- On success `leadingInt` stops at the end of the run of digits. -/
theorem leadingInt_rest {s s₁ : List UInt8} {v : Int} (h : leadingInt s = some (v, s₁)) :
    s₁ = s.dropWhile isDigit := by
  rw [← List.takeWhile_append_dropWhile isDigit s,
    leadingInt_append (fun c hc => List.mem_takeWhile_imp hc) (endsRun_dropWhile _ _)] at h
  split at h <;> cases h
  exact (List.takeWhile_append_dropWhile isDigit s).symm ▸ rfl

/-- `leadingFraction` reads the run of digits and leaves what follows untouched. -/
theorem leadingFractionLoop_append {x : Int} {k : Nat} {o : Bool} {ds rest : List UInt8}
    (hds : ∀ c ∈ ds, isDigit c) (hr : EndsRun isDigit rest) :
    leadingFractionLoop x k o (ds ++ rest) =
      ((leadingFractionLoop x k o ds).1, (leadingFractionLoop x k o ds).2.1, rest) := by
  induction ds generalizing x k o with
  | nil => cases rest <;> simp_all [leadingFractionLoop]
  | cons c ds ih =>
    simp only [List.mem_cons, forall_eq_or_imp] at hds
    simp only [List.cons_append, leadingFractionLoop, hds.1, Bool.not_true, Bool.false_eq_true,
      if_false]
    split_ifs <;> exact ih hds.2

theorem leadingFraction_rest (s : List UInt8) :
    (leadingFraction s).2.2 = s.dropWhile isDigit := by
  conv_lhs => rw [← List.takeWhile_append_dropWhile isDigit s]
  rw [leadingFraction, leadingFractionLoop_append (fun c hc => List.mem_takeWhile_imp hc)
    (endsRun_dropWhile _ _)]

/-- `leadingInt` on any string: the value of its leading run of digits and what follows the
run, or `errLeadingInt` when that value exceeds `2^63 - 1`. -/
theorem leadingInt_eq (s : List UInt8) :
    leadingInt s = if digitsFrom 0 (s.takeWhile isDigit) ≤ 2 ^ 63 - 1 then
      some (digitsFrom 0 (s.takeWhile isDigit), s.dropWhile isDigit) else none := by
  conv_lhs => rw [← List.takeWhile_append_dropWhile isDigit s]
  exact leadingInt_append (fun c hc => List.mem_takeWhile_imp hc) (endsRun_dropWhile _ _)

/-- Once `overflow` is set, `leadingFraction` only skips the digits. -/
theorem leadingFractionLoop_overflow (x : Int) (k : Nat) {ds : List UInt8}
    (hds : ∀ c ∈ ds, isDigit c) : leadingFractionLoop x k true ds = (x, k, []) := by
  induction ds with
  | nil => rfl
  | cons c ds ih =>
    simp only [List.mem_cons, forall_eq_or_imp] at hds
    simp only [leadingFractionLoop, hds.1, Bool.not_true, Bool.false_eq_true, if_false, if_true]
    exact ih hds.2

/-- A digit after an accumulator above `(2^63 - 1) / 10`, or one that takes it past
`2^63 - 1`, leaves no prefix starting with it in range. -/
theorem digitsFrom_cons_gt {x : Int} {c : UInt8} {q : List UInt8} (hc : isDigit c)
    (hq : ∀ d ∈ q, isDigit d) (hbig : 2 ^ 63 - 1 < x * 10 + c.toNat - 0x30) :
    2 ^ 63 - 1 < digitsFrom x (c :: q) := by
  have := (isDigit_iff c).1 hc
  have := le_digitsFrom (x := x * 10 + c.toNat - 0x30) (by omega) hq
  rw [digitsFrom_cons]; omega

/-- **`leadingFraction` keeps the longest prefix in range.**  From an accumulator in range
and with `overflow` unset, the loop over a run of digits returns the value of its longest
prefix whose value stays at most `2^63 - 1`, and counts that prefix's digits. -/
theorem leadingFractionLoop_digits {x : Int} (k : Nat) {ds : List UInt8} (hx₀ : 0 ≤ x)
    (hx₁ : x ≤ 2 ^ 63 - 1) (hds : ∀ c ∈ ds, isDigit c) :
    ∃ p, p <+: ds ∧ digitsFrom x p ≤ 2 ^ 63 - 1 ∧
      (∀ q, q <+: ds → digitsFrom x q ≤ 2 ^ 63 - 1 → q.length ≤ p.length) ∧
      leadingFractionLoop x k false ds = (digitsFrom x p, k + p.length, []) := by
  induction ds generalizing x k with
  | nil => exact ⟨[], List.prefix_rfl, hx₁, fun q hq _ => by simp_all, rfl⟩
  | cons c ds ih =>
    simp only [List.mem_cons, forall_eq_or_imp] at hds
    have hc := (isDigit_iff c).1 hds.1
    -- no prefix but the empty one is in range once the next digit overflows
    have hstop : 2 ^ 63 - 1 < x * 10 + c.toNat - 0x30 → ∃ p, p <+: c :: ds ∧
        digitsFrom x p ≤ 2 ^ 63 - 1 ∧
        (∀ q, q <+: c :: ds → digitsFrom x q ≤ 2 ^ 63 - 1 → q.length ≤ p.length) ∧
        leadingFractionLoop x k true ds = (digitsFrom x p, k + p.length, []) := fun hbig =>
      ⟨[], List.nil_prefix, hx₁, fun q hq hqv => by
        rcases List.prefix_cons_iff.1 hq with rfl | ⟨q', rfl, hq'⟩
        · exact le_rfl
        · exact absurd hqv (Int.not_le.2 (digitsFrom_cons_gt hds.1
            (fun d hd => hds.2 d (hq'.subset hd)) hbig)), leadingFractionLoop_overflow x k hds.2⟩
    simp only [leadingFractionLoop, hds.1, Bool.not_true, Bool.false_eq_true, if_false,
      maxInt64_tdiv_ten]
    by_cases hbig : x > 922337203685477580
    · rw [if_pos hbig]; exact hstop (by omega)
    · by_cases hfit : x * 10 + c.toNat - 0x30 ≤ 2 ^ 63 - 1
      · rw [if_neg hbig, wrap64_of_le (by omega) hfit, if_neg (by omega)]
        obtain ⟨p, hp, hpv, hmax, hloop⟩ := ih (k + 1) (by omega) hfit hds.2
        refine ⟨c :: p, List.cons_prefix_cons.2 ⟨rfl, hp⟩, hpv, fun q hq hqv => ?_, ?_⟩
        · rcases List.prefix_cons_iff.1 hq with rfl | ⟨q', rfl, hq'⟩
          · exact Nat.zero_le _
          · exact Nat.succ_le_succ (hmax q' hq' hqv)
        · rw [hloop, digitsFrom_cons, List.length_cons, Nat.add_right_comm]; rfl
      · rw [if_neg hbig, if_pos (wrap64_neg (by omega) (by omega))]
        exact hstop (by omega)

/-- **`leadingInt` and `leadingFraction`.**  For every byte string, `leadingInt` returns
the value of the maximal leading run of digits and the text after it when that value is at
most `2^63 - 1`, and `errLeadingInt` otherwise; `leadingFraction` returns the value of the
longest prefix of that run whose value is at most `2^63 - 1`, the number of its digits (the
exponent of `scale`), and the text after the whole run. -/
theorem leadingInt_leadingFraction_value (s : List UInt8) :
    leadingInt s = (if digitsFrom 0 (s.takeWhile isDigit) ≤ 2 ^ 63 - 1 then
        some (digitsFrom 0 (s.takeWhile isDigit), s.dropWhile isDigit) else none) ∧
      ∃ p, p <+: s.takeWhile isDigit ∧ digitsFrom 0 p ≤ 2 ^ 63 - 1 ∧
        (∀ q, q <+: s.takeWhile isDigit → digitsFrom 0 q ≤ 2 ^ 63 - 1 →
          q.length ≤ p.length) ∧
        leadingFraction s = (digitsFrom 0 p, p.length, s.dropWhile isDigit) := by
  have hds : ∀ c ∈ s.takeWhile isDigit, isDigit c := fun c hc => List.mem_takeWhile_imp hc
  obtain ⟨p, hp, hpv, hmax, hloop⟩ :=
    leadingFractionLoop_digits (x := 0) 0 (Int.le_refl 0) (by omega) hds
  refine ⟨leadingInt_eq s, p, hp, hpv, hmax, ?_⟩
  rw [leadingFraction, ← List.takeWhile_append_dropWhile isDigit s,
    leadingFractionLoop_append hds (endsRun_dropWhile _ _), hloop, Nat.zero_add,
    List.takeWhile_append_dropWhile]

/-! ## `parseNumber` -/

/-- The bytes of an optional fraction, `'.'` and its digits. -/
def fracPart : Option (List UInt8) → List UInt8
  | none => []
  | some fs => 0x2E :: fs

theorem length_dropWhile_eq_iff (p : UInt8 → Bool) (s : List UInt8) :
    (s.dropWhile p).length = s.length ↔ s.takeWhile p = [] := by
  have := congrArg List.length (List.takeWhile_append_dropWhile p s)
  rw [List.length_append] at this
  rw [← List.length_eq_zero]; omega

/-- **What `parseNumber` accepts.**  A successful parse read a run of digits and an optional
`'.'` with a run of digits, not both empty. -/
theorem parseNumber_sound {s orig s₂ : List UInt8} {v f : Int} {k : Nat}
    (h : parseNumber s orig = .ok (v, f, k, s₂)) :
    ∃ int frac, (∀ c ∈ int, isDigit c) ∧ (∀ c ∈ frac.getD [], isDigit c) ∧
      (int ≠ [] ∨ frac.getD [] ≠ []) ∧ s = int ++ fracPart frac ++ s₂ := by
  have hint : ∀ c ∈ s.takeWhile isDigit, isDigit c := fun c hc => List.mem_takeWhile_imp hc
  have hsplit := List.takeWhile_append_dropWhile isDigit s
  match s with
  | [] => cases h
  | c :: t =>
    simp only [parseNumber] at h
    split at h; · cases h
    split at h; · cases h
    rename_i v' s₁ hlead
    have hs₁ := leadingInt_rest hlead
    have hpre := length_dropWhile_eq_iff isDigit (c :: t)
    rw [← hs₁] at hpre
    split at h
    · rename_i c' t'
      split at h
      · subst c'
        split at h; · cases h
        rename_i hnot
        cases h
        have hfrac := List.takeWhile_append_dropWhile isDigit t'
        have hpost := length_dropWhile_eq_iff isDigit t'
        rw [← leadingFraction_rest t'] at hfrac hpost
        refine ⟨(c :: t).takeWhile isDigit, some (t'.takeWhile isDigit), hint,
          fun c hc => List.mem_takeWhile_imp hc, ?_, ?_⟩
        · by_contra hboth; push_neg at hboth; simp_all
        · rw [fracPart, List.append_assoc, List.cons_append, hfrac, hs₁, hsplit]
      · split at h; · cases h
        cases h
        refine ⟨(c :: t).takeWhile isDigit, none, hint, by simp, ?_, ?_⟩
        · left; intro he; simp_all
        · simp [fracPart, hs₁, hsplit]
    · split at h; · cases h
      cases h
      refine ⟨(c :: t).takeWhile isDigit, none, hint, by simp, ?_, ?_⟩
      · left; intro he; simp_all
      · simp [fracPart, hs₁, hsplit]

/-! ## `parseUnit` -/

/-- Every entry of `unitMap` is a non-empty run of unit bytes with a positive value. -/
theorem unitMap_entry_wf : ∀ p ∈ unitMap, p.1 ≠ [] ∧ (∀ c ∈ p.1, isUnitByte c) ∧ 0 < p.2 := by
  decide

theorem unitMap_entry {u : List UInt8} {unit : Int} (h : unitMap.lookup u = some unit) :
    u ≠ [] ∧ (∀ c ∈ u, isUnitByte c) ∧ 0 < unit := by
  obtain ⟨l₁, l₂, hl, -⟩ := List.lookup_eq_some_iff.1 h
  exact unitMap_entry_wf (u, unit) (by rw [hl]; simp)

/-- A known unit followed by what ends its run parses as that unit. -/
theorem parseUnit_append {u rest orig : List UInt8} {unit : Int}
    (hu : unitMap.lookup u = some unit) (hr : EndsRun isUnitByte rest) :
    parseUnit (u ++ rest) orig = .ok (unit, rest) := by
  obtain ⟨hne, hbytes, -⟩ := unitMap_entry hu
  simp [parseUnit, takeWhile_append_of_endsRun hbytes hr, dropWhile_append_of_endsRun hbytes hr,
    hne, hu]

/-- **What `parseUnit` accepts**: a known unit, and the rest. -/
theorem parseUnit_sound {s orig rem : List UInt8} {unit : Int}
    (h : parseUnit s orig = .ok (unit, rem)) :
    ∃ u, unitMap.lookup u = some unit ∧ s = u ++ rem := by
  simp only [parseUnit] at h
  split at h; · cases h
  split at h; · cases h
  rename_i _ unit' hu
  cases h
  exact ⟨_, hu, (List.takeWhile_append_dropWhile isUnitByte s).symm⟩

theorem parseUnit_rem_lt {s orig rem : List UInt8} {unit : Int}
    (h : parseUnit s orig = .ok (unit, rem)) : rem.length < s.length := by
  obtain ⟨u, hu, rfl⟩ := parseUnit_sound h
  have := (unitMap_entry hu).1
  simp only [List.length_append]
  have := List.length_pos.2 this; omega

/-! ## `computeValue` -/

theorem maxInt64_tdiv_lt_iff {u v : Int} (hu : 0 < u) :
    (2 ^ 63 - 1 : Int).tdiv u < v ↔ 2 ^ 63 - 1 < v * u := by
  rw [Int.tdiv_eq_ediv (by omega) (Int.le_of_lt hu), Int.ediv_lt_iff_lt_mul hu]

/-- `computeValue` fails only with `invalid orig`, and whether it fails does not depend on
`orig`. -/
theorem computeValue_orig (v f : Int) (k : Nat) (u : Int) (orig orig' : List UInt8) :
    computeValue fracNanos v f k u orig =
      match (computeValue fracNanos v f k u orig').toOption with
      | some r => .ok r
      | none => .error (.invalid orig) := by
  simp only [computeValue]; split_ifs <;> rfl

/-- A successful `computeValue` of a non-negative number is an `int64` at least zero. -/
theorem computeValue_bounds {v f : Int} {k : Nat} {u : Int} {orig : List UInt8} {r : Int}
    (hv : 0 ≤ v) (hu : 0 < u) (h : computeValue fracNanos v f k u orig = .ok r) :
    0 ≤ r ∧ r ≤ 2 ^ 63 - 1 := by
  have hvu := Int.mul_nonneg hv (Int.le_of_lt hu)
  simp only [computeValue] at h
  split_ifs at h with hbig <;> cases h
  · exact ⟨by omega, wrap64_le _⟩
  · rw [gt_iff_lt, maxInt64_tdiv_lt_iff hu, Int.not_lt] at hbig
    rw [wrap64_of_le (by omega) hbig]
    exact ⟨hvu, hbig⟩

/-- Without a fraction, `computeValue` is the product, when it fits in an `int64`. -/
theorem computeValue_of_frac_zero {v : Int} {k : Nat} {u : Int} (orig : List UInt8)
    (hv : 0 ≤ v) (hu : 0 < u) :
    computeValue fracNanos v 0 k u orig =
      if v * u ≤ 2 ^ 63 - 1 then .ok (v * u) else .error (.invalid orig) := by
  have hvu := Int.mul_nonneg hv (Int.le_of_lt hu)
  simp only [computeValue, gt_iff_lt, maxInt64_tdiv_lt_iff hu, Int.lt_irrefl, if_false]
  by_cases h : v * u ≤ 2 ^ 63 - 1
  · rw [if_neg (by omega), if_pos h, wrap64_of_le (by omega) h]
  · rw [if_pos (by omega), if_neg h]

/-! ## The loop -/

theorem parseNumber_rem_le {s orig s₂ : List UInt8} {v f : Int} {k : Nat}
    (h : parseNumber s orig = .ok (v, f, k, s₂)) : s₂.length ≤ s.length := by
  obtain ⟨int, frac, -, -, -, rfl⟩ := parseNumber_sound h
  simp only [List.length_append]; omega

theorem parseSegment_rem_lt {s orig rem : List UInt8} {value : Int}
    (h : parseSegment fracNanos s orig = .ok (value, rem)) : rem.length < s.length := by
  unfold parseSegment at h
  split at h; · cases h
  rename_i hn
  split at h; · cases h
  rename_i hu
  split at h <;> cases h
  exact Nat.lt_of_lt_of_le (parseUnit_rem_lt hu) (parseNumber_rem_le hn)

theorem parseNumber_ne_panic (c : UInt8) (t orig : List UInt8) :
    parseNumber (c :: t) orig ≠ .error .indexPanic := by
  intro h
  simp only [parseNumber] at h
  repeat' split at h
  all_goals cases h

theorem parseUnit_ne_panic (s orig : List UInt8) : parseUnit s orig ≠ .error .indexPanic := by
  intro h
  simp only [parseUnit] at h
  repeat' split at h
  all_goals cases h

theorem computeValue_ne_panic (v f : Int) (k : Nat) (u : Int) (orig : List UInt8) :
    computeValue fracNanos v f k u orig ≠ .error .indexPanic := by
  rw [computeValue_orig fracNanos v f k u orig orig]
  split <;> simp

/-- The loop body panics only on an empty string, where the loop never calls it. -/
theorem parseSegment_ne_panic (c : UInt8) (t orig : List UInt8) :
    parseSegment fracNanos (c :: t) orig ≠ .error .indexPanic := by
  intro h
  unfold parseSegment at h
  split at h
  · cases h; exact parseNumber_ne_panic c t orig ‹_›
  · split at h
    · cases h; exact parseUnit_ne_panic _ orig ‹_›
    · split at h <;> cases h; exact computeValue_ne_panic fracNanos _ _ _ _ orig ‹_›

/-- The loop `for s != ""` of `ParseDuration`, from the running total `d`. -/
def parseLoop (orig : List UInt8) (d : Int) (s : List UInt8) : Except DurationError Int :=
  if s = [] then .ok d
  else
    match _hseg : parseSegment fracNanos s orig with
    | .error e => .error e
    | .ok (value, rem) =>
      let d := wrap64 (d + value)
      if d < 0 then .error (.invalid orig) else parseLoop orig d rem
termination_by s.length
decreasing_by exact parseSegment_rem_lt fracNanos ‹_›

/-- `// Consume [-+]?`: whether the sign is `-`, and the rest. -/
def consumeSign : List UInt8 → Bool × List UInt8
  | c :: s => if c = 0x2D ∨ c = 0x2B then (decide (c = 0x2D), s) else (false, c :: s)
  | [] => (false, [])

/-- `ParseDuration(s)`. -/
def parseDuration (s : List UInt8) : Except DurationError Int :=
  let orig := s
  let (neg, s) := consumeSign s
  if s = [0x30] then .ok 0
  else if s = [] then .error (.invalid orig)
  else
    match parseLoop fracNanos orig 0 s with
    | .error e => .error e
    | .ok d => .ok (if neg then wrap64 (-d) else d)

@[simp] theorem parseLoop_nil (orig : List UInt8) (d : Int) :
    parseLoop fracNanos orig d [] = .ok d := by
  rw [parseLoop]; rfl

theorem parseLoop_of_error {orig s : List UInt8} {d : Int} {e : DurationError} (hs : s ≠ [])
    (h : parseSegment fracNanos s orig = .error e) : parseLoop fracNanos orig d s = .error e := by
  rw [parseLoop, if_neg hs]; split <;> simp_all

theorem parseLoop_of_ok {orig s rem : List UInt8} {d value : Int} (hs : s ≠ [])
    (h : parseSegment fracNanos s orig = .ok (value, rem)) :
    parseLoop fracNanos orig d s =
      if wrap64 (d + value) < 0 then .error (.invalid orig)
      else parseLoop fracNanos orig (wrap64 (d + value)) rem := by
  rw [parseLoop, if_neg hs]; split <;> simp_all

/-- The loop never panics. -/
theorem parseLoop_ne_panic (orig : List UInt8) (d : Int) (s : List UInt8) :
    parseLoop fracNanos orig d s ≠ .error .indexPanic := by
  induction d, s using parseLoop.induct fracNanos orig with
  | case1 d => simp
  | case2 d s hs e he =>
    obtain ⟨c, t, rfl⟩ := List.exists_cons_of_ne_nil hs
    rw [parseLoop_of_error fracNanos hs he]
    rintro ⟨⟩
    exact parseSegment_ne_panic fracNanos c t orig he
  | case3 d s hs v rem hseg _ hneg => rw [parseLoop_of_ok fracNanos hs hseg, if_pos hneg]; simp
  | case4 d s hs v rem hseg _ hpos ih =>
    rw [parseLoop_of_ok fracNanos hs hseg, if_neg hpos]; exact ih

end Duration
