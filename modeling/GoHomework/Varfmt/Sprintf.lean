import GoHomework.Utf8.Decode
import Mathlib.Algebra.Group.Int

/-!
# `varfmt.Sprintf`

`Sprintf(format, args...)` (`unnamed/part_002`, lines 12–41) copies `format` and replaces
each placeholder `{}` by the next argument and `{N}` by argument `N`, each printed by
`fmt.Sprint` (the parameter `sprint`).  The loop decodes a rune at `format[idx:]` and writes
it whole, but then moves `idx` on by one byte only.

The number of `{N}` is `strconv.Atoi(N)` with its error dropped, modelled with both of its
paths: a decimal below `2^63` is its value (`atoi_decimal`), and leading digits past
`maxUint64` give `MaxInt64` whatever follows them, since `ParseUint` stops at the range check
before it reads a bad byte (`atoi_overflow`); so `{99999999999999999999x}` panics.

On formats of ASCII text and placeholders `Sprintf` does what it is meant to
(`sprintf_ascii`).  Literal text beyond ASCII is not copied: after each rune of several bytes
the loop steps onto its continuation bytes, decodes each as an error and writes `U+FFFD` for
it (`sprintf_text_append`).
-/

namespace Varfmt

open Utf8

variable {α : Type} (sprint : α → List UInt8) (args : List α)

/-- The panic of an index out of range, `format[rIdx]` or `args[i]`. -/
def indexPanic : String := "runtime error: index out of range"

/-! ## `strconv.Atoi` -/

/-- The errors of `strconv`. -/
inductive NumError where
  /-- `ErrSyntax`, "invalid syntax". -/
  | invalid
  /-- `ErrRange`, "value out of range". -/
  | outOfRange
  deriving DecidableEq, Repr

/-- `maxUint64`, what `ParseUint` returns with a range error. -/
def maxUint64 : Nat := 2 ^ 64 - 1

/-- A decimal digit, `'0' <= c && c <= '9'`. -/
def IsDigit (c : UInt8) : Prop := 0x30 ≤ c.toNat ∧ c.toNat ≤ 0x39

instance : DecidablePred IsDigit := fun _ => inferInstanceAs (Decidable (_ ∧ _))

/-- The loop of `strconv.ParseUint(s, 10, 0)` over the bytes of `s`, from the value `n` read
so far.  A byte that is not a decimal digit is a syntax error with value `0` (a letter has a
digit value of 10 or more, which base 10 refuses too).  Before a digit `d` is added, the loop
stops with a range error and `maxUint64` if `n * 10 + d` would pass `maxUint64`: if `n` has
reached `cutoff = maxUint64 / 10 + 1`, or if the sum wraps around; the bytes after are not
looked at. -/
def parseUintLoop : List UInt8 → Nat → Nat × Option NumError
  | [], n => (n, none)
  | c :: s, n =>
    if ¬IsDigit c then (0, some .invalid)
    else if maxUint64 / 10 + 1 ≤ n then (maxUint64, some .outOfRange)
    else if maxUint64 < n * 10 + (c.toNat - 0x30) then (maxUint64, some .outOfRange)
    else parseUintLoop s (n * 10 + (c.toNat - 0x30))

/-- `strconv.ParseUint(s, 10, 0)`: the empty text is a syntax error. -/
def parseUint (s : List UInt8) : Nat × Option NumError :=
  if s = [] then (0, some .invalid) else parseUintLoop s 0

/-- `strconv.ParseInt(s, 10, 0)`: an optional sign `+` or `-`, then `ParseUint` of the rest.
A syntax error gives `0`; an unsigned value beyond the `int64` range, a range error of
`ParseUint` included, gives `MaxInt64` or `MinInt64` with a range error. -/
def parseInt (s : List UInt8) : Int × Option NumError :=
  match s with
  | [] => (0, some .invalid)
  | c :: t =>
    let neg := c = 0x2D
    let u := parseUint (if c = 0x2B ∨ c = 0x2D then t else c :: t)
    if u.2 = some .invalid then (0, u.2)
    else if ¬neg ∧ 2 ^ 63 ≤ u.1 then (2 ^ 63 - 1, some .outOfRange)
    else if neg ∧ 2 ^ 63 < u.1 then (-2 ^ 63, some .outOfRange)
    else (if neg then -(u.1 : Int) else u.1, none)

/-- The digit loop of the fast path of `strconv.Atoi`: `ch -= '0'` on a byte, and `none` once
the result is above 9. -/
def fastDigits : List UInt8 → Nat → Option Nat
  | [], n => some n
  | c :: s, n => if 9 < (c - 0x30).toNat then none else fastDigits s (n * 10 + (c - 0x30).toNat)

/-- The fast path of `strconv.Atoi`, taken when `0 < len(s) < 19`: an optional sign `+` or
`-`, then at least one byte, all digits, else `0`. -/
def atoiFast (s : List UInt8) : Int :=
  match s with
  | [] => 0
  | c :: t =>
    let digits := if c = 0x2D ∨ c = 0x2B then t else c :: t
    if digits = [] then 0
    else match fastDigits digits 0 with
      | none => 0
      | some n => if c = 0x2D then -(n : Int) else n

/-- `strconv.Atoi(s)` on a 64-bit platform, its error dropped as `Sprintf` drops it: the fast
path below 19 bytes, `ParseInt(s, 10, 0)` otherwise.  A body whose leading digits pass
`maxUint64` is `MaxInt64` (or `MinInt64` after `-`), whatever follows them. -/
def atoi (s : List UInt8) : Int :=
  if 0 < s.length ∧ s.length < 19 then atoiFast s else (parseInt s).1

/-- The value of the digits `ds` read after the value `n`. -/
def decValue (n : Nat) (ds : List UInt8) : Nat := ds.foldl (fun n c => n * 10 + (c.toNat - 0x30)) n

/-- Reading more digits never lowers the value. -/
theorem le_decValue (n : Nat) (ds : List UInt8) : n ≤ decValue n ds := by
  induction ds generalizing n with
  | nil => exact Nat.le_refl n
  | cons c ds ih => exact Nat.le_trans (by omega) (ih (n * 10 + (c.toNat - 0x30)))

/-- Fewer than `k` digits have a value below `10^k`, or `(n + 1) * 10^k` after `n`. -/
theorem decValue_lt (n : Nat) {ds : List UInt8} (hds : ∀ c ∈ ds, IsDigit c) :
    decValue n ds < (n + 1) * 10 ^ ds.length := by
  induction ds generalizing n with
  | nil => simp [decValue]
  | cons c ds ih =>
    have hc := hds c (List.mem_cons_self _ _)
    calc decValue n (c :: ds)
        < (n * 10 + (c.toNat - 0x30) + 1) * 10 ^ ds.length :=
          ih _ fun d hd => hds d (List.mem_cons_of_mem _ hd)
      _ ≤ (n + 1) * 10 * 10 ^ ds.length :=
          Nat.mul_le_mul_right _ (by have := hc.2; omega)
      _ = (n + 1) * 10 ^ (c :: ds).length := by
          rw [List.length_cons, Nat.pow_succ, Nat.mul_assoc, Nat.mul_comm 10]

/-- On a digit, the byte subtraction `ch -= '0'` does not wrap. -/
theorem digit_sub {c : UInt8} (hc : IsDigit c) : (c - 0x30).toNat = c.toNat - 0x30 :=
  UInt8.toNat_sub_of_le _ _ hc.1

/-- A digit is no sign. -/
theorem ne_sign_of_isDigit {c : UInt8} (hc : IsDigit c) : c ≠ 0x2D ∧ c ≠ 0x2B :=
  ⟨by rintro rfl; revert hc; decide, by rintro rfl; revert hc; decide⟩

/-- The fast path reads digits to their value. -/
theorem fastDigits_eq {ds : List UInt8} (hds : ∀ c ∈ ds, IsDigit c) (n : Nat) :
    fastDigits ds n = some (decValue n ds) := by
  induction ds generalizing n with
  | nil => rfl
  | cons c ds ih =>
    have hc := hds c (List.mem_cons_self _ _)
    rw [fastDigits, digit_sub hc, if_neg (by have := hc.2; omega),
      ih (fun d hd => hds d (List.mem_cons_of_mem _ hd))]
    rfl

/-- Digits whose value stays within `maxUint64` are read to that value. -/
theorem parseUintLoop_eq {ds : List UInt8} (hds : ∀ c ∈ ds, IsDigit c) {n : Nat}
    (hv : decValue n ds ≤ maxUint64) : parseUintLoop ds n = (decValue n ds, none) := by
  induction ds generalizing n with
  | nil => rfl
  | cons c ds ih =>
    have hc := hds c (List.mem_cons_self _ _)
    have hle := le_decValue (n * 10 + (c.toNat - 0x30)) ds
    have hv' : decValue (n * 10 + (c.toNat - 0x30)) ds ≤ maxUint64 := hv
    rw [parseUintLoop, if_neg (not_not.2 hc), if_neg (by unfold maxUint64 at *; omega),
      if_neg (by omega), ih (fun d hd => hds d (List.mem_cons_of_mem _ hd)) hv']
    rfl

/-- Once the value of the leading digits passes `maxUint64`, the loop stops with a range
error, whatever follows them. -/
theorem parseUintLoop_overflow {ds : List UInt8} (hds : ∀ c ∈ ds, IsDigit c) {n : Nat}
    (hn : n ≤ maxUint64) (hv : maxUint64 < decValue n ds) (rest : List UInt8) :
    parseUintLoop (ds ++ rest) n = (maxUint64, some .outOfRange) := by
  induction ds generalizing n with
  | nil => exact absurd hv (Nat.not_lt.2 hn)
  | cons c ds ih =>
    have hc := hds c (List.mem_cons_self _ _)
    rw [List.cons_append, parseUintLoop, if_neg (not_not.2 hc)]
    split_ifs with hcut hwrap
    · rfl
    · rfl
    · exact ih (fun d hd => hds d (List.mem_cons_of_mem _ hd)) (Nat.not_lt.1 hwrap) hv

/-- **`Atoi` reads a decimal number below `2^63` as its value.** -/
theorem atoi_decimal {ds : List UInt8} (hne : ds ≠ []) (hds : ∀ c ∈ ds, IsDigit c)
    (hv : decValue 0 ds < 2 ^ 63) : atoi ds = decValue 0 ds := by
  obtain ⟨c, t, rfl⟩ := List.exists_cons_of_ne_nil hne
  obtain ⟨hminus, hplus⟩ := ne_sign_of_isDigit (hds c (List.mem_cons_self _ _))
  unfold atoi
  split_ifs
  · simp only [atoiFast, hminus, hplus, or_self, if_false, fastDigits_eq hds,
      if_neg (List.cons_ne_nil c t)]
  · simp only [parseInt, hminus, hplus, or_self, if_false, parseUint,
      if_neg (List.cons_ne_nil c t), parseUintLoop_eq (n := 0) hds (by unfold maxUint64; omega)]
    rw [if_neg (by simp), if_neg (by omega), if_neg (by simp)]

/-- **`Atoi` of leading digits past `maxUint64` is `MaxInt64`**, whatever follows them. -/
theorem atoi_overflow {ds : List UInt8} (hds : ∀ c ∈ ds, IsDigit c)
    (hv : maxUint64 < decValue 0 ds) (rest : List UInt8) : atoi (ds ++ rest) = 2 ^ 63 - 1 := by
  have hlen : 19 ≤ ds.length := by
    by_contra h
    have hlt := decValue_lt 0 hds
    have hpow : 10 ^ ds.length ≤ 10 ^ 18 := Nat.pow_le_pow_right (by decide) (by omega)
    rw [Nat.zero_add, Nat.one_mul] at hlt
    unfold maxUint64 at hv
    omega
  obtain ⟨c, t, rfl⟩ : ∃ c t, ds = c :: t :=
    List.exists_cons_of_ne_nil (List.ne_nil_of_length_pos (by omega))
  obtain ⟨hminus, hplus⟩ := ne_sign_of_isDigit (hds c (List.mem_cons_self _ _))
  have hu : parseUint ((c :: t) ++ rest) = (maxUint64, some .outOfRange) := by
    rw [parseUint, if_neg (by simp), parseUintLoop_overflow hds (Nat.zero_le _) hv]
  rw [atoi, if_neg (by simp only [List.length_append] at hlen ⊢; omega), List.cons_append, parseInt]
  simp only [hminus, hplus, or_self, if_false, ← List.cons_append, hu]
  rw [if_neg (by simp), if_pos ⟨not_false, by unfold maxUint64; omega⟩]

example : atoi (List.replicate 20 0x39 ++ [0x78]) = 2 ^ 63 - 1 := by decide

example : atoi (List.replicate 19 0x39 ++ [0x78]) = 0 := by decide

/-- `args[i]` for an `int` index, `none` when it is out of range. -/
def argAt (i : Int) : Option α := if 0 ≤ i then args[i.toNat]? else none

/-- The inner loop `for format[rIdx] != '}' { rIdx++ }`: the offset of the first `}`, or
`none` when it runs off the end and panics. -/
def findClose : List UInt8 → Option Nat
  | [] => none
  | b :: s => if b = 0x7D then some 0 else (findClose s).map (· + 1)

/-- The loop of `Sprintf` from `format[idx:]`, given `placeholderIdx` and what the builder
holds; a panic is an error. -/
def sprintfLoop (s : List UInt8) (placeholderIdx : Nat) (out : List UInt8) :
    Except String (List UInt8) :=
  if s = [] then .ok out
  else if (decodeRune s).1 ≠ 0x7B then
    sprintfLoop s.tail placeholderIdx (out ++ encodeRune (decodeRune s).1)
  else
    match findClose s.tail with
    | none => .error indexPanic
    | some k =>
      let subString := s.tail.take k
      let arg := if subString = [] then args[placeholderIdx]? else argAt args (atoi subString)
      match arg with
      | none => .error indexPanic
      | some a => sprintfLoop (s.tail.drop (k + 1)) (placeholderIdx + 1) (out ++ sprint a)
termination_by s.length
decreasing_by
  all_goals simp_wf
  all_goals cases s with
  | nil => contradiction
  | cons b s => simp only [List.tail_cons, List.length_cons, List.length_drop]; omega

/-- `Sprintf(format, args...)`. -/
def sprintf (format : List UInt8) : Except String (List UInt8) :=
  sprintfLoop sprint args format 0 []

@[simp] theorem sprintfLoop_nil (placeholderIdx : Nat) (out : List UInt8) :
    sprintfLoop sprint args [] placeholderIdx out = .ok out := by
  rw [sprintfLoop, if_pos rfl]

/-- A step on literal text writes the decoded rune and moves on by one byte. -/
theorem sprintfLoop_literal {s : List UInt8} (placeholderIdx : Nat) (out : List UInt8)
    (hs : s ≠ []) (hr : (decodeRune s).1 ≠ 0x7B) :
    sprintfLoop sprint args s placeholderIdx out =
      sprintfLoop sprint args s.tail placeholderIdx (out ++ encodeRune (decodeRune s).1) := by
  rw [sprintfLoop, if_neg hs, if_pos hr]

/-- The format é (bytes C3 A9), with no placeholder, is not copied: after writing the
two-byte rune the loop steps one byte, decodes the lone continuation byte A9 as U+FFFD and
writes its three-byte encoding too. -/
theorem sprintf_multibyte_literal :
    sprintf (fun (_ : Nat) => ([] : List UInt8)) [] [0xC3, 0xA9] =
      .ok [0xC3, 0xA9, 0xEF, 0xBF, 0xBD] := by
  rw [sprintf, sprintfLoop_literal _ _ 0 [] (List.cons_ne_nil _ _) (by decide), List.tail_cons,
    sprintfLoop_literal _ _ 0 _ (List.cons_ne_nil _ _) (by decide), List.tail_cons,
    sprintfLoop_nil]
  rfl

/-! ## Formats of ASCII text and placeholders -/

/-- `findClose` finds the first `}`. -/
theorem findClose_append {body : List UInt8} (hbody : 0x7D ∉ body) (rest : List UInt8) :
    findClose (body ++ 0x7D :: rest) = some body.length := by
  induction body with
  | nil => rfl
  | cons b body ih =>
    rw [List.mem_cons, not_or] at hbody
    rw [List.cons_append, findClose, if_neg (Ne.symm hbody.1), ih hbody.2]
    rfl

/-- With no `}` left, the inner loop runs off the end. -/
theorem findClose_eq_none {t : List UInt8} (ht : 0x7D ∉ t) : findClose t = none := by
  induction t with
  | nil => rfl
  | cons b t ih =>
    rw [List.mem_cons, not_or] at ht
    rw [findClose, if_neg (Ne.symm ht.1), ih ht.2]
    rfl

/-- The argument a placeholder `{body}` prints: the `placeholderIdx`-th one for `{}`, and
argument `Atoi(body)` for any other body. -/
def placeholderArg (body : List UInt8) (placeholderIdx : Nat) : Option α :=
  if body = [] then args[placeholderIdx]? else argAt args (atoi body)

/-- A step on a placeholder `{body}`: its argument is printed, or the index panics. -/
theorem sprintfLoop_hole {body : List UInt8} (hbody : 0x7D ∉ body) (rest : List UInt8)
    (placeholderIdx : Nat) (out : List UInt8) :
    sprintfLoop sprint args (0x7B :: (body ++ 0x7D :: rest)) placeholderIdx out =
      match placeholderArg args body placeholderIdx with
      | none => .error indexPanic
      | some a => sprintfLoop sprint args rest (placeholderIdx + 1) (out ++ sprint a) := by
  rw [sprintfLoop, if_neg (List.cons_ne_nil _ _),
    if_neg (by rw [decodeRune_ascii (by decide)]; decide), List.tail_cons,
    findClose_append hbody]
  simp only [List.take_left' rfl, placeholderArg]
  rw [show body ++ 0x7D :: rest = (body ++ [0x7D]) ++ rest by simp,
    List.drop_left' (by simp)]

/-- `{99999999999999999999x}` names no argument, and the step on it panics: its leading
digits pass `maxUint64` before the `x` is read, so that `Atoi` gives `MaxInt64`. -/
example : placeholderArg [[0x61]] (List.replicate 20 0x39 ++ [0x78]) 0 =
    (none : Option (List UInt8)) := by decide

/-- A step on `{` with no `}` after it panics. -/
theorem sprintfLoop_unclosed {t : List UInt8} (ht : 0x7D ∉ t) (placeholderIdx : Nat)
    (out : List UInt8) :
    sprintfLoop sprint args (0x7B :: t) placeholderIdx out = .error indexPanic := by
  rw [sprintfLoop, if_neg (List.cons_ne_nil _ _),
    if_neg (by rw [decodeRune_ascii (by decide)]; decide), List.tail_cons, findClose_eq_none ht]

/-- A piece of a format: a byte written as it is, or a placeholder `{body}`. -/
inductive Piece where
  | lit (b : UInt8)
  | hole (body : List UInt8)

/-- The bytes of a piece in the format. -/
def Piece.bytes : Piece → List UInt8
  | .lit b => [b]
  | .hole body => 0x7B :: (body ++ [0x7D])

/-- An ASCII byte other than `{`, or a placeholder whose body has no `}`. -/
def Piece.Wf : Piece → Prop
  | .lit b => b.toNat < 0x80 ∧ b ≠ 0x7B
  | .hole body => 0x7D ∉ body

/-- The piece is a placeholder. -/
def Piece.isHole : Piece → Bool
  | .lit _ => false
  | .hole _ => true

/-- What a format made of pieces prints, from the placeholder count `placeholderIdx`: every
byte as it is, and for every placeholder its argument, the count going up by one at every
placeholder, `{N}` included; the index panic at the first placeholder without one. -/
def expand : List Piece → Nat → Except String (List UInt8)
  | [], _ => .ok []
  | .lit b :: ps, placeholderIdx => ([b] ++ ·) <$> expand ps placeholderIdx
  | .hole body :: ps, placeholderIdx =>
    match placeholderArg args body placeholderIdx with
    | none => .error indexPanic
    | some a => (sprint a ++ ·) <$> expand ps (placeholderIdx + 1)

/-- `{0}{}` prints argument 0 and then argument 1: `{0}` counts as a placeholder too. -/
example : expand id [[0x78], [0x79]] [.hole [0x30], .hole []] 0 = .ok [0x78, 0x79] := rfl

/-- **The loop reads a format made of pieces piece by piece**, and goes on after them with
the placeholder count moved on by their number of placeholders. -/
theorem sprintfLoop_pieces (ps : List Piece) (hps : ∀ p ∈ ps, p.Wf) (rest : List UInt8)
    (placeholderIdx : Nat) (out : List UInt8) :
    sprintfLoop sprint args ((ps.map Piece.bytes).flatten ++ rest) placeholderIdx out =
      expand sprint args ps placeholderIdx >>= fun x =>
        sprintfLoop sprint args rest (placeholderIdx + ps.countP Piece.isHole) (out ++ x) := by
  induction ps generalizing placeholderIdx out with
  | nil => exact congrArg _ (List.append_nil out).symm
  | cons p ps ih =>
    have ih := ih fun q hq => hps q (List.mem_cons_of_mem p hq)
    cases p with
    | lit b =>
      obtain ⟨hascii, hb⟩ := hps _ (List.mem_cons_self _ _)
      rw [List.map_cons, List.flatten_cons, Piece.bytes, List.singleton_append, List.cons_append,
        sprintfLoop_literal _ _ _ _ (List.cons_ne_nil _ _)
          (by rw [decodeRune_ascii hascii]; exact fun h => hb (UInt8.eq_of_val_eq (Fin.ext h))),
        decodeRune_ascii hascii, encodeRune_ascii hascii, List.tail_cons, ih, expand,
        bind_map_left]
      simp [Piece.isHole]
    | hole body =>
      have hbody : 0x7D ∉ body := hps _ (List.mem_cons_self _ _)
      simp only [List.map_cons, List.flatten_cons, Piece.bytes, List.cons_append,
        List.append_assoc, List.singleton_append, List.nil_append]
      rw [sprintfLoop_hole _ _ hbody, expand]
      cases placeholderArg args body placeholderIdx with
      | none => rfl
      | some a =>
        have hcount : placeholderIdx + (ps.countP Piece.isHole + 1) =
            placeholderIdx + 1 + ps.countP Piece.isHole := by omega
        simp only [ih, bind_map_left, List.append_assoc, List.countP_cons, Piece.isHole,
          if_true, hcount]

/-- Every format of ASCII bytes is a list of pieces, possibly followed by a `{` that no `}`
closes. -/
theorem exists_pieces (s : List UInt8) (hs : ∀ b ∈ s, b.toNat < 0x80) :
    ∃ ps : List Piece, (∀ p ∈ ps, p.Wf) ∧ (s = (ps.map Piece.bytes).flatten ∨
      ∃ t, 0x7D ∉ t ∧ s = (ps.map Piece.bytes).flatten ++ 0x7B :: t) := by
  obtain ⟨n, hlen⟩ : ∃ n, s.length = n := ⟨_, rfl⟩
  induction n using Nat.strong_induction_on generalizing s with
  | _ n ih =>
  cases s with
  | nil => exact ⟨[], by simp, .inl rfl⟩
  | cons b s =>
    have hascii : ∀ c ∈ s, c.toNat < 0x80 := fun c hc => hs c (List.mem_cons_of_mem b hc)
    by_cases hb : b = 0x7B
    · by_cases hclose : 0x7D ∈ s
      · -- the placeholder ends at the first `}`
        obtain ⟨body, rest, hbody, rfl, -⟩ := List.exists_erase_eq hclose
        obtain ⟨ps, hps, hrest⟩ := ih rest.length (by simp at hlen; omega) rest
          (fun c hc => hascii c (List.mem_append_right _ (List.mem_cons_of_mem _ hc))) rfl
        refine ⟨.hole body :: ps, List.forall_mem_cons.2 ⟨hbody, hps⟩, ?_⟩
        subst hb
        simp only [List.map_cons, List.flatten_cons, Piece.bytes, List.cons_append,
          List.append_assoc, List.singleton_append, List.nil_append, List.cons.injEq,
          List.append_cancel_left_eq, true_and]
        exact hrest
      · exact ⟨[], by simp, .inr ⟨s, hclose, by rw [hb]; rfl⟩⟩
    · obtain ⟨ps, hps, hrest⟩ := ih s.length (by simp at hlen; omega) s hascii rfl
      refine ⟨.lit b :: ps,
        List.forall_mem_cons.2 ⟨⟨hs b (List.mem_cons_self _ _), hb⟩, hps⟩, ?_⟩
      simp only [List.map_cons, List.flatten_cons, Piece.bytes, List.singleton_append,
        List.cons_append, List.cons.injEq, true_and]
      exact hrest

/-- **`Sprintf` on ASCII formats.**  Every format of ASCII bytes is a list of pieces, literal
bytes and placeholders `{body}`, possibly followed by a `{` that no `}` closes; `Sprintf`
writes what `expand` gives for the pieces, or, if an unclosed `{` follows, panics after
them. -/
theorem sprintf_ascii (format : List UInt8) (hformat : ∀ b ∈ format, b.toNat < 0x80) :
    ∃ ps : List Piece, (∀ p ∈ ps, p.Wf) ∧
      ((format = (ps.map Piece.bytes).flatten ∧
          sprintf sprint args format = expand sprint args ps 0) ∨
        ∃ t, 0x7D ∉ t ∧ format = (ps.map Piece.bytes).flatten ++ 0x7B :: t ∧
          sprintf sprint args format = expand sprint args ps 0 >>= fun _ => .error indexPanic) := by
  obtain ⟨ps, hps, hformat | ⟨t, ht, hformat⟩⟩ := exists_pieces format hformat
  · refine ⟨ps, hps, .inl ⟨hformat, ?_⟩⟩
    rw [sprintf, hformat, ← List.append_nil (ps.map Piece.bytes).flatten,
      sprintfLoop_pieces _ _ _ hps]
    simp only [sprintfLoop_nil, List.nil_append]
    exact bind_pure _
  · refine ⟨ps, hps, .inr ⟨t, ht, hformat, ?_⟩⟩
    rw [sprintf, hformat, sprintfLoop_pieces _ _ _ hps]
    simp only [sprintfLoop_unclosed _ _ ht]

/-- The format `a{}{0}` is ASCII, so `Sprintf` on it is `expand` of its pieces. -/
theorem sprintf_ascii_placeholders :
    (∀ b ∈ ([0x61, 0x7B, 0x7D, 0x7B, 0x30, 0x7D] : List UInt8), b.toNat < 0x80) ∧
      ∃ ps : List Piece, (∀ p ∈ ps, p.Wf) ∧
        (([0x61, 0x7B, 0x7D, 0x7B, 0x30, 0x7D] = (ps.map Piece.bytes).flatten ∧
            sprintf id [[0x78]] [0x61, 0x7B, 0x7D, 0x7B, 0x30, 0x7D] = expand id [[0x78]] ps 0) ∨
          ∃ t, 0x7D ∉ t ∧
            [0x61, 0x7B, 0x7D, 0x7B, 0x30, 0x7D] = (ps.map Piece.bytes).flatten ++ 0x7B :: t ∧
            sprintf id [[0x78]] [0x61, 0x7B, 0x7D, 0x7B, 0x30, 0x7D] =
              expand id [[0x78]] ps 0 >>= fun _ => .error indexPanic) :=
  ⟨by decide, sprintf_ascii id [[0x78]] _ (by decide)⟩

/-! ## Literal text beyond ASCII -/

/-- What the loop writes for a rune `r` of literal text: `r`, then `U+FFFD` for each of its
continuation bytes, which the loop steps onto one by one and decodes as errors. -/
def writtenRune (r : Nat) : List UInt8 :=
  encodeRune r ++ (List.replicate ((encodeRune r).length - 1) (encodeRune runeError)).flatten

/-- What the loop writes for literal text: `writtenRune` of each of its runes. -/
def writtenText (text : List UInt8) : List UInt8 := (runes text).flatMap writtenRune

theorem length_flatten_replicate (n : Nat) (l : List UInt8) :
    (List.replicate n l).flatten.length = n * l.length := by
  induction n with
  | zero => simp
  | succ n ih => rw [List.replicate_succ, List.flatten_cons, List.length_append, ih, Nat.succ_mul,
      Nat.add_comm]

theorem length_writtenRune (r : Nat) :
    (writtenRune r).length = (encodeRune r).length + 3 * ((encodeRune r).length - 1) := by
  rw [writtenRune, List.length_append, length_flatten_replicate,
    show (encodeRune runeError).length = 3 from rfl, Nat.mul_comm]

/-- The loop only appends to what the builder holds. -/
theorem sprintfLoop_append_out (pre : List UInt8) (s : List UInt8) (placeholderIdx : Nat)
    (out : List UInt8) :
    sprintfLoop sprint args s placeholderIdx (pre ++ out) =
      (pre ++ ·) <$> sprintfLoop sprint args s placeholderIdx out := by
  induction s, placeholderIdx, out using sprintfLoop.induct sprint args with
  | case1 => simp only [sprintfLoop_nil]; rfl
  | case2 s i out hs hr ih =>
    rw [sprintfLoop_literal _ _ _ _ hs hr, sprintfLoop_literal _ _ _ _ hs hr, List.append_assoc, ih]
  | case3 s i out hs hr hk =>
    rw [sprintfLoop, if_neg hs, if_neg hr, sprintfLoop, if_neg hs, if_neg hr]
    simp only [hk]; rfl
  | case4 s i out hs hr k hk subString arg harg =>
    simp only [arg, subString, dite_eq_ite] at harg
    rw [sprintfLoop, if_neg hs, if_neg hr, sprintfLoop, if_neg hs, if_neg hr]
    simp only [hk, harg]; rfl
  | case5 s i out hs hr k hk subString arg a harg ih =>
    simp only [arg, subString, dite_eq_ite] at harg
    rw [sprintfLoop, if_neg hs, if_neg hr, sprintfLoop, if_neg hs, if_neg hr]
    simp only [hk, harg, List.append_assoc, ih]

/-- On continuation bytes, each a decoding error, the loop writes `U+FFFD` for each. -/
theorem sprintfLoop_conts {conts : List UInt8} (hc : ∀ c ∈ conts, IsCont c) (rest : List UInt8)
    (placeholderIdx : Nat) (out : List UInt8) :
    sprintfLoop sprint args (conts ++ rest) placeholderIdx out =
      sprintfLoop sprint args rest placeholderIdx
        (out ++ (List.replicate conts.length (encodeRune runeError)).flatten) := by
  induction conts generalizing out with
  | nil => simp
  | cons c cs ih =>
    rw [List.forall_mem_cons] at hc
    rw [List.cons_append, sprintfLoop_literal _ _ _ _ (List.cons_ne_nil _ _)
      (by rw [decodeRune_of_cont hc.1]; decide), decodeRune_of_cont hc.1, List.tail_cons, ih hc.2]
    simp [List.replicate_succ]

/-- The bytes of an encoding after the first are continuation bytes. -/
theorem isCont_of_mem_tail_encodeRune {r : Nat} (hr : validRune r) :
    ∀ c ∈ (encodeRune r).tail, IsCont c := by
  intro c hc
  have hd := decodeRune_encodeRune hr []
  rw [List.append_nil] at hd
  have hlen := List.length_pos.2 (List.ne_nil_of_mem hc)
  rw [List.length_tail] at hlen
  have := decodeRune_cont (show 2 ≤ (decodeRune (encodeRune r)).2 by rw [hd]; omega)
  rw [hd, List.take_length] at this
  exact this c hc

/-- A valid rune other than `{` is written with a `U+FFFD` for each continuation byte. -/
theorem sprintfLoop_rune {r : Nat} (hr : validRune r) (hbrace : r ≠ 0x7B) (rest : List UInt8)
    (placeholderIdx : Nat) (out : List UInt8) :
    sprintfLoop sprint args (encodeRune r ++ rest) placeholderIdx out =
      sprintfLoop sprint args rest placeholderIdx (out ++ writtenRune r) := by
  have hd := decodeRune_encodeRune hr rest
  have hne : encodeRune r ≠ [] := by simpa using encodeRune_ne_nil r []
  rw [sprintfLoop_literal _ _ _ _ (encodeRune_ne_nil r rest) (by rw [hd]; exact hbrace), hd,
    List.tail_append_of_ne_nil hne, sprintfLoop_conts _ _ (isCont_of_mem_tail_encodeRune hr),
    List.length_tail, writtenRune, List.append_assoc]

/-- Valid runes other than `{`, encoded one after another, are written rune by rune. -/
theorem sprintfLoop_runes {l : List Nat} (hl : ∀ r ∈ l, validRune r ∧ r ≠ 0x7B)
    (rest : List UInt8) (placeholderIdx : Nat) (out : List UInt8) :
    sprintfLoop sprint args ((l.map encodeRune).flatten ++ rest) placeholderIdx out =
      sprintfLoop sprint args rest placeholderIdx (out ++ l.flatMap writtenRune) := by
  induction l generalizing out with
  | nil => simp
  | cons r l ih =>
    rw [List.forall_mem_cons] at hl
    rw [List.map_cons, List.flatten_cons, List.append_assoc, sprintfLoop_rune _ _ hl.1.1 hl.1.2,
      ih hl.2, List.flatMap_cons, List.append_assoc]

/-- An encoding is one byte exactly when all its bytes are ASCII. -/
theorem length_encodeRune_eq_one_iff {r : Nat} (hr : validRune r) :
    (encodeRune r).length = 1 ↔ ∀ b ∈ encodeRune r, b.toNat < 0x80 := by
  have hd := decodeRune_encodeRune hr []
  rw [List.append_nil] at hd
  obtain ⟨b, t, he⟩ := List.exists_cons_of_ne_nil (by simpa using encodeRune_ne_nil r [])
  rw [he] at hd ⊢
  constructor
  · intro h1 c hc
    obtain rfl : t = [] := List.eq_nil_of_length_eq_zero (by simpa using h1)
    obtain rfl := List.mem_singleton.1 hc
    by_contra hb
    rw [decodeRune_single (by omega)] at hd
    obtain ⟨rfl, -⟩ := Prod.mk.inj hd
    have h3 := congrArg List.length he
    rw [List.length_singleton] at h3
    exact absurd h3 (by decide)
  · intro h
    rw [decodeRune_ascii (h b (List.mem_cons_self _ _))] at hd
    exact (Prod.mk.inj hd).2.symm

theorem length_flatten_le (l : List Nat) :
    ((l.map encodeRune).flatten).length ≤ (l.flatMap writtenRune).length := by
  induction l with
  | nil => simp
  | cons r l ih =>
    simp only [List.map_cons, List.flatten_cons, List.flatMap_cons, List.length_append,
      length_writtenRune]
    omega

theorem length_encodeRune_of_length_eq {l : List Nat}
    (h : (l.flatMap writtenRune).length = ((l.map encodeRune).flatten).length) :
    ∀ r ∈ l, (encodeRune r).length = 1 := by
  induction l with
  | nil => simp
  | cons r l ih =>
    simp only [List.map_cons, List.flatten_cons, List.flatMap_cons, List.length_append,
      length_writtenRune] at h
    have hle := length_flatten_le l
    have hpos := List.length_pos.2 (by simpa using encodeRune_ne_nil r [])
    rw [List.forall_mem_cons]
    exact ⟨by omega, ih (by omega)⟩

/-- Literal text is written unchanged exactly when it is ASCII. -/
theorem writtenText_eq_self_iff {text : List UInt8} (hv : validString text) :
    writtenText text = text ↔ ∀ b ∈ text, b.toNat < 0x80 := by
  have htext := flatten_encodeRune_runes hv
  have hvalid : ∀ r ∈ runes text, validRune r := fun r => validRune_of_mem_runes
  have hone : (∀ r ∈ runes text, (encodeRune r).length = 1) ↔ ∀ b ∈ text, b.toNat < 0x80 := by
    conv_rhs => rw [← htext]
    simp only [List.mem_flatten, List.mem_map]
    constructor
    · rintro h b ⟨_, ⟨r, hr, rfl⟩, hb⟩
      exact (length_encodeRune_eq_one_iff (hvalid r hr)).1 (h r hr) b hb
    · exact fun h r hr => (length_encodeRune_eq_one_iff (hvalid r hr)).2
        fun b hb => h b ⟨_, ⟨r, hr, rfl⟩, hb⟩
  rw [← hone, writtenText]
  constructor
  · intro h
    exact length_encodeRune_of_length_eq (by rw [h, htext])
  · intro h
    conv_rhs => rw [← htext]
    show ((runes text).map writtenRune).flatten = _
    exact congrArg _ (List.map_congr_left fun r hr => by simp [writtenRune, h r hr])

/-- **`Sprintf` on literal text beyond ASCII.**  For every valid UTF-8 text without `{` and
every rest of the format, `Sprintf(text ++ rest)` writes `writtenText text` and then what
`Sprintf(rest)` writes: each rune of the text, followed by one `U+FFFD` for each continuation
byte of its encoding.  The text is written unchanged exactly when it is ASCII. -/
theorem sprintf_text_append {text : List UInt8} (hv : validString text) (hbrace : 0x7B ∉ text)
    (rest : List UInt8) :
    sprintf sprint args (text ++ rest) = (writtenText text ++ ·) <$> sprintf sprint args rest ∧
      (writtenText text = text ↔ ∀ b ∈ text, b.toNat < 0x80) := by
  have htext := flatten_encodeRune_runes hv
  have hrunes : ∀ r ∈ runes text, validRune r ∧ r ≠ 0x7B := fun r hr =>
    ⟨validRune_of_mem_runes hr, by
      rintro rfl
      exact hbrace (htext ▸ List.mem_flatten.2 ⟨_, List.mem_map.2 ⟨_, hr, rfl⟩, by decide⟩)⟩
  have hloop := sprintfLoop_runes sprint args hrunes rest 0 []
  rw [htext, List.nil_append] at hloop
  refine ⟨?_, writtenText_eq_self_iff hv⟩
  rw [sprintf, sprintf, hloop, ← List.append_nil ((runes text).flatMap writtenRune),
    sprintfLoop_append_out]
  rfl

theorem sprintf_text_append_e_acute :
    validString [0xC3, 0xA9] ∧ 0x7B ∉ ([0xC3, 0xA9] : List UInt8) ∧
      (sprintf id [[0x78]] ([0xC3, 0xA9] ++ [0x7B, 0x7D]) =
          (writtenText [0xC3, 0xA9] ++ ·) <$> sprintf id [[0x78]] [0x7B, 0x7D] ∧
        (writtenText [0xC3, 0xA9] = [0xC3, 0xA9] ↔ ∀ b ∈ ([0xC3, 0xA9] : List UInt8), b.toNat < 0x80)) :=
  have hv : validString [0xC3, 0xA9] := by
    rw [validString, if_neg (by decide), show decodeRune [0xC3, 0xA9] = (0xE9, 2) by decide]
    simp [validString]
  ⟨hv, by decide, sprintf_text_append id [[0x78]] hv (by decide) _⟩

end Varfmt
