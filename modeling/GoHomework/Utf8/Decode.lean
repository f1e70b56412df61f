import Mathlib.Data.List.Basic

/-!
# UTF-8 as Go's `unicode/utf8` decodes it

The functions of `unicode/utf8` the repository calls, on byte strings `List UInt8`:
`DecodeRuneInString` (`decodeRune`), `DecodeLastRuneInString` (`decodeLastRune`), and the
encoder behind `strings.Builder.WriteRune` and `string([]rune)` (`encodeRune`); and the
conversion `[]rune(s)` (`runes`), which decodes forwards exactly as `DecodeRuneInString` does,
turning each byte that starts no valid encoding into `U+FFFD`.

A rune is a natural number: every rune here comes from the decoder, which yields none below
zero.  The decoder's masks are written as arithmetic: `s0 & mask2` is `s0 % 32`, `x << 6` is
`x * 64`, and `|` joins bit ranges that do not overlap, so it is `+`.

The facts proved here are the ones the callers need: a decoding step reads only its own
sequence (`decodeRune_append`), valid sequences round-trip through the encoder
(`encodeRune_decodeRune`), and forward decoding splits at every byte that can start a rune
(`runes_append`).
-/

namespace Utf8

/-- `utf8.RuneError`, `U+FFFD`. -/
def runeError : Nat := 0xFFFD

/-- `utf8.RuneSelf`: bytes below it are runes of their own. -/
def runeSelf : Nat := 0x80

/-- `utf8.UTFMax`. -/
def utfMax : Nat := 4

/-- A continuation byte, `locb ≤ b ≤ hicb`. -/
def IsCont (b : UInt8) : Prop := 0x80 ≤ b.toNat ∧ b.toNat ≤ 0xBF

instance (b : UInt8) : Decidable (IsCont b) := inferInstanceAs (Decidable (_ ∧ _))

/-- `utf8.RuneStart(b)`: `b & 0xC0 != 0x80`, the byte is not a continuation byte. -/
def runeStart (b : UInt8) : Bool := !decide (IsCont b)

/-- The `first` table for a byte at or above `RuneSelf`: the size of the sequence it leads
and the accept range of the second byte, or `none` for the bytes marked `xx`. -/
def first (b : Nat) : Option (Nat × Nat × Nat) :=
  if 0xC2 ≤ b ∧ b ≤ 0xDF then some (2, 0x80, 0xBF)
  else if b = 0xE0 then some (3, 0xA0, 0xBF)
  else if 0xE1 ≤ b ∧ b ≤ 0xEC then some (3, 0x80, 0xBF)
  else if b = 0xED then some (3, 0x80, 0x9F)
  else if 0xEE ≤ b ∧ b ≤ 0xEF then some (3, 0x80, 0xBF)
  else if b = 0xF0 then some (4, 0x90, 0xBF)
  else if 0xF1 ≤ b ∧ b ≤ 0xF3 then some (4, 0x80, 0xBF)
  else if b = 0xF4 then some (4, 0x80, 0x8F)
  else none

/-- `DecodeRuneInString` after a leading byte `s0` of a `sz`-byte sequence whose second byte
must lie in `[lo, hi]`: the rune and its size, or `(RuneError, 1)`. -/
def decodeTail (s0 sz lo hi : Nat) : List UInt8 → Nat × Nat
  | s1 :: s =>
    if ¬(lo ≤ s1.toNat ∧ s1.toNat ≤ hi) then (runeError, 1)
    else if sz ≤ 2 then ((s0 % 32) * 64 + s1.toNat % 64, 2)
    else
      match s with
      | s2 :: s =>
        if ¬IsCont s2 then (runeError, 1)
        else if sz ≤ 3 then ((s0 % 16) * 4096 + (s1.toNat % 64) * 64 + s2.toNat % 64, 3)
        else
          match s with
          | s3 :: _ =>
            if ¬IsCont s3 then (runeError, 1)
            else ((s0 % 8) * 262144 + (s1.toNat % 64) * 4096 + (s2.toNat % 64) * 64 +
              s3.toNat % 64, 4)
          | [] => (runeError, 1)
      | [] => (runeError, 1)
  | [] => (runeError, 1)

/-- `utf8.DecodeRuneInString(s)`: the first rune and its width in bytes. -/
def decodeRune : List UInt8 → Nat × Nat
  | [] => (runeError, 0)
  | s0 :: s =>
    if s0.toNat < runeSelf then (s0.toNat, 1)
    else
      match first s0.toNat with
      | none => (runeError, 1)
      | some (sz, lo, hi) => decodeTail s0.toNat sz lo hi s

/-- The encoding `utf8.EncodeRune` writes for a rune (`WriteRune`, `string([]rune)`); runes
above `MaxRune` and surrogate halves are written as `RuneError`. -/
def encodeRune (r : Nat) : List UInt8 :=
  if r ≤ 0x7F then [r.toUInt8]
  else if r ≤ 0x7FF then [(0xC0 + r / 64).toUInt8, (0x80 + r % 64).toUInt8]
  else if 0x10FFFF < r ∨ (0xD800 ≤ r ∧ r ≤ 0xDFFF) then [0xEF, 0xBF, 0xBD]
  else if r ≤ 0xFFFF then
    [(0xE0 + r / 4096).toUInt8, (0x80 + r / 64 % 64).toUInt8, (0x80 + r % 64).toUInt8]
  else
    [(0xF0 + r / 262144).toUInt8, (0x80 + r / 4096 % 64).toUInt8,
      (0x80 + r / 64 % 64).toUInt8, (0x80 + r % 64).toUInt8]

/-- `utf8.ValidRune(r)`: a Unicode scalar value, not a surrogate half. -/
def validRune (r : Nat) : Bool := r < 0xD800 || (0xDFFF < r && r ≤ 0x10FFFF)

/-! ## Bytes -/

theorem toNat_toUInt8 {n : Nat} (h : n < 256) : n.toUInt8.toNat = n :=
  UInt8.toNat_ofNat_of_lt h

theorem toUInt8_eq {n : Nat} {b : UInt8} (h : n = b.toNat) : n.toUInt8 = b :=
  UInt8.toNat.inj (by rw [toNat_toUInt8 (h ▸ UInt8.toNat_lt_size b), h])

theorem isCont_iff (b : UInt8) : IsCont b ↔ 0x80 ≤ b.toNat ∧ b.toNat ≤ 0xBF := Iff.rfl

theorem first_two {x : Nat} (h₁ : 0xC2 ≤ x) (h₂ : x ≤ 0xDF) : first x = some (2, 0x80, 0xBF) := by
  rw [first, if_pos ⟨h₁, h₂⟩]

theorem first_three {x : Nat} (h₁ : 0xE0 ≤ x) (h₂ : x ≤ 0xEF) :
    first x = some (3, if x = 0xE0 then 0xA0 else 0x80, if x = 0xED then 0x9F else 0xBF) := by
  rcases (show x = 0xE0 ∨ (0xE1 ≤ x ∧ x ≤ 0xEC) ∨ x = 0xED ∨ (0xEE ≤ x ∧ x ≤ 0xEF) by omega)
    with rfl | h | rfl | h <;>
    simp (disch := omega) only [first, if_pos, if_neg, if_true, if_false]

theorem first_four {x : Nat} (h₁ : 0xF0 ≤ x) (h₂ : x ≤ 0xF4) :
    first x = some (4, if x = 0xF0 then 0x90 else 0x80, if x = 0xF4 then 0x8F else 0xBF) := by
  rcases (show x = 0xF0 ∨ (0xF1 ≤ x ∧ x ≤ 0xF3) ∨ x = 0xF4 by omega)
    with rfl | h | rfl <;>
    simp (disch := omega) only [first, if_pos, if_neg, if_true, if_false]

theorem first_none {x : Nat} (h : x < 0xC2 ∨ 0xF4 < x) : first x = none := by
  simp (disch := omega) only [first, if_neg]

/-- The entries of `first`, by the length of the sequence they lead. -/
theorem first_cases {x n lo hi : Nat} (h : first x = some (n, lo, hi)) :
    (n = 2 ∧ 0xC2 ≤ x ∧ x ≤ 0xDF ∧ lo = 0x80 ∧ hi = 0xBF) ∨
    (n = 3 ∧ 0xE0 ≤ x ∧ x ≤ 0xEF ∧ lo = (if x = 0xE0 then 0xA0 else 0x80) ∧
      hi = (if x = 0xED then 0x9F else 0xBF)) ∨
    (n = 4 ∧ 0xF0 ≤ x ∧ x ≤ 0xF4 ∧ lo = (if x = 0xF0 then 0x90 else 0x80) ∧
      hi = (if x = 0xF4 then 0x8F else 0xBF)) := by
  rcases (show x < 0xC2 ∨ 0xF4 < x ∨ (0xC2 ≤ x ∧ x ≤ 0xDF) ∨ (0xE0 ≤ x ∧ x ≤ 0xEF) ∨
      (0xF0 ≤ x ∧ x ≤ 0xF4) by omega) with h' | h' | h' | h' | h'
  · rw [first_none (Or.inl h')] at h; cases h
  · rw [first_none (Or.inr h')] at h; cases h
  · rw [first_two h'.1 h'.2] at h; cases h; exact Or.inl ⟨rfl, h'.1, h'.2, rfl, rfl⟩
  · rw [first_three h'.1 h'.2] at h; cases h; exact Or.inr (Or.inl ⟨rfl, h'.1, h'.2, rfl, rfl⟩)
  · rw [first_four h'.1 h'.2] at h; cases h; exact Or.inr (Or.inr ⟨rfl, h'.1, h'.2, rfl, rfl⟩)

/-- Every entry of `first` leads a sequence of two to four bytes whose second byte is a
continuation byte. -/
theorem first_spec {b sz lo hi : Nat} (h : first b = some (sz, lo, hi)) :
    2 ≤ sz ∧ sz ≤ 4 ∧ 0xC2 ≤ b ∧ b ≤ 0xF4 ∧ 0x80 ≤ lo ∧ hi ≤ 0xBF := by
  rcases first_cases h with ⟨rfl, h₁, h₂, rfl, rfl⟩ | ⟨rfl, h₁, h₂, rfl, rfl⟩ |
    ⟨rfl, h₁, h₂, rfl, rfl⟩ <;> (try split_ifs) <;> omega

/-! ## `decodeTail` -/

/-- `decodeTail` fails with `(RuneError, 1)` or reads two to four bytes it has. -/
theorem decodeTail_size (s0 sz lo hi : Nat) (t : List UInt8) :
    decodeTail s0 sz lo hi t = (runeError, 1) ∨
      (2 ≤ (decodeTail s0 sz lo hi t).2 ∧ (decodeTail s0 sz lo hi t).2 ≤ t.length + 1 ∧
        (decodeTail s0 sz lo hi t).2 ≤ 4) := by
  rcases t with _ | ⟨s1, _ | ⟨s2, _ | ⟨s3, t⟩⟩⟩ <;> simp only [decodeTail] <;>
    (try split_ifs) <;> simp

/-- A `decodeTail` for a sequence of two to four bytes fails or reads them all. -/
theorem decodeTail_snd (s0 sz lo hi : Nat) (t : List UInt8) (h₁ : 2 ≤ sz) (h₂ : sz ≤ 4) :
    (decodeTail s0 sz lo hi t).2 = 1 ∨ (decodeTail s0 sz lo hi t).2 = sz := by
  rcases t with _ | ⟨s1, _ | ⟨s2, _ | ⟨s3, t⟩⟩⟩ <;> simp only [decodeTail] <;>
    (try split_ifs) <;> simp <;> omega

/-- A `decodeTail` that reads its two bytes in full. -/
theorem decodeTail_two {s0 lo hi r : Nat} {t : List UInt8} (h : decodeTail s0 2 lo hi t = (r, 2)) :
    ∃ s1 t', t = s1 :: t' ∧ lo ≤ s1.toNat ∧ s1.toNat ≤ hi ∧ r = s0 % 32 * 64 + s1.toNat % 64 := by
  rcases t with _ | ⟨s1, t⟩
  · cases h
  · by_cases h₁ : lo ≤ s1.toNat ∧ s1.toNat ≤ hi
    · simp only [decodeTail, h₁, and_self, not_true_eq_false, if_false, le_refl, if_true,
        Prod.mk.injEq] at h
      exact ⟨s1, t, rfl, h₁.1, h₁.2, h.1.symm⟩
    · simp [decodeTail, h₁] at h

/-- A `decodeTail` that reads its three bytes in full. -/
theorem decodeTail_three {s0 lo hi r : Nat} {t : List UInt8}
    (h : decodeTail s0 3 lo hi t = (r, 3)) :
    ∃ s1 s2 t', t = s1 :: s2 :: t' ∧ lo ≤ s1.toNat ∧ s1.toNat ≤ hi ∧ IsCont s2 ∧
      r = s0 % 16 * 4096 + s1.toNat % 64 * 64 + s2.toNat % 64 := by
  rcases t with _ | ⟨s1, _ | ⟨s2, t⟩⟩
  · cases h
  · simp only [decodeTail] at h; split_ifs at h <;> cases h
  · by_cases h₁ : lo ≤ s1.toNat ∧ s1.toNat ≤ hi
    · by_cases h₂ : IsCont s2
      · simp only [decodeTail, h₁, h₂, and_self, not_true_eq_false, if_false, le_refl, if_true,
          show ¬ (3 ≤ 2) by omega, Prod.mk.injEq] at h
        exact ⟨s1, s2, t, rfl, h₁.1, h₁.2, h₂, h.1.symm⟩
      · simp [decodeTail, h₁, h₂] at h
    · simp [decodeTail, h₁] at h

/-- A `decodeTail` that reads its four bytes in full. -/
theorem decodeTail_four {s0 lo hi r : Nat} {t : List UInt8}
    (h : decodeTail s0 4 lo hi t = (r, 4)) :
    ∃ s1 s2 s3 t', t = s1 :: s2 :: s3 :: t' ∧ lo ≤ s1.toNat ∧ s1.toNat ≤ hi ∧ IsCont s2 ∧
      IsCont s3 ∧
      r = s0 % 8 * 262144 + s1.toNat % 64 * 4096 + s2.toNat % 64 * 64 + s3.toNat % 64 := by
  rcases t with _ | ⟨s1, _ | ⟨s2, _ | ⟨s3, t⟩⟩⟩
  · cases h
  · simp only [decodeTail] at h; split_ifs at h <;> cases h
  · simp only [decodeTail] at h; split_ifs at h <;> cases h
  · by_cases h₁ : lo ≤ s1.toNat ∧ s1.toNat ≤ hi
    · by_cases h₂ : IsCont s2
      · by_cases h₃ : IsCont s3
        · simp only [decodeTail, h₁, h₂, h₃, and_self, not_true_eq_false, if_false,
            show ¬ (4 ≤ 2) by omega, show ¬ (4 ≤ 3) by omega, Prod.mk.injEq] at h
          exact ⟨s1, s2, s3, t, rfl, h₁.1, h₁.2, h₂, h₃, h.1.symm⟩
        · simp [decodeTail, h₁, h₂, h₃] at h
      · simp [decodeTail, h₁, h₂] at h
    · simp [decodeTail, h₁] at h

/-- What `decodeTail` reads after the leading byte are continuation bytes. -/
theorem decodeTail_cont {s0 sz lo hi : Nat} {t : List UInt8} (h₁ : 2 ≤ sz) (h₂ : sz ≤ 4)
    (hlo : 0x80 ≤ lo) (hhi : hi ≤ 0xBF) (h : 2 ≤ (decodeTail s0 sz lo hi t).2) :
    ∀ c ∈ t.take ((decodeTail s0 sz lo hi t).2 - 1), IsCont c := by
  have hsz := decodeTail_snd s0 sz lo hi t h₁ h₂
  generalize hd : decodeTail s0 sz lo hi t = d at h hsz ⊢
  obtain ⟨r, n⟩ := d
  obtain rfl : n = sz := by simp only at h hsz; omega
  rcases (show n = 2 ∨ n = 3 ∨ n = 4 by omega) with rfl | rfl | rfl
  · obtain ⟨s1, t, rfl, hl, hh, -⟩ := decodeTail_two hd
    simp only [List.take_succ_cons, List.take_zero, List.mem_singleton, forall_eq, isCont_iff]
    omega
  · obtain ⟨s1, s2, t, rfl, hl, hh, hs2, -⟩ := decodeTail_three hd
    rw [isCont_iff] at hs2
    simp only [List.take_succ_cons, List.take_zero, List.mem_cons, List.not_mem_nil, or_false,
      forall_eq_or_imp, forall_eq, isCont_iff]
    omega
  · obtain ⟨s1, s2, s3, t, rfl, hl, hh, hs2, hs3, -⟩ := decodeTail_four hd
    rw [isCont_iff] at hs2 hs3
    simp only [List.take_succ_cons, List.take_zero, List.mem_cons, List.not_mem_nil, or_false,
      forall_eq_or_imp, forall_eq, isCont_iff]
    omega

/-- A `decodeTail` that stays within `t` reads nothing of what follows. -/
theorem decodeTail_append {s0 sz lo hi : Nat} {t q : List UInt8}
    (h : (decodeTail s0 sz lo hi (t ++ q)).2 ≤ t.length + 1) :
    decodeTail s0 sz lo hi (t ++ q) = decodeTail s0 sz lo hi t := by
  rcases t with _ | ⟨s1, _ | ⟨s2, _ | ⟨s3, t⟩⟩⟩
  · rcases decodeTail_size s0 sz lo hi q with h' | h'
    · exact h'
    · simp at h; omega
  · simp only [decodeTail, List.cons_append, List.nil_append] at h ⊢
    split_ifs at h ⊢ <;> try rfl
    all_goals rcases q with _ | ⟨s2, _ | ⟨s3, q⟩⟩ <;> simp only at h ⊢ <;>
      (try split_ifs at h ⊢) <;> simp_all
  · simp only [decodeTail, List.cons_append, List.nil_append] at h ⊢
    split_ifs at h ⊢ <;> try rfl
    all_goals (rcases q with _ | ⟨s3, q⟩ <;> simp only at h ⊢; (try split_ifs at h ⊢) <;>
      simp_all)
  · rfl

/-! ## `decodeRune` -/

@[simp] theorem decodeRune_nil : decodeRune [] = (runeError, 0) := rfl

/-- An ASCII byte is a rune of its own, one byte long. -/
theorem decodeRune_ascii {b : UInt8} (hb : b.toNat < 0x80) (t : List UInt8) :
    decodeRune (b :: t) = (b.toNat, 1) := by
  rw [decodeRune, if_pos (show b.toNat < runeSelf from hb)]

/-- An ASCII rune is written as its one byte. -/
theorem encodeRune_ascii {b : UInt8} (hb : b.toNat < 0x80) : encodeRune b.toNat = [b] := by
  rw [encodeRune, if_pos (by omega), toUInt8_eq rfl]

/-- A decoding step on a non-empty string reads one to four bytes that it has. -/
theorem decodeRune_size {s : List UInt8} (hs : s ≠ []) :
    1 ≤ (decodeRune s).2 ∧ (decodeRune s).2 ≤ s.length ∧ (decodeRune s).2 ≤ 4 := by
  obtain ⟨s0, t, rfl⟩ := List.exists_cons_of_ne_nil hs
  simp only [decodeRune]
  split_ifs
  · simp
  · cases hf : first s0.toNat with
    | none => simp
    | some e =>
      obtain ⟨sz, lo, hi⟩ := e
      rcases decodeTail_size s0.toNat sz lo hi t with h | h
      · simp [h]
      · simp only [List.length_cons]; omega

/-- A step of one byte is an ASCII byte or an error. -/
theorem decodeRune_eq_of_size_one {s : List UInt8} (h : (decodeRune s).2 = 1) :
    decodeRune s = (runeError, 1) ∨
      ∃ b t, s = b :: t ∧ b.toNat < 0x80 ∧ decodeRune s = (b.toNat, 1) := by
  match s with
  | [] => simp at h
  | b :: t =>
    simp only [decodeRune] at h ⊢
    split_ifs at h ⊢ with hb
    · exact Or.inr ⟨b, t, rfl, hb, rfl⟩
    · cases hf : first b.toNat with
      | none => exact Or.inl rfl
      | some e =>
        obtain ⟨sz, lo, hi⟩ := e
        simp only [hf] at h ⊢
        rcases decodeTail_size b.toNat sz lo hi t with h' | h'
        · exact Or.inl h'
        · omega

/-- The bytes a decoding step reads after the first are continuation bytes. -/
theorem decodeRune_cont {s : List UInt8} (h : 2 ≤ (decodeRune s).2) :
    ∀ c ∈ (s.take (decodeRune s).2).tail, IsCont c := by
  match s with
  | [] => simp at h
  | b :: t =>
    simp only [decodeRune] at h ⊢
    split_ifs at h ⊢
    · omega
    · cases hf : first b.toNat with
      | none => simp only [hf] at h; omega
      | some e =>
        obtain ⟨sz, lo, hi⟩ := e
        simp only [hf] at h ⊢
        obtain ⟨h₁, h₂, -, -, hlo, hhi⟩ := first_spec hf
        have := decodeTail_cont h₁ h₂ hlo hhi h
        obtain ⟨n, hn⟩ : ∃ n, (decodeTail b.toNat sz lo hi t).2 = n + 1 :=
          ⟨_, (Nat.succ_pred_eq_of_pos (by omega)).symm⟩
        rw [hn] at this ⊢
        simpa using this

/-- **A decoding step reads only its own bytes**: if it stays within `p`, then nothing after
`p` changes it. -/
theorem decodeRune_append_of_le {p q : List UInt8} (hp : p ≠ [])
    (h : (decodeRune (p ++ q)).2 ≤ p.length) : decodeRune (p ++ q) = decodeRune p := by
  obtain ⟨s0, t, rfl⟩ := List.exists_cons_of_ne_nil hp
  simp only [List.cons_append, decodeRune] at h ⊢
  split_ifs at h ⊢
  · rfl
  · cases hf : first s0.toNat with
    | none => rfl
    | some e =>
      obtain ⟨sz, lo, hi⟩ := e
      simp only [hf] at h ⊢
      exact decodeTail_append (by simpa using h)

/-- A string that continues no sequence: empty, or starting with a byte that `RuneStart`
accepts. -/
def StartsRune : List UInt8 → Prop
  | [] => True
  | c :: _ => ¬IsCont c

/-- **Decoding stops at a rune start**: a step never reads into a string that starts with a
byte `RuneStart` accepts. -/
theorem decodeRune_append {p q : List UInt8} (hp : p ≠ []) (hq : StartsRune q) :
    decodeRune (p ++ q) = decodeRune p := by
  cases q with
  | nil => rw [List.append_nil]
  | cons c q' =>
    apply decodeRune_append_of_le hp
    by_contra hlt
    push_neg at hlt
    obtain ⟨p0, p', rfl⟩ := List.exists_cons_of_ne_nil hp
    simp only [List.length_cons] at hlt
    have hc := decodeRune_cont (show 2 ≤ (decodeRune (p0 :: p' ++ c :: q')).2 by omega)
    obtain ⟨k, hk⟩ : ∃ k, (decodeRune (p0 :: p' ++ c :: q')).2 = p'.length + 1 + (k + 1) :=
      ⟨(decodeRune (p0 :: p' ++ c :: q')).2 - p'.length - 2, by omega⟩
    apply hq (hc c _)
    rw [hk, List.cons_append, Nat.add_right_comm, List.take_succ_cons, List.tail_cons,
      List.take_append_eq_append_take]
    simp

/-- A continuation byte starts no sequence. -/
theorem decodeRune_of_cont {c : UInt8} (hc : IsCont c) (t : List UInt8) :
    decodeRune (c :: t) = (runeError, 1) := by
  rw [isCont_iff] at hc
  simp only [decodeRune, if_neg (show ¬c.toNat < runeSelf by unfold runeSelf; omega),
    first_none (show c.toNat < 0xC2 ∨ 0xF4 < c.toNat by omega)]

/-- A lone byte at or above `RuneSelf` is an error. -/
theorem decodeRune_single {b : UInt8} (hb : 0x80 ≤ b.toNat) : decodeRune [b] = (runeError, 1) := by
  simp only [decodeRune, if_neg (show ¬b.toNat < runeSelf by unfold runeSelf; omega)]
  split
  · rfl
  · rfl

/-! ## Forward decoding, `[]rune(s)` -/

/-- `[]rune(s)`: the runes of forward decoding, each invalid byte giving `RuneError`. -/
def runes (s : List UInt8) : List Nat :=
  if s = [] then [] else (decodeRune s).1 :: runes (s.drop (decodeRune s).2)
termination_by s.length
decreasing_by
  have h : s ≠ [] := by assumption
  have := (decodeRune_size h).1
  simp only [List.length_drop]
  have := List.length_pos.2 h
  omega

@[simp] theorem runes_nil : runes [] = [] := by rw [runes, if_pos rfl]

theorem runes_of_ne_nil {s : List UInt8} (hs : s ≠ []) :
    runes s = (decodeRune s).1 :: runes (s.drop (decodeRune s).2) := by
  rw [runes, if_neg hs]

/-- A string decoded in one step of its full length is one rune. -/
theorem runes_of_size_eq {s : List UInt8} (hs : s ≠ []) (h : (decodeRune s).2 = s.length) :
    runes s = [(decodeRune s).1] := by
  rw [runes_of_ne_nil hs, h, List.drop_length, runes_nil]

/-- **Forward decoding splits at every rune start.** -/
theorem runes_append {p q : List UInt8} (hq : StartsRune q) :
    runes (p ++ q) = runes p ++ runes q := by
  induction p using runes.induct with
  | case1 => simp
  | case2 p hp ih =>
    have hsz := decodeRune_size hp
    rw [runes_of_ne_nil (List.append_ne_nil_of_left_ne_nil hp q), runes_of_ne_nil hp,
      decodeRune_append hp hq, List.drop_append_of_le_length hsz.2.1, ih, List.cons_append]

/-- Continuation bytes on their own are errors, one each. -/
theorem runes_of_cont {l : List UInt8} (hl : ∀ c ∈ l, IsCont c) :
    runes l = List.replicate l.length runeError := by
  induction l with
  | nil => simp
  | cons c l ih =>
    simp only [List.mem_cons, forall_eq_or_imp] at hl
    rw [runes_of_ne_nil (List.cons_ne_nil c l), decodeRune_of_cont hl.1]
    simp [ih hl.2, List.replicate_succ]

/-- A rune start followed by continuation bytes: one step, then an error per continuation
byte it did not read. -/
theorem runes_lead_conts {c : UInt8} {conts : List UInt8} (hl : ∀ d ∈ conts, IsCont d) :
    runes (c :: conts) = (decodeRune (c :: conts)).1 ::
      List.replicate (conts.length + 1 - (decodeRune (c :: conts)).2) runeError := by
  rw [runes_of_ne_nil (List.cons_ne_nil c conts)]
  have h1 := (decodeRune_size (List.cons_ne_nil c conts)).1
  obtain ⟨n, hn⟩ : ∃ n, (decodeRune (c :: conts)).2 = n + 1 :=
    ⟨_, (Nat.succ_pred_eq_of_pos h1).symm⟩
  rw [hn, List.drop_succ_cons, runes_of_cont (fun d hd => hl d (List.mem_of_mem_drop hd))]
  simp

/-! ## Round trips with the encoder -/

/-- A decoding step of two or more bytes is a sequence led by a byte of `first`. -/
theorem decodeRune_lead {b : UInt8} {t : List UInt8} {r n : Nat}
    (h : decodeRune (b :: t) = (r, n)) (hn : 2 ≤ n) :
    ∃ lo hi, first b.toNat = some (n, lo, hi) ∧ decodeTail b.toNat n lo hi t = (r, n) := by
  simp only [decodeRune] at h
  split_ifs at h
  · cases h; omega
  · cases hf : first b.toNat with
    | none => simp only [hf] at h; cases h; omega
    | some e =>
      obtain ⟨sz, lo, hi⟩ := e
      simp only [hf] at h
      obtain ⟨h₁, h₂, -⟩ := first_spec hf
      have hsz := decodeTail_snd b.toNat sz lo hi t h₁ h₂
      rw [h] at hsz
      obtain rfl : sz = n := by simp only at hsz; omega
      exact ⟨lo, hi, rfl, h⟩

/-- **A two-byte step** reads a lead `C2`–`DF` and a continuation byte. -/
theorem decodeRune_two {s : List UInt8} {r : Nat} (h : decodeRune s = (r, 2)) :
    ∃ b s1 t, s = b :: s1 :: t ∧ 0xC2 ≤ b.toNat ∧ b.toNat ≤ 0xDF ∧ IsCont s1 ∧
      r = b.toNat % 32 * 64 + s1.toNat % 64 := by
  match s with
  | [] => cases h
  | b :: t =>
    obtain ⟨lo, hi, hf, ht⟩ := decodeRune_lead h (by omega)
    rcases first_cases hf with ⟨-, hb₁, hb₂, rfl, rfl⟩ | ⟨h3, -⟩ | ⟨h4, -⟩ <;> try omega
    obtain ⟨s1, t, rfl, hlo, hhi, rfl⟩ := decodeTail_two ht
    exact ⟨b, s1, t, rfl, hb₁, hb₂, ⟨hlo, hhi⟩, rfl⟩

/-- **A three-byte step** reads a lead `E0`–`EF` and two continuation bytes, the first in
the narrower range after `E0` (no overlong form) and `ED` (no surrogate). -/
theorem decodeRune_three {s : List UInt8} {r : Nat} (h : decodeRune s = (r, 3)) :
    ∃ b s1 s2 t, s = b :: s1 :: s2 :: t ∧ 0xE0 ≤ b.toNat ∧ b.toNat ≤ 0xEF ∧ IsCont s1 ∧
      IsCont s2 ∧ (b.toNat = 0xE0 → 0xA0 ≤ s1.toNat) ∧ (b.toNat = 0xED → s1.toNat ≤ 0x9F) ∧
      r = b.toNat % 16 * 4096 + s1.toNat % 64 * 64 + s2.toNat % 64 := by
  match s with
  | [] => cases h
  | b :: t =>
    obtain ⟨lo, hi, hf, ht⟩ := decodeRune_lead h (by omega)
    rcases first_cases hf with ⟨h2, -⟩ | ⟨-, hb₁, hb₂, rfl, rfl⟩ | ⟨h4, -⟩ <;> try omega
    obtain ⟨s1, s2, t, rfl, hlo, hhi, hs2, rfl⟩ := decodeTail_three ht
    refine ⟨b, s1, s2, t, rfl, hb₁, hb₂, ?_, hs2, fun hb => ?_, fun hb => ?_, rfl⟩
    · rw [isCont_iff]; split_ifs at hlo hhi <;> omega
    · rwa [if_pos hb] at hlo
    · rwa [if_pos hb] at hhi

/-- **A four-byte step** reads a lead `F0`–`F4` and three continuation bytes, the first in
the narrower range after `F0` (no overlong form) and `F4` (nothing above `U+10FFFF`). -/
theorem decodeRune_four {s : List UInt8} {r : Nat} (h : decodeRune s = (r, 4)) :
    ∃ b s1 s2 s3 t, s = b :: s1 :: s2 :: s3 :: t ∧ 0xF0 ≤ b.toNat ∧ b.toNat ≤ 0xF4 ∧
      IsCont s1 ∧ IsCont s2 ∧ IsCont s3 ∧ (b.toNat = 0xF0 → 0x90 ≤ s1.toNat) ∧
      (b.toNat = 0xF4 → s1.toNat ≤ 0x8F) ∧
      r = b.toNat % 8 * 262144 + s1.toNat % 64 * 4096 + s2.toNat % 64 * 64 + s3.toNat % 64 := by
  match s with
  | [] => cases h
  | b :: t =>
    obtain ⟨lo, hi, hf, ht⟩ := decodeRune_lead h (by omega)
    rcases first_cases hf with ⟨h2, -⟩ | ⟨h3, -⟩ | ⟨-, hb₁, hb₂, rfl, rfl⟩ <;> try omega
    obtain ⟨s1, s2, s3, t, rfl, hlo, hhi, hs2, hs3, rfl⟩ := decodeTail_four ht
    refine ⟨b, s1, s2, s3, t, rfl, hb₁, hb₂, ?_, hs2, hs3, fun hb => ?_, fun hb => ?_, rfl⟩
    · rw [isCont_iff]; split_ifs at hlo hhi <;> omega
    · rwa [if_pos hb] at hlo
    · rwa [if_pos hb] at hhi

theorem decodeRune_of_two {b s1 : UInt8} (t : List UInt8) (hb₁ : 0xC2 ≤ b.toNat)
    (hb₂ : b.toNat ≤ 0xDF) (hs1 : IsCont s1) :
    decodeRune (b :: s1 :: t) = (b.toNat % 32 * 64 + s1.toNat % 64, 2) := by
  rw [isCont_iff] at hs1
  simp only [decodeRune, runeSelf, if_neg (show ¬b.toNat < 0x80 by omega), first_two hb₁ hb₂,
    decodeTail, if_neg (show ¬¬(0x80 ≤ s1.toNat ∧ s1.toNat ≤ 0xBF) by omega), Nat.le_refl,
    if_true]

theorem decodeRune_of_three {b s1 s2 : UInt8} (t : List UInt8) (hb₁ : 0xE0 ≤ b.toNat)
    (hb₂ : b.toNat ≤ 0xEF) (hs1 : IsCont s1) (hs2 : IsCont s2)
    (hlo : b.toNat = 0xE0 → 0xA0 ≤ s1.toNat) (hhi : b.toNat = 0xED → s1.toNat ≤ 0x9F) :
    decodeRune (b :: s1 :: s2 :: t) =
      (b.toNat % 16 * 4096 + s1.toNat % 64 * 64 + s2.toNat % 64, 3) := by
  rw [isCont_iff] at hs1
  simp only [decodeRune, runeSelf, if_neg (show ¬b.toNat < 0x80 by omega), first_three hb₁ hb₂,
    decodeTail, hs2, not_true_eq_false, if_false]
  rw [if_neg (by split_ifs <;> omega), if_neg (by omega), if_pos (by omega)]

theorem decodeRune_of_four {b s1 s2 s3 : UInt8} (t : List UInt8) (hb₁ : 0xF0 ≤ b.toNat)
    (hb₂ : b.toNat ≤ 0xF4) (hs1 : IsCont s1) (hs2 : IsCont s2) (hs3 : IsCont s3)
    (hlo : b.toNat = 0xF0 → 0x90 ≤ s1.toNat) (hhi : b.toNat = 0xF4 → s1.toNat ≤ 0x8F) :
    decodeRune (b :: s1 :: s2 :: s3 :: t) =
      (b.toNat % 8 * 262144 + s1.toNat % 64 * 4096 + s2.toNat % 64 * 64 + s3.toNat % 64, 4) := by
  rw [isCont_iff] at hs1
  simp only [decodeRune, runeSelf, if_neg (show ¬b.toNat < 0x80 by omega), first_four hb₁ hb₂,
    decodeTail, hs2, hs3, not_true_eq_false, if_false]
  rw [if_neg (by split_ifs <;> omega), if_neg (by omega), if_neg (by omega)]

theorem encodeRune_two {r : Nat} (h₁ : 0x80 ≤ r) (h₂ : r ≤ 0x7FF) :
    encodeRune r = [(0xC0 + r / 64).toUInt8, (0x80 + r % 64).toUInt8] := by
  rw [encodeRune, if_neg (by omega), if_pos h₂]

theorem encodeRune_three {r : Nat} (h₁ : 0x800 ≤ r) (h₂ : r ≤ 0xFFFF)
    (h₃ : ¬(0xD800 ≤ r ∧ r ≤ 0xDFFF)) :
    encodeRune r =
      [(0xE0 + r / 4096).toUInt8, (0x80 + r / 64 % 64).toUInt8, (0x80 + r % 64).toUInt8] := by
  rw [encodeRune, if_neg (by omega), if_neg (by omega), if_neg (by omega), if_pos h₂]

theorem encodeRune_four {r : Nat} (h₁ : 0x10000 ≤ r) (h₂ : r ≤ 0x10FFFF) :
    encodeRune r = [(0xF0 + r / 262144).toUInt8, (0x80 + r / 4096 % 64).toUInt8,
      (0x80 + r / 64 % 64).toUInt8, (0x80 + r % 64).toUInt8] := by
  rw [encodeRune, if_neg (by omega), if_neg (by omega), if_neg (by omega), if_neg (by omega)]

/-- The sizes a decoding step can have on a non-empty string. -/
theorem decodeRune_size_cases {s : List UInt8} (hs : s ≠ []) :
    (decodeRune s).2 = 1 ∨ (decodeRune s).2 = 2 ∨ (decodeRune s).2 = 3 ∨ (decodeRune s).2 = 4 := by
  have := decodeRune_size hs; omega

/-- **Decoded sequences are canonical**: a step that is not an error reads exactly the
encoding of the rune it returns. -/
theorem encodeRune_decodeRune {s : List UInt8} (hs : s ≠ []) (h : decodeRune s ≠ (runeError, 1)) :
    encodeRune (decodeRune s).1 = s.take (decodeRune s).2 := by
  have hn := decodeRune_size_cases hs
  generalize hd : decodeRune s = d at h hn ⊢
  obtain ⟨r, n⟩ := d
  dsimp only at hn ⊢
  rcases hn with rfl | rfl | rfl | rfl
  · rcases decodeRune_eq_of_size_one (by rw [hd]) with h' | ⟨b, t, rfl, hb, h'⟩
    · exact absurd (hd ▸ h') h
    · rw [hd] at h'
      cases h'
      simp [encodeRune, show b.toNat ≤ 0x7F by omega, toUInt8_eq rfl]
  · obtain ⟨b, s1, t, rfl, hb₁, hb₂, hs1, rfl⟩ := decodeRune_two hd
    rw [isCont_iff] at hs1
    rw [encodeRune_two (by omega) (by omega)]
    simp only [List.take_succ_cons, List.take_zero, List.cons.injEq, and_true]
    exact ⟨toUInt8_eq (by omega), toUInt8_eq (by omega)⟩
  · obtain ⟨b, s1, s2, t, rfl, hb₁, hb₂, hs1, hs2, hlo, hhi, rfl⟩ := decodeRune_three hd
    rw [isCont_iff] at hs1 hs2
    rw [encodeRune_three (by omega) (by omega) (by omega)]
    simp only [List.take_succ_cons, List.take_zero, List.cons.injEq, and_true]
    exact ⟨toUInt8_eq (by omega), toUInt8_eq (by omega), toUInt8_eq (by omega)⟩
  · obtain ⟨b, s1, s2, s3, t, rfl, hb₁, hb₂, hs1, hs2, hs3, hlo, hhi, rfl⟩ := decodeRune_four hd
    rw [isCont_iff] at hs1 hs2 hs3
    rw [encodeRune_four (by omega) (by omega)]
    simp only [List.take_succ_cons, List.take_zero, List.cons.injEq, and_true]
    exact ⟨toUInt8_eq (by omega), toUInt8_eq (by omega), toUInt8_eq (by omega),
      toUInt8_eq (by omega)⟩

/-- Every rune the decoder returns is a valid rune. -/
theorem validRune_decodeRune (s : List UInt8) : validRune (decodeRune s).1 := by
  by_cases hs : s = []
  · subst hs; decide
  have hn := decodeRune_size_cases hs
  generalize hd : decodeRune s = d at hn ⊢
  obtain ⟨r, n⟩ := d
  dsimp only at hn ⊢
  simp only [validRune, Bool.or_eq_true, decide_eq_true_eq, Bool.and_eq_true]
  rcases hn with rfl | rfl | rfl | rfl
  · rcases decodeRune_eq_of_size_one (by rw [hd]) with h' | ⟨b, t, rfl, hb, h'⟩
    · rw [hd] at h'; cases h'; right; decide
    · rw [hd] at h'; cases h'; omega
  · obtain ⟨b, s1, t, rfl, hb₁, hb₂, hs1, rfl⟩ := decodeRune_two hd
    omega
  · obtain ⟨b, s1, s2, t, rfl, hb₁, hb₂, hs1, hs2, hlo, hhi, rfl⟩ := decodeRune_three hd
    rw [isCont_iff] at hs1 hs2
    omega
  · obtain ⟨b, s1, s2, s3, t, rfl, hb₁, hb₂, hs1, hs2, hs3, hlo, hhi, rfl⟩ := decodeRune_four hd
    rw [isCont_iff] at hs1 hs2 hs3
    omega

/-- **Encoding then decoding** a valid rune gives it back, whatever follows. -/
theorem decodeRune_encodeRune {r : Nat} (hr : validRune r) (rest : List UInt8) :
    decodeRune (encodeRune r ++ rest) = (r, (encodeRune r).length) := by
  simp only [validRune, Bool.or_eq_true, decide_eq_true_eq, Bool.and_eq_true] at hr
  by_cases h₁ : r ≤ 0x7F
  · simp only [encodeRune, if_pos h₁, List.singleton_append, List.length_singleton, decodeRune,
      runeSelf, toNat_toUInt8 (show r < 256 by omega), if_pos (show r < 0x80 by omega)]
  by_cases h₂ : r ≤ 0x7FF
  · rw [encodeRune_two (by omega) h₂, List.cons_append, List.cons_append, List.nil_append,
      decodeRune_of_two _ (by rw [toNat_toUInt8 (by omega)]; omega)
        (by rw [toNat_toUInt8 (by omega)]; omega)
        (by rw [isCont_iff, toNat_toUInt8 (by omega)]; omega)]
    simp only [toNat_toUInt8 (show 0xC0 + r / 64 < 256 by omega),
      toNat_toUInt8 (show 0x80 + r % 64 < 256 by omega), List.length_cons, List.length_nil,
      Prod.mk.injEq, and_true]
    omega
  by_cases h₃ : r ≤ 0xFFFF
  · have hB0 := toNat_toUInt8 (show 0xE0 + r / 4096 < 256 by omega)
    have hB1 := toNat_toUInt8 (show 0x80 + r / 64 % 64 < 256 by omega)
    have hB2 := toNat_toUInt8 (show 0x80 + r % 64 < 256 by omega)
    rw [encodeRune_three (by omega) h₃ (by omega), List.cons_append, List.cons_append,
      List.cons_append, List.nil_append, decodeRune_of_three _ (by omega) (by omega)
        (by rw [isCont_iff]; omega) (by rw [isCont_iff]; omega) (by omega) (by omega)]
    simp only [hB0, hB1, hB2, List.length_cons, List.length_nil, Prod.mk.injEq, and_true]
    omega
  · have hB0 := toNat_toUInt8 (show 0xF0 + r / 262144 < 256 by omega)
    have hB1 := toNat_toUInt8 (show 0x80 + r / 4096 % 64 < 256 by omega)
    have hB2 := toNat_toUInt8 (show 0x80 + r / 64 % 64 < 256 by omega)
    have hB3 := toNat_toUInt8 (show 0x80 + r % 64 < 256 by omega)
    rw [encodeRune_four (by omega) (by omega), List.cons_append, List.cons_append,
      List.cons_append, List.cons_append, List.nil_append, decodeRune_of_four _ (by omega)
        (by omega) (by rw [isCont_iff]; omega) (by rw [isCont_iff]; omega)
        (by rw [isCont_iff]; omega) (by omega) (by omega)]
    simp only [hB0, hB1, hB2, hB3, List.length_cons, List.length_nil, Prod.mk.injEq, and_true]
    omega

/-- Every string is a part that is empty or ends in a rune start, followed by continuation
bytes. -/
theorem exists_cont_suffix (p : List UInt8) :
    ∃ a cs, p = a ++ cs ∧ (∀ d ∈ cs, IsCont d) ∧ (a = [] ∨ ∃ a' c, a = a' ++ [c] ∧ ¬IsCont c) := by
  induction p using List.reverseRecOn with
  | nil => exact ⟨[], [], rfl, by simp, Or.inl rfl⟩
  | append_singleton l c ih =>
    by_cases hc : IsCont c
    · obtain ⟨a, cs, rfl, hcs, ha⟩ := ih
      refine ⟨a, cs ++ [c], by simp, fun d hd => ?_, ha⟩
      rcases List.mem_append.1 hd with hd | hd
      · exact hcs d hd
      · rw [List.mem_singleton.1 hd]; exact hc
    · exact ⟨l ++ [c], [], by simp, by simp, Or.inr ⟨l, c, rfl, hc⟩⟩

/-- **A continuation byte at the end is an error of its own** unless it ends a sequence that
a rune start leads and that decodes in full. -/
theorem runes_append_cont {p : List UInt8} {b : UInt8} (hb : IsCont b)
    (h : ∀ x c conts, p ++ [b] = x ++ c :: conts → ¬IsCont c → (∀ d ∈ conts, IsCont d) →
      (decodeRune (c :: conts)).2 ≠ conts.length + 1) :
    runes (p ++ [b]) = runes p ++ [runeError] := by
  obtain ⟨a, cs, rfl, hcs, ha⟩ := exists_cont_suffix p
  have hall : ∀ d ∈ cs ++ [b], IsCont d := fun d hd => by
    rcases List.mem_append.1 hd with hd | hd
    · exact hcs d hd
    · rw [List.mem_singleton.1 hd]; exact hb
  rcases ha with rfl | ⟨a', c, rfl, hc⟩
  · rw [List.nil_append, runes_of_cont hcs, runes_of_cont hall]
    simp [List.replicate_succ']
  · have hn := h a' c (cs ++ [b]) (by simp) hc hall
    have hsz := (decodeRune_size (List.cons_ne_nil c (cs ++ [b]))).2.1
    simp only [List.length_cons, List.length_append, List.length_nil] at hn hsz
    have heq := @decodeRune_append_of_le (c :: cs) [b] (List.cons_ne_nil c cs) (by
      simp only [List.cons_append, List.length_cons]; omega)
    rw [List.cons_append] at heq
    rw [heq] at hn hsz
    rw [show a' ++ [c] ++ cs ++ [b] = a' ++ c :: (cs ++ [b]) by simp,
      show a' ++ [c] ++ cs = a' ++ c :: cs by simp,
      runes_append (show StartsRune (c :: (cs ++ [b])) from hc),
      runes_append (show StartsRune (c :: cs) from hc), runes_lead_conts hall,
      runes_lead_conts hcs, heq]
    rw [show (cs ++ [b]).length + 1 - (decodeRune (c :: cs)).2 =
        (cs.length + 1 - (decodeRune (c :: cs)).2) + 1 by simp; omega, List.replicate_succ']
    simp

/-! ## Valid strings -/

/-- `utf8.ValidString(s)`: forward decoding meets no byte that starts no valid encoding. -/
def validString (s : List UInt8) : Bool :=
  if s = [] then true
  else decide (decodeRune s ≠ (runeError, 1)) && validString (s.drop (decodeRune s).2)
termination_by s.length
decreasing_by
  have h : s ≠ [] := by assumption
  have := (decodeRune_size h).1
  simp only [List.length_drop]
  have := List.length_pos.2 h
  omega

/-- Every rune of forward decoding is valid. -/
theorem validRune_of_mem_runes {s : List UInt8} {r : Nat} (h : r ∈ runes s) : validRune r := by
  induction s using runes.induct with
  | case1 => simp at h
  | case2 s hs ih =>
    rw [runes_of_ne_nil hs, List.mem_cons] at h
    rcases h with rfl | h
    · exact validRune_decodeRune s
    · exact ih h

/-- **A valid string is the encoding of its runes.** -/
theorem flatten_encodeRune_runes {s : List UInt8} (h : validString s) :
    ((runes s).map encodeRune).flatten = s := by
  induction s using runes.induct with
  | case1 => simp
  | case2 s hs ih =>
    rw [validString, if_neg hs, Bool.and_eq_true, decide_eq_true_eq] at h
    rw [runes_of_ne_nil hs, List.map_cons, List.flatten_cons, ih h.2,
      encodeRune_decodeRune hs h.1, List.take_append_drop]

theorem encodeRune_ne_nil (r : Nat) (rest : List UInt8) : encodeRune r ++ rest ≠ [] := by
  apply List.append_ne_nil_of_left_ne_nil
  unfold encodeRune; split_ifs <;> simp

/-- **Decoding the encoding of valid runes gives them back.** -/
theorem runes_flatten_encodeRune {l : List Nat} (h : ∀ r ∈ l, validRune r) :
    runes ((l.map encodeRune).flatten) = l := by
  induction l with
  | nil => simp
  | cons r l ih =>
    simp only [List.mem_cons, forall_eq_or_imp] at h
    rw [List.map_cons, List.flatten_cons, runes_of_ne_nil (encodeRune_ne_nil r _),
      decodeRune_encodeRune h.1, List.drop_left, ih h.2]

/-- **The encoding of valid runes is valid UTF-8**: `RuneError` itself is written in three
bytes, so no step of decoding it meets an invalid byte. -/
theorem validString_flatten_encodeRune {l : List Nat} (h : ∀ r ∈ l, validRune r) :
    validString ((l.map encodeRune).flatten) := by
  induction l with
  | nil => simp [validString]
  | cons r l ih =>
    simp only [List.mem_cons, forall_eq_or_imp] at h
    rw [List.map_cons, List.flatten_cons, validString, if_neg (encodeRune_ne_nil r _),
      decodeRune_encodeRune h.1, List.drop_left, ih h.2, Bool.and_true, decide_eq_true_eq]
    rintro ⟨⟩

end Utf8
