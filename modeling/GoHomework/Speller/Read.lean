import GoHomework.Speller.Spell

/-!
# Reading `Spell` back

The standard English numeral reader: the text is split on spaces and hyphens; a leading
`minus` negates the rest; the words `zero` to `nineteen` and `twenty` to `ninety` add their
value to the current group, `hundred` multiplies the group by 100, and `thousand`, `million`
and `billion` add the group times `10^3`, `10^6` and `10^9` to the total and start a new
group; the number read is the total plus the group.

The main result, `readNumeral_spell`, is that the reader gives back every `n` with
`|n| < 10^12` from `Spell(n)`, so that `Spell` is injective there.  The proof reads the parts
`Spell` writes one by one: `spellRest k` makes `k` the group (`readsGroup_spellRest`), a group
with its scale word adds to the total (`ReadsTotal.addGroup`), and the words of a text follow
the way `Spell` joins its parts (`wordsOf_addPart`).
-/

namespace Speller

/-! ## The reader -/

/-- A space or a hyphen, where the reader splits. -/
def isSep (c : Char) : Bool := c == ' ' || c == '-'

/-- The words of a text: the pieces between its spaces and hyphens. -/
def words (s : String) : List String := (s.data.splitOnP isSep).map String.mk

/-- The number words and their values. -/
def numberWords : List (String × Int) :=
  [("zero", 0), ("one", 1), ("two", 2), ("three", 3), ("four", 4), ("five", 5), ("six", 6),
    ("seven", 7), ("eight", 8), ("nine", 9), ("ten", 10), ("eleven", 11), ("twelve", 12),
    ("thirteen", 13), ("fourteen", 14), ("fifteen", 15), ("sixteen", 16), ("seventeen", 17),
    ("eighteen", 18), ("nineteen", 19), ("twenty", 20), ("thirty", 30), ("forty", 40),
    ("fifty", 50), ("sixty", 60), ("seventy", 70), ("eighty", 80), ("ninety", 90)]

/-- One word read into the state `(total, group)`; `none` for a word the reader does not
know. -/
def readWord (st : Int × Int) (w : String) : Option (Int × Int) :=
  match numberWords.lookup w with
  | some v => some (st.1, st.2 + v)
  | none =>
    if w = "hundred" then some (st.1, st.2 * 100)
    else if w = "thousand" then some (st.1 + st.2 * 1000, 0)
    else if w = "million" then some (st.1 + st.2 * 1000000, 0)
    else if w = "billion" then some (st.1 + st.2 * 1000000000, 0)
    else none

/-- Words read from an empty total and group; the number is the total plus the group. -/
def readWords (ws : List String) : Option Int :=
  (ws.foldlM readWord (0, 0)).map fun st => st.1 + st.2

/-- **The numeral reader.**  A leading `minus` negates what the rest reads. -/
def readNumeral (s : String) : Option Int :=
  match words s with
  | w :: ws => if w = "minus" then (readWords ws).map (- ·) else readWords (w :: ws)
  | [] => readWords []

/-! ## Words -/

/-- Splitting a list at a separator splits the two sides apart. -/
theorem splitOnP_append_sep {α : Type} {p : α → Bool} (a t : List α) {c : α}
    (hc : p c = true) : (a ++ c :: t).splitOnP p = a.splitOnP p ++ t.splitOnP p := by
  induction a with
  | nil => simp [List.splitOnP_cons, hc]
  | cons x a ih =>
    rw [List.cons_append, List.splitOnP_cons, List.splitOnP_cons, ih]
    split_ifs
    · rfl
    · obtain ⟨w, ws, hw⟩ := List.exists_cons_of_ne_nil (List.splitOnP_ne_nil p a)
      rw [hw]; rfl

/-- The words of a text and a separator-led suffix are those of the two sides. -/
theorem words_append_sep (a : String) {b w : String} {c : Char}
    (hb : b.data = c :: w.data) (hc : isSep c = true) : words (a ++ b) = words a ++ words w := by
  unfold words
  rw [String.data_append, hb, splitOnP_append_sep _ _ hc, List.map_append]

theorem words_append_space (a b : String) : words (a ++ " " ++ b) = words a ++ words b := by
  rw [String.append_assoc]; exact words_append_sep a (w := b) rfl rfl

theorem words_append_hyphen (a b : String) : words (a ++ ("-" ++ b)) = words a ++ words b :=
  words_append_sep a (w := b) rfl rfl

/-- The words of a text, and none for the empty text. -/
def wordsOf (s : String) : List String := if s = "" then [] else words s

theorem append_space_ne_empty (a b : String) : a ++ " " ++ b ≠ "" := fun h => by
  have := congrArg String.data h
  simp at this

theorem wordsOf_addPart (r : String) {x : String} (hx : x ≠ "") :
    wordsOf (addPart r x) = wordsOf r ++ wordsOf x := by
  unfold addPart
  by_cases hr : r = ""
  · subst hr; simp [wordsOf]
  · simp only [wordsOf, if_pos hr, if_neg (append_space_ne_empty r x), if_neg hr, if_neg hx,
      words_append_space, ne_eq, not_false_eq_true]

/-! ## The number words -/

theorem mem_of_lookup {l : List (String × Int)} {w : String} {v : Int}
    (h : l.lookup w = some v) : (w, v) ∈ l := by
  induction l with
  | nil => cases h
  | cons p l ih =>
    obtain ⟨k, b⟩ := p
    rw [List.lookup_cons] at h
    split at h
    · rename_i hw
      cases h
      rw [beq_iff_eq.1 hw]
      exact List.mem_cons_self _ _
    · exact List.mem_cons_of_mem _ (ih h)

theorem numberWords_words : ∀ p ∈ numberWords, words p.1 = [p.1] ∧ p.1 ≠ "" := by decide

/-- A number word is one word of its own. -/
theorem words_of_lookup {w : String} {v : Int} (h : numberWords.lookup w = some v) :
    words w = [w] ∧ w ≠ "" :=
  numberWords_words _ (mem_of_lookup h)

theorem readWord_number {w : String} {v : Int} (h : numberWords.lookup w = some v)
    (st : Int × Int) : readWord st w = some (st.1, st.2 + v) := by
  simp only [readWord, h]

theorem lookup_ones {k : Int} (h₀ : 0 ≤ k) (h₁ : k < 10) :
    numberWords.lookup (ones.getD k.toNat "") = some k := by
  obtain ⟨d, rfl⟩ := Int.eq_ofNat_of_zero_le h₀
  exact (by decide : ∀ d < 10, numberWords.lookup (ones.getD d "") = some (d : Int)) d
    (by omega)

theorem lookup_teens {k : Int} (h₀ : 0 ≤ k) (h₁ : k < 10) :
    numberWords.lookup (teens.getD k.toNat "") = some (10 + k) := by
  obtain ⟨d, rfl⟩ := Int.eq_ofNat_of_zero_le h₀
  exact (by decide : ∀ d < 10, numberWords.lookup (teens.getD d "") = some (10 + d : Int)) d
    (by omega)

theorem lookup_tens {k : Int} (h₀ : 2 ≤ k) (h₁ : k < 10) :
    numberWords.lookup (tens.getD k.toNat "") = some (10 * k) := by
  obtain ⟨d, rfl⟩ := Int.eq_ofNat_of_zero_le (by omega : 0 ≤ k)
  exact (by decide : ∀ d < 10, 2 ≤ d → numberWords.lookup (tens.getD d "") = some (10 * d : Int))
    d (by omega) (by omega)

/-! ## Reading the parts of `Spell` -/

/-- Reading the words of `s` from an empty group leaves the total and makes `g` the group. -/
def ReadsGroup (s : String) (g : Int) : Prop :=
  ∀ T, (wordsOf s).foldlM readWord (T, 0) = some (T, g)

/-- Reading the words of `s` from an empty group adds `v` to the total and leaves the group
empty. -/
def ReadsTotal (s : String) (v : Int) : Prop :=
  ∀ T, (wordsOf s).foldlM readWord (T, 0) = some (T + v, 0)

theorem ReadsGroup.ne_empty {s : String} {g : Int} (h : ReadsGroup s g) (hg : g ≠ 0) :
    s ≠ "" := by
  rintro rfl
  have := h 0
  simp only [wordsOf, if_pos rfl, List.foldlM_nil] at this
  exact hg (congrArg Prod.snd (Option.some.inj this)).symm

theorem ReadsGroup.of_eq {s : String} {g g' : Int} (h : ReadsGroup s g) (hg : g = g') :
    ReadsGroup s g' := hg ▸ h

theorem readsGroup_empty : ReadsGroup "" 0 := fun _ => rfl

/-- A number word after a group adds its value to the group. -/
theorem ReadsGroup.add_word {r w : String} {g v : Int} (h : ReadsGroup r g)
    (hw : numberWords.lookup w = some v) : ReadsGroup (addPart r w) (g + v) := fun T => by
  obtain ⟨hws, hne⟩ := words_of_lookup hw
  rw [wordsOf_addPart r hne, List.foldlM_append, h T]
  simp [wordsOf, hne, hws, readWord_number hw]

/-- A hyphen and a number word add its value to the group. -/
theorem ReadsGroup.hyphen_word {r w : String} {g v : Int} (h : ReadsGroup r g) (hr : r ≠ "")
    (hw : numberWords.lookup w = some v) : ReadsGroup (r ++ ("-" ++ w)) (g + v) := fun T => by
  obtain ⟨hws, -⟩ := words_of_lookup hw
  have hne : r ++ ("-" ++ w) ≠ "" := fun h' => hr (by
    have := congrArg String.data h'
    simp only [String.data_append, List.append_eq_nil] at this
    exact String.ext this.1)
  have := h T
  simp only [wordsOf, if_neg hr] at this
  simp [wordsOf, hne, words_append_hyphen, hws, this, readWord_number hw]

theorem readWord_hundred (st : Int × Int) : readWord st "hundred" = some (st.1, st.2 * 100) :=
  rfl

theorem readWord_thousand (st : Int × Int) :
    readWord st "thousand" = some (st.1 + st.2 * 1000, 0) := rfl

theorem readWord_million (st : Int × Int) :
    readWord st "million" = some (st.1 + st.2 * 1000000, 0) := rfl

theorem readWord_billion (st : Int × Int) :
    readWord st "billion" = some (st.1 + st.2 * 1000000000, 0) := rfl

theorem readWord_minus (st : Int × Int) : readWord st "minus" = none := rfl

/-- The hundreds of `spellRest`: a number word and `hundred` make a hundred times its value
the group. -/
theorem readsGroup_hundreds {c : Prop} [Decidable c] {w : String} {v : Int}
    (hw : c → numberWords.lookup w = some v) :
    ReadsGroup (if c then "" ++ (w ++ " hundred") else "") (if c then v * 100 else 0) := by
  split_ifs with hc
  · intro T
    obtain ⟨hws, -⟩ := words_of_lookup (hw hc)
    have hne : "" ++ (w ++ " hundred") ≠ "" := fun h => by
      have := congrArg String.data h
      simp at this
    rw [wordsOf, if_neg hne, String.empty_append,
      words_append_sep w (b := " hundred") (w := "hundred") rfl rfl, hws]
    simp [readWord_number (hw hc), show words "hundred" = ["hundred"] from rfl, readWord_hundred]
  · exact readsGroup_empty

/-- A step `if c { if result != "" { result += " " }; result += w }` with a number word. -/
theorem ReadsGroup.ite_addPart {c : Prop} [Decidable c] {r w : String} {g v : Int}
    (h : ReadsGroup r g) (hw : c → numberWords.lookup w = some v) :
    ReadsGroup (if c then addPart r w else r) (if c then g + v else g) := by
  split_ifs with hc
  exacts [h.add_word (hw hc), h]

/-- The tens of `spellRest`: a tens word, and a hyphen and a units word when the units are
not zero. -/
theorem ReadsGroup.ite_tens {c d : Prop} [Decidable c] [Decidable d] {r t o : String}
    {g vt vo : Int} (h : ReadsGroup r g) (ht : c → numberWords.lookup t = some vt)
    (ho : c → d → numberWords.lookup o = some vo) :
    ReadsGroup (if c then (if d then addPart r t ++ ("-" ++ o) else addPart r t) else r)
      (if c then (if d then g + vt + vo else g + vt) else g) := by
  split_ifs with hc hd
  · exact (h.add_word (ht hc)).hyphen_word (fun he => (words_of_lookup (ht hc)).2 (by
      have := congrArg String.data he
      simp only [addPart, String.data_append, List.append_eq_nil] at this
      exact String.ext this.2)) (ho hc hd)
  · exact h.add_word (ht hc)
  · exact h

/-- **`spellRest k` reads as the group `k`.** -/
theorem readsGroup_spellRest {k : Int} (h₀ : 0 < k) (h₁ : k < 1000) :
    ReadsGroup (spellRest k) k := by
  unfold spellRest
  dsimp only
  -- the word each step writes, and its value
  have hh : k / 100 > 0 → numberWords.lookup (ones.getD (k / 100).toNat "") = some (k / 100) :=
    fun _ => lookup_ones (by omega) (by omega)
  have ht : k % 100 ≥ 20 →
      numberWords.lookup (tens.getD (k % 100 / 10).toNat "") = some (10 * (k % 100 / 10)) :=
    fun _ => lookup_tens (by omega) (by omega)
  have hu : k % 100 ≥ 20 → k % 100 % 10 > 0 →
      numberWords.lookup (ones.getD (k % 100 % 10).toNat "") = some (k % 100 % 10) :=
    fun _ _ => lookup_ones (by omega) (by omega)
  have hte : k % 100 ≥ 10 ∧ k % 100 < 20 →
      numberWords.lookup (teens.getD (k % 100 - 10).toNat "") = some (10 + (k % 100 - 10)) :=
    fun _ => lookup_teens (by omega) (by omega)
  have ho : k % 100 > 0 ∧ k % 100 < 10 →
      numberWords.lookup (ones.getD (k % 100).toNat "") = some (k % 100) :=
    fun _ => lookup_ones (by omega) (by omega)
  exact ((((readsGroup_hundreds hh).ite_tens ht hu).ite_addPart hte).ite_addPart ho).of_eq
    (by split_ifs <;> omega)

/-! ## Reading `Spell` -/

theorem readsTotal_empty : ReadsTotal "" 0 := fun T => by simp [wordsOf]

/-- A part whose words add `v` to the total, joined after others, adds `v` to theirs. -/
theorem ReadsTotal.add_part {r x : String} {T v : Int} (h : ReadsTotal r T)
    (hx : ReadsTotal x v) (hne : x ≠ "") : ReadsTotal (addPart r x) (T + v) := fun T₀ => by
  rw [wordsOf_addPart r hne, List.foldlM_append, h T₀]
  simp [hx (T₀ + T), Int.add_assoc]

/-- `Spell(k)` of a group below a thousand and its scale word add the group times the scale
to the total. -/
theorem readsTotal_scaled {k m : Int} {scale w : String} (h₀ : 0 < k) (h₁ : k < 1000)
    (hs : scale.data = ' ' :: w.data) (hw : words w = [w])
    (hread : ∀ T g, readWord (T, g) w = some (T + g * m, 0)) :
    ReadsTotal (spellRest k ++ scale) (k * m) := fun T => by
  have hr := readsGroup_spellRest h₀ h₁
  have hne := hr.ne_empty (by omega)
  have hne' : spellRest k ++ scale ≠ "" := fun h => by
    have := congrArg String.data h
    simp [hs] at this
  have hr' := hr T
  rw [wordsOf, if_neg hne] at hr'
  rw [wordsOf, if_neg hne', words_append_sep _ hs rfl, hw, List.foldlM_append, hr']
  simp [hread]

/-- **A group step of `Spell`** (`addGroup`) with a group below a thousand, whose recursive
call is `spellRest`, adds the group times its scale to the total. -/
theorem ReadsTotal.addGroup {sp : Int → Option String} {r scale w : String} {T k m : Int}
    (h : ReadsTotal r T) (h₀ : 0 ≤ k) (h₁ : k < 1000) (hsp : 0 < k → sp k = some (spellRest k))
    (hs : scale.data = ' ' :: w.data) (hw : words w = [w])
    (hread : ∀ T g, readWord (T, g) w = some (T + g * m, 0)) :
    ∃ r', Speller.addGroup sp k scale r = some r' ∧ ReadsTotal r' (T + k * m) := by
  unfold Speller.addGroup
  split_ifs with hk
  · rw [hsp hk]
    refine ⟨_, rfl, h.add_part (readsTotal_scaled hk h₁ hs hw hread) fun he => ?_⟩
    have := congrArg String.data he
    simp [hs] at this
  · exact ⟨r, rfl, by rwa [show k = 0 by omega, Int.zero_mul, Int.add_zero]⟩

/-- Words read to a total and a group, not both zero, come from a non-empty text. -/
theorem readWords_words {s : String} {T g : Int}
    (h : (wordsOf s).foldlM readWord (0, 0) = some (T, g)) (hne : T + g ≠ 0) :
    readWords (words s) = some (T + g) := by
  by_cases hs : s = ""
  · subst hs
    simp only [wordsOf, if_pos rfl, List.foldlM_nil] at h
    cases h
    exact absurd rfl hne
  · rw [wordsOf, if_neg hs] at h
    rw [readWords, h]
    rfl

/-- **`Spell(n)` for `0 < n < 10^12` reads back as `n`**, its groups being below a thousand. -/
theorem readWords_spellPos {sp : Int → Option String} {n : Int} (h₀ : 0 < n) (h₁ : n < 10 ^ 12)
    (hsp : ∀ k, 0 < k → k < 1000 → sp k = some (spellRest k)) :
    ∃ s, spellPos sp n = some s ∧ readWords (words s) = some n := by
  obtain ⟨r₁, e₁, h₁⟩ := readsTotal_empty.addGroup (k := n / 1000000000) (w := "billion")
    (by omega) (by omega) (fun hk => hsp _ hk (by omega))
    (show (" billion" : String).data = ' ' :: "billion".data from rfl) rfl
    fun T g => readWord_billion (T, g)
  obtain ⟨r₂, e₂, h₂⟩ := h₁.addGroup (k := n % 1000000000 / 1000000) (w := "million")
    (by omega) (by omega) (fun hk => hsp _ hk (by omega))
    (show (" million" : String).data = ' ' :: "million".data from rfl) rfl
    fun T g => readWord_million (T, g)
  obtain ⟨r₃, e₃, h₃⟩ := h₂.addGroup (k := n % 1000000 / 1000) (w := "thousand")
    (by omega) (by omega) (fun hk => hsp _ hk (by omega))
    (show (" thousand" : String).data = ' ' :: "thousand".data from rfl) rfl
    fun T g => readWord_thousand (T, g)
  rw [spellPos_eq, e₁, Option.some_bind, e₂, Option.some_bind, e₃, Option.some_bind]
  refine ⟨_, rfl, ?_⟩
  set T₃ := 0 + n / 1000000000 * 1000000000 + n % 1000000000 / 1000000 * 1000000 +
    n % 1000000 / 1000 * 1000 with hT₃
  have h₃' := h₃ 0
  split_ifs with hr
  · -- the last three digits make the group
    have hg := readsGroup_spellRest hr (by omega)
    have e := readWords_words (T := 0 + T₃) (g := n % 1000)
      (s := addPart r₃ (spellRest (n % 1000))) (by
        rw [wordsOf_addPart _ (hg.ne_empty (by omega)), List.foldlM_append, h₃']
        exact hg _) (by omega)
    rwa [show 0 + T₃ + n % 1000 = n by omega] at e
  · have e := readWords_words h₃' (by omega)
    rwa [show 0 + T₃ + 0 = n by omega] at e

/-- What the words read, with no leading `minus`, is what the reader returns. -/
theorem readNumeral_of_readWords {s : String} {v : Int} (h : readWords (words s) = some v) :
    readNumeral s = some v := by
  unfold readNumeral
  split
  · rename_i w ws hws
    rw [hws] at h
    split_ifs with hw
    · subst hw
      simp [readWords, readWord_minus] at h
    · exact h
  · rename_i hws
    rwa [hws] at h

theorem words_minus (s : String) : words ("minus " ++ s) = "minus" :: words s := by
  unfold words
  rw [String.data_append, show ("minus " : String).data = "minus".data ++ [' '] from rfl,
    List.append_assoc, List.singleton_append, splitOnP_append_sep _ _ rfl, List.map_append]
  rfl

/-- A leading `minus` negates what the rest reads. -/
theorem readNumeral_minus {s : String} {v : Int} (h : readWords (words s) = some v) :
    readNumeral ("minus " ++ s) = some (-v) := by
  simp only [readNumeral, words_minus, if_pos, h, Option.map_some']

/-- **`Spell` read back.**  With enough depth of calls, reading `Spell(n)` with the numeral
reader gives back `n` for every `n` with `|n| < 10^12`, so that `Spell` is injective
there. -/
theorem readNumeral_spell {fuel : Nat} (hfuel : 4 ≤ fuel) :
    (∀ n : Int, n.natAbs < 10 ^ 12 → ∃ s, spell fuel n = some s ∧ readNumeral s = some n) ∧
      ∀ m n : Int, m.natAbs < 10 ^ 12 → n.natAbs < 10 ^ 12 → spell fuel m = spell fuel n →
        m = n := by
  obtain ⟨f, rfl⟩ : ∃ f, fuel = f + 3 := ⟨fuel - 3, by omega⟩
  have hread : ∀ n : Int, n.natAbs < 10 ^ 12 →
      ∃ s, spell (f + 3) n = some s ∧ readNumeral s = some n := fun n hn => by
    rcases Int.lt_trichotomy n 0 with hneg | rfl | hpos
    · obtain ⟨s, hs, hr⟩ := @readWords_spellPos (spell (f + 1)) (-n) (by omega)
        (by omega) fun k hk₀ hk₁ => spell_small hk₀ hk₁
      refine ⟨"minus " ++ s, ?_, by simpa using readNumeral_minus hr⟩
      rw [spell, if_neg (by omega), if_pos hneg, Duration.wrap64_of_le (by omega) (by omega),
        spell, if_neg (by omega), if_neg (by omega), hs]
      rfl
    · exact ⟨"zero", rfl, rfl⟩
    · obtain ⟨s, hs, hr⟩ := @readWords_spellPos (spell (f + 2)) n hpos (by omega)
        fun k hk₀ hk₁ => spell_small hk₀ hk₁
      refine ⟨s, ?_, readNumeral_of_readWords hr⟩
      rw [spell, if_neg (by omega), if_neg (by omega), hs]
  refine ⟨hread, fun m n hm hn h => ?_⟩
  obtain ⟨s, hs, hrs⟩ := hread m hm
  obtain ⟨s', hs', hrs'⟩ := hread n hn
  rw [hs, hs', Option.some.injEq] at h
  subst h
  exact Option.some.inj (hrs.symm.trans hrs')

/-- With four levels of calls, the smallest depth the theorem asks for. -/
theorem readNumeral_spell_four :
    4 ≤ 4 ∧
      (∀ n : Int, n.natAbs < 10 ^ 12 → ∃ s, spell 4 n = some s ∧ readNumeral s = some n) ∧
        ∀ m n : Int, m.natAbs < 10 ^ 12 → n.natAbs < 10 ^ 12 → spell 4 m = spell 4 n → m = n :=
  ⟨Nat.le_refl 4, readNumeral_spell (Nat.le_refl 4)⟩

end Speller
