import GoHomework.Speller.Read

/-!
# `Spell` is injective on `int64`

From `10^12` on, the billions of `n` are a thousand or more, and `Spell(n)` writes their whole
spelling, scale words and all, before `billion`: `Spell(10^12)` is `one thousand billion`.
The reader of `Read` adds the group before `billion`, times `10^9`, to the total, and reads
that text as `1000`.  Read with `billion` scaling the whole number read so far
(`readWordNested`), `Spell(n)` gives back `n` for every `int64` `n` (`readNumeralNested_spell`),
so that `Spell` is injective on `int64` (`spell_injective`).

The proof follows the recursion of `Spell`, by induction on the depth of calls
(`spell_readsNested`).  After its billions, `Spell(n)` writes the groups of millions and
thousands and the last three digits, each spelled by `spellRest`; none of these words has a
`b`, so that both readers read them alike (`foldlM_readWordNested_of_noB`), and the lemmas of
`Read` apply to them.
-/

namespace Speller

/-! ## The reader with nested scales -/

/-- One word read with `billion` scaling the whole number read so far; every other word is
read as by `readWord`. -/
def readWordNested (st : Int × Int) (w : String) : Option (Int × Int) :=
  if w = "billion" then some ((st.1 + st.2) * 1000000000, 0) else readWord st w

/-- Words read by `readWordNested` from an empty total and group. -/
def readWordsNested (ws : List String) : Option Int :=
  (ws.foldlM readWordNested (0, 0)).map fun st => st.1 + st.2

/-- **The numeral reader with nested scales.**  A leading `minus` negates what the rest
reads. -/
def readNumeralNested (s : String) : Option Int :=
  match words s with
  | w :: ws => if w = "minus" then (readWordsNested ws).map (- ·) else readWordsNested (w :: ws)
  | [] => readWordsNested []

/-! ## Words with no `b` -/

/-- Every piece of a split is made of elements of the list. -/
theorem subset_of_mem_splitOnP {α : Type} {p : α → Bool} :
    ∀ {l piece : List α}, piece ∈ l.splitOnP p → piece ⊆ l
  | [], piece, h => by
    rw [List.splitOnP_nil, List.mem_singleton] at h
    subst h
    exact List.nil_subset _
  | x :: l, piece, h => by
    rw [List.splitOnP_cons] at h
    split_ifs at h
    · rcases List.mem_cons.1 h with rfl | h
      · exact List.nil_subset _
      · exact fun _ hy => List.mem_cons_of_mem _ (subset_of_mem_splitOnP h hy)
    · obtain ⟨q, qs, hq⟩ := List.exists_cons_of_ne_nil (List.splitOnP_ne_nil p l)
      rw [hq] at h
      rcases List.mem_cons.1 h with rfl | h
      · exact List.cons_subset_cons x (subset_of_mem_splitOnP (hq ▸ List.mem_cons_self q qs))
      · exact fun _ hy =>
          List.mem_cons_of_mem _ (subset_of_mem_splitOnP (hq ▸ List.mem_cons_of_mem q h) hy)

/-- A text with no `b` has no word `billion`. -/
theorem ne_billion_of_mem_wordsOf {s w : String} (hs : 'b' ∉ s.data) (hw : w ∈ wordsOf s) :
    w ≠ "billion" := by
  rintro rfl
  unfold wordsOf at hw
  split_ifs at hw
  · cases hw
  · obtain ⟨piece, hp, he⟩ := List.mem_map.1 hw
    refine hs (subset_of_mem_splitOnP hp ?_)
    rw [show piece = "billion".data from congrArg String.data he]
    decide

/-- Words other than `billion` are read by both readers alike. -/
theorem foldlM_readWordNested :
    ∀ {ws : List String} {st : Int × Int}, (∀ w ∈ ws, w ≠ "billion") →
      ws.foldlM readWordNested st = ws.foldlM readWord st
  | [], _, _ => rfl
  | w :: ws, st, h => by
    rw [List.foldlM_cons, List.foldlM_cons, readWordNested, if_neg (h w (List.mem_cons_self _ _))]
    congr 1
    funext st'
    exact foldlM_readWordNested fun w' hw' => h w' (List.mem_cons_of_mem _ hw')

/-- The words of a text with no `b` are read by both readers alike. -/
theorem foldlM_readWordNested_of_noB {s : String} (hs : 'b' ∉ s.data) (st : Int × Int) :
    (wordsOf s).foldlM readWordNested st = (wordsOf s).foldlM readWord st :=
  foldlM_readWordNested fun _ => ne_billion_of_mem_wordsOf hs

/-- The characters of a choice between two texts. -/
theorem mem_data_ite {c : Prop} [Decidable c] (x : Char) (a b : String) :
    (x ∈ (if c then a else b).data) = if c then x ∈ a.data else x ∈ b.data := by
  split <;> rfl

/-- An entry of a table of words with no `b`, or the default, has no `b`. -/
theorem noB_getD {l : List String} (hl : ∀ x ∈ l, 'b' ∉ x.data) (i : Nat) :
    'b' ∉ (l[i]?.getD "").data := by
  cases h : l[i]? with
  | none => exact List.not_mem_nil _
  | some x => exact hl x (List.getElem?_mem h)

/-- `spellRest` writes no `b`. -/
theorem noB_spellRest (k : Int) : 'b' ∉ (spellRest k).data := by
  have ho := noB_getD (l := ones) (by decide)
  have ht := noB_getD (l := teens) (by decide)
  have hte := noB_getD (l := tens) (by decide)
  simp [spellRest, addPart, mem_data_ite, String.data_append, ho, ht, hte,
    show 'b' ∉ " hundred".data by decide, show 'b' ∉ " ".data by decide,
    show 'b' ∉ "-".data by decide]

/-! ## Reading the parts of `Spell` -/

/-- The first part is written with no space before it. -/
theorem addPart_empty (x : String) : addPart "" x = x := by
  simp [addPart]

/-- A group step below a thousand writes, after the result, the words of `spellRest k` and
its scale, or nothing for an empty group: words with no `b` that add `k` times the scale to
the total. -/
theorem addGroup_small {sp : Int → Option String} {k m : Int} {scale w r r' : String}
    (h₀ : 0 ≤ k) (h₁ : k < 1000) (hsmall : 0 < k → ∀ v, sp k = some v → v = spellRest k)
    (hs : scale.data = ' ' :: w.data) (hw : words w = [w]) (hb : 'b' ∉ w.data)
    (hread : ∀ T g, readWord (T, g) w = some (T + g * m, 0))
    (e : addGroup sp k scale r = some r') :
    ∃ x, wordsOf r' = wordsOf r ++ wordsOf x ∧ ReadsTotal x (k * m) ∧ 'b' ∉ x.data := by
  unfold addGroup at e
  split_ifs at e with hk
  · obtain ⟨v, hv, rfl⟩ := Option.map_eq_some'.1 e
    rw [hsmall hk v hv]
    have hne : spellRest k ++ scale ≠ "" := fun h => by
      have := congrArg String.data h
      simp [hs] at this
    refine ⟨_, wordsOf_addPart r hne, readsTotal_scaled hk h₁ hs hw hread, ?_⟩
    simp [String.data_append, hs, noB_spellRest, hb]
  · cases e
    refine ⟨"", by simp [wordsOf], ?_, List.not_mem_nil _⟩
    rw [show k = 0 by omega, Int.zero_mul]
    exact readsTotal_empty

/-- The last three digits: the words of `spellRest`, or none, with no `b`, making the group. -/
theorem rest_small (r : String) {k : Int} (h₀ : 0 ≤ k) (h₁ : k < 1000) :
    ∃ x, wordsOf (if k > 0 then addPart r (spellRest k) else r) = wordsOf r ++ wordsOf x ∧
      ReadsGroup x k ∧ 'b' ∉ x.data := by
  split_ifs with hk
  · have hg := readsGroup_spellRest hk h₁
    exact ⟨_, wordsOf_addPart r (hg.ne_empty (by omega)), hg, noB_spellRest k⟩
  · refine ⟨"", by simp [wordsOf], ?_, List.not_mem_nil _⟩
    rw [show k = 0 by omega]
    exact readsGroup_empty

/-- The billions' spelling and `billion`, read from nothing with nested scales, make the
billions times `10^9` the total. -/
theorem foldlM_billions {sp : Int → Option String} {k : Int} {r : String} (h₀ : 0 ≤ k)
    (hsp : ∀ v, 0 < k → sp k = some v → readWordsNested (wordsOf v) = some k)
    (e : addGroup sp k " billion" "" = some r) :
    (wordsOf r).foldlM readWordNested (0, 0) = some (k * 1000000000, 0) := by
  unfold addGroup at e
  split_ifs at e with hk
  · obtain ⟨v, hv, rfl⟩ := Option.map_eq_some'.1 e
    obtain ⟨st, hst, rfl⟩ := Option.map_eq_some'.1 (hsp v hk hv)
    have hv : v ≠ "" := by
      rintro rfl
      cases hst
      exact absurd hk (by decide)
    have hne : v ++ " billion" ≠ "" := fun h => by
      have := congrArg String.data h
      simp at this
    rw [wordsOf, if_neg hv] at hst
    rw [addPart_empty, wordsOf, if_neg hne,
      words_append_sep v (b := " billion") (w := "billion") rfl rfl, List.foldlM_append, hst]
    rfl
  · cases e
    rw [show k = 0 by omega]
    rfl

/-- **`Spell(n)` for `n > 0` read with nested scales**, when the recursive calls are: the
billions times `10^9`, then the groups below them as `Read` reads them. -/
theorem spellPos_readsNested {sp : Int → Option String} {n : Int} {s : String} (hn : 0 < n)
    (hsp : ∀ k v, 0 < k → sp k = some v → readWordsNested (wordsOf v) = some k)
    (hsmall : ∀ k v, 0 < k → k < 1000 → sp k = some v → v = spellRest k)
    (h : spellPos sp n = some s) : readWordsNested (wordsOf s) = some n := by
  rw [spellPos_eq] at h
  obtain ⟨r₁, e₁, h⟩ := Option.bind_eq_some.1 h
  obtain ⟨r₂, e₂, h⟩ := Option.bind_eq_some.1 h
  obtain ⟨r₃, e₃, h⟩ := Option.bind_eq_some.1 h
  cases Option.some.inj h
  obtain ⟨x₂, w₂, t₂, b₂⟩ := addGroup_small (m := 1000000) (w := "million") (by omega)
    (by omega) (fun hk v hv => hsmall _ v hk (by omega) hv) rfl rfl (by decide)
    (fun T g => readWord_million (T, g)) e₂
  obtain ⟨x₃, w₃, t₃, b₃⟩ := addGroup_small (m := 1000) (w := "thousand") (by omega)
    (by omega) (fun hk v hv => hsmall _ v hk (by omega) hv) rfl rfl (by decide)
    (fun T g => readWord_thousand (T, g)) e₃
  obtain ⟨x₄, w₄, g₄, b₄⟩ := rest_small r₃ (k := n % 1000) (by omega) (by omega)
  rw [readWordsNested, w₄, w₃, w₂, List.foldlM_append, List.foldlM_append, List.foldlM_append,
    foldlM_billions (by omega) (fun v hk => hsp _ v hk) e₁]
  simp only [Option.bind_eq_bind, Option.some_bind, foldlM_readWordNested_of_noB b₂, t₂ _,
    foldlM_readWordNested_of_noB b₃, t₃ _, foldlM_readWordNested_of_noB b₄, g₄ _, Option.map_some']
  congr 1
  omega

/-- Below a thousand, a call of `Spell` that returns gives `spellRest`. -/
theorem spell_eq_spellRest {fuel : Nat} {k : Int} {v : String} (h₀ : 0 < k) (h₁ : k < 1000)
    (h : spell fuel k = some v) : v = spellRest k := by
  cases fuel with
  | zero => cases h
  | succ f => exact (Option.some.inj ((spell_small h₀ h₁).symm.trans h)).symm

/-- **`Spell(n)` for `n > 0` reads back as `n` with nested scales**, at every depth of calls
that returns. -/
theorem spell_readsNested (fuel : Nat) :
    ∀ {n : Int} {s : String}, 0 < n → spell fuel n = some s →
      readWordsNested (wordsOf s) = some n := by
  induction fuel with
  | zero => intro _ _ _ h; cases h
  | succ f ih =>
    intro n s hn h
    rw [spell, if_neg (by omega), if_neg (by omega)] at h
    exact spellPos_readsNested hn (fun _ _ hk => ih hk)
      (fun _ _ hk₀ hk₁ => spell_eq_spellRest hk₀ hk₁) h

/-! ## Reading `Spell` -/

/-- Words that read as a number other than zero come from a non-empty text. -/
theorem readWordsNested_words {s : String} {v : Int} (h : readWordsNested (wordsOf s) = some v)
    (hv : v ≠ 0) : readWordsNested (words s) = some v := by
  unfold wordsOf at h
  split_ifs at h
  · cases h
    exact absurd rfl hv
  · exact h

/-- What the words read, with no leading `minus`, is what the reader returns. -/
theorem readNumeralNested_of_readWordsNested {s : String} {v : Int}
    (h : readWordsNested (words s) = some v) : readNumeralNested s = some v := by
  unfold readNumeralNested
  split
  · rename_i w ws hws
    rw [hws] at h
    split_ifs with hw
    · subst hw
      simp [readWordsNested, readWordNested, readWord_minus] at h
    · exact h
  · rename_i hws
    rwa [hws] at h

/-- A leading `minus` negates what the rest reads. -/
theorem readNumeralNested_minus {s : String} {v : Int} (h : readWordsNested (words s) = some v) :
    readNumeralNested ("minus " ++ s) = some (-v) := by
  simp only [readNumeralNested, words_minus, if_pos, h, Option.map_some']

/-- **`Spell` read back with nested scales.**  Every spelling of an `int64` `n` that `Spell`
returns reads back as `n`. -/
theorem readNumeralNested_spell {fuel : Nat} {n : Int} {s : String} (h₀ : -2 ^ 63 ≤ n)
    (h₁ : n ≤ 2 ^ 63 - 1) (h : spell fuel n = some s) : readNumeralNested s = some n := by
  have pos : ∀ (fuel : Nat) {m : Int} {s : String}, 0 < m → spell fuel m = some s →
      readWordsNested (words s) = some m := fun fuel _ _ hm hs =>
    readWordsNested_words (spell_readsNested fuel hm hs) (by omega)
  cases fuel with
  | zero => cases h
  | succ f =>
    rw [spell] at h
    split_ifs at h with hz hneg
    · cases h
      subst hz
      decide
    · obtain ⟨w, hw, rfl⟩ := Option.map_eq_some'.1 h
      have hmin : n ≠ -2 ^ 63 := by
        rintro rfl
        rw [show Duration.wrap64 (-(-2 ^ 63)) = -2 ^ 63 by decide, spell_minInt64] at hw
        cases hw
      rw [Duration.wrap64_of_le (by omega) (by omega)] at hw
      simpa using readNumeralNested_minus (pos f (by omega) hw)
    · exact readNumeralNested_of_readWordsNested
        (pos (f + 1) (by omega) (by rw [spell, if_neg hz, if_neg hneg]; exact h))

/-- **`Spell` is injective on `int64`.**  Every `int64` but `-2^63` is spelled with four
levels of calls and read back from its spelling; and two `int64` values that `Spell` spells
alike, at any depths of calls, are equal. -/
theorem spell_injective :
    (∀ n : Int, -2 ^ 63 < n → n ≤ 2 ^ 63 - 1 →
        ∃ s, spell 4 n = some s ∧ readNumeralNested s = some n) ∧
      ∀ {fuel fuel' : Nat} {m n : Int} {s : String}, -2 ^ 63 ≤ m → m ≤ 2 ^ 63 - 1 →
        -2 ^ 63 ≤ n → n ≤ 2 ^ 63 - 1 → spell fuel m = some s → spell fuel' n = some s →
          m = n := by
  refine ⟨fun n h₀ h₁ => ?_, fun hm₀ hm₁ hn₀ hn₁ hm hn => ?_⟩
  · obtain ⟨s, hs⟩ := Option.isSome_iff_exists.1 (spell_four h₀ h₁)
    exact ⟨s, hs, readNumeralNested_spell (by omega) h₁ hs⟩
  · exact Option.some.inj
      ((readNumeralNested_spell hm₀ hm₁ hm).symm.trans (readNumeralNested_spell hn₀ hn₁ hn))

/-- `10^12`, which the reader of `Read` takes for `1000`. -/
theorem spell_injective_trillion :
    spell 4 (10 ^ 12) = some "one thousand billion" ∧
      readNumeralNested "one thousand billion" = some (10 ^ 12) := by
  obtain ⟨s, hs, hr⟩ := spell_injective.1 (10 ^ 12) (by decide) (by decide)
  have e : spell 4 (10 ^ 12) = some "one thousand billion" := by decide
  rw [e, Option.some.injEq] at hs
  exact ⟨e, hs ▸ hr⟩

example : readNumeral "one thousand billion" = some 1000 := by decide

end Speller
