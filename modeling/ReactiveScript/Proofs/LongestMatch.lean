import ReactiveScript.Proofs.Token.Scanning

/-!
# Operators are the longest that fit

Where an operator or a mark of punctuation stands in a source, the token that is read there is the
longest spelling that the source goes on with. The one exception is `?.` before a digit: there the
`?` stands alone, and a number follows.
-/

namespace ReactiveScript

namespace Punct

variable {rest : Text} {b : UInt8} {q : Punct} {t u : Test}

/-! ## 1. The longest mark at a place -/

/-- A test succeeds where its bytes follow, unless it is that for `?.` before a digit. -/
theorem Test.succeeds_iff (ht : t ∈ tests b) : t.succeeds rest = true ↔
    t.more <+: rest ∧ ¬ (t.punct = .optional ∧ Text.startsFraction rest = true) := by
  rw [Test.succeeds, Bool.and_eq_true, List.isPrefixOf_iff_prefix, Bool.not_eq_true',
    ← Bool.not_eq_true, Bool.and_eq_true, decide_eq_true_eq]
  refine and_congr_right fun hmore => not_congr (and_congr_right fun hoptional => ?_)
  obtain ⟨w, p⟩ := t
  cases hoptional
  cases (List.cons.inj (mem_tests.mp ht)).2
  obtain ⟨u, rfl⟩ := hmore
  rfl

/-- **No test hides one that is made later**: where a test succeeds, its bytes are not the first ones
    that a later test asks for. -/
theorem pairwise_tests (b : UInt8) : (tests b).Pairwise fun t u => ¬ t.more <+: u.more := by
  unfold tests
  split <;> decide

/-- **No test that would succeed asks for more bytes than the first one that does.** -/
theorem length_le_of_succeeds (h : firstAt? b rest = some t) (hmem : u ∈ tests b)
    (hu : u.succeeds rest = true) : u.more.length ≤ t.more.length := by
  have hordered := pairwise_tests b
  have ht := (spelling_of_firstAt? h).2
  have hfollows := ((Test.succeeds_iff hmem).mp hu).1
  obtain ⟨_, before, after, hsplit, hbefore⟩ := List.find?_eq_some_iff_append.mp h
  rw [hsplit] at hmem hordered
  rcases List.mem_append.mp hmem with hmem | hmem
  · -- Earlier tests have failed.
    have hnot := hbefore u hmem
    rw [hu] at hnot
    cases hnot
  · rcases List.mem_cons.mp hmem with rfl | hmem
    · exact Nat.le_refl _
    · -- Of two texts that follow, the shorter one starts the longer one.
      have hhidden := List.rel_of_pairwise_cons (List.pairwise_append.mp hordered).2.1 hmem
      refine Nat.le_of_not_lt fun hlonger => hhidden ?_
      exact List.prefix_of_prefix_length_le ht hfollows (Nat.le_of_lt hlonger)

theorem prefix_of_firstAt? (h : firstAt? b rest = some t) : t.punct.spelling <+: b :: rest := by
  obtain ⟨hspelling, hmore⟩ := spelling_of_firstAt? h
  exact hspelling ▸ List.cons_prefix_cons.mpr ⟨rfl, hmore⟩

/-- A spelling that stands at a place is tested for. -/
theorem exists_test (h : q.spelling <+: b :: rest) : ∃ w, ⟨w, q⟩ ∈ tests b ∧ w <+: rest := by
  cases hspelling : q.spelling with
  | nil => exact absurd hspelling (spelling_ne_nil q)
  | cons a w =>
    rw [hspelling, List.cons_prefix_cons] at h
    exact ⟨w, mem_tests.mpr (h.1 ▸ hspelling), h.2⟩

/-- A mark is found wherever one stands. -/
theorem firstAt?_ne_none (h : q.spelling <+: b :: rest) : firstAt? b rest ≠ none := by
  obtain ⟨w, hmem, hw⟩ := exists_test h
  intro hnone
  have hfail {t : Test} (ht : t ∈ tests b) : ¬ t.succeeds rest = true :=
    List.find?_eq_none.mp hnone t ht
  by_cases hexception : q = .optional ∧ Text.startsFraction rest = true
  · obtain ⟨rfl, -⟩ := hexception
    cases mem_tests.mp hmem
    exact hfail (t := ⟨[], .question⟩) (by decide) rfl
  · exact hfail hmem ((Test.succeeds_iff hmem).mpr ⟨hw, hexception⟩)

/-- **The longest spelling is found**, unless it is `?.` before a digit. -/
theorem longest_of_firstAt? (h : firstAt? b rest = some t) (hq : q.spelling <+: b :: rest)
    (hlonger : t.punct.spelling.length < q.spelling.length) :
    t.punct = .question ∧ q = .optional ∧ Text.startsFraction rest = true := by
  obtain ⟨w, hmem, hw⟩ := exists_test hq
  rw [(spelling_of_firstAt? h).1, mem_tests.mp hmem, List.length_cons, List.length_cons] at hlonger
  by_cases hexception : q = .optional ∧ Text.startsFraction rest = true
  · obtain ⟨rfl, hdigit⟩ := hexception
    obtain ⟨rfl, rfl⟩ := List.cons.inj (mem_tests.mp hmem)
    have hshort : ∀ t ∈ tests 0x3F, t.more.length < 1 → t.punct = .question := by decide
    exact ⟨hshort t (List.mem_of_find?_eq_some h) (Nat.lt_of_add_lt_add_right hlonger), rfl, hdigit⟩
  · have hle := length_le_of_succeeds h hmem ((Test.succeeds_iff hmem).mpr ⟨hw, hexception⟩)
    dsimp only at hle
    omega

/-- The exception: a question mark that a fraction follows stands alone. -/
theorem firstAt?_question (h : Text.startsFraction rest = true) :
    firstAt? 0x3F rest = some ⟨[], .question⟩ := by
  have hquestion : Punct.question.spelling <+: 0x3F :: rest := ⟨rest, rfl⟩
  obtain ⟨t, ht⟩ := Option.ne_none_iff_exists'.mp (firstAt?_ne_none hquestion)
  have hmem : t ∈ tests 0x3F := List.mem_of_find?_eq_some ht
  obtain ⟨⟨u, hu⟩, hnot⟩ := (Test.succeeds_iff hmem).mp (List.find?_some ht)
  have hdot : rest.head? = some Byte.dot := eq_of_beq (Bool.and_eq_true _ _ ▸ h).1
  have hlist : ∀ t ∈ tests 0x3F, t = ⟨[], .question⟩ ∨ t.punct = .optional ∨
      t.more.head? = some 0x3F := by decide
  rcases hlist t hmem with rfl | hoptional | hhead
  · exact ht
  · exact absurd ⟨hoptional, h⟩ hnot
  · rw [← hu, List.head?_append, hhead, Option.some_or] at hdot
    exact absurd hdot (by decide)

/-- The first byte of a mark starts no other token. -/
structure StartsMark (b : UInt8) : Prop where
  name : Byte.isNameStart b = false
  digit : Byte.isDigit b = false
  quote : ¬ (b = Byte.doubleQuote ∨ b = Byte.singleQuote)
  backtick : b ≠ Byte.backtick
  atSign : b ≠ Byte.atSign

theorem startsMark_of_prefix (h : q.spelling <+: b :: rest) : StartsMark b := by
  obtain ⟨w, hmem, -⟩ := exists_test h
  have hspelling := mem_tests.mp hmem
  clear h hmem
  cases q <;> cases hspelling <;> constructor <;> decide

end Punct

/-! ## 2. The marks among the tokens -/

namespace Lexeme

variable {b : UInt8} {rest : Text} {p : Punct}

/-- Only operators start with the first byte of an operator, but for numbers that start with a
    dot. -/
theorem scan_punct_iff : (∃ p, (scan b rest).kind = .punct p) ↔
    (∃ q : Punct, q.spelling <+: b :: rest) ∧ Text.startsFraction (b :: rest) = false := by
  have hnumber : startsNumber b rest = (Byte.isDigit b || Text.startsFraction (b :: rest)) := rfl
  have h := scan_scans b rest
  generalize scan b rest = l at h
  constructor
  · rintro ⟨p, hp⟩
    cases h with
    | punct hnot h =>
      rw [hnumber, Bool.or_eq_false_iff] at hnot
      exact ⟨⟨_, Punct.prefix_of_firstAt? h⟩, hnot.2⟩
    | word =>
      have hword := isPropertyName_word (b :: rest)
      rw [hp] at hword
      cases hword
    | number => rw [number_kind] at hp; cases hp
    | string => rw [stringFrom_kind] at hp; cases hp
    | template => cases hp
    | modifier => rcases modifier_kind rest with hk | hk <;> rw [hk] at hp <;> cases hp
    | stray => rw [stray_kind] at hp; cases hp
  · rintro ⟨⟨q, hq⟩, hfraction⟩
    have hstart := Punct.startsMark_of_prefix hq
    cases h with
    | punct => exact ⟨_, rfl⟩
    | word h => rw [hstart.name] at h; cases h
    | number h =>
      rw [hnumber, hstart.digit, hfraction] at h
      cases h
    | string h => exact absurd h hstart.quote
    | template h => exact absurd h hstart.backtick
    | modifier h => exact absurd h hstart.atSign
    | stray h => exact absurd h (Punct.firstAt?_ne_none hq)

end Lexeme

/-- **Operators and punctuation are read by longest match.** At any place of a source whose offsets
    are words of 32 bits, the next token is one of them exactly if a spelling of the table stands
    there that is not the dot of a number. The token has its spelling, and no longer one stands there,
    but for `?.` before a digit, which is read as `?`. -/
theorem operators_longest (source : Text) (hsize : source.length < Span.wordCount) (c : Cursor)
    (hle : c.pos.offset ≤ source.length) (hc : c.rest = source.drop c.pos.offset) :
    let place := c.next.token.pos.words.offset
    ((∃ p, c.next.token.kind = .punct p) ↔
      (∃ q : Punct, q.spelling <+: source.drop place) ∧
      Text.startsFraction (source.drop place) = false) ∧
    (∀ p, c.next.token.kind = .punct p →
      c.next.token.text = c.next.token.kind.name ∧
      c.next.token.text <+: source.drop place ∧
      ∀ q : Punct, q.spelling <+: source.drop place →
        c.next.token.text.length < q.spelling.length →
        p = .question ∧ q = .optional ∧ Text.startsFraction (source.drop (place + 1)) = true) ∧
    (Punct.optional.spelling <+: source.drop place →
      Text.startsFraction (source.drop (place + 1)) = true →
      c.next.token.kind = .punct .question) := by
  intro place
  have hplace : place = c.next.token.offset := by
    have hstop := c.next_token_stop_le
    rw [Token.stop, ← Token.offset, hc, List.length_drop] at hstop
    exact Nat.mod_eq_of_lt (show c.next.token.offset < Span.wordCount by omega)
  rw [← List.drop_drop, hplace, Cursor.drop_token_offset hc]
  rcases c.next_cases with ⟨hend, ht, _⟩ | ⟨b, rest, hrest, ht, _⟩
  · -- At the end of the source there is no mark.
    rw [ht, hend]
    simp [Punct.spelling_ne_nil]
  · rw [ht, hrest]
    refine ⟨Lexeme.scan_punct_iff, fun p hp => ?_, fun hq hdigit => ?_⟩
    · have htext := Lexeme.scan_spelling hp
      obtain ⟨t, hfirst, rfl, -⟩ := Lexeme.firstAt?_of_scan hp
      dsimp only at hp ⊢
      rw [htext, hp]
      exact ⟨rfl, Punct.prefix_of_firstAt? hfirst, fun q => Punct.longest_of_firstAt? hfirst⟩
    · have hspelling : [0x3F, 0x2E] <+: b :: rest := hq
      obtain ⟨rfl, -⟩ := List.cons_prefix_cons.mp hspelling
      obtain ⟨p, hp⟩ := Lexeme.scan_punct_iff.mpr ⟨⟨_, hq⟩, rfl⟩
      obtain ⟨t, hfirst, rfl, -⟩ := Lexeme.firstAt?_of_scan hp
      cases hfirst.symm.trans (Punct.firstAt?_question hdigit)
      exact hp

/-- A source in which marks share their first bytes. -/
def crowdedMarks : Text := txt "a>>>:=b?.5:c"

/-- After the name comes the longest of six marks, and the question mark before the number stands
    alone. -/
theorem crowdedMarks_longest :
    crowdedMarks.length < Span.wordCount ∧
    ((Cursor.place crowdedMarks ⟨1, 1, 2⟩).next.token.kind = .punct .setShiftRightZero ∧
      ∀ q : Punct, q.spelling <+: crowdedMarks.drop 1 → q.spelling.length ≤ 5) ∧
    (Cursor.place crowdedMarks ⟨7, 1, 8⟩).next.token.kind = .punct .question := by
  have hsize : crowdedMarks.length < Span.wordCount := by decide +kernel
  have hkind : (Cursor.place crowdedMarks ⟨1, 1, 2⟩).next.token.kind = .punct .setShiftRightZero := by
    decide +kernel
  obtain ⟨_, hshift, _⟩ := operators_longest crowdedMarks hsize (Cursor.place crowdedMarks ⟨1, 1, 2⟩)
    (by decide +kernel) rfl
  obtain ⟨htext, _, hlongest⟩ := hshift _ hkind
  rw [htext, hkind] at hlongest
  refine ⟨hsize, ⟨hkind, fun q hq => Nat.le_of_not_lt fun hlonger => ?_⟩, ?_⟩
  · cases (hlongest q hq hlonger).1
  · exact (operators_longest crowdedMarks hsize (Cursor.place crowdedMarks ⟨7, 1, 8⟩)
      (by decide +kernel) rfl).2.2 ⟨_, rfl⟩ (by decide +kernel)

end ReactiveScript
