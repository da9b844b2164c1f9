import ReactiveScript.Proofs.RoundTrip.Written
import ReactiveScript.Proofs.Token.Scanning

/-!
# How tokens are told apart

`Lexes t ts` says that a text is cut into the tokens `ts`, with nothing but blanks between them.
Tokens are cut by longest match, so what matters is the byte after a token: a word ends before a
byte that cannot continue a name, brackets end before anything, and an operator ends before a blank.
-/

namespace ReactiveScript

variable {t w : Text} {ts : List Lexed} {b : UInt8} {p : Punct}

open Lexed

/-! ## 1. Texts and their tokens -/

/-- Does a token start at this byte, before this text? -/
def startsToken (b : UInt8) (rest : Text) : Bool :=
  b ≠ Byte.space && b ≠ Byte.tab && b ≠ Byte.carriageReturn && b ≠ Byte.newline &&
    (b ≠ Byte.slash || (rest.head? ≠ some Byte.slash && rest.head? ≠ some Byte.star))

/-- A text is cut into these tokens, with nothing but blanks between them. -/
inductive Lexes : Text → List Lexed → Prop
  | nil : Lexes [] []
  | token {b : UInt8} {w t : Text} {k : Kind} {ts : List Lexed} (blanks : Nat)
      (hb : startsToken b (w ++ t) = true) (hscan : Lexeme.scan b (w ++ t) = ⟨k, w.length + 1, []⟩)
      (h : Lexes t ts) :
      Lexes (List.replicate blanks Byte.space ++ b :: (w ++ t)) (⟨k, b :: w⟩ :: ts)

/-- A blank in front of a token. -/
theorem Lexes.blank (h : Lexes t ts) (hts : ts ≠ []) : Lexes (Byte.space :: t) ts := by
  cases h with
  | nil => exact absurd rfl hts
  | token blanks hb hscan h => exact .token (blanks + 1) hb hscan h

theorem Lexes.length_le (h : Lexes t ts) : ts.length ≤ t.length := by
  induction h with
  | nil => exact Nat.le_refl _
  | token blanks _ _ _ ih =>
    simp only [List.length_cons, List.length_append]
    omega

theorem skipFrom_blanks {rest : Text} (hb : startsToken b rest = true) (blanks : Nat) (n : Nat)
    (breaks : Bool) :
    Trivia.skipFrom .space n breaks (List.replicate blanks Byte.space ++ b :: rest) =
      ⟨n + blanks, breaks, none⟩ := by
  induction blanks generalizing n with
  | zero =>
    simp only [startsToken, Bool.and_eq_true, Bool.or_eq_true, decide_eq_true_eq] at hb
    obtain ⟨⟨⟨⟨hspace, htab⟩, hreturn⟩, hline⟩, hslash⟩ := hb
    rw [List.replicate_zero, List.nil_append, Trivia.skipFrom.eq_def]
    dsimp only
    rw [if_neg (by simp [hspace, htab, hreturn]), if_neg hline]
    split
    · rename_i heq
      cases rest with
      | nil => rfl
      | cons c rest =>
        obtain ⟨hc₁, hc₂⟩ := hslash.resolve_left (fun h => h heq)
        simp only [List.head?_cons, ne_eq, Option.some.injEq] at hc₁ hc₂
        simp only [if_neg hc₁, if_neg hc₂, Nat.add_zero]
    · rfl
  | succ blanks ih =>
    rw [List.replicate_succ, List.cons_append, Trivia.skipFrom.eq_def]
    dsimp only
    rw [if_pos (.inl rfl), ih]
    congr 1
    omega

/-- **The next token of a text is the first of the tokens it is cut into.** -/
theorem Lexes.next {c : Cursor} (h : Lexes c.rest ts) :
    c.next.token.kind = headKind ts ∧ c.next.token.text = headText ts ∧
      c.next.token.lineStart = c.lineStart ∧ c.next.reports = [] ∧
      c.next.cursor.lineStart = false ∧ Lexes c.next.cursor.rest ts.tail := by
  generalize hc : c.rest = rest at h
  cases h with
  | nil =>
    unfold Cursor.next
    rw [hc]
    exact ⟨rfl, rfl, Bool.or_false _, rfl, rfl, .nil⟩
  | @token b w t k ts blanks hb hscan h =>
    have hskip : Trivia.skip c.rest = ⟨blanks, false, none⟩ := by
      rw [hc, Trivia.skip, skipFrom_blanks hb, Nat.zero_add]
    have hdrop : c.rest.drop blanks = b :: (w ++ t) := by
      rw [hc]
      exact List.drop_left' (List.length_replicate ..)
    have htake : (b :: (w ++ t)).take (w.length + 1) = b :: w := by
      rw [List.take_succ_cons, List.take_left]
    have hrest : (b :: (w ++ t)).drop (w.length + 1) = t := by
      rw [List.drop_succ_cons, List.drop_left]
    unfold Cursor.next
    simp only [hskip, hdrop, hscan, htake, hrest]
    exact ⟨rfl, rfl, Bool.or_false _, rfl, trivial, h⟩

/-! ## 2. Words -/

theorem startsToken_of_isNameStart (hb : Byte.isNameStart b = true) (rest : Text) :
    startsToken b rest = true := by
  have hne : ∀ c : UInt8, Byte.isNameStart c = false → b ≠ c := by
    rintro c hc rfl
    rw [hb] at hc
    cases hc
  simp [startsToken, hne Byte.space rfl, hne Byte.tab rfl, hne Byte.carriageReturn rfl,
    hne Byte.newline rfl, hne Byte.slash rfl]

theorem nameLength_append (hw : w.all Byte.isNamePart = true) (ht : Text.isApart t = true) :
    Lexeme.nameLength (w ++ t) = w.length := by
  have hstop : t.takeWhile Byte.isNamePart = [] := by
    cases t with
    | nil => rfl
    | cons b t =>
      have hb : Byte.isNamePart b = false := by simpa [Text.isApart] using ht
      rw [List.takeWhile_cons_of_neg (by simp [hb])]
  rw [Lexeme.nameLength, List.takeWhile_append_of_pos (by simpa using hw), hstop, List.append_nil]

/-- A word is cut off before a byte that cannot continue it. -/
theorem lexes_word (hw : Text.isName w = true) (ht : Text.isApart t = true) (h : Lexes t ts) :
    Lexes (w ++ t) (⟨Kind.ofWord w, w⟩ :: ts) := by
  cases w with
  | nil => cases hw
  | cons b w =>
    simp only [Text.isName, List.head?_cons, Option.map_some, Option.getD_some,
      Bool.and_eq_true] at hw
    obtain ⟨hb, hall⟩ := hw
    have hscan : Lexeme.scan b (w ++ t) = ⟨Kind.ofWord (b :: w), w.length + 1, []⟩ := by
      rw [Lexeme.scan, if_pos hb, Lexeme.word]
      have hlength := nameLength_append hall ht
      rw [List.cons_append] at hlength
      rw [hlength, List.length_cons, List.take_succ_cons, List.take_left]
    exact .token 0 (startsToken_of_isNameStart hb _) hscan h

/-- A keyword is cut off as a word is. -/
theorem lexes_keyword (k : Keyword) (ht : Text.isApart t = true) (h : Lexes t ts) :
    Lexes (k.spelling ++ t) (.fixed (.keyword k) :: ts) := by
  have hname : Text.isName k.spelling = true := by cases k <;> decide
  have hkind : Kind.ofWord k.spelling = .keyword k := by cases k <;> decide
  have hword := lexes_word hname ht h
  rw [hkind] at hword
  exact hword

/-! ## 3. Marks -/

/-- The mark is cut off before this text. -/
def Punct.StandsBefore (p : Punct) (t : Text) : Prop :=
  ∃ b w, p.spelling = b :: w ∧ startsToken b (w ++ t) = true ∧
    Lexeme.scan b (w ++ t) = ⟨.punct p, w.length + 1, []⟩

theorem lexes_punct (hp : p.StandsBefore t) (h : Lexes t ts) :
    Lexes (p.spelling ++ t) (punct p :: ts) := by
  obtain ⟨b, w, hspelling, hb, hscan⟩ := hp
  have htoken : punct p = ⟨.punct p, b :: w⟩ := by rw [← hspelling]; rfl
  rw [hspelling, htoken]
  exact .token 0 hb hscan h

/-- Every mark ends before a blank. -/
theorem Punct.standsBefore_blank (p : Punct) (t : Text) : p.StandsBefore (Byte.space :: t) := by
  cases p <;> exact ⟨_, _, rfl, rfl, rfl⟩

/-- Brackets and commas end before anything. -/
theorem Punct.standsBefore_of_isBracket
    (hp : p.isOpening = true ∨ p.isClosing = true ∨ p = .comma) (t : Text) : p.StandsBefore t := by
  cases p <;> first
    | exact ⟨_, _, rfl, rfl, rfl⟩
    | exact absurd hp (by decide)

/-! ## 4. Pieces of text -/

/-- In front of what cannot continue a name, the text `w` is cut into the tokens `ts`. -/
def Cuts (w : Text) (ts : List Lexed) : Prop :=
  ∀ t us, Text.isApart t = true → Lexes t us → Lexes (w ++ t) (ts ++ us)

theorem Text.isApart_append (hw : Text.isApart w = true) (ht : Text.isApart t = true) :
    Text.isApart (w ++ t) = true := by
  cases w with
  | nil => exact ht
  | cons b w => exact hw

section
variable {w w' : Text} {ts ts' : List Lexed} {p : Punct}

theorem Cuts.append (h : Cuts w ts) (hapart : Text.isApart w' = true) (h' : Cuts w' ts') :
    Cuts (w ++ w') (ts ++ ts') := by
  intro t us ht hus
  rw [List.append_assoc, List.append_assoc]
  exact h _ _ (Text.isApart_append hapart ht) (h' t us ht hus)

theorem Cuts.lexes (h : Cuts w ts) : Lexes w ts := by
  have hlexes := h [] [] rfl .nil
  rw [List.append_nil, List.append_nil] at hlexes
  exact hlexes

theorem Cuts.blank (h : Cuts w ts) (hts : ts ≠ []) : Cuts (Byte.space :: w) ts := by
  intro t us ht hus
  exact (h t us ht hus).blank (List.append_ne_nil_of_left_ne_nil hts us)

theorem cuts_name (hw : Text.isName w = true) (hkind : Kind.ofWord w = .identifier) :
    Cuts w [.name w] := by
  intro t us ht hus
  have hword := lexes_word hw ht hus
  rw [hkind] at hword
  exact hword

theorem cuts_keyword (k : Keyword) : Cuts k.spelling [.fixed (.keyword k)] := by
  intro t us ht hus
  exact lexes_keyword k ht hus

/-- A mark in front of a piece that does not make it longer. -/
theorem Cuts.mark (h : Cuts w ts) (hp : ∀ t, p.StandsBefore (w ++ t)) :
    Cuts (p.spelling ++ w) (punct p :: ts) := by
  intro t us ht hus
  rw [List.append_assoc]
  exact lexes_punct (hp t) (h t us ht hus)

theorem cuts_bracket (hp : p.isOpening = true ∨ p.isClosing = true ∨ p = .comma) :
    Cuts p.spelling [punct p] := by
  intro t us _ hus
  exact lexes_punct (p.standsBefore_of_isBracket hp t) hus

/-- A piece in brackets. -/
theorem Cuts.bracketed {q : Punct} (h : Cuts w ts) (hp : p.isOpening = true)
    (hq : q.isClosing = true) :
    Cuts (p.spelling ++ (w ++ q.spelling)) (punct p :: (ts ++ [punct q])) := by
  have hapart : Text.isApart q.spelling = true := by cases q <;> rfl
  exact (h.append hapart (cuts_bracket (.inr (.inl hq)))).mark fun t =>
    p.standsBefore_of_isBracket (.inl hp) _

/-- Is a token of this kind always spelt the same? -/
def Kind.isFixed : Kind → Bool
  | .punct _ | .keyword _ => true
  | _ => false

/-- A mark or a keyword with a blank behind it. -/
theorem Cuts.fixed {k : Kind} (h : Cuts w ts) (hk : k.isFixed = true) (hts : ts ≠ []) :
    Cuts (k.name ++ Byte.space :: w) (.fixed k :: ts) := by
  cases k with
  | punct p => exact (h.blank hts).mark fun t => p.standsBefore_blank (w ++ t)
  | keyword k => exact (cuts_keyword k).append rfl (h.blank hts)
  | _ => cases hk

end

/-! ## 5. Marks in front of an expression -/

/-- Can an expression start with this byte? -/
def Byte.opensExpr (b : UInt8) : Bool := isNameStart b || (txt "([!~+-").contains b

/-- Does the text start as an expression does? -/
def Text.opensExpr (t : Text) : Bool := (t.head?.map Byte.opensExpr).getD false

theorem Text.opensExpr_append (h : Text.opensExpr w = true) : Text.opensExpr (w ++ t) = true := by
  cases w with
  | nil => cases h
  | cons b w => exact h

theorem Text.opensExpr_of_isName (h : Text.isName w = true) : Text.opensExpr w = true := by
  cases w with
  | nil => cases h
  | cons b w =>
    have hb : Byte.isNameStart b = true := (Bool.and_eq_true _ _ ▸ h).1
    simp [Text.opensExpr, Byte.opensExpr, hb]

theorem Byte.isDigit_of_opensExpr (hb : Byte.opensExpr b = true) : Byte.isDigit b = false := by
  have hall : ∀ i : Fin 256,
      Byte.opensExpr (.ofFin i) = true → Byte.isDigit (.ofFin i) = false := by
    decide +kernel
  exact hall b.toFin hb

theorem Byte.ne_of_opensExpr {c : UInt8} (hb : Byte.opensExpr b = true)
    (hc : Byte.opensExpr c = false) : b ≠ c := by
  rintro rfl
  rw [hb] at hc
  cases hc

namespace Punct

variable {p : Punct} {a b c : UInt8} {w t : Text}

/-- A test decides if those before it fail. -/
theorem firstAt?_of_split (before : List Test) {after : List Test} {test : Test}
    (hsplit : tests a = before ++ test :: after)
    (hbefore : ∀ q ∈ before, q.succeeds t = false) (htest : test.succeeds t = true) :
    firstAt? a t = some test := by
  rw [firstAt?, hsplit, List.find?_append, List.find?_cons_of_pos htest,
    List.find?_eq_none.mpr (by simpa using hbefore), Option.none_or]

/-- A test for another byte fails. -/
theorem succeeds_eq_false (hc : c ≠ b) : Test.succeeds (c :: t) ⟨b :: w, p⟩ = false := by
  have hnot : (b :: w).isPrefixOf (c :: t) = false := by
    simp [List.isPrefixOf, hc.symm]
  rw [Test.succeeds, hnot, Bool.false_and]

/-- Does a byte start neither a word nor a number nor anything in quotes, nor a modifier? -/
def startsMark (a : UInt8) (t : Text) : Bool :=
  !(Byte.isNameStart a ||
    (Byte.isDigit a || (a == Byte.dot && (t.head?.map Byte.isDigit).getD false)) ||
    a == Byte.doubleQuote || a == Byte.singleQuote || a == Byte.backtick || a == Byte.atSign)

theorem standsBefore_of_firstAt? (hp : p.spelling = a :: w)
    (hstart : startsToken a (w ++ t) = true) (hmark : startsMark a (w ++ t) = true)
    (h : firstAt? a (w ++ t) = some ⟨w, p⟩) : p.StandsBefore t := by
  simp only [startsMark, Bool.not_eq_true', Bool.or_eq_false_iff, beq_eq_false_iff_ne] at hmark
  obtain ⟨⟨⟨⟨⟨hname, hdigit⟩, hdouble⟩, hsingle⟩, hback⟩, hat⟩ := hmark
  refine ⟨a, w, hp, hstart, ?_⟩
  rw [Lexeme.scan, hname, if_neg Bool.false_ne_true, if_neg (by simpa using hdigit),
    if_neg (by simp [hdouble, hsingle]), if_neg hback, if_neg hat, h]
  simp [Nat.add_comm]

/-- A sign in front of an expression ends there, unless it is doubled. -/
theorem sign_standsBefore
    (hp : p = .bang ∨ p = .tilde ∨ (p = .plus ∨ p = .minus) ∧ p.spelling ≠ [b])
    (hb : Byte.opensExpr b = true) : p.StandsBefore (b :: t) := by
  have hequals : b ≠ 0x3D := Byte.ne_of_opensExpr hb rfl
  have hcolon : b ≠ 0x3A := Byte.ne_of_opensExpr hb rfl
  rcases hp with rfl | rfl | ⟨rfl | rfl, hne⟩
  · refine standsBefore_of_firstAt? rfl rfl rfl (firstAt?_of_split [_] rfl ?_ rfl)
    exact List.forall_mem_singleton.mpr (succeeds_eq_false hequals)
  · exact ⟨_, _, rfl, rfl, rfl⟩
  · have hplus : b ≠ 0x2B := by
      rintro rfl
      exact hne rfl
    refine standsBefore_of_firstAt? rfl rfl rfl (firstAt?_of_split [_, _] rfl ?_ rfl)
    exact List.forall_mem_cons.mpr ⟨succeeds_eq_false hplus,
      List.forall_mem_singleton.mpr (succeeds_eq_false hcolon)⟩
  · have hminus : b ≠ 0x2D := by
      rintro rfl
      exact hne rfl
    refine standsBefore_of_firstAt? rfl rfl rfl (firstAt?_of_split [_, _] rfl ?_ rfl)
    exact List.forall_mem_cons.mpr ⟨succeeds_eq_false hminus,
      List.forall_mem_singleton.mpr (succeeds_eq_false hcolon)⟩

/-- What stands in front of a link ends before a name or a bracket. -/
theorem dot_standsBefore (hp : p = .dot ∨ p = .optional) (hb : Byte.opensExpr b = true) :
    p.StandsBefore (b :: t) := by
  have hdot : b ≠ 0x2E := Byte.ne_of_opensExpr hb rfl
  have hdigit : Byte.isDigit b = false := Byte.isDigit_of_opensExpr hb
  rcases hp with rfl | rfl
  · have hmark : startsMark 0x2E (b :: t) = true := by
      simp [startsMark, hdigit]
      decide
    refine standsBefore_of_firstAt? rfl rfl hmark (firstAt?_of_split [_] rfl ?_ rfl)
    exact List.forall_mem_singleton.mpr (succeeds_eq_false hdot)
  · have hsucceeds : Test.succeeds (0x2E :: b :: t) ⟨[0x2E], .optional⟩ = true := by
      have hstart : List.isPrefixOf [0x2E] (0x2E :: b :: t) = true := rfl
      simp [Test.succeeds, hstart, hdigit]
    refine standsBefore_of_firstAt? rfl rfl rfl (firstAt?_of_split [_, _] rfl ?_ hsucceeds)
    exact List.forall_mem_cons.mpr ⟨succeeds_eq_false (by decide),
      List.forall_mem_singleton.mpr (succeeds_eq_false (by decide))⟩

end Punct

/-- A piece in the brackets of an index or a call. -/
theorem Cuts.link {q : Punct} (h : Cuts w ts) (optional : Bool)
    (hp : p = .openBracket ∨ p = .openParen) (hq : q.isClosing = true) :
    Cuts ((if optional then Punct.optional.spelling else []) ++ (p.spelling ++ (w ++ q.spelling)))
      (Lexed.link optional p ++ (ts ++ [punct q])) := by
  have hopening : p.isOpening = true := by rcases hp with rfl | rfl <;> rfl
  have hbracketed := h.bracketed hopening hq
  cases optional with
  | false => exact hbracketed
  | true =>
    refine hbracketed.mark (p := .optional) fun t => ?_
    rcases hp with rfl | rfl
    · exact Punct.dot_standsBefore (.inr rfl) rfl
    · exact Punct.dot_standsBefore (.inr rfl) rfl

/-- A name after a dot. -/
theorem cuts_dot (hw : Text.isName w = true) (hkind : Kind.ofWord w = .identifier)
    (optional : Bool) :
    Cuts ((if optional then Punct.optional else Punct.dot).spelling ++ w)
      [dot optional, .name w] := by
  refine (cuts_name hw hkind).mark fun t => ?_
  cases w with
  | nil => cases hw
  | cons b w =>
    refine Punct.dot_standsBefore ?_ (Text.opensExpr_of_isName hw)
    cases optional
    · exact .inl rfl
    · exact .inr rfl

end ReactiveScript
