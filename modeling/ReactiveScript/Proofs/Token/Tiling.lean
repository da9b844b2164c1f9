import ReactiveScript.Proofs.Token.Scanning

/-!
# Tokens and trivia tile a source

`tokenize` loses no byte and reads none twice: a source is a gap, a token, a gap, a token, and so
on, up to its end.
-/

namespace ReactiveScript

open Byte

variable {c : Cursor} {ts : List Token} {fresh : Bool} {offset : Nat} {text : Text}

/-! ## 1. The grammar of trivia -/

/-- White space between tokens: blank, tab, carriage return and line feed. -/
def Byte.isWhite (b : UInt8) : Bool :=
  b == space || b == tab || b == carriageReturn || b == newline

namespace Trivia

variable {b : UInt8} {n : Nat} {breaks : Bool} {rest : Text}

/-- The bytes that close a block comment. -/
def commentEnd : Text := [star, slash]

/-- A text that holds trivia only; `last` tells whether the source ends after it. -/
inductive Gap (last : Bool) : Text → Prop where
  | nil : Gap last []
  | white {b : UInt8} {t : Text} : isWhite b = true → Gap last t → Gap last (b :: t)
  /-- `//` and a text up to a line feed, or up to the end of the source. -/
  | lineComment {body t : Text} : newline ∉ body →
      t.head? = some newline ∨ (last = true ∧ t = []) → Gap last t →
      Gap last (slash :: slash :: (body ++ t))
  | blockComment {body t : Text} : ¬ commentEnd <:+: body → Gap last t →
      Gap last (slash :: star :: (body ++ commentEnd ++ t))
  /-- A block comment that runs to the end of the source. -/
  | openComment {body : Text} : last = true → ¬ commentEnd <:+: body →
      Gap last (slash :: star :: body)

/-- The rest of a text of trivia, from inside what the last byte belonged to. -/
def GapFrom (last : Bool) : Within → Text → Prop
  | .space, g => Gap last g
  | .lineComment, g => ∃ body t, g = body ++ t ∧ newline ∉ body ∧
      (t.head? = some newline ∨ (last = true ∧ t = [])) ∧ Gap last t
  | .blockComment _, g =>
      (∃ body t, g = body ++ commentEnd ++ t ∧ ¬ commentEnd <:+: body ∧ Gap last t) ∨
      (last = true ∧ ¬ commentEnd <:+: g)

theorem commentEnd_infix_cons {t : Text} :
    commentEnd <:+: b :: t ↔ (b = star ∧ t.head? = some slash) ∨ commentEnd <:+: t := by
  rw [List.infix_cons_iff, commentEnd, List.cons_prefix_cons]
  constructor
  · rintro (⟨hb, u, hu⟩ | h)
    · exact .inl ⟨hb.symm, by rw [← hu]; rfl⟩
    · exact .inr h
  · rintro (⟨hb, ht⟩ | h)
    · obtain ⟨u, rfl⟩ := List.head?_eq_some_iff.mp ht
      exact .inl ⟨hb.symm, u, rfl⟩
    · exact .inr h

theorem gapFrom_lineComment_cons {last : Bool} {g : Text} (hb : b ≠ newline)
    (h : GapFrom last .lineComment g) : GapFrom last .lineComment (b :: g) := by
  obtain ⟨body, t, rfl, hbody, hend, ht⟩ := h
  refine ⟨b :: body, t, rfl, ?_, hend, ht⟩
  intro hmem
  rcases List.mem_cons.mp hmem with h | h
  · exact hb h.symm
  · exact hbody h

theorem gapFrom_blockComment_cons {last : Bool} {start : Nat} {g : Text}
    (hb : ¬ (b = star ∧ g.head? = some slash))
    (h : GapFrom last (.blockComment start) g) : GapFrom last (.blockComment start) (b :: g) := by
  rcases h with ⟨body, t, rfl, hbody, ht⟩ | ⟨hlast, hg⟩
  · refine .inl ⟨b :: body, t, rfl, ?_, ht⟩
    rw [commentEnd_infix_cons]
    rintro (⟨hs, hh⟩ | h)
    · obtain ⟨u, rfl⟩ := List.head?_eq_some_iff.mp hh
      exact hb ⟨hs, rfl⟩
    · exact hbody h
  · refine .inr ⟨hlast, ?_⟩
    rw [commentEnd_infix_cons]
    rintro (h | h)
    · exact hb h
    · exact hg h

/-- A start of the text is the rest of a gap; the result counts its bytes, after `n` others, and
    notes whether a line ends in it. -/
def Skips (w : Within) (n : Nat) (breaks : Bool) (t : Text) (r : Trivia) : Prop :=
  ∃ g rest, t = g ++ rest ∧ r.width = n + g.length ∧
    r.breaks = (breaks || g.contains newline) ∧ GapFrom rest.isEmpty w g

theorem skips_nothing {w : Within} {t : Text} {r : Trivia} (hw : r.width = n)
    (hb : r.breaks = breaks) (h : GapFrom t.isEmpty w []) : Skips w n breaks t r :=
  ⟨[], t, rfl, by simpa using hw, by simpa using hb, h⟩

/-- Bytes in front of what is skipped. -/
theorem skips_append (first : Text) {w w' : Within} {n : Nat} {breaks breaks' : Bool} {t : Text}
    {r : Trivia} (h : Skips w' (n + first.length) breaks' t r)
    (hb : breaks' = (breaks || first.contains newline))
    (hg : ∀ g rest : Text, t = g ++ rest → GapFrom rest.isEmpty w' g →
      GapFrom rest.isEmpty w (first ++ g)) :
    Skips w n breaks (first ++ t) r := by
  obtain ⟨g, rest, ht, hwidth, hbreaks, hgap⟩ := h
  refine ⟨first ++ g, rest, ?_, ?_, ?_, hg g rest ht hgap⟩
  · rw [ht, List.append_assoc]
  · rw [hwidth, List.length_append]
    omega
  · rw [hbreaks, hb, Bool.or_assoc]
    simp

theorem or_contains_newline (breaks : Bool) (hb : b ≠ newline) :
    breaks = (breaks || ([b] : Text).contains newline) := by
  simpa using fun h : newline = b => absurd h.symm hb

/-- All that is skipped from here on is trivia, wherever it is skipped. -/
def SkipsTrivia (t : Text) : Prop :=
  ∀ w n breaks, Skips w n breaks t (skipFrom w n breaks t)

theorem skips_end (w : Within) (n : Nat) (breaks : Bool) :
    Skips w n breaks [] (skipFrom w n breaks []) := by
  rw [skipFrom.eq_def]
  cases w with
  | space => exact skips_nothing rfl rfl .nil
  | lineComment => exact skips_nothing rfl rfl ⟨[], [], rfl, by simp, .inr ⟨rfl, rfl⟩, .nil⟩
  | blockComment start => exact skips_nothing rfl rfl (.inr ⟨rfl, by simp [commentEnd]⟩)

/-- A slash between tokens: it may start a comment. -/
theorem skips_slash (ih : SkipsTrivia rest.tail) :
    Skips .space n breaks (slash :: rest) (skipFrom .space n breaks (slash :: rest)) := by
  rw [skipFrom.eq_def]
  dsimp only
  rw [if_neg (by decide), if_neg (by decide), if_pos rfl]
  cases rest with
  | nil => exact skips_nothing rfl rfl .nil
  | cons c rest =>
    dsimp only
    by_cases hslash : c = slash
    · subst hslash
      rw [if_pos rfl]
      refine skips_append [slash, slash] (ih _ _ _) (Bool.or_false breaks).symm ?_
      intro g rest _ hg
      obtain ⟨body, t, rfl, hbody, hend, ht⟩ := hg
      show Gap rest.isEmpty (slash :: slash :: (body ++ t))
      exact .lineComment hbody hend ht
    · rw [if_neg hslash]
      by_cases hstar : c = star
      · subst hstar
        rw [if_pos rfl]
        refine skips_append [slash, star] (ih _ _ _) (Bool.or_false breaks).symm ?_
        intro g rest _ hg
        rcases hg with ⟨body, t, rfl, hbody, ht⟩ | ⟨hlast, hbody⟩
        · show Gap rest.isEmpty (slash :: star :: (body ++ commentEnd ++ t))
          exact .blockComment hbody ht
        · exact .openComment hlast hbody
      · rw [if_neg hstar]
        exact skips_nothing rfl rfl .nil

theorem skips_space (ih : SkipsTrivia rest) (ih' : SkipsTrivia rest.tail) :
    Skips .space n breaks (b :: rest) (skipFrom .space n breaks (b :: rest)) := by
  by_cases hslash : b = slash
  · subst hslash
    exact skips_slash ih'
  · rw [skipFrom.eq_def]
    dsimp only
    by_cases hblank : b = space ∨ b = tab ∨ b = carriageReturn
    · have hwhite : isWhite b = true := by rcases hblank with rfl | rfl | rfl <;> decide
      have hline : b ≠ newline := by rcases hblank with rfl | rfl | rfl <;> decide
      rw [if_pos hblank]
      exact skips_append [b] (ih _ _ _) (or_contains_newline breaks hline)
        fun g rest _ hg => .white hwhite hg
    · rw [if_neg hblank]
      by_cases hline : b = newline
      · subst hline
        rw [if_pos rfl]
        exact skips_append [newline] (ih _ _ _) (by simp) fun g rest _ hg => .white rfl hg
      · rw [if_neg hline, if_neg hslash]
        exact skips_nothing rfl rfl .nil

theorem skips_lineComment (ih : SkipsTrivia rest) :
    Skips .lineComment n breaks (b :: rest) (skipFrom .lineComment n breaks (b :: rest)) := by
  rw [skipFrom.eq_def]
  dsimp only
  by_cases hline : b = newline
  · subst hline
    rw [if_pos rfl]
    refine skips_append [newline] (ih _ _ _) (by simp) fun g rest _ hg => ?_
    exact ⟨[], newline :: g, rfl, by simp, .inl rfl, .white rfl hg⟩
  · rw [if_neg hline]
    exact skips_append [b] (ih _ _ _) (or_contains_newline breaks hline)
      fun g rest _ hg => gapFrom_lineComment_cons hline hg

theorem skips_blockComment {start : Nat} (ih : SkipsTrivia rest) (ih' : SkipsTrivia rest.tail) :
    Skips (.blockComment start) n breaks (b :: rest)
      (skipFrom (.blockComment start) n breaks (b :: rest)) := by
  rw [skipFrom.eq_def]
  dsimp only
  by_cases hline : b = newline
  · subst hline
    rw [if_pos rfl]
    exact skips_append [newline] (ih _ _ _) (by simp)
      fun g rest _ hg => gapFrom_blockComment_cons (fun h => absurd h.1 (by decide)) hg
  · rw [if_neg hline]
    by_cases hclose : b = star ∧ rest.head? = some slash
    · rw [if_pos hclose]
      obtain ⟨rfl, hhead⟩ := hclose
      obtain ⟨rest, rfl⟩ := List.head?_eq_some_iff.mp hhead
      exact skips_append commentEnd (ih' _ _ _) (Bool.or_false breaks).symm
        fun g rest _ hg => .inl ⟨[], g, rfl, by simp [commentEnd], hg⟩
    · rw [if_neg hclose]
      refine skips_append [b] (ih _ _ _) (or_contains_newline breaks hline) ?_
      intro g rest' hrest hg
      refine gapFrom_blockComment_cons (fun hend => hclose ⟨hend.1, ?_⟩) hg
      have hhead : g.head? = some slash := hend.2
      rw [hrest, List.head?_append, hhead]
      rfl

/-- **What `skipFrom` skips is trivia.** -/
theorem skipFrom_gap (t : Text) : SkipsTrivia t := by
  -- A comment starts and ends with two bytes, so the induction is on the length.
  induction hlength : t.length using Nat.strongRecOn generalizing t with
  | ind k ih =>
    intro w n breaks
    cases t with
    | nil => exact skips_end w n breaks
    | cons b rest =>
      rw [List.length_cons] at hlength
      have hrest : SkipsTrivia rest := ih rest.length (by omega) rest rfl
      have htail : SkipsTrivia rest.tail :=
        ih rest.tail.length (by rw [List.length_tail]; omega) rest.tail rfl
      cases w with
      | space => exact skips_space hrest htail
      | lineComment => exact skips_lineComment hrest
      | blockComment start => exact skips_blockComment hrest htail

end Trivia

/-- The trivia at a cursor is a gap. -/
theorem Cursor.gap_isGap (c : Cursor) : Trivia.Gap c.afterGap.isEmpty c.gap ∧
    (Trivia.skip c.rest).breaks = c.gap.contains newline := by
  have hskips : Trivia.Skips .space 0 false c.rest (Trivia.skip c.rest) := Trivia.skipFrom_gap ..
  obtain ⟨g, rest, ht, hwidth, hbreaks, hgap⟩ := hskips
  have hw : (Trivia.skip c.rest).width = g.length := by simpa using hwidth
  have hg : c.gap = g := by rw [gap, hw, ht, List.take_left]
  have hrest : c.afterGap = rest := by rw [afterGap, hw, ht, List.drop_left]
  rw [hg, hrest]
  exact ⟨hgap, by simpa using hbreaks⟩

/-! ## 2. Tilings -/

/-- A token stands after a gap at an offset. It starts a line if none was read on the line yet
    (`fresh`), or if a line ends in the gap. -/
structure Token.After (fresh : Bool) (offset : Nat) (gap : Text) (t : Token) : Prop where
  offset_eq : t.offset = offset + gap.length
  lineStart_iff : t.lineStart = true ↔ fresh = true ∨ newline ∈ gap

/-- The tokens tile a text that lies at an offset: each stands after a gap of trivia, takes at least
    one byte of the text, and the last one stands at the end. -/
inductive Tiles : (fresh : Bool) → (offset : Nat) → Text → List Token → Prop where
  | done {fresh : Bool} {offset : Nat} {gap : Text} {t : Token} : Trivia.Gap true gap →
      t.After fresh offset gap → t.kind = .eof → t.text = [] → Tiles fresh offset gap [t]
  | token {fresh : Bool} {offset : Nat} {gap rest : Text} {t : Token} {ts : List Token} :
      Trivia.Gap false gap → t.After fresh offset gap → t.kind ≠ .eof → t.text ≠ [] →
      Tiles false t.stop rest ts → Tiles fresh offset (gap ++ t.text ++ rest) (t :: ts)

/-- The token that `next` gives stands after the gap. -/
theorem Cursor.next_after (c : Cursor) : c.next.token.After c.lineStart c.pos.offset c.gap := by
  have hbreaks := c.gap_isGap.2
  rcases c.next_cases with ⟨-, ht, -⟩ | ⟨b, rest, -, ht, -⟩ <;> rw [ht]
  all_goals exact ⟨by simp [Token.offset], by simp [hbreaks]⟩

/-- One step of a tiling: what `next` reads, and the tokens of what it leaves. -/
theorem tiles_next (hkind : c.next.token.kind ≠ .eof)
    (hts : Tiles false c.next.cursor.pos.offset c.next.cursor.rest ts) :
    Tiles c.lineStart c.pos.offset c.rest (c.next.token :: ts) := by
  have hafter := c.next_after
  rcases c.next_cases with ⟨-, ht, -⟩ | ⟨b, rest, hrest, ht, hc⟩
  · rw [ht] at hkind
    exact absurd rfl hkind
  · have hgap : Trivia.Gap false c.gap := by
      have h := c.gap_isGap.1
      rwa [hrest] at h
    have hne : c.next.token.text ≠ [] := by
      have hpos := Lexeme.scan_width_pos b rest
      rw [ht]
      simp only [ne_eq, List.take_eq_nil_iff, reduceCtorEq, or_false]
      omega
    have htext : c.rest = c.gap ++ c.next.token.text ++ c.next.cursor.rest := by
      rw [ht, hc, List.append_assoc, List.take_append_drop, ← hrest, c.gap_append_afterGap]
    have hstop : c.next.cursor.pos.offset = c.next.token.stop := by
      rw [ht, hc]
      simp [Token.stop]
    rw [htext]
    exact .token hgap hafter hkind hne (hstop ▸ hts)

theorem tiles_end (hkind : c.next.token.kind = .eof) :
    Tiles c.lineStart c.pos.offset c.rest [c.next.token] := by
  have hafter := c.next_after
  rcases c.next_cases with ⟨hrest, ht, -⟩ | ⟨b, rest, -, ht, -⟩
  · have hgap : c.gap = c.rest := by rw [← c.gap_append_afterGap, hrest, List.append_nil]
    have h := c.gap_isGap.1
    rw [hrest] at h
    rw [← hgap]
    exact .done h hafter hkind (by rw [ht])
  · have h := Lexeme.scan_kind b rest
    rw [ht] at hkind
    simp only at hkind
    rw [hkind] at h
    cases h

/-- What is left after a token that is not the end is shorter. -/
theorem Cursor.next_rest_length_lt (hkind : c.next.token.kind ≠ .eof) :
    c.next.cursor.rest.length < c.rest.length := by
  rcases c.next_cases with ⟨-, ht, -⟩ | ⟨b, rest, hrest, ht, hc⟩
  · rw [ht] at hkind
    exact absurd rfl hkind
  · have hpos := Lexeme.scan_width_pos b rest
    have hlen := congrArg List.length c.gap_append_afterGap
    rw [hrest] at hlen
    rw [hc]
    simp only [List.length_append, List.length_cons, List.length_drop] at hlen ⊢
    omega

/-- **The run of the tokenizer**: with fuel for every byte left, it adds the tokens that tile what
    is left to those it has. -/
theorem tokensFrom_tiles (fuel : Nat) (tokens : List Token) (reports : List Report) (c : Cursor)
    (hfuel : c.rest.length < fuel) :
    ∃ ts, (tokensFrom fuel tokens reports c).1 = tokens.reverse ++ ts ∧
      Tiles c.lineStart c.pos.offset c.rest ts := by
  induction fuel generalizing tokens reports c with
  | zero => omega
  | succ fuel ih =>
    rw [tokensFrom]
    by_cases hkind : c.next.token.kind = .eof
    · refine ⟨[c.next.token], ?_, tiles_end hkind⟩
      simp [hkind]
    · have hlt := Cursor.next_rest_length_lt hkind
      obtain ⟨ts, hts, htiles⟩ := ih (c.next.token :: tokens)
        (c.next.reports.reverse ++ reports) c.next.cursor (by omega)
      have hfresh : c.next.cursor.lineStart = false := by
        rcases c.next_cases with ⟨-, -, hc⟩ | ⟨b, rest, -, -, hc⟩ <;> rw [hc]
      rw [hfresh] at htiles
      refine ⟨c.next.token :: ts, ?_, tiles_next hkind htiles⟩
      simp [hkind, hts]

/-! ## 3. What a tiling says of each token -/

/-- A tiling ends with the end of the text, and only there. -/
theorem tiles_last (h : Tiles fresh offset text ts) :
    ∃ init last, ts = init ++ [last] ∧ (∀ t ∈ init, t.kind ≠ .eof) ∧
      last.kind = .eof ∧ last.text = [] ∧ last.offset = offset + text.length := by
  induction h with
  | done _ hafter hkind htext =>
    exact ⟨[], _, rfl, by simp, hkind, htext, hafter.offset_eq⟩
  | @token _ _ _ _ t _ _ hafter hkind _ _ ih =>
    obtain ⟨init, last, rfl, hinit, hlast, htext, hoffset⟩ := ih
    refine ⟨t :: init, last, rfl, ?_, hlast, htext, ?_⟩
    · intro u hu
      rcases List.mem_cons.mp hu with rfl | hu
      · exact hkind
      · exact hinit u hu
    · have := hafter.offset_eq
      rw [hoffset, Token.stop, List.length_append, List.length_append]
      simp only [Token.offset] at this
      omega

/-- Every token of a tiling lies in the text, at its offset. -/
theorem tiles_mem (h : Tiles fresh offset text ts) {t : Token} (ht : t ∈ ts) :
    ∃ before after, text = before ++ t.text ++ after ∧ t.offset = offset + before.length ∧
      (t.kind ≠ .eof → t.text ≠ []) := by
  induction h with
  | @done _ _ gap u _ hafter hkind htext =>
    obtain rfl := List.mem_singleton.mp ht
    exact ⟨gap, [], by simp [htext], hafter.offset_eq, fun hne => absurd hkind hne⟩
  | @token _ offset gap rest u _ _ hafter _ htext _ ih =>
    have hoffset := hafter.offset_eq
    rcases List.mem_cons.mp ht with rfl | ht
    · exact ⟨gap, rest, rfl, hoffset, fun _ => htext⟩
    · obtain ⟨before, after, rfl, hstop, hne⟩ := ih ht
      refine ⟨gap ++ u.text ++ before, after, by simp, ?_, hne⟩
      simp only [Token.stop, Token.offset, List.length_append] at hstop hoffset ⊢
      omega

/-- No token of a tiling starts before the one in front of it has ended. -/
theorem tiles_pairwise (h : Tiles fresh offset text ts) :
    ts.Pairwise fun a b => a.stop ≤ b.offset := by
  induction h with
  | done => exact List.pairwise_singleton _ _
  | token _ _ _ _ hts ih =>
    refine List.pairwise_cons.mpr ⟨fun b hb => ?_, ih⟩
    obtain ⟨before, _, _, hoffset, _⟩ := tiles_mem hts hb
    omega

/-! ## 4. All tokens of a source -/

/-- **Tokens lose nothing of their source.** The list of tokens ends with the end of the source and
    has it only there. Every other token is not empty and holds the bytes at its offset, and none
    starts before the one in front of it has ended. The bytes before, between and after the tokens
    are trivia, and a token starts a line exactly if it is the first one or the trivia right before
    it holds a line feed. -/
theorem tokenize_lossless (source : Text) :
    (∃ init last, (tokenize source).1 = init ++ [last] ∧ (∀ t ∈ init, t.kind ≠ .eof) ∧
      last.kind = .eof ∧ last.text = [] ∧ last.offset = source.length) ∧
    (∀ t ∈ (tokenize source).1, t.kind ≠ .eof → t.text ≠ [] ∧ t.text <+: source.drop t.offset) ∧
    ((tokenize source).1.Pairwise fun a b => a.stop ≤ b.offset) ∧
    Tiles true 0 source (tokenize source).1 := by
  obtain ⟨ts, hts, htiles⟩ := tokensFrom_tiles (source.length + 1) [] [] (Cursor.ofText source)
    (Nat.lt_succ_self source.length)
  have htokens : (tokenize source).1 = ts := hts
  have htiles : Tiles true 0 source ts := htiles
  rw [htokens]
  refine ⟨?_, ?_, tiles_pairwise htiles, htiles⟩
  · simpa using tiles_last htiles
  · intro t ht hkind
    obtain ⟨before, after, rfl, hoffset, hne⟩ := tiles_mem htiles ht
    refine ⟨hne hkind, after, ?_⟩
    rw [hoffset, Nat.zero_add, List.append_assoc, List.drop_left]

end ReactiveScript
