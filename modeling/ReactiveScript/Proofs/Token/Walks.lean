import ReactiveScript.Proofs.Grammar.States
import ReactiveScript.Proofs.Token.Locality

/-!
# Walks over a source

A reader takes one token after the other, but not always from where the last one ended. Behind a tag
or a child in braces it goes back into its token, drops what follows the closing bytes, and reads
the text between tags from there. A walk is what one reader has read.
-/

namespace ReactiveScript

open Byte

variable {source : Text}

/-! ## 1. Single tokens -/

/-- Trivia ends before a byte that is not white. -/
theorem Trivia.skipFrom_stop (w : Within) (n : Nat) (breaks : Bool) (t : Text) :
    ∀ b ∈ t[(skipFrom w n breaks t).width - n]?, isWhite b = false := by
  have hle := le_skipFrom_width
  fun_induction skipFrom w n breaks t <;> intro b hb
  all_goals grind [isWhite]

/-- Strings and templates: the tokens in which a line can end. -/
def Kind.isLiteral : Kind → Bool
  | .string | .template => true
  | _ => false

/-- A line ends in a scanned token only if that is a string or a template. -/
theorem Lexeme.isLiteral_of_newline {b : UInt8} {rest : Text} (hb : b ≠ newline)
    (h : newline ∈ (b :: rest).take (scan b rest).width) :
    (scan b rest).kind.isLiteral = true := by
  -- Cut off where the line ends, the token is the same, or one that is open there.
  have hrest : newline ∈ rest :=
    (List.mem_cons.mp (List.mem_of_mem_take h)).resolve_left (Ne.symm hb)
  obtain ⟨line, more, rfl, hline⟩ := List.eq_append_cons_of_mem hrest
  rcases scan_append (a := newline :: more) rfl b line with heq | ⟨hopen, hkind, _⟩
  · have hwidth : (scan b (line ++ newline :: more)).width ≤ (b :: line).length := by
      rw [heq, List.length_cons]
      exact scan_width_le b line
    rw [← List.cons_append, List.take_append_of_le_length hwidth] at h
    rcases List.mem_cons.mp (List.mem_of_mem_take h) with h | h
    · exact absurd h.symm hb
    · exact absurd h hline
  · rw [hkind]
    rcases hopen.2.2 with h | h <;> rw [h] <;> rfl

/-- The token holds the byte at an offset. -/
def Token.Holds (t : Token) (i : Nat) : Prop := t.offset ≤ i ∧ i < t.stop

instance (t : Token) (i : Nat) : Decidable (t.Holds i) := inferInstanceAs (Decidable (_ ∧ _))

theorem Token.IsIn.getElem?_eq {t : Token} (h : t.IsIn source) {i : Nat} (hi : t.Holds i) :
    source[i]? = t.text[i - t.offset]? := by
  obtain ⟨rest, hrest⟩ := h.text
  obtain ⟨k, rfl⟩ := Nat.exists_eq_add_of_le hi.1
  have hk : k < t.text.length := Nat.lt_of_add_lt_add_left hi.2
  rw [Nat.add_sub_cancel_left, ← List.getElem?_append_left hk, hrest, List.getElem?_drop]
  rfl

namespace Cursor
variable {c : Cursor}

theorem next_cursor_lineStart (c : Cursor) : c.next.cursor.lineStart = false := by
  rcases c.next_cases with ⟨-, -, hc⟩ | ⟨b, rest, -, -, hc⟩ <;> rw [hc]

/-- The next token starts where the gap ends. -/
theorem next_head? {b : UInt8} {rest : Text} (hrest : c.afterGap = b :: rest) :
    c.next.token.text.head? = some b := by
  rcases c.next_cases with ⟨hnil, -, -⟩ | ⟨b', rest', hrest', ht, -⟩
  · rw [hrest] at hnil
    cases hnil
  · rw [hrest] at hrest'
    cases hrest'
    obtain ⟨n, hn⟩ := Nat.exists_eq_add_one_of_ne_zero (Nat.ne_of_gt (Lexeme.scan_width_pos b rest))
    rw [ht, hn]
    rfl

section
variable (h : c.IsIn source)
include h

/-- The bytes from a place on are its gap and what comes behind it. -/
theorem IsIn.getElem?_gap {i : Nat} (hle : c.pos.offset ≤ i) :
    source[i]? = (c.gap ++ c.afterGap)[i - c.pos.offset]? := by
  rw [c.gap_append_afterGap, h.rest_eq, List.getElem?_drop]
  congr 1
  omega

/-- A line ends between a place and its next token exactly if one ends in the gap. -/
theorem IsIn.newline_mem_gap :
    newline ∈ c.gap ↔
      ∃ i, c.pos.offset ≤ i ∧ i < c.next.token.offset ∧ source[i]? = some newline := by
  have hoffset := c.next_after.offset_eq
  constructor
  · intro hmem
    obtain ⟨k, hk⟩ := List.mem_iff_getElem?.mp hmem
    have hlt : k < c.gap.length := (List.getElem?_eq_some_iff.mp hk).1
    refine ⟨c.pos.offset + k, by omega, by omega, ?_⟩
    rw [h.getElem?_gap (by omega), Nat.add_sub_cancel_left, List.getElem?_append_left hlt, hk]
  · rintro ⟨i, hle, hlt, hi⟩
    rw [h.getElem?_gap hle, List.getElem?_append_left (by omega)] at hi
    exact List.mem_of_getElem? hi

/-- The next token starts with a byte that is not white, unless it is the end. -/
theorem IsIn.next_not_white (hlt : c.next.token.offset < source.length) :
    ∃ b, c.next.token.text.head? = some b ∧ isWhite b = false := by
  rcases c.next_cases with ⟨_, ht, -⟩ | ⟨b, rest, hrest, -, -⟩
  · have hend := (next_fits h.rest_eq).ended (by rw [ht])
    omega
  · refine ⟨b, next_head? hrest, Trivia.skipFrom_stop .space 0 false c.rest b ?_⟩
    have hhead : (c.rest.drop (Trivia.skip c.rest).width).head? = some b := by
      show c.afterGap.head? = some b
      rw [hrest]
      rfl
    rw [List.head?_drop] at hhead
    exact hhead

/-- A line ends in the next token only if that is a string or a template. -/
theorem IsIn.isLiteral_of_newline {i : Nat} (hi : c.next.token.Holds i)
    (hline : source[i]? = some newline) : c.next.token.kind.isLiteral = true := by
  have hstop := h.next.token.stop_le
  obtain ⟨b, hb, hwhite⟩ := h.next_not_white (by have := hi.1; have := hi.2; omega)
  have hmem : newline ∈ c.next.token.text := by
    rw [h.next.token.getElem?_eq hi] at hline
    exact List.mem_of_getElem? hline
  rcases c.next_cases with ⟨-, ht, -⟩ | ⟨b', rest, hrest, ht, -⟩
  · rw [ht] at hmem
    cases hmem
  · obtain rfl : b = b' := Option.some.inj (hb.symm.trans (next_head? hrest))
    rw [ht] at hmem ⊢
    refine Lexeme.isLiteral_of_newline ?_ hmem
    rintro rfl
    cases hwhite

end

/-- Text lies right at the cursor, and the cursor behind it at its end. -/
theorem jsxText_offset (c : Cursor) :
    c.jsxText.token.offset = c.pos.offset ∧ c.jsxText.cursor.pos.offset = c.jsxText.token.stop := by
  simp [jsxText, Token.offset, Token.stop]

/-- The place right behind a token, with no line begun. -/
def behind (source : Text) (t : Token) : Cursor := inside source t t.text.length

end Cursor

/-! ## 2. Walks -/

/-- So many bytes of a token are left when the reader goes back into it, and what they make up: the
    `>` that ends a tag, or the whole of a mark such as `}`. -/
inductive Token.Closes : Token → Nat → Token → Prop
  | tag {t : Token} (hkind : t.kind ≠ .jsxText) (h : t.startsWith greater = true) :
      Closes t 1 { t with kind := .punct .greater, text := [greater] }
  | mark {t : Token} {p : Punct} (hkind : t.kind = .punct p) : Closes t p.spelling.length t

/-- The tokens read from a place, last first, and the place reached. -/
inductive Walk (source : Text) (origin : Cursor) : List Token → Cursor → Prop
  | start : Walk source origin [] origin
  | next {ts : List Token} {c : Cursor} (h : Walk source origin ts c) :
      Walk source origin (c.next.token :: ts) c.next.cursor
  /-- The reader goes back to the end of what closes a tag or a child. -/
  | back {t t' : Token} {width : Nat} {ts : List Token} {c : Cursor}
      (h : Walk source origin (t :: ts) c) (hclose : t.Closes width t') :
      Walk source origin (t' :: ts) (Cursor.behind source t')
  /-- The reader goes back, and reads the text that follows. -/
  | text {t t' : Token} {width : Nat} {ts : List Token} {c : Cursor}
      (h : Walk source origin (t :: ts) c) (hclose : t.Closes width t') :
      Walk source origin ((Cursor.behind source t').jsxText.token :: t' :: ts)
        (Cursor.behind source t').jsxText.cursor

namespace Token.Closes
variable {t t' : Token} {width : Nat} (h : t.Closes width t')
include h

theorem pos_eq : t'.pos = t.pos := by cases h <;> rfl

theorem offset_eq : t'.offset = t.offset := by cases h <;> rfl

theorem lineStart_eq : t'.lineStart = t.lineStart := by cases h <;> rfl

theorem kind_ne : t.kind ≠ .jsxText ∧ t'.kind ≠ .jsxText := by
  cases h with
  | tag hkind _ => exact ⟨hkind, nofun⟩
  | mark hkind => simp [hkind]

theorem isIn (ht : t.IsIn source) : t'.IsIn source := by
  cases h with
  | tag hkind hstart =>
    refine ⟨ht.pos, List.IsPrefix.trans ?_ ht.text, fun p hp => ?_⟩
    · unfold startsWith at hstart
      obtain ⟨rest, hrest⟩ := List.head?_eq_some_iff.mp (beq_iff_eq.mp hstart)
      exact ⟨rest, hrest.symm⟩
    · cases hp
      rfl
  | mark hkind => exact ht

theorem newline_notMem (ht : t.IsIn source) : newline ∉ t'.text := by
  have ht' := h.isIn ht
  cases h with
  | tag => exact (by decide : newline ∉ [greater])
  | mark hkind => exact ht'.spelt _ hkind ▸ Punct.newline_notMem_spelling _

theorem head?_eq : t'.text.head? = t.text.head? := by
  cases h with
  | tag _ hstart => exact (beq_iff_eq.mp hstart).symm
  | mark => rfl

theorem text_ne (ht : t.IsIn source) : t'.text ≠ [] := by
  have ht' := h.isIn ht
  cases h with
  | tag => exact List.cons_ne_nil _ _
  | mark hkind => exact ht'.spelt _ hkind ▸ Punct.spelling_ne_nil _

theorem length_eq (ht : t.IsIn source) : t'.text.length = width := by
  have ht' := h.isIn ht
  cases h with
  | tag => rfl
  | mark hkind => rw [ht'.spelt _ hkind]

theorem behind_isIn (ht : t.IsIn source) : (Cursor.behind source t').IsIn source :=
  (h.isIn ht).inside List.prefix_rfl (h.newline_notMem ht)

end Token.Closes

namespace Walk
variable {origin c : Cursor} {ts : List Token} {t t' : Token} {width : Nat}

/-! ## 3. Where the tokens lie -/

/-- All that was read lies in the source. -/
theorem isIn (horigin : origin.IsIn source) (h : Walk source origin ts c) :
    c.IsIn source ∧ ∀ t ∈ ts, t.IsIn source := by
  induction h with
  | start => exact ⟨horigin, nofun⟩
  | next _ ih => exact ⟨ih.1.next.cursor, List.forall_mem_cons.mpr ⟨ih.1.next.token, ih.2⟩⟩
  | back _ hclose ih =>
    obtain ⟨ht, hts⟩ := List.forall_mem_cons.mp ih.2
    exact ⟨hclose.behind_isIn ht, List.forall_mem_cons.mpr ⟨hclose.isIn ht, hts⟩⟩
  | text _ hclose ih =>
    obtain ⟨ht, hts⟩ := List.forall_mem_cons.mp ih.2
    have htext := (hclose.behind_isIn ht).jsxText
    refine ⟨htext.cursor, List.forall_mem_cons.mpr ⟨htext.token, ?_⟩⟩
    exact List.forall_mem_cons.mpr ⟨hclose.isIn ht, hts⟩

/-- The tokens lie one after the other, between the start of the walk and its end. -/
structure Ordered (origin : Cursor) (ts : List Token) (c : Cursor) : Prop where
  pairwise : ts.Pairwise fun newer older => older.stop ≤ newer.offset
  start_le : ∀ t ∈ ts, origin.pos.offset ≤ t.offset
  le_end : ∀ t ∈ ts, t.stop ≤ c.pos.offset
  le : origin.pos.offset ≤ c.pos.offset

/-- One more token that was read from the end of the walk. -/
theorem Ordered.cons (h : Ordered origin ts c) {r : Scanned} (hle : c.pos.offset ≤ r.token.offset)
    (hstop : r.cursor.pos.offset = r.token.stop) : Ordered origin (r.token :: ts) r.cursor := by
  have htoken : r.token.offset ≤ r.token.stop := Nat.le_add_right _ _
  have hstart := h.le
  refine ⟨List.pairwise_cons.mpr ⟨fun t ht => ?_, h.pairwise⟩, ?_, ?_, by omega⟩
  · exact Nat.le_trans (h.le_end t ht) hle
  · exact List.forall_mem_cons.mpr ⟨by omega, h.start_le⟩
  · refine List.forall_mem_cons.mpr ⟨by omega, fun t ht => ?_⟩
    have hend := h.le_end t ht
    omega

/-- The last token gives place to what is left of it. -/
theorem Ordered.back (h : Ordered origin (t :: ts) c) (hclose : t.Closes width t') :
    Ordered origin (t' :: ts) (Cursor.behind source t') := by
  obtain ⟨hold, hpairwise⟩ := List.pairwise_cons.mp h.pairwise
  obtain ⟨hstart, hstarts⟩ := List.forall_mem_cons.mp h.start_le
  have hoffset := hclose.offset_eq
  have hbehind : (Cursor.behind source t').pos.offset = t'.stop := rfl
  have htoken : t'.offset ≤ t'.stop := Nat.le_add_right _ _
  refine ⟨List.pairwise_cons.mpr ⟨fun u hu => hoffset ▸ hold u hu, hpairwise⟩, ?_, ?_, by omega⟩
  · exact List.forall_mem_cons.mpr ⟨by omega, hstarts⟩
  · refine List.forall_mem_cons.mpr ⟨Nat.le_refl _, fun u hu => ?_⟩
    have hle := hold u hu
    omega

theorem ordered (h : Walk source origin ts c) : Ordered origin ts c := by
  induction h with
  | start => exact ⟨List.Pairwise.nil, nofun, nofun, Nat.le_refl _⟩
  | next _ ih => exact ih.cons (Cursor.next_offset _).1 (Cursor.next_offset _).2
  | back _ hclose ih => exact ih.back hclose
  | text _ hclose ih =>
    exact (ih.back hclose).cons (Nat.le_of_eq (Cursor.jsxText_offset _).1.symm)
      (Cursor.jsxText_offset _).2

/-- A token that holds a byte in front of another token is older. -/
theorem Ordered.mem_older {newer older : List Token} {a u : Token}
    (h : Ordered origin (newer ++ a :: older) c) (hu : u ∈ newer ++ a :: older) {i : Nat}
    (hholds : u.Holds i) (hi : i < a.offset) : u ∈ older := by
  have hle := hholds.1
  have hstop : a.offset ≤ a.stop := Nat.le_add_right _ _
  rcases List.mem_append.mp hu with hu | hu
  · have hnewer := (List.pairwise_append.mp h.pairwise).2.2 u hu a List.mem_cons_self
    omega
  · rcases List.mem_cons.mp hu with rfl | hu
    · omega
    · exact hu

/-- No byte is held by two tokens. -/
theorem Ordered.eq_of_holds {newer older : List Token} {a u : Token}
    (h : Ordered origin (newer ++ a :: older) c) (hu : u ∈ newer ++ a :: older) {i : Nat}
    (ha : a.Holds i) (hholds : u.Holds i) : u = a := by
  obtain ⟨_, hpairwise, hbetween⟩ := List.pairwise_append.mp h.pairwise
  have hle := hholds.1
  have hlt := hholds.2
  have hle' := ha.1
  have hlt' := ha.2
  rcases List.mem_append.mp hu with hu | hu
  · have hnewer := hbetween u hu a List.mem_cons_self
    omega
  · rcases List.mem_cons.mp hu with rfl | hu
    · rfl
    · have holder := (List.pairwise_cons.mp hpairwise).1 u hu
      omega

/-- Only behind text between tags can a line have begun. -/
theorem lineStart_eq_false (h : Walk source origin (t :: ts) c) (hkind : t.kind ≠ .jsxText) :
    c.lineStart = false := by
  cases h with
  | next => exact Cursor.next_cursor_lineStart _
  | back => rfl
  | text => exact absurd rfl hkind

/-- Text between tags comes behind a token. -/
theorem lt_offset_of_text (horigin : origin.IsIn source) (h : Walk source origin ts c) :
    ∀ t ∈ ts, t.kind = .jsxText → origin.pos.offset < t.offset := by
  induction h with
  | start => exact nofun
  | next _ ih =>
    exact List.forall_mem_cons.mpr ⟨fun hk => absurd hk (Cursor.next_kind_ne_jsxText _), ih⟩
  | back _ hclose ih =>
    exact List.forall_mem_cons.mpr
      ⟨fun hk => absurd hk hclose.kind_ne.2, (List.forall_mem_cons.mp ih).2⟩
  | text hwalk hclose ih =>
    refine List.forall_mem_cons.mpr ⟨fun _ => ?_, List.forall_mem_cons.mpr
      ⟨fun hk => absurd hk hclose.kind_ne.2, (List.forall_mem_cons.mp ih).2⟩⟩
    have hstart := hwalk.ordered.start_le _ List.mem_cons_self
    have hne := List.length_pos_iff.mpr
      (hclose.text_ne ((hwalk.isIn horigin).2 _ List.mem_cons_self))
    rw [(Cursor.jsxText_offset _).1]
    show _ < Token.offset _ + List.length _
    rw [hclose.offset_eq]
    omega

/-- A token other than text between tags starts with a byte that is not white, unless it is the
    end. -/
theorem not_white (horigin : origin.IsIn source) (h : Walk source origin ts c) :
    ∀ t ∈ ts, t.kind ≠ .jsxText → t.offset < source.length →
      ∃ b, t.text.head? = some b ∧ isWhite b = false := by
  induction h with
  | start => exact nofun
  | next hwalk ih =>
    exact List.forall_mem_cons.mpr ⟨fun _ => (hwalk.isIn horigin).1.next_not_white, ih⟩
  | back _ hclose ih =>
    obtain ⟨ht, hts⟩ := List.forall_mem_cons.mp ih
    refine List.forall_mem_cons.mpr ⟨fun _ => ?_, hts⟩
    rw [hclose.offset_eq, hclose.head?_eq]
    exact ht hclose.kind_ne.1
  | text _ hclose ih =>
    obtain ⟨ht, hts⟩ := List.forall_mem_cons.mp ih
    refine List.forall_mem_cons.mpr ⟨fun hk => absurd rfl hk, ?_⟩
    refine List.forall_mem_cons.mpr ⟨fun _ => ?_, hts⟩
    rw [hclose.offset_eq, hclose.head?_eq]
    exact ht hclose.kind_ne.1

/-- Such a token holds its first byte, which is not white. -/
theorem holds_offset (horigin : origin.IsIn source) (h : Walk source origin ts c) (ht : t ∈ ts)
    (hkind : t.kind ≠ .jsxText) (hlt : t.offset < source.length) :
    t.Holds t.offset ∧ ∃ b, source[t.offset]? = some b ∧ isWhite b = false := by
  obtain ⟨b, hb, hwhite⟩ := h.not_white horigin t ht hkind hlt
  have hholds : t.Holds t.offset := by
    refine ⟨Nat.le_refl _, Nat.lt_add_of_pos_right (List.length_pos_iff.mpr fun hnil => ?_)⟩
    rw [hnil] at hb
    cases hb
  refine ⟨hholds, b, ?_, hwhite⟩
  rw [((h.isIn horigin).2 t ht).getElem?_eq hholds, Nat.sub_self, ← List.head?_eq_getElem?, hb]

/-- Text between tags is never marked. -/
theorem kind_ne_of_mark (h : Walk source origin ts c) :
    ∀ t ∈ ts, t.lineStart = true → t.kind ≠ .jsxText := by
  induction h with
  | start => exact nofun
  | next _ ih => exact List.forall_mem_cons.mpr ⟨fun _ => Cursor.next_kind_ne_jsxText _, ih⟩
  | back _ hclose ih =>
    exact List.forall_mem_cons.mpr ⟨fun _ => hclose.kind_ne.2, (List.forall_mem_cons.mp ih).2⟩
  | text _ hclose ih =>
    refine List.forall_mem_cons.mpr ⟨nofun, ?_⟩
    exact List.forall_mem_cons.mpr ⟨fun _ => hclose.kind_ne.2, (List.forall_mem_cons.mp ih).2⟩

/-! ## 4. Marked tokens -/

/-- A line begins before an offset: one has ended behind the older tokens, the text between tags
    apart; or there are none, and the walk starts a line. -/
def Begins (source : Text) (origin : Cursor) (older : List Token) (offset : Nat) : Prop :=
  (older = [] ∧ origin.lineStart = true) ∨
    ∃ i, origin.pos.offset ≤ i ∧ i < offset ∧ source[i]? = some newline ∧
      ∀ t ∈ older, t.kind ≠ .jsxText → t.stop ≤ i

theorem Begins.mono {offset offset' : Nat} (h : Begins source origin ts offset)
    (hle : offset ≤ offset') : Begins source origin ts offset' := by
  rcases h with h | ⟨i, hstart, hlt, hi, hold⟩
  · exact .inl h
  · exact .inr ⟨i, hstart, by omega, hi, hold⟩

/-- Lines begin where the place reached and the tokens say so. -/
structure Lined (source : Text) (origin : Cursor) (ts : List Token) (c : Cursor) : Prop where
  cursor : c.lineStart = true → Begins source origin ts c.pos.offset
  token : ∀ a older, a :: older <:+ ts → a.lineStart = true → Begins source origin older a.offset

theorem Lined.back (h : Lined source origin (t :: ts) c) (hclose : t.Closes width t') :
    Lined source origin (t' :: ts) (Cursor.behind source t') := by
  refine ⟨nofun, fun a older hsuffix ha => ?_⟩
  rcases List.suffix_cons_iff.mp hsuffix with heq | hsuffix
  · cases heq
    rw [hclose.offset_eq]
    exact h.token t ts List.suffix_rfl (hclose.lineStart_eq ▸ ha)
  · exact h.token a older (hsuffix.trans (List.suffix_cons _ _)) ha

theorem Lined.next (hin : c.IsIn source) (hordered : Ordered origin ts c)
    (h : Lined source origin ts c) :
    Lined source origin (c.next.token :: ts) c.next.cursor := by
  refine ⟨fun hline => ?_, fun a older hsuffix ha => ?_⟩
  · rw [Cursor.next_cursor_lineStart] at hline
    cases hline
  rcases List.suffix_cons_iff.mp hsuffix with heq | hsuffix
  · cases heq
    rcases c.next_after.lineStart_iff.mp ha with hline | hgap
    · exact (h.cursor hline).mono c.next_offset.1
    · obtain ⟨i, hle, hlt, hi⟩ := hin.newline_mem_gap.mp hgap
      have hstart := hordered.le
      refine .inr ⟨i, by omega, hlt, hi, fun t ht _ => ?_⟩
      exact Nat.le_trans (hordered.le_end t ht) hle
  · exact h.token a older hsuffix ha

/-- A line that ends in text begins for the token behind it. -/
theorem Lined.text (hin : c.IsIn source) (hline : c.lineStart = false)
    (hordered : Ordered origin ts c) (h : Lined source origin ts c) :
    Lined source origin (c.jsxText.token :: ts) c.jsxText.cursor := by
  have hoffset := c.jsxText_offset
  refine ⟨fun hbegun => ?_, fun a older hsuffix ha => ?_⟩
  · have hmem : newline ∈ c.jsxText.token.text := by
      have hbegun : (c.lineStart || (c.rest.takeWhile Cursor.isJsxText).contains newline) =
          true := hbegun
      rw [hline, Bool.false_or] at hbegun
      exact List.contains_iff_mem.mp hbegun
    obtain ⟨k, hk⟩ := List.mem_iff_getElem?.mp hmem
    have hlt : k < c.jsxText.token.text.length := (List.getElem?_eq_some_iff.mp hk).1
    have hholds : c.jsxText.token.Holds (c.jsxText.token.offset + k) :=
      ⟨Nat.le_add_right _ _, Nat.add_lt_add_left hlt _⟩
    have hstart := hordered.le
    refine .inr ⟨c.jsxText.token.offset + k, by omega, ?_, ?_, ?_⟩
    · rw [hoffset.2]
      exact hholds.2
    · rw [hin.jsxText.token.getElem?_eq hholds, Nat.add_sub_cancel_left, hk]
    · refine List.forall_mem_cons.mpr ⟨fun hk => absurd rfl hk, fun t ht _ => ?_⟩
      have hend := hordered.le_end t ht
      omega
  · rcases List.suffix_cons_iff.mp hsuffix with heq | hsuffix
    · cases heq
      cases ha
    · exact h.token a older hsuffix ha

theorem lined (horigin : origin.IsIn source) (h : Walk source origin ts c) :
    Lined source origin ts c := by
  induction h with
  | start => exact ⟨fun hline => .inl ⟨rfl, hline⟩, fun a older hsuffix => by simp at hsuffix⟩
  | next hwalk ih => exact ih.next (hwalk.isIn horigin).1 hwalk.ordered
  | back _ hclose ih => exact ih.back hclose
  | text hwalk hclose ih =>
    have hback := hwalk.back hclose
    exact (ih.back hclose).text (hback.isIn horigin).1 rfl hback.ordered

/-- A walk that starts a line has a marked token as soon as it has any. -/
theorem exists_mark (hline : origin.lineStart = true) (h : Walk source origin ts c) :
    (ts = [] ∧ c.lineStart = true) ∨ ∃ t ∈ ts, t.lineStart = true := by
  induction h with
  | start => exact .inl ⟨rfl, hline⟩
  | next _ ih =>
    refine .inr ?_
    rcases ih with ⟨_, hbegun⟩ | ⟨t, ht, hmark⟩
    · exact ⟨_, List.mem_cons_self, (Cursor.next_after _).lineStart_iff.mpr (.inl hbegun)⟩
    · exact ⟨t, List.mem_cons_of_mem _ ht, hmark⟩
  | back _ hclose ih =>
    rcases ih with ⟨hnil, _⟩ | ⟨t, ht, hmark⟩
    · cases hnil
    · rcases List.mem_cons.mp ht with rfl | ht
      · exact .inr ⟨_, List.mem_cons_self, hclose.lineStart_eq.trans hmark⟩
      · exact .inr ⟨t, List.mem_cons_of_mem _ ht, hmark⟩
  | text _ hclose ih =>
    rcases ih with ⟨hnil, _⟩ | ⟨t, ht, hmark⟩
    · cases hnil
    · rcases List.mem_cons.mp ht with rfl | ht
      · exact .inr ⟨_, List.mem_cons_of_mem _ List.mem_cons_self, hclose.lineStart_eq.trans hmark⟩
      · exact .inr ⟨t, List.mem_cons_of_mem _ (List.mem_cons_of_mem _ ht), hmark⟩

/-! ## 5. Lines that end since the last marked token -/

/-- Where the last marked token lies, or else the start of the walk. -/
def lastMark (origin : Cursor) (ts : List Token) : Nat :=
  ((ts.find? (·.lineStart)).map (·.offset)).getD origin.pos.offset

theorem lastMark_cons (origin : Cursor) (t : Token) (ts : List Token) :
    lastMark origin (t :: ts) = if t.lineStart then t.offset else lastMark origin ts := by
  unfold lastMark
  rw [List.find?_cons]
  cases t.lineStart <;> rfl

/-- The column of the last marked token, or else the first column. -/
def indent (ts : List Token) : Nat := ((ts.find? (·.lineStart)).map (·.column)).getD 1

theorem indent_cons (t : Token) (ts : List Token) :
    indent (t :: ts) = if t.lineStart then t.column else indent ts := by
  unfold indent
  rw [List.find?_cons]
  cases t.lineStart <;> rfl

/-- Since the last marked token, lines have ended in literals only, or in text for which the place
    reached says that a line has begun. -/
def Covered (source : Text) (origin : Cursor) (ts : List Token) (c : Cursor) : Prop :=
  ∀ i, lastMark origin ts ≤ i → i < c.pos.offset → source[i]? = some newline →
    ∃ t ∈ ts, t.Holds i ∧ (t.kind.isLiteral = true ∨ c.lineStart = true)

theorem Covered.next (hin : c.IsIn source) (h : Covered source origin ts c) :
    Covered source origin (c.next.token :: ts) c.next.cursor := by
  intro i hle hlt hi
  rw [c.next_offset.2] at hlt
  by_cases htoken : c.next.token.offset ≤ i
  · have hholds : c.next.token.Holds i := ⟨htoken, hlt⟩
    exact ⟨_, List.mem_cons_self, hholds, .inl (hin.isLiteral_of_newline hholds hi)⟩
  -- The line ended before the token, so a mark on the token is later.
  rw [lastMark_cons] at hle
  split at hle
  · omega
  · rename_i hmark
    rw [c.next_after.lineStart_iff, not_or] at hmark
    by_cases hgap : c.pos.offset ≤ i
    · exact absurd (hin.newline_mem_gap.mpr ⟨i, hgap, by omega, hi⟩) hmark.2
    · obtain ⟨t, ht, hholds, hkind⟩ := h i hle (by omega) hi
      exact ⟨t, List.mem_cons_of_mem _ ht, hholds, .inl (hkind.resolve_right hmark.1)⟩

theorem Covered.back (hin : t.IsIn source) (hline : c.lineStart = false)
    (hordered : Ordered origin (t :: ts) c) (h : Covered source origin (t :: ts) c)
    (hclose : t.Closes width t') : Covered source origin (t' :: ts) (Cursor.behind source t') := by
  intro i hle hlt hi
  have hoffset := hclose.offset_eq
  have hstop : t.offset ≤ t.stop := Nat.le_add_right _ _
  have hend := hordered.le_end t List.mem_cons_self
  by_cases htoken : t'.offset ≤ i
  · have hholds : t'.Holds i := ⟨htoken, hlt⟩
    rw [(hclose.isIn hin).getElem?_eq hholds] at hi
    exact absurd (List.mem_of_getElem? hi) (hclose.newline_notMem hin)
  · rw [lastMark_cons, hclose.lineStart_eq, hoffset, ← lastMark_cons] at hle
    obtain ⟨u, hu, hholds, hkind⟩ := h i hle (by omega) hi
    have hliteral := hkind.resolve_right (by rw [hline]; exact Bool.false_ne_true)
    rcases List.mem_cons.mp hu with rfl | hu
    · exact absurd hholds.1 (by omega)
    · exact ⟨u, List.mem_cons_of_mem _ hu, hholds, .inl hliteral⟩

theorem Covered.text (hin : c.IsIn source) (hline : c.lineStart = false)
    (h : Covered source origin ts c) :
    Covered source origin (c.jsxText.token :: ts) c.jsxText.cursor := by
  intro i hle hlt hi
  have hoffset := c.jsxText_offset
  rw [hoffset.2] at hlt
  have hmark : lastMark origin (c.jsxText.token :: ts) = lastMark origin ts := lastMark_cons ..
  rw [hmark] at hle
  by_cases htoken : c.jsxText.token.offset ≤ i
  · have hholds : c.jsxText.token.Holds i := ⟨htoken, hlt⟩
    rw [hin.jsxText.token.getElem?_eq hholds] at hi
    have hmem : c.jsxText.token.text.contains newline = true :=
      List.contains_iff_mem.mpr (List.mem_of_getElem? hi)
    refine ⟨_, List.mem_cons_self, hholds, .inr ?_⟩
    show (c.lineStart || c.jsxText.token.text.contains newline) = true
    rw [hmem, Bool.or_true]
  · obtain ⟨t, ht, hholds, hkind⟩ := h i hle (by omega) hi
    have hliteral := hkind.resolve_right (by rw [hline]; exact Bool.false_ne_true)
    exact ⟨t, List.mem_cons_of_mem _ ht, hholds, .inl hliteral⟩

theorem covered (horigin : origin.IsIn source) (h : Walk source origin ts c) :
    Covered source origin ts c := by
  induction h with
  | start => exact fun i hle hlt => absurd hle (Nat.not_le_of_lt hlt)
  | next hwalk ih => exact ih.next (hwalk.isIn horigin).1
  | back hwalk hclose ih =>
    exact ih.back ((hwalk.isIn horigin).2 _ List.mem_cons_self)
      (hwalk.lineStart_eq_false hclose.kind_ne.1) hwalk.ordered hclose
  | text hwalk hclose ih =>
    have hback := ih.back ((hwalk.isIn horigin).2 _ List.mem_cons_self)
      (hwalk.lineStart_eq_false hclose.kind_ne.1) hwalk.ordered hclose
    exact hback.text ((hwalk.back hclose).isIn horigin).1 rfl

end Walk

end ReactiveScript
