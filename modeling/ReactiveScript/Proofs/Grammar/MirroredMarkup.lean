import ReactiveScript.Proofs.Grammar.Mirroring

/-!
# Elements and templates that read the same inside a wider source

Both go back to the source itself: an element to the text between its tags, a template to what
stands in its holes.
-/

namespace ReactiveScript.Grammar

-- The instance of a routine is as large as the routine.
set_option synthInstance.maxSize 1000

variable {α β γ δ : Type} {S : Setting} {f : Frame} {s w : State}

/-! ## 1. Going back into a token -/

/-- The text up to the next tag is the same, if there is a tag. -/
theorem jsxText_alike {a : Text} {shift : Nat} {c d : Cursor} (h : c.Alike a shift d)
    (htag : (c.rest.takeWhile Cursor.isJsxText).length ≠ c.rest.length) :
    c.jsxText.Alike a shift d.jsxText := by
  have htext : d.rest.takeWhile Cursor.isJsxText = c.rest.takeWhile Cursor.isJsxText := by
    rw [h.rest, List.takeWhile_append, if_neg htag]
  have hle := (List.takeWhile_sublist Cursor.isJsxText (l := c.rest)).length_le
  refine ⟨⟨rfl, htext, h.offset⟩, rfl, ⟨?_, ?_, ?_⟩, fun _ => rfl⟩
  · simp only [Cursor.jsxText, htext]
    rw [h.rest, List.drop_append_of_le_length hle]
  · simp only [Cursor.jsxText, htext, Position.advance_offset, h.offset, Nat.add_assoc]
  · simp only [Cursor.jsxText, htext, h.lineStart]

/-- The places some bytes into the same token. -/
theorem inside_alike {n : Nat} (h : Near S f s w) (hs : Alike S s w) (hn : s.Passes n) :
    (Cursor.inside S.source s.current n).Alike S.ending.text S.shift
      (Cursor.inside S.whole w.current n) := by
  have hoffset : w.current.pos.offset + n = S.shift + (s.current.pos.offset + n) := by
    have := hs.token.offset
    simp only [Token.offset] at this
    omega
  refine ⟨?_, hoffset, rfl⟩
  obtain ⟨v, rfl, hv, hline⟩ := hn
  have hle := (h.sound.current.inside hv hline).pos.offset_le
  simp only [Cursor.inside, Cursor.place, hoffset]
  exact Setting.whole_drop hle

theorem State.Passes.alike {n : Nat} (hn : s.Passes n) (hs : Alike S s w) : w.Passes n := by
  obtain ⟨v, hlength, hv, hline⟩ := hn
  exact ⟨v, hlength, hs.token.text ▸ hv, hline⟩

section
variable {c c' : Context} {d : Nat} [hc : c.Mirrors S d c'] [hd : f.Reaches d]
  {inChildren : Bool}
  {t u : State} {h h' : Template.Hole}
include hc hd

omit hd in
/-- Reading the text between tags. -/
theorem follows_advanceText {n : Nat} (h : Near S f s w) (hs : Alike S s w) (hn : s.Passes n) :
    Follows (advanceText c n) s (advanceText c' n) w fun _ t _ u => OnText S f True t u := by
  intro _ t hrun _
  cases hrun
  refine ⟨_, _, rfl, ?_⟩
  rw [hc.gathers.source_eq, hc.source_eq']
  by_cases htag : ((Cursor.inside S.source s.current n).rest.takeWhile
      Cursor.isJsxText).length = (Cursor.inside S.source s.current n).rest.length
  · refine .inr ⟨?_, h.tooDeep⟩
    simp only [State.reenter, State.accept, Cursor.jsxText, htag, List.drop_length]
  · have htext := jsxText_alike (inside_alike h hs hn) htag
    refine .inl ⟨trivial, ?_, rfl⟩
    have hline (hstart : (Cursor.inside S.source s.current n).jsxText.cursor.lineStart = true) :
        1 < (Cursor.inside S.source s.current n).jsxText.cursor.pos.line := by
      obtain ⟨v, rfl, hv, hv'⟩ := hn
      have hpos := (h.sound.current.inside hv hv').pos.line_pos
      refine Nat.lt_of_le_of_lt hpos (Position.line_lt_advance _ ?_)
      simpa [Cursor.jsxText, Cursor.inside, Cursor.place] using hstart
    exact
      { h.toPoised with
        sound := sound_jsxText h.sound hn
        sound' := sound_jsxText h.sound' (hn.alike hs)
        place := .inl ⟨htext.token, htext.cursor, hline, (by rintro ⟨⟩), fun _ => (by rintro ⟨⟩)⟩ }

/-- Two readers that have left a tag: what follows is text if the element is a child. -/
def Left (S : Setting) (f : Frame) (inChildren : Bool) (R : Prop) (t u : State) : Prop :=
  if inChildren then OnText S f R t u else R ∧ Beside S f t u

omit hc hd in
theorem Left.mono {R R' : Prop} (h : Left S f inChildren R t u) (hR : R → R') :
    Left S f inChildren R' t u := by
  cases inChildren with
  | false => exact ⟨hR h.1, h.2⟩
  | true => exact Or.imp (fun htext => ⟨hR htext.1, htext.2⟩) id h

omit hc hd in
theorem Left.restored {R : Prop} (h : Left S { f with depth := d } inChildren R t u)
    (hs : Near S f s w) :
    Left S f inChildren R { t with depth := s.depth } { u with depth := w.depth } := by
  cases inChildren with
  | false => exact ⟨h.1, h.2.restored hs⟩
  | true => exact Or.imp (fun htext => ⟨htext.1, htext.2.1.restored hs, htext.2.2⟩) id h

omit hd in
theorem follows_leaveTag {n : Nat} (inChildren : Bool) (h : Near S f s w) (hs : Alike S s w)
    (hn : s.Passes n) :
    Follows (leaveTag c n inChildren) s (leaveTag c' n inChildren) w
      fun _ t _ u => Left S f inChildren True t u := by
  cases inChildren with
  | true => exact follows_advanceText h hs hn
  | false =>
    have halike := inside_alike h hs hn
    have hn' := hn.alike hs
    obtain ⟨v, rfl, hv, hline⟩ := hn
    obtain ⟨v', hlength, hv', hline'⟩ := hn'
    have hinside := h.sound.current.inside hv hline
    have hinside' := h.sound'.current.inside hv' hline'
    rw [hlength] at hinside'
    intro _ t hrun ht
    cases hrun
    refine ⟨_, _, rfl, trivial, ?_⟩
    rw [hc.gathers.source_eq] at ht ⊢
    rw [hc.source_eq']
    exact h.toPoised.advanceFrom hinside hinside' halike nofun (next_reports_of_advance ht)

/-! ## 2. Names and attributes -/

/-- Two routines that give something and keep readers together. -/
def Provides (S : Setting) (f : Frame) (x y : Reading (Option α)) (k : α → γ) : Prop :=
  ∀ ⦃s w : State⦄, Beside S f s w → Follows x s y w fun o t o' u =>
    ∃ a b, o = some a ∧ o' = some b ∧ k b = k a ∧ Beside S f t u

omit hc hd in
/-- The token follows the one before it without a gap for both readers, or for neither. -/
theorem Near.adjoins_eq (h : Near S f s w) (hkind : s.current.kind ≠ .eof)
    (hprevious : w.previous.stop = S.shift + s.previous.stop) : w.adjoins = s.adjoins := by
  unfold State.adjoins
  rw [hprevious, (h.alike hkind).token.offset]
  simp

omit hc hd in
theorem Near.previous_stop (h : Near S f s w) (hkind : s.current.kind ≠ .eof) :
    w.advance.previous.stop = S.shift + s.advance.previous.stop := by
  have htoken := (h.alike hkind).token
  have hoffset : w.current.pos.offset = S.shift + s.current.pos.offset := htoken.offset
  rw [State.advance_previous, State.advance_previous, Token.stop, Token.stop, htoken.text, hoffset,
    Nat.add_assoc]

omit hc hd in
theorem follows_jsxNameRest {name : Text} (rounds : Nat) (h : Beside S f s w)
    (hprevious : w.previous.stop = S.shift + s.previous.stop) :
    Follows (jsxNameRest name rounds) s (jsxNameRest name rounds) w fun o t o' u =>
      ∃ a b, o = some a ∧ o' = some b ∧ id b = id a ∧ Beside S f t u := by
  induction rounds generalizing name s w with
  | zero => exact .outOfRounds
  | succ rounds ih =>
    -- whether a token adjoins is asked only of a separator, and of a name behind it
    have hsep : ((w.sees (.punct .dot) || w.sees (.punct .minus)) && w.adjoins) =
        ((s.sees (.punct .dot) || s.sees (.punct .minus)) && s.adjoins) := by
      rw [h.sees_eq rfl, h.sees_eq rfl]
      by_cases hkind : s.current.kind = .eof
      · simp [State.sees, hkind]
      · rw [h.adjoins_eq hkind hprevious]
    unfold jsxNameRest
    refine .get (.ite (by rw [hsep]) (fun hsees => ?_) fun _ => .pure ⟨_, _, rfl, rfl, rfl, h⟩)
    have hkind : s.current.kind ≠ .eof := by
      intro heof
      simp [State.sees, heof] at hsees
    refine h.take hkind fun hnext => .get ?_
    have hstop := h.previous_stop hkind
    have hpart : (w.advance.current.kind.isPropertyName && w.advance.adjoins) =
        (s.advance.current.kind.isPropertyName && s.advance.adjoins) := by
      rw [hnext.kind_congr Kind.isPropertyName rfl rfl]
      cases hword : s.advance.current.kind.isPropertyName with
      | false => rfl
      | true => rw [hnext.adjoins_eq (ne_eof_of_isPropertyName hword) hstop]
    refine .ite (by rw [hpart]) (fun hword => ?_) fun _ => hnext.faulty
    have hkind' := ne_eof_of_isPropertyName (Bool.and_eq_true_iff.mp hword).1
    refine hnext.take hkind' fun hlast => ?_
    rw [(h.alike hkind).token.text, (hnext.alike hkind').token.text]
    exact ih hlast (hnext.previous_stop hkind')

omit hd in
theorem provides_jsxName : Provides S f (jsxName c) (jsxName c') id := by
  intro s w h
  refine .token (.ite (by rw [h.kind_congr Kind.isPropertyName rfl rfl]) (fun hword => ?_) fun _ =>
    h.faulty)
  have hkind := ne_eof_of_isPropertyName hword
  refine h.take hkind fun hnext => ?_
  rw [(h.alike hkind).token.text, hc.rounds_eq]
  exact follows_jsxNameRest c.rounds hnext (h.previous_stop hkind)

theorem provides_bracedValue :
    Provides S f (bracedValue c) (bracedValue c') Expr.unplaced := by
  intro s w h
  refine .bind (hc.assignment.bracketed h) fun e t e' u he => ?_
  exact he.2.expect (by decide) fun _ hclose => .pure ⟨_, _, rfl, rfl, he.1, hclose⟩

theorem provides_spreadAttribute (p p' : Position) :
    Provides S f (spreadAttribute c p) (spreadAttribute c' p') Unplaced.attr := by
  intro s w h
  refine h.expect (by decide) fun _ hdots => ?_
  refine .bind (provides_bracedValue hdots) fun o t o' u ho => ?_
  obtain ⟨e, e', rfl, rfl, he, htu⟩ := ho
  exact .pure ⟨_, _, rfl, rfl, by simp only [Unplaced.attr, he], htu⟩

theorem provides_attributeValue (p p' : Position) (name : Text) :
    Provides S f (attributeValue c p name) (attributeValue c' p' name) Unplaced.attr := by
  intro s w h
  refine h.accept rfl (fun _ hvalue => ?_) fun _ => .pure ⟨_, _, rfl, rfl, rfl, h⟩
  refine hvalue.ifSees rfl (fun hkind => ?_) fun _ => hvalue.ifAccept rfl ?_ ?_
  · have hstring := (hvalue.alike_of_kind hkind nofun).token.text
    refine hvalue.take (by rw [hkind]; decide) fun hnext => ?_
    exact .pure ⟨_, _, rfl, rfl, by simp only [Unplaced.attr, hstring], hnext⟩
  · refine fun _ hopen => .bind (provides_bracedValue hopen) fun o t o' u ho => ?_
    obtain ⟨e, e', rfl, rfl, he, htu⟩ := ho
    exact .pure ⟨_, _, rfl, rfl, by simp only [Unplaced.attr, he], htu⟩
  · exact fun _ => hvalue.faulty

theorem provides_tagAttribute :
    Provides S f (tagAttribute c) (tagAttribute c') Unplaced.attr := by
  intro s w h
  refine .token (h.ifAccept rfl (fun _ hopen => ?_) fun _ => ?_)
  · exact provides_spreadAttribute _ _ hopen
  · refine .bind (provides_jsxName h) fun o t o' u ho => ?_
    obtain ⟨name, name', rfl, rfl, hname, htu⟩ := ho
    obtain rfl : name' = name := hname
    exact provides_attributeValue _ _ _ htu

omit hc hd in
/-- The end of a tag is in the text. -/
theorem Near.alike_of_tagEnd (h : Near S f s w) (htag : s.current.startsWith Byte.greater = true) :
    Alike S s w := by
  refine h.place.resolve_right fun hclose => ?_
  rw [Token.startsWith, hclose.text] at htag
  cases htag

/-- Does the tag end at the current token? -/
def State.seesTagStop (s : State) : Bool :=
  s.sees (.punct .selfClose) || s.current.startsWith Byte.greater

theorem follows_attributesFrom {done done' : List Attribute}
    (hdone : done'.map Unplaced.attr = done.map Unplaced.attr) (rounds : Nat) (h : Beside S f s w) :
    Follows (attributesFrom c done rounds) s (attributesFrom c' done' rounds) w fun o t o' u =>
      ∃ as bs, o = some as ∧ o' = some bs ∧ bs.map Unplaced.attr = as.map Unplaced.attr ∧
        Beside S f t u ∧ t.seesTagStop = true := by
  induction rounds generalizing done done' s w with
  | zero => exact .outOfRounds
  | succ rounds ih =>
    unfold attributesFrom
    refine .atEnd ?_
    by_cases hkind : s.current.kind = .eof
    · rw [if_pos (by simpa [State.atEnd] using hkind)]
      exact h.faulty
    · have halike := h.alike hkind
      rw [if_neg (by simpa [State.atEnd] using hkind),
        if_neg (by simpa [State.atEnd, halike.token.kind] using hkind)]
      refine .sees (.seesTagEnd ?_)
      rw [h.sees_eq rfl, h.startsWith_eq]
      refine .ite Iff.rfl (fun hstop => ?_) fun _ => ?_
      · exact .pure ⟨_, _, rfl, rfl, by simp [hdone], h, hstop⟩
      · refine .bind (provides_tagAttribute h) fun o t o' u ho => ?_
        obtain ⟨a, a', rfl, rfl, ha, htu⟩ := ho
        exact ih (by simp [hdone, ha]) htu

/-! ## 3. Children -/

/-- Slots of the text that are the same in the wider source. -/
structure SlotsAlike (S : Setting) (ss ss' : List Slot) : Prop where
  shifted : ss'.map (Slot.shifted 0) = ss.map (Slot.shifted S.shift)
  within : ∀ slot ∈ ss, slot.Within S.source.length

section
omit hc hd
variable {ss ss' ts ts' : List Slot}

theorem SlotsAlike.nil : SlotsAlike S [] [] := ⟨rfl, nofun⟩

theorem SlotsAlike.append (h : SlotsAlike S ss ss') (h' : SlotsAlike S ts ts') :
    SlotsAlike S (ss ++ ts) (ss' ++ ts') where
  shifted := by rw [List.map_append, List.map_append, h.shifted, h'.shifted]
  within := List.forall_mem_append.mpr ⟨h.within, h'.within⟩

theorem SlotsAlike.singleton {slot slot' : Slot}
    (hshifted : slot'.shifted 0 = slot.shifted S.shift) (hin : slot.Within S.source.length) :
    SlotsAlike S [slot] [slot'] :=
  ⟨by rw [List.map_singleton, List.map_singleton, hshifted], by simpa using hin⟩

theorem SlotsAlike.reverse (h : SlotsAlike S ss ss') : SlotsAlike S ss.reverse ss'.reverse where
  shifted := by rw [List.map_reverse, List.map_reverse, h.shifted]
  within slot hslot := h.within slot (List.mem_reverse.mp hslot)

theorem Near.stop_le (h : Near S f s w) : s.current.stop ≤ S.source.length :=
  h.sound.current.stop_le

/-- A run of text between tags. -/
theorem SlotsAlike.textSlot (h : Near S f s w) (hs : Alike S s w) :
    SlotsAlike S (textSlot s.current) (textSlot w.current) := by
  unfold Grammar.textSlot
  rw [hs.token.text]
  split
  · exact .nil
  · have hoffset : w.current.pos.offset = S.shift + s.current.pos.offset := hs.token.offset
    refine .singleton ?_ ⟨h.sound.current.pos.offset_le, h.stop_le, ?_⟩
    · simp only [Slot.shifted, Span.shifted, Token.offset, Token.stop, hoffset, hs.token.text,
        Nat.zero_add, Nat.add_assoc]
    · intro span heq
      cases heq
      exact Nat.le_add_right _ _

/-- The bytes of a span are the same in the wider source. -/
theorem Setting.slice_eq (sp : Span) (hle : sp.start ≤ sp.stop) (hstop : sp.stop ≤ S.source.length) :
    (sp.shifted S.shift).slice S.whole = sp.slice S.source := by
  have hsize : (sp.shifted S.shift).size = sp.size := by
    rw [Span.size, Span.size, Span.shifted, if_pos (Nat.add_le_add_left hle _), if_pos hle]
    simp only
    omega
  have hfits : sp.size ≤ (S.source.drop sp.start).length := by
    rw [Span.size, if_pos hle, List.length_drop]
    omega
  rw [Span.slice, Span.slice, hsize, Span.shifted, whole_drop (Nat.le_trans hle hstop),
    List.take_append_of_le_length hfits]

theorem childrenOf_unplaced (h : SlotsAlike S ss ss') (hsource : c.source = S.source)
    (hsource' : c'.source = S.whole) :
    (childrenOf c' ss').map Expr.unplaced = (childrenOf c ss).map Expr.unplaced := by
  unfold childrenOf
  rw [hsource, hsource']
  exact Children.ofSlots_shifted Setting.slice_eq h.shifted h.within

end

/-- A child that is the same in the wider source, with the text that follows it; or there is no text
    left. -/
def ChildAlike (S : Setting) (f : Frame) (o : Option Slot) (t : State) (o' : Option Slot)
    (u : State) : Prop :=
  ∃ slot, o = some slot ∧
    OnText S f (∃ slot', o' = some slot' ∧ SlotsAlike S [slot] [slot']) t u

omit hd in
/-- At the end of the text there is no brace that could close a child. -/
theorem cleanly_bracedChild_of_end (h : Near S f s w) (hend : AtClose S s w) (t : Token) :
    Cleanly (do
      let e ← bracketed c.inner.assignment
      let close ← token
      if close.kind = .punct .closeBrace then
        advanceText c 1
        return some (Slot.node ⟨t.offset, close.stop⟩ (.jsxExpression t.pos e))
      else
        expected .closingBrace
        return none) s fun _ _ => False := by
  refine .bind (hc.gathers.assignment.bracketed h.sound) fun e u hu => .token (.ite ?_ fun _ => ?_)
  · intro hkind
    have hle : s.current.offset ≤ u.current.offset := hu.inOrder.le
    have hstop := stop_of_closeBrace hu.sound hkind
    have hlength := hu.sound.current.stop_le
    rw [hend.offset] at hle
    have hcurrent : u.current.stop ≤ S.source.length := hlength
    omega
  · exact .faulty hu.tooDeep_eq

omit hd in
/-- The brace that closes a child. -/
theorem follows_childEnd {slot slot' : Slot} (h : Near S f s w)
    (hkind : s.current.kind = .punct .closeBrace) (hslot : SlotsAlike S [slot] [slot']) :
    Follows (do advanceText c 1; return some slot) s (do advanceText c' 1; return some slot') w
      (ChildAlike S f) := by
  have hpasses := State.passes_of_punct h.sound.current hkind (by decide)
  refine .bind (follows_advanceText h (h.alike_of_kind hkind nofun) hpasses) fun _ t _ u htu => ?_
  exact .pure ⟨slot, rfl, htu.imp (fun htext => ⟨⟨slot', rfl, hslot⟩, htext.2⟩) id⟩

omit hc hd in
/-- The span from one token to the end of another. -/
theorem span_alike (h : Near S f s w) (hs : Alike S s w) (htu : Near S f t u) (hs' : Alike S t u) :
    Span.shifted 0 ⟨w.current.offset, u.current.stop⟩ =
      Span.shifted S.shift ⟨s.current.offset, t.current.stop⟩ ∧
    s.current.offset ≤ S.source.length ∧ t.current.stop ≤ S.source.length := by
  have hstop : u.current.stop = S.shift + t.current.stop := by
    have hoffset : u.current.pos.offset = S.shift + t.current.pos.offset := hs'.token.offset
    rw [Token.stop, Token.stop, hs'.token.text, hoffset, Nat.add_assoc]
  refine ⟨?_, h.sound.current.pos.offset_le, htu.stop_le⟩
  rw [Span.shifted, Span.shifted, hs.token.offset, hstop, Nat.zero_add, Nat.zero_add]

theorem follows_bracedChild (h : Beside S f s w)
    (hkind : s.current.kind = .punct .openBrace) :
    Follows (bracedChild c) s (bracedChild c') w (ChildAlike S f) := by
  have hopen := h.alike_of_kind hkind nofun
  refine h.take (by simp [hkind]) fun hnext => .token ?_
  by_cases hempty : s.advance.current.kind = .punct .closeBrace
  · have hclose := hnext.alike_of_kind hempty nofun
    obtain ⟨hspan, hstart, hstop⟩ := span_alike h.toNear hopen hnext.toNear hclose
    rw [if_pos hempty, if_pos (hclose.token.kind.trans hempty)]
    refine follows_childEnd hnext.toNear hempty (.singleton ?_ ⟨hstart, hstop, nofun⟩)
    exact congrArg Slot.comment hspan
  rw [if_neg hempty]
  rcases hnext.place with halike | hend
  · rw [if_neg (by rwa [halike.token.kind])]
    refine .bind (hc.assignment.bracketed hnext) fun e t e' u he => ?_
    refine .token ?_
    by_cases hbrace : t.current.kind = .punct .closeBrace
    · have hclose := he.2.alike_of_kind hbrace nofun
      obtain ⟨hspan, hstart, hstop⟩ := span_alike h.toNear hopen he.2.toNear hclose
      rw [if_pos hbrace, if_pos (hclose.token.kind.trans hbrace)]
      refine follows_childEnd he.2.toNear hbrace (.singleton ?_ ⟨hstart, hstop, nofun⟩)
      simp only [Slot.shifted, hspan, Expr.unplaced, he.1]
    · rw [if_neg hbrace]
      exact he.2.faulty
  · exact Cleanly.mono (cleanly_bracedChild_of_end hnext.toNear hend s.current)
      fun _ _ => False.elim

theorem follows_elementChild (h : Beside S f s w)
    (hkind : s.current.kind = .punct .less) :
    Follows (elementChild c) s (elementChild c') w (ChildAlike S f) := by
  have hopen := h.alike_of_kind hkind nofun
  refine .token (.bind (hc.jsx h.toNear (by simp [hkind])) fun e t e' u he => ?_)
  obtain ⟨hbad, htu⟩ := he
  rw [if_neg (by simp [hbad])]
  rcases htu with ⟨hsame, htu, htext⟩ | hend
  · rw [if_neg (by simp [Expr.isBad_of_unplaced_eq hsame, hbad])]
    have hoffset := (htu.alike_of_kind htext nofun).token.offset
    have hslot : SlotsAlike S [.node ⟨s.current.offset, t.current.offset⟩ e]
        [.node ⟨w.current.offset, u.current.offset⟩ e'] := by
      refine .singleton ?_ ⟨h.sound.current.pos.offset_le, htu.sound.current.pos.offset_le, nofun⟩
      simp only [Slot.shifted, Span.shifted, hopen.token.offset, hoffset, hsame, Nat.zero_add]
    exact .token (.pure ⟨_, rfl, .inl ⟨⟨_, rfl, hslot⟩, htu, htext⟩⟩)
  · -- whatever the other reader has found, this one finds no more
    intro a t' hrun _
    cases hrun
    split
    · exact ends_pure.mpr ⟨_, rfl, .inr hend⟩
    · exact ends_token.mpr (ends_pure.mpr ⟨_, rfl, .inr hend⟩)

omit hc hd in
/-- Where nothing is left of the text, no tag closes what has been opened. -/
theorem cleanly_slotsFrom_of_end {done : List Slot} (rounds : Nat) (hend : s.cursor.rest = [])
    (hdeep : s.tooDeep = false) : Cleanly (slotsFrom c done rounds) s fun _ _ => False := by
  cases rounds with
  | zero => exact .outOfRounds
  | succ rounds =>
    have hnil : s.cursor.afterGap = [] := List.suffix_nil.mp (hend ▸ afterGap_suffix s.cursor)
    have hkind : s.advance.current.kind = .eof := by
      rw [State.advance_current, (Cursor.next_of_nil hnil).1]
    unfold slotsFrom
    refine .take (.token ?_)
    rw [hkind]
    exact .faulty (s.advance_tooDeep.trans hdeep)

/-- What is read up to a closing tag. -/
def SlotsRead (S : Setting) (f : Frame) (o : Option (List Slot)) (t : State)
    (o' : Option (List Slot)) (u : State) : Prop :=
  ∃ ss ss', o = some ss ∧ o' = some ss' ∧ SlotsAlike S ss ss' ∧ Beside S f t u ∧
    t.current.kind = .punct .closeTag

theorem follows_slotsFrom {done done' : List Slot} (hdone : SlotsAlike S done done')
    (rounds : Nat) (h : Near S f s w) (hkind : s.current.kind = .jsxText) :
    Follows (slotsFrom c done rounds) s (slotsFrom c' done' rounds) w (SlotsRead S f) := by
  induction rounds generalizing done done' s w with
  | zero => exact .outOfRounds
  | succ rounds ih =>
    have htext := (SlotsAlike.textSlot h (h.alike_of_kind hkind nofun)).append hdone
    -- after a child, the slots go on behind it
    have hchild {o o' : Option Slot} {t u : State} (htu : ChildAlike S f o t o' u) :
        Follows (slotsOn c (textSlot s.current ++ done) rounds o) t
          (slotsOn c' (textSlot w.current ++ done') rounds o') u (SlotsRead S f) := by
      obtain ⟨slot, rfl, hread⟩ := htu
      rcases hread with ⟨⟨slot', rfl, hslot⟩, hnear, hmore⟩ | ⟨hend, hdeep⟩
      · exact ih (hslot.append htext) hnear hmore
      · exact Cleanly.mono (cleanly_slotsFrom_of_end rounds hend hdeep) fun _ _ => False.elim
    unfold slotsFrom
    refine h.take (r := ⟨fun t => .seq inferInstance fun _ => by split <;> infer_instance⟩)
      (by simp [hkind]) fun hnext => .token ?_
    rcases hnext.place with halike | hclose
    · rw [halike.token.kind]
      split
      · exact .pure ⟨_, _, rfl, rfl, htext.reverse, hnext, ‹_›⟩
      · exact .bind (follows_elementChild hnext ‹_›) fun _ _ _ _ => hchild
      · exact .bind (follows_bracedChild hnext ‹_›) fun _ _ _ _ => hchild
      · exact hnext.faulty
    · rw [hclose.kind]
      exact hnext.faulty

theorem follows_slots (h : Beside S f s w)
    (htag : s.current.startsWith Byte.greater = true) :
    Follows (slots c) s (slots c') w (SlotsRead S f) := by
  have hpasses := State.passes_of_tagEnd htag
  refine .bind (follows_advanceText h.toNear (h.alike_of_tagEnd htag) hpasses) ?_
  intro _ t _ u htu
  rw [hc.rounds_eq]
  rcases htu with ⟨_, htu, htext⟩ | ⟨hend, hdeep⟩
  · exact follows_slotsFrom .nil c.rounds htu htext
  · exact Cleanly.mono (cleanly_slotsFrom_of_end c.rounds hend hdeep) fun _ _ => False.elim

/-! ### Tags -/

/-- What is read of an element: it is not bad, and it is the same in the wider source unless nothing
    is left of the text. -/
def ElementAlike (S : Setting) (f : Frame) (inChildren : Bool) (e : Expr) (t : State) (e' : Expr)
    (u : State) : Prop :=
  e.isBad = false ∧ Left S f inChildren (e'.unplaced = e.unplaced) t u

omit hd in
/-- The last tag of an element, and the element. -/
theorem follows_lastTag {n : Nat} {e e' : Expr} (h : Near S f s w) (hs : Alike S s w)
    (hn : s.Passes n) (hbad : e.isBad = false) (he : e'.unplaced = e.unplaced) :
    Follows (do leaveTag c n inChildren; return e) s (do leaveTag c' n inChildren; return e') w
      (ElementAlike S f inChildren) :=
  .bind (follows_leaveTag inChildren h hs hn) fun _ _ _ _ hleft =>
    .pure ⟨hbad, hleft.mono fun _ => he⟩

theorem follows_fragment (inChildren : Bool) (p p' : Position)
    (h : Beside S f s w) (htag : s.current.startsWith Byte.greater = true) :
    Follows (fragment c inChildren p) s (fragment c' inChildren p') w
      (ElementAlike S f inChildren) := by
  refine .bind (follows_slots h htag) fun o t o' u hread => ?_
  obtain ⟨ss, ss', rfl, rfl, hss, htu, hkind⟩ := hread
  have hchildren := childrenOf_unplaced hss hc.gathers.source_eq hc.source_eq'
  refine htu.advance (by simp [hkind]) fun hnext => .seesTagEnd ?_
  rw [hnext.startsWith_eq]
  refine .ite Iff.rfl (fun hend => ?_) fun _ => hnext.faulty
  refine follows_lastTag hnext.toNear (hnext.alike_of_tagEnd hend)
    (State.passes_of_tagEnd hend) rfl ?_
  simp only [Expr.unplaced, Unplaced.exprs_eq_map, hchildren]

omit hd in
theorem follows_closingTag (name : Text) (h : Beside S f s w)
    (hkind : s.current.kind = .punct .closeTag) :
    Follows (closingTag c name) s (closingTag c' name) w fun b t b' u =>
      b = true ∧ b' = true ∧ Beside S f t u ∧ t.current.startsWith Byte.greater = true := by
  refine h.advance (by simp [hkind]) fun hnext => .token ?_
  refine .bind (provides_jsxName hnext) fun o t o' u ho => ?_
  obtain ⟨closing, closing', rfl, rfl, hclosing, htu⟩ := ho
  obtain rfl : closing' = closing := hclosing
  refine .ite Iff.rfl (fun _ => htu.faulty) fun _ => .seesTagEnd ?_
  rw [htu.startsWith_eq]
  exact .ite Iff.rfl (fun hend => .pure ⟨rfl, rfl, htu, hend⟩) fun _ => htu.faulty

theorem follows_elementRest (inChildren : Bool) (p p' : Position) (name : Text)
    {as as' : List Attribute} (has : as'.map Unplaced.attr = as.map Unplaced.attr)
    (h : Beside S f s w) (hstop : s.seesTagStop = true) :
    Follows (elementRest c inChildren p name as) s (elementRest c' inChildren p' name as') w
      (ElementAlike S f inChildren) := by
  refine h.ifSees rfl (fun hkind => ?_) fun hkind => ?_
  · have hpasses := State.passes_of_punct h.sound.current hkind (by decide)
    refine follows_lastTag h.toNear (h.alike_of_kind hkind nofun) hpasses rfl ?_
    simp only [Expr.unplaced, Unplaced.attributes_eq_map, has]
  · have htag : s.current.startsWith Byte.greater = true := by
      simpa [State.seesTagStop, State.sees, hkind] using hstop
    refine .bind (follows_slots h htag) fun o t o' u hread => ?_
    obtain ⟨ss, ss', rfl, rfl, hss, htu, hclose⟩ := hread
    have hchildren := childrenOf_unplaced hss hc.gathers.source_eq hc.source_eq'
    refine .bind (follows_closingTag name htu hclose) fun b t b' u hb => ?_
    obtain ⟨rfl, rfl, htu, hend⟩ := hb
    refine follows_lastTag htu.toNear (htu.alike_of_tagEnd hend)
      (State.passes_of_tagEnd hend) rfl ?_
    simp only [Expr.unplaced, Unplaced.attributes_eq_map, Unplaced.exprs_eq_map, has, hchildren]

theorem follows_element (inChildren : Bool) (p p' : Position)
    (h : Beside S f s w) :
    Follows (element c inChildren p) s (element c' inChildren p') w
      (ElementAlike S f inChildren) := by
  refine .bind (provides_jsxName h) fun o t o' u ho => ?_
  obtain ⟨name, name', rfl, rfl, hname, htu⟩ := ho
  obtain rfl : name' = name := hname
  rw [hc.rounds_eq]
  refine .bind (follows_attributesFrom rfl c.rounds htu) fun o t o' u ho => ?_
  obtain ⟨as, as', rfl, rfl, has, htu, hstop⟩ := ho
  exact follows_elementRest inChildren p p' _ has htu hstop

omit hd in
/-- An element or a fragment, one level deeper. -/
theorem follows_jsx [f.deeper.Reaches d] (inChildren : Bool) (h : Near S f s w)
    (hkind : s.current.kind ≠ .eof) :
    Follows (jsx c inChildren) s (jsx c' inChildren) w (ElementAlike S f inChildren) := by
  refine .nested h fun hdeeper => ?_
  have hbody : Follows (markup c inChildren) { s with depth := s.depth + 1 } (markup c' inChildren)
      { w with depth := w.depth + 1 } (ElementAlike S f.deeper inChildren) := by
    refine hdeeper.take hkind fun hnext => .seesTagEnd ?_
    rw [hnext.startsWith_eq]
    refine .ite Iff.rfl (fun htag => ?_) fun _ => ?_
    · exact follows_fragment inChildren _ _ hnext htag
    · exact follows_element inChildren _ _ hnext
  exact hbody.mono fun _ _ _ _ he => ⟨he.1, he.2.restored h⟩

/-! ## 4. Templates -/

/-- The reader of a hole at its start, at this depth. -/
def holeStart (source : Text) (p : Position) (depth : Nat) : State :=
  { State.start (Cursor.place source p) with nesting := 1, depth := depth }

/-- The frame of a hole. -/
def Frame.hole (f : Frame) : Frame := ⟨f.depth, 1, 1, Iff.rfl⟩

instance : f.hole.Reaches d := ⟨hd.le⟩

section
omit hc hd

theorem holeStart_eq (source : Text) (p : Position) (depth : Nat) :
    holeStart source p depth =
      State.advance { cursor := Cursor.place source p, nesting := 1, depth := depth } := by
  unfold holeStart State.start State.advance
  dsimp only [State.accept]
  split <;> rfl

/-- A hole with an expression that ends where the hole ends. -/
theorem hole_eq_ok {h : Template.Hole} {e : Expr} {u : State}
    (hrun : c.inner.assignment (holeStart c.source h.pos s.depth) = .ok (e, u))
    (hdeep : u.tooDeep = false) (hclean : u.reports = []) (hstop : u.current.offset = h.span.stop) :
    hole c h s = .ok (some e, s) := by
  have hlift : (liftM (c.inner.assignment.run (holeStart c.source h.pos s.depth)) :
      Reading (Expr × State)) s = .ok ((e, u), s) := by
    have hinner : (liftM (c.inner.assignment.run (holeStart c.source h.pos s.depth)) :
        Reading (Expr × State)) s =
        c.inner.assignment (holeStart c.source h.pos s.depth) >>= fun q => pure (q, s) := rfl
    rw [hinner, hrun]
    rfl
  have hends : Ends (hole c h) s fun o t => o = some e ∧ t = s := by
    unfold hole
    rw [ends_get, ends_bind]
    refine (ends_of_eq hlift).mpr ?_
    simp [hdeep, hclean, hstop]
  obtain ⟨_, _, hhole, rfl, rfl⟩ := hends
  exact hhole

/-- The readers of a hole at its start. -/
theorem beside_holeStart {p p' : Position} (hs : Near S f s w) (hp : p.IsIn S.source)
    (hp' : p'.IsIn S.whole) (hoffset : p'.offset = S.shift + p.offset)
    (hclean : (holeStart S.source p s.depth).reports = []) :
    Beside S f.hole (holeStart S.source p s.depth) (holeStart S.whole p' w.depth) := by
  rw [holeStart_eq] at hclean
  rw [holeStart_eq, holeStart_eq]
  have hpoised : Poised f.hole
      { cursor := Cursor.place S.source p, nesting := 1, depth := s.depth }
      { cursor := Cursor.place S.whole p', nesting := 1, depth := w.depth } :=
    ⟨rfl, rfl, rfl, rfl, rfl, rfl, hs.le_depth, hs.depth_le, hs.depth_le', Nat.le_refl _,
      Nat.le_refl _⟩
  have halike : (Cursor.place S.source p).Alike S.ending.text S.shift (Cursor.place S.whole p') := by
    refine ⟨?_, hoffset, rfl⟩
    simp only [Cursor.place, hoffset]
    exact Setting.whole_drop hp.offset_le
  exact hpoised.advanceFrom (Cursor.isIn_place hp) (Cursor.isIn_place hp') halike nofun
    (next_reports_of_advance hclean)

end

/-- The same hole in the wider source, which ends before the text does. -/
structure HoleAlike (S : Setting) (h h' : Template.Hole) : Prop where
  isIn : h.pos.IsIn S.source
  isIn' : h'.pos.IsIn S.whole
  shifted : h'.shifted 0 = h.shifted S.shift
  stop_lt : h.span.stop < S.source.length

omit hc hd in
theorem HoleAlike.inner_eq (hh : HoleAlike S h h') : h'.inner = h.inner :=
  (Prod.ext_iff.mp hh.shifted).1

omit hc hd in
theorem HoleAlike.offset_eq (hh : HoleAlike S h h') : h'.pos.offset = S.shift + h.pos.offset := by
  have hoffset := (Prod.ext_iff.mp hh.shifted).2
  simpa [Template.Hole.shifted] using hoffset

/-- An expression that fills its hole does so in the wider source. -/
theorem cleanly_hole_alike (hh : HoleAlike S h h') (hs : Near S f s w) :
    Cleanly (hole c h) s fun o t => t = s ∧ ∀ e, o = some e →
      ∃ e', hole c' h' w = .ok (some e', w) ∧ e'.unplaced = e.unplaced := by
  intro o t hrun ht
  obtain ⟨rfl, hread⟩ := hole_clean hrun ht
  refine ⟨rfl, fun e he => ?_⟩
  obtain ⟨inner, hinner, hclean, hstop⟩ := hread e he
  rw [hc.gathers.source_eq] at hinner
  have hstart : (holeStart S.source h.pos t.depth).reports = [] :=
    Adds.reports_nil hinner hclean
  have hbeside := beside_holeStart hs hh.isIn hh.isIn' hh.offset_eq hstart
  obtain ⟨e', v, hrun', hsame, hv⟩ := hc.assignment hbeside hinner hclean
  rw [← hc.source_eq'] at hrun'
  have halike : Alike S inner v := by
    refine hv.place.resolve_right fun hclose => ?_
    have hlt := hh.stop_lt
    rw [← hstop, hclose.offset] at hlt
    exact Nat.lt_irrefl _ hlt
  have hstop' : v.current.offset = h'.span.stop := by
    rw [halike.token.offset, hstop, Template.Hole.span, Template.Hole.span, hh.offset_eq,
      hh.inner_eq, Nat.add_assoc]
  exact ⟨e', hole_eq_ok hrun' hv.tooDeep' hv.clean' hstop', hsame⟩

theorem follows_holeExpr (hh : HoleAlike S h h') (hs : Near S f s w) :
    Follows (Template.holeExpr (hole c) report h) s (Template.holeExpr (hole c') report h') w
      fun e t e' u => e'.unplaced = e.unplaced ∧ t = s ∧ u = w := by
  unfold Template.holeExpr
  rw [hh.inner_eq]
  by_cases hblank : Text.isBlank h.inner = true
  · simp only [hblank, if_true, pure_bind]
    exact hs.faulty
  · simp only [hblank]
    refine Cleanly.bind (cleanly_hole_alike hh hs) fun o t ho => ?_
    obtain ⟨rfl, hfound⟩ := ho
    cases o with
    | none => exact Cleanly.faulty hs.tooDeep
    | some e =>
      obtain ⟨e', hrun', hsame⟩ := hfound e rfl
      exact Cleanly.pure (ends_bind.mpr ⟨some e', w, hrun', ends_pure.mpr ⟨hsame, rfl, rfl⟩⟩)

theorem follows_holes {holes holes' : List Template.Hole}
    (hshifted : holes'.map (Template.Hole.shifted 0) = holes.map (Template.Hole.shifted S.shift))
    (hin : ∀ h ∈ holes, h.pos.IsIn S.source ∧ h.span.stop < S.source.length)
    (hin' : ∀ h ∈ holes', h.pos.IsIn S.whole) (hs : Near S f s w) :
    Follows (holes.mapM (Template.holeExpr (hole c) report)) s
      (holes'.mapM (Template.holeExpr (hole c') report)) w
      fun es t es' u => es'.map Expr.unplaced = es.map Expr.unplaced ∧ t = s ∧ u = w := by
  induction holes generalizing holes' with
  | nil =>
    rw [List.map_nil, List.map_eq_nil_iff] at hshifted
    subst hshifted
    exact .pure ⟨rfl, rfl, rfl⟩
  | cons h holes ih =>
    cases holes' with
    | nil => cases hshifted
    | cons h' holes' =>
      rw [List.map_cons, List.map_cons, List.cons.injEq] at hshifted
      obtain ⟨hfirst, hrest⟩ := List.forall_mem_cons.mp hin
      obtain ⟨hfirst', hrest'⟩ := List.forall_mem_cons.mp hin'
      rw [List.mapM_cons, List.mapM_cons]
      have hh : HoleAlike S h h' := ⟨hfirst.1, hfirst', hshifted.1, hfirst.2⟩
      refine .bind (follows_holeExpr hh hs) fun e t e' u he => ?_
      obtain ⟨he, rfl, rfl⟩ := he
      refine .bind (ih hshifted.2 hrest hrest') fun es t es' u hes => ?_
      obtain ⟨hes, rfl, rfl⟩ := hes
      exact .pure ⟨by rw [List.map_cons, List.map_cons, he, hes], rfl, rfl⟩

/-- The parts of a template token, which is closed. -/
theorem follows_templateParts {t t' : Token} (htt' : t.Alike S.shift t')
    (ht : t.IsIn S.source) (ht' : t'.IsIn S.whole)
    (hclosed : 2 ≤ t.text.length ∧ t.text.getLast? = some Byte.backtick) (hs : Near S f s w) :
    Follows (templateParts c t) s (templateParts c' t') w fun r u r' v =>
      (r'.1 = r.1 ∧ r'.2.map Expr.unplaced = r.2.map Expr.unplaced) ∧ u = s ∧ v = w := by
  obtain ⟨hquasis, hholes⟩ := Template.split_shifted t.text htt'.offset
  have hin (h : Template.Hole) (hh : h ∈ (Template.split t.pos t.text).holes) :
      h.pos.IsIn S.source ∧ h.span.stop < S.source.length :=
    ⟨(Template.isIn_holes ht h hh).pos,
      Nat.lt_of_lt_of_le (Template.split_hole_lt hclosed hh) ht.stop_le⟩
  have hin' (h : Template.Hole) (hh : h ∈ (Template.split t'.pos t.text).holes) :
      h.pos.IsIn S.whole := by
    rw [← htt'.text] at hh
    exact (Template.isIn_holes ht' h hh).pos
  unfold templateParts Template.parts
  rw [htt'.text]
  refine .bind (follows_holes hholes hin hin' hs) fun es u es' v hes => ?_
  exact .pure ⟨⟨by rw [hquasis], hes.1⟩, hes.2⟩

end

end ReactiveScript.Grammar
