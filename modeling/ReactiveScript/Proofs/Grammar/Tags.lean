import ReactiveScript.Proofs.Grammar.Reached
import ReactiveScript.Proofs.Syntax.Children
import ReactiveScript.Proofs.Token.Returns

/-!
# Tags and what stands between them

An element is read tag by tag, and between two tags slot by slot. This module says once what these
readings can do, whether they end in a fault or not. Slots are read from one text to the next, and
a text ends right where the next tag or brace starts, so they leave no byte out.
-/

namespace ReactiveScript

/-- Slots that lie one behind the other, from one offset up to another, without a gap. -/
inductive Slot.Tile : Nat → List Slot → Nat → Prop
  | nil (a : Nat) : Tile a [] a
  | cons {slot : Slot} {ss : List Slot} {b : Nat} (hle : slot.span.start ≤ slot.span.stop)
      (h : Tile slot.span.stop ss b) : Tile slot.span.start (slot :: ss) b

/-- One more slot behind the others. -/
theorem Slot.Tile.snoc {a b : Nat} {ss : List Slot} {slot : Slot} (h : Tile a ss b)
    (hstart : slot.span.start = b) (hle : slot.span.start ≤ slot.span.stop) :
    Tile a (ss ++ [slot]) slot.span.stop := by
  induction h with
  | nil =>
    subst hstart
    exact .cons hle (.nil _)
  | cons hle' _ ih => exact .cons hle' (ih hstart)

namespace Grammar

variable {source : Text} {c : Context} {s t u v : State} {e : Expr}

/-! ## 1. Levels of the grammar -/

namespace Context.Level

theorem lines_eq (h : c.Level source) : c.lines = LineMap.ofText source := by
  obtain ⟨rounds, n, rfl⟩ := h
  cases n <;> rfl

/-- An element below is bad, or it is read by a level of the grammar. -/
theorem inner_jsx (h : c.Level source) {inChildren : Bool}
    (hrun : c.inner.jsx inChildren s = .ok (e, t)) :
    e.isBad = true ∨ ∃ d : Context, d.Level source ∧ jsx d inChildren s = .ok (e, t) := by
  obtain ⟨rounds, n, rfl⟩ := h
  cases n with
  | zero =>
    cases hrun
    exact .inl rfl
  | succ n => exact .inr ⟨_, ⟨rounds, n, rfl⟩, hrun⟩

end Context.Level

/-! ## 2. Text between tags -/

/-- The reader holds the text that it has read from some place. -/
def State.OnText (s : State) : Prop :=
  ∃ place : Cursor, s.current = place.jsxText.token ∧ s.cursor = place.jsxText.cursor

theorem State.onText_advanceText {width : Nat} (h : advanceText c width s = .ok ((), t)) :
    t.OnText ∧ t.current.offset = s.current.offset + width := by
  cases h
  exact ⟨⟨_, rfl, rfl⟩, rfl⟩

/-- Behind the last tag of a child there is text. -/
theorem State.onText_leaveTag {width : Nat} (h : leaveTag c width true s = .ok ((), t)) :
    t.OnText :=
  (onText_advanceText h).1

/-- A text ends at the end of the source, or at a byte that is no trivia. -/
theorem gap_of_jsxText (place : Cursor) : place.jsxText.cursor.gap = [] := by
  unfold Cursor.gap
  have hrest : place.jsxText.cursor.rest = place.rest.dropWhile Cursor.isJsxText :=
    place.rest.drop_length_takeWhile Cursor.isJsxText
  rw [hrest]
  cases hbyte : place.rest.dropWhile Cursor.isJsxText with
  | nil => rfl
  | cons b rest =>
    have hb := List.head?_dropWhile_not Cursor.isJsxText place.rest
    rw [hbyte] at hb
    have hb : b = Byte.less ∨ b = Byte.openBrace := by
      simpa [Cursor.isJsxText, or_iff_not_imp_left] using hb
    have hskip : (Trivia.skip (b :: rest)).width = 0 := by
      rcases hb with rfl | rfl <;>
        exact congrArg _ (Trivia.skipFrom_token (by decide) (by decide) (by decide))
    rw [hskip]
    rfl

/-- The token behind a text starts where the text ends. -/
theorem State.OnText.offset_advance (h : s.OnText) : s.advance.current.offset = s.current.stop := by
  obtain ⟨place, hcurrent, hcursor⟩ := h
  rw [State.advance_current, hcurrent, hcursor, ← (Cursor.jsxText_offset place).2]
  rcases place.jsxText.cursor.next_cases with ⟨_, ht, _⟩ | ⟨b, rest, _, ht, _⟩ <;>
    rw [ht, gap_of_jsxText] <;> rfl

/-! ## 3. What the routine for elements can give -/

/-- The reader behind the `<` of a tag, one level deeper. -/
def State.enterTag (s : State) : State := State.advance { s with depth := s.depth + 1 }

theorem State.Reached.enterTag (hs : s.Reached source) : s.enterTag.Reached source :=
  hs.steps (.tail (.single (.recount s _ _ _ _)) (.next _))

/-- The reader `u` stands at the end of the opening tag that starts with the token of `s`, and this
    tag has a name and attributes, or none of both. -/
inductive OpeningTag (c : Context) (s : State) : Option (Text × List Attribute) → State → Prop
  | fragment (hend : s.enterTag.current.startsWith Byte.greater = true) :
      OpeningTag c s none s.enterTag
  | element {name : Text} {as : List Attribute} {v u : State}
      (hname : jsxName c s.enterTag = .ok (some name, v))
      (hattributes : attributesFrom c [] c.rounds v = .ok (some as, u)) :
      OpeningTag c s (some (name, as)) u

namespace OpeningTag
variable {o : Option (Text × List Attribute)}

theorem holdsToken (h : OpeningTag c s o u) : u.HoldsToken := by
  cases h with
  | fragment => exact State.holdsToken_advance _
  | element hname hattributes =>
    exact (always_attributesFrom hattributes rfl).1 (lands_jsxName hname rfl)

theorem tagEnd (h : OpeningTag c s none u) : u.current.startsWith Byte.greater = true := by
  cases h with
  | fragment hend => exact hend

theorem reached [c.InSteps source] (h : OpeningTag c s o u) (hs : s.Reached source) :
    u.Reached source := by
  cases h with
  | fragment => exact hs.enterTag
  | element hname hattributes =>
    have hv := hs.enterTag.steps (InSteps.steps hname)
    exact hv.steps (InSteps.steps hattributes)

end OpeningTag

/-- What a run of the routine for elements and fragments can give, and where it ends. -/
inductive Markup (c : Context) (inChildren : Bool) (s : State) : Expr → State → Prop
  | bad (p : Position) (t : State) : Markup c inChildren s (.bad p) t
  | selfClosing {name : Text} {as : List Attribute} {u t : State}
      (htag : OpeningTag c s (some (name, as)) u) (hclose : u.current.kind = .punct .selfClose)
      (hleft : inChildren = true → t.OnText) :
      Markup c inChildren s (.jsxElement s.current.pos name as [] true) t
  | element {name : Text} {as : List Attribute} {u v t : State} {ss : List Slot}
      (htag : OpeningTag c s (some (name, as)) u)
      (hend : u.current.startsWith Byte.greater = true) (hslots : slots c u = .ok (some ss, v))
      (hleft : inChildren = true → t.OnText) :
      Markup c inChildren s (.jsxElement s.current.pos name as (childrenOf c ss) false) t
  | fragment {u v t : State} {ss : List Slot} (htag : OpeningTag c s none u)
      (hslots : slots c u = .ok (some ss, v)) (hleft : inChildren = true → t.OnText) :
      Markup c inChildren s (.jsxFragment s.current.pos (childrenOf c ss)) t

section
variable {inChildren : Bool}

theorem fragment_cases (htag : OpeningTag c s none u) :
    Always (fragment c inChildren s.current.pos) u (Markup c inChildren s) := by
  refine .seq fun o v hslots => ?_
  cases o with
  | none => exact .pure (.bad _ _)
  | some ss =>
    refine .step rfl (.step rfl (.ite (fun _ => .seq fun _ w hleave => .pure ?_) fun _ => ?_))
    · exact .fragment htag hslots fun hin => State.onText_leaveTag (hin ▸ hleave)
    · exact .seq fun _ _ _ => .pure (.bad _ _)

theorem elementRest_cases {name : Text} {as : List Attribute}
    (htag : OpeningTag c s (some (name, as)) u)
    (hend : u.current.kind = .punct .selfClose ∨ u.current.startsWith Byte.greater = true) :
    Always (elementRest c inChildren s.current.pos name as) u (Markup c inChildren s) := by
  refine .step rfl (.ite (fun hclose => .seq fun _ v hleave => .pure ?_) fun hclose => ?_)
  · have hkind : u.current.kind = .punct .selfClose := by simpa [State.sees] using hclose
    exact .selfClosing htag hkind fun hin => State.onText_leaveTag (hin ▸ hleave)
  have hkind : u.current.kind ≠ .punct .selfClose := by simpa [State.sees] using hclose
  refine .seq fun o v hslots => ?_
  cases o with
  | none => exact .pure (.bad _ _)
  | some ss =>
    refine .seq fun right w _ => .ite (fun _ => .seq fun _ x hleave => .pure ?_) fun _ => ?_
    · exact .element htag (hend.resolve_left hkind) hslots
        fun hin => State.onText_leaveTag (hin ▸ hleave)
    · exact .pure (.bad _ _)

theorem element_cases :
    Always (element c inChildren s.current.pos) s.enterTag (Markup c inChildren s) := by
  refine .seq fun name v hname => ?_
  cases name with
  | none => exact .pure (.bad _ _)
  | some name =>
    refine .seq fun o u hattributes => ?_
    cases o with
    | none => exact .pure (.bad _ _)
    | some as =>
      exact elementRest_cases (.element hname hattributes) (always_attributesFrom hattributes rfl).2

/-- A reader that is not too deep has found nothing to report. -/
theorem State.checkDepth_of_tooDeep (h : s.checkDepth.tooDeep = false) : s.checkDepth = s := by
  unfold checkDepth at h ⊢
  split at h
  · cases h
  · rw [if_neg ‹_›]

/-- Where the depth is restored, the reader holds the same token. -/
theorem Markup.redepth (h : Markup c inChildren s e t) (depth : Nat) :
    Markup c inChildren s e { t with depth := depth } := by
  cases h with
  | bad => exact .bad _ _
  | selfClosing htag hclose hleft => exact .selfClosing htag hclose hleft
  | element htag hend hslots hleft => exact .element htag hend hslots hleft
  | fragment htag hslots hleft => exact .fragment htag hslots hleft

/-- **All that a run of the routine can give.** -/
theorem jsx_cases : Always (jsx c inChildren) s (Markup c inChildren s) := by
  refine .step rfl (.bind (P := Markup c inChildren s) ?_ fun e t ht => .step rfl (.pure ?_))
  · refine .step rfl (.step rfl (.ite (fun _ => .step rfl (.pure (.bad _ _))) fun hdeep => ?_))
    rw [State.checkDepth_of_tooDeep (Bool.not_eq_true _ ▸ hdeep)]
    refine .step rfl (.step rfl (.ite (fun htag => ?_) fun _ => element_cases))
    exact fragment_cases (.fragment htag)
  · exact ht.redepth _

end

/-! ## 4. Slots -/

/-- A reader never goes back before the token that it holds. -/
theorem State.Reached.offset_le (hs : s.Reached source) (h : State.Steps source s t) :
    s.current.offset ≤ t.current.offset := by
  obtain ⟨origin, ts, horigin, hstands⟩ := hs.stands
  obtain ⟨us, hus, hkept⟩ := hstands.steps horigin.isIn h
  obtain ⟨t', hpos, hsuffix⟩ := hkept List.suffix_rfl
  have hoffset : t'.offset = s.current.offset := by rw [Token.offset, Token.offset, hpos]
  rw [← hoffset]
  rcases List.suffix_cons_iff.mp hsuffix with heq | hsuffix
  · cases heq
    exact Nat.le_refl _
  · have hordered := (List.pairwise_cons.mp hus.walk.ordered.pairwise).1
    have hle := hordered t' (hsuffix.subset List.mem_cons_self)
    exact Nat.le_trans (Nat.le_add_right _ _) hle

theorem State.Reached.isIn (hs : s.Reached source) : s.current.IsIn source := by
  obtain ⟨origin, ts, horigin, hstands⟩ := hs.stands
  exact hstands.isIn horigin.isIn

/-- A child is read from its first token to the text behind it. -/
structure TilesSlot (s : State) (slot : Slot) (t : State) : Prop where
  start_eq : slot.span.start = s.current.offset
  stop_eq : slot.span.stop = t.current.offset
  le : slot.span.start ≤ slot.span.stop
  onText : t.OnText
  /-- A node that is a child is no text. -/
  isText_eq : ∀ e ∈ slot.nodes, e.isText = false

/-- A brace that closes a child is one byte. -/
theorem State.Reached.stop_of_closeBrace (hs : s.Reached source)
    (hkind : s.current.kind = .punct .closeBrace) : s.current.stop = s.current.offset + 1 := by
  have htext : s.current.text = Punct.closeBrace.spelling := hs.isIn.spelt _ hkind
  rw [Token.stop, htext]
  rfl

section
variable {slot : Slot} (hc : c.Level source) (hs : s.Reached source)
include hc hs

theorem tilesSlot_bracedChild :
    Always (bracedChild c) s fun o t => ∀ slot ∈ o, TilesSlot s slot t := by
  have hsteps := hc.inSteps
  have hu : State.Steps source s s.advance := .single (.next s)
  -- the brace that closes the child is taken, and the text behind it
  have hclosed {slot : Slot} {v w : State} (hv : State.Steps source s v)
      (hkind : v.current.kind = .punct .closeBrace) (htext : advanceText c 1 v = .ok ((), w))
      (hspan : slot.span = ⟨s.current.offset, v.current.stop⟩)
      (hnodes : ∀ e ∈ slot.nodes, e.isText = false) : TilesSlot s slot w := by
    obtain ⟨honText, hoffset⟩ := State.onText_advanceText htext
    have hstop := (hs.steps hv).stop_of_closeBrace hkind
    have hle := hs.offset_le hv
    refine ⟨by rw [hspan], ?_, ?_, honText, hnodes⟩
    · rw [hspan]
      exact hstop.trans hoffset.symm
    · rw [hspan]
      simp only
      omega
  refine .step rfl (.step rfl (.ite (fun hkind => .seq fun _ v htext => .found ?_) fun _ => ?_))
  · exact hclosed hu hkind htext rfl nofun
  · refine .seq fun e v hvalue => .step rfl (.ite (fun hkind => .seq fun _ w htext => .found ?_) ?_)
    · exact hclosed (hu.trans (InSteps.steps hvalue)) hkind htext rfl
        (List.forall_mem_singleton.mpr rfl)
    · exact fun _ => .seq fun _ _ _ => .pure nofun

theorem tilesSlot_elementChild :
    Always (elementChild c) s fun o t => ∀ slot ∈ o, TilesSlot s slot t := by
  have hsteps := hc.inSteps
  refine .step rfl (.seq fun e v hjsx => .ite (fun _ => .pure nofun) fun hbad => .step rfl (.found ?_))
  have hle := hs.offset_le (InSteps.steps hjsx)
  obtain ⟨d, _, hjsx⟩ := (hc.inner_jsx hjsx).resolve_left hbad
  have hmarkup := jsx_cases hjsx
  refine ⟨rfl, rfl, hle, ?_, List.forall_mem_singleton.mpr ?_⟩
  · cases hmarkup with
    | bad => exact absurd rfl hbad
    | selfClosing _ _ hleft => exact hleft rfl
    | element _ _ _ hleft => exact hleft rfl
    | fragment _ _ hleft => exact hleft rfl
  · cases hmarkup with
    | bad => exact absurd rfl hbad
    | selfClosing | element | fragment => rfl

/-- The slots that are read from a text on go on with the tiling up to it. -/
structure TilesSlots (a : Nat) (ss : List Slot) (t : State) : Prop where
  tile : Slot.Tile a ss t.current.offset
  kind_eq : t.current.kind = .punct .closeTag
  isText_eq : ∀ slot ∈ ss, ∀ e ∈ slot.nodes, e.isText = false

end

section
variable {a : Nat} {done ss : List Slot}

/-- The text that the reader holds goes to the slots before it, unless it is empty. -/
theorem tile_textSlot (hs : s.OnText) (hdone : Slot.Tile a done.reverse s.current.offset) :
    Slot.Tile a (textSlot s.current ++ done).reverse s.advance.current.offset := by
  rw [hs.offset_advance]
  unfold textSlot
  by_cases hempty : s.current.text.isEmpty
  · rw [if_pos hempty, List.nil_append]
    rw [Token.stop, List.isEmpty_iff.mp hempty]
    exact hdone
  · rw [if_neg hempty, List.singleton_append, List.reverse_cons]
    have hle : s.current.offset ≤ s.current.stop := Nat.le_add_right _ _
    exact hdone.snoc rfl hle

variable (hc : c.Level source)
include hc

theorem tilesSlots_slotsFrom {rounds : Nat} (hs : s.Reached source) (htext : s.OnText)
    (hdone : Slot.Tile a done.reverse s.current.offset)
    (hnodes : ∀ slot ∈ done, ∀ e ∈ slot.nodes, e.isText = false) :
    Always (slotsFrom c done rounds) s fun o t => ∀ ss ∈ o, TilesSlots a ss t := by
  have hsteps := hc.inSteps
  induction rounds generalizing done s with
  | zero => exact fun _ _ hrun => by cases hrun
  | succ rounds ih =>
    have hu : s.advance.Reached source := hs.steps (.single (.next s))
    have htile := tile_textSlot htext hdone
    have hnodes' : ∀ slot ∈ textSlot s.current ++ done, ∀ e ∈ slot.nodes, e.isText = false := by
      refine List.forall_mem_append.mpr ⟨fun slot hslot => ?_, hnodes⟩
      unfold textSlot at hslot
      split at hslot
      · cases hslot
      · rw [List.mem_singleton.mp hslot]
        exact nofun
    -- a child goes behind the text, and the slots go on from the text behind it
    have hchild {o : Option Slot} {v : State} (hv : State.Steps source s.advance v)
        (hslot : ∀ slot ∈ o, TilesSlot s.advance slot v) :
        Always (slotsOn c (textSlot s.current ++ done) rounds o) v
          fun o t => ∀ ss ∈ o, TilesSlots a ss t := by
      cases o with
      | none => exact .pure nofun
      | some slot =>
        have hslot := hslot slot rfl
        refine ih (hu.steps hv) hslot.onText ?_ ?_
        · rw [List.reverse_cons, ← hslot.stop_eq]
          exact htile.snoc hslot.start_eq hslot.le
        · exact List.forall_mem_cons.mpr ⟨hslot.isText_eq, hnodes'⟩
    refine .step rfl (.step rfl ?_)
    split
    · rename_i hkind
      refine .found ⟨htile, hkind, fun slot hslot => ?_⟩
      exact hnodes' slot (List.mem_reverse.mp hslot)
    · exact .seq fun o v hrun => hchild (InSteps.steps hrun) (tilesSlot_elementChild hc hu hrun)
    · exact .seq fun o v hrun => hchild (InSteps.steps hrun) (tilesSlot_bracedChild hc hu hrun)
    · exact .seq fun _ _ _ => .pure nofun

/-- **The slots between two tags tile what lies between them.** -/
theorem tilesSlots_slots (hs : s.Reached source) (htoken : s.HoldsToken)
    (htag : s.current.startsWith Byte.greater = true) (h : slots c s = .ok (some ss, t)) :
    TilesSlots (s.current.offset + 1) ss t := by
  have hsteps := hc.inSteps
  obtain ⟨_, u, htext, hrun⟩ := bind_eq_ok h
  obtain ⟨honText, hoffset⟩ := State.onText_advanceText htext
  have hu : u.Reached source := hs.steps (MovesFrom.keeps (movesFrom_advanceText (.tag htoken htag)) htext)
  refine tilesSlots_slotsFrom hc hu honText ?_ (by simp) hrun ss rfl
  rw [hoffset]
  exact .nil _

end

end Grammar

end ReactiveScript
