import ReactiveScript.Proofs.Grammar.Laying
import ReactiveScript.Proofs.Grammar.Tags

/-!
# The children of elements

What stands between the two tags of an element or a fragment is taken apart into slots that leave no
byte out, and the children are made from these slots. This holds of every element and fragment in
the tree of an accepted source, however deep it is nested, in the holes of templates too.
-/

namespace ReactiveScript

namespace Grammar

/-- Children that were read from the end of an opening tag, which the reader `u` holds, up to the
    closing tag, whose start the reader `v` holds. -/
structure Between (source : Text) (c : Context) (u : State) (ss : List Slot) (v : State)
    (children : List Expr) : Prop where
  run_eq : slots c u = .ok (some ss, v)
  opened : txt ">" <+: source.drop u.current.offset
  tile : Slot.Tile (u.current.offset + 1) ss v.current.offset
  closed : txt "</" <+: source.drop v.current.offset
  children_eq : children = Children.ofSlots (LineMap.ofText source) source ss
  normal : Children.Normal source ss children

/-- How the children of an element or a fragment come about: its opening tag is read at a level of
    the grammar of the source, by a reader that has come there. -/
inductive ChildrenRead (source : Text) : Expr → Prop
  | selfClosing {c : Context} {s u : State} {name : Text} {as : List Attribute}
      (hc : c.Level source) (hs : s.Reached source) (htag : OpeningTag c s (some (name, as)) u)
      (hclose : txt "/>" <+: source.drop u.current.offset) :
      ChildrenRead source (.jsxElement s.current.pos name as [] true)
  | element {c : Context} {s u v : State} {name : Text} {as : List Attribute} {ss : List Slot}
      {children : List Expr} (hc : c.Level source) (hs : s.Reached source)
      (htag : OpeningTag c s (some (name, as)) u) (h : Between source c u ss v children) :
      ChildrenRead source (.jsxElement s.current.pos name as children false)
  | fragment {c : Context} {s u v : State} {ss : List Slot} {children : List Expr}
      (hc : c.Level source) (hs : s.Reached source) (htag : OpeningTag c s none u)
      (h : Between source c u ss v children) :
      ChildrenRead source (.jsxFragment s.current.pos children)

section
variable {source : Text} {c : Context} {s u v : State} {ss : List Slot}

/-- The reader stands at the text of its token. -/
theorem State.Reached.startsWith_spelling (hs : s.Reached source) {p : Punct}
    (hkind : s.current.kind = .punct p) : p.spelling <+: source.drop s.current.offset := by
  rw [← hs.isIn.spelt p hkind]
  exact hs.isIn.text

/-- The children between the end of an opening tag and a closing tag. -/
theorem between_of_slots (hc : c.Level source) (hu : u.Reached source) (htoken : u.HoldsToken)
    (htag : u.current.startsWith Byte.greater = true) (hrun : slots c u = .ok (some ss, v)) :
    Between source c u ss v (childrenOf c ss) := by
  have hsteps := hc.inSteps
  have hslots := tilesSlots_slots hc hu htoken htag hrun
  have hv : v.Reached source := hu.steps (MovesFrom.keeps (movesFrom_slots htoken htag) hrun)
  have hchildren : childrenOf c ss = Children.ofSlots (LineMap.ofText source) source ss := by
    rw [childrenOf, hc.lines_eq, hsteps.source_eq]
  refine ⟨hrun, ?_, hslots.tile, hv.startsWith_spelling hslots.kind_eq, hchildren, ?_⟩
  · obtain ⟨rest, hrest⟩ : ∃ rest, u.current.text = Byte.greater :: rest :=
      List.head?_eq_some_iff.mp (beq_iff_eq.mp htag)
    exact List.IsPrefix.trans ⟨rest, hrest.symm⟩ hu.isIn.text
  · rw [hchildren]
    exact Children.normal_ofSlots _ _ hslots.isText_eq

/-- **An element or a fragment that was read has children that come about so.** -/
theorem ReadAsMarkup.childrenRead {e : Expr} (h : ReadAsMarkup source e) (he : e.isMarkup = true) :
    ChildrenRead source e := by
  obtain ⟨c, inChildren, s, t, hc, hs, hrun⟩ := h
  have hsteps := hc.inSteps
  cases jsx_cases hrun with
  | bad => cases he
  | selfClosing htag hclose _ =>
    exact .selfClosing hc hs htag ((htag.reached hs).startsWith_spelling hclose)
  | element htag hend hslots _ =>
    exact .element hc hs htag
      (between_of_slots hc (htag.reached hs) htag.holdsToken hend hslots)
  | fragment htag hslots _ =>
    exact .fragment hc hs htag
      (between_of_slots hc (htag.reached hs) htag.holdsToken htag.tagEnd hslots)

end

end Grammar

open Grammar

/-- **The children of elements.** Every element and fragment in the tree of an accepted source has
    children that were read between its tags: the slots between `>` and `</` leave no byte out, the
    nodes among the children are those of the slots, in order, texts are neither empty nor next to
    each other, and the text between two nodes is that of the slots between them, trimmed and
    decoded, with one blank for each gap on a line. -/
theorem element_children_normal (source : Text) :
    (∀ p, readProgram source = some (.ok p) → ∀ e, Within (.program p) (.expr e) →
      e.isMarkup = true → ChildrenRead source e) ∧
    ∀ x, readExpression source = some (.ok x) → ∀ e, Within (.expr x) (.expr e) →
      e.isMarkup = true → ChildrenRead source e := by
  constructor
  · intro p h e he hmarkup
    exact (((built_of_readProgram h).made _ he).markup e rfl hmarkup).childrenRead hmarkup
  · intro x h e he hmarkup
    exact (((built_of_readExpression h).made _ he).markup e rfl hmarkup).childrenRead hmarkup

/-- A paragraph with text, a value, empty braces and another element, with gaps of all kinds. -/
def paragraph : Text := txt "<p> a &lt; \x7bb\x7d \x7b\x7d c\n<i/>d</p>"

/-- The text of a child, if it is one. -/
def Expr.text? : Expr → Option Text
  | .jsxText _ v => some v
  | _ => none

/-- What the children of the paragraph are: each blank on a line is kept once, the line end is not,
    and the empty braces are gone. -/
def isParagraph : Expr → Bool
  | .jsxElement _ _ _ children false =>
    children.map Expr.text? = [some (txt "a < "), none, some (txt "  c"), none, some (txt "d")]
  | _ => false

def holdsParagraph (p : Program) : Bool :=
  match p.body with
  | [.expression _ _ e] => isParagraph e
  | _ => false

theorem Expr.isMarkup_of_isParagraph {e : Expr} (h : isParagraph e = true) :
    e.isMarkup = true := by
  cases e with
  | jsxElement => rfl
  | _ => cases h

theorem paragraph_children :
    (∃ p e, readProgram paragraph = some (.ok p) ∧ Within (.program p) (.expr e) ∧
      isParagraph e = true ∧ ChildrenRead paragraph e) ∧
    ∃ x, readExpression paragraph = some (.ok x) ∧ isParagraph x = true ∧
      ChildrenRead paragraph x := by
  constructor
  · have hgives : givesAtOnce program holdsParagraph paragraph = true := by decide +kernel
    obtain ⟨p, h, htest⟩ := exists_of_givesAtOnce hgives
    unfold holdsParagraph at htest
    split at htest
    · rename_i q m e hbody
      have hwithin : Within (.program p) (.expr e) := by
        refine .step (r := .stmt (.expression q m e)) ?_ (.step (List.mem_singleton_self _) (.refl _))
        exact List.mem_map_of_mem (hbody ▸ List.mem_singleton_self _)
      exact ⟨p, e, h, hwithin, htest, (element_children_normal paragraph).1 p h e hwithin
        (Expr.isMarkup_of_isParagraph htest)⟩
    · cases htest
  · have hgives : givesAtOnce wholeExpression isParagraph paragraph = true := by decide +kernel
    obtain ⟨x, h, htest⟩ := exists_of_givesAtOnce hgives
    exact ⟨x, h, htest, (element_children_normal paragraph).2 x h x (.refl _)
      (Expr.isMarkup_of_isParagraph htest)⟩

end ReactiveScript
