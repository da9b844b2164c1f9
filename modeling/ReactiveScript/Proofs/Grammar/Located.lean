import ReactiveScript.Proofs.Syntax.Located
import ReactiveScript.Proofs.Token.Walks

/-!
# Readers in their source

A reader lies in a source if its place, its token and its reports do. Only going back into a token
could lead out of it, since the column is counted on from the token's: the bytes that are passed
there stand on one line.
-/

namespace ReactiveScript.Grammar

/-- The reader stands in the source, with its token and its reports. -/
structure State.IsIn (source : Text) (s : State) : Prop where
  cursor : s.cursor.IsIn source
  current : s.current.IsIn source
  reports : ∀ r ∈ s.reports, r.pos.IsIn source

instance : Placed State := .within State.IsIn

instance : Placed Block where
  IsIn scope b := Placed.IsIn scope b.pos ∧ Placed.IsIn scope b.body
  isIn_none _ := ⟨Placed.isIn_none _, Placed.isIn_none _⟩

/-- The part that was read, if any, lies in the source. -/
instance {α : Type} [Placed α] : Placed (Part α) where
  IsIn scope
    | .none => True
    | .last a | .more a => Placed.IsIn scope a
  isIn_none
    | .none => trivial
    | .last a | .more a => Placed.isIn_none a

/-! ## 1. What a reader does in its source -/

namespace State
variable {source : Text} {s : State}

theorem isIn_start {c : Cursor} (h : c.IsIn source) : (State.start c).IsIn source := by
  have hnext := h.next
  refine ⟨?_, ?_, ?_⟩
  · rw [State.start, State.advance_cursor]
    exact hnext.cursor
  · rw [State.start, State.advance_current]
    exact hnext.token
  · rw [State.start, State.advance_reports, List.append_nil]
    exact fun r hr => hnext.reports r (List.mem_reverse.mp hr)

theorem IsIn.accept (h : s.IsIn source) {r : Scanned} (hr : r.IsIn source) :
    (s.accept r).IsIn source := by
  refine ⟨hr.cursor, hr.token, List.forall_mem_append.mpr ⟨fun x hx => ?_, h.reports⟩⟩
  exact hr.reports x (List.mem_reverse.mp hx)

theorem IsIn.advance (h : s.IsIn source) : s.advance.IsIn source := by
  have haccept := h.accept h.cursor.next
  unfold State.advance
  dsimp only
  split
  · exact ⟨haccept.cursor, haccept.current, haccept.reports⟩
  · exact haccept

theorem IsIn.report (h : s.IsIn source) {r : Report} (hr : r.pos.IsIn source) :
    (s.report r).IsIn source :=
  ⟨h.cursor, h.current, List.forall_mem_cons.mpr ⟨hr, h.reports⟩⟩

theorem IsIn.fault (h : s.IsIn source) {f : ParseFault} {p : Position} (hp : p.IsIn source) :
    (s.fault f p).IsIn source := by
  unfold State.fault
  split
  · exact h
  · exact h.report hp

theorem IsIn.giveUp (h : s.IsIn source) {p : Position} (hp : p.IsIn source) :
    (s.giveUp p).IsIn source :=
  ⟨h.cursor, h.current, (h.report hp).reports⟩

theorem IsIn.recount (h : s.IsIn source) {nesting braceBlocks depth : Nat} {tooDeep : Bool} :
    State.IsIn source
      { s with
        nesting := nesting
        braceBlocks := braceBlocks
        depth := depth
        tooDeep := tooDeep } :=
  ⟨h.cursor, h.current, h.reports⟩

/-! ### Going back into a token -/

/-- The first bytes of the current token, so many of them, stand on one line. -/
def Passes (s : State) (n : Nat) : Prop :=
  ∃ w, w.length = n ∧ w <+: s.current.text ∧ Byte.newline ∉ w

theorem passes_of_tagEnd (h : s.current.startsWith Byte.greater = true) : s.Passes 1 := by
  refine ⟨[Byte.greater], rfl, ?_, by decide⟩
  unfold Token.startsWith at h
  cases htext : s.current.text with
  | nil =>
    rw [htext] at h
    cases h
  | cons b rest =>
    rw [htext, List.head?_cons, beq_iff_eq, Option.some.injEq] at h
    exact ⟨rest, by rw [h]; rfl⟩

/-- A token is passed as it is spelt. -/
theorem passes_of_punct (h : s.current.IsIn source) {p : Punct}
    (hkind : s.current.kind = .punct p) (hline : Byte.newline ∉ p.spelling) :
    s.Passes p.spelling.length :=
  ⟨p.spelling, rfl, h.spelt p hkind ▸ List.prefix_rfl, hline⟩

theorem passes_of_closes {width : Nat} {t : Token} (h : s.current.IsIn source)
    (hclose : s.current.Closes width t) : s.Passes width := by
  generalize hs : s.current = current at hclose
  cases hclose with
  | tag _ htag => exact passes_of_tagEnd (hs ▸ htag)
  | @mark p hkind =>
    exact passes_of_punct h (hs ▸ hkind) (by cases p <;> decide)

theorem IsIn.reenter (h : s.IsIn source) {n : Nat} (hn : s.Passes n) :
    (s.reenter source n).IsIn source := by
  obtain ⟨w, rfl, hw, hline⟩ := hn
  exact ⟨h.current.inside hw hline, h.current, h.reports⟩

end State

/-! ## 2. What was read -/

section
variable {scope : Option Text} {α : Type} [Placed α] {b : Block} {t : Token}

instance {s : State} [hs : Located scope s] : Located scope s.current :=
  ⟨fun source hsource => (hs.isIn source hsource).current⟩

instance {p : Position} [hp : Located scope p] {body : List Stmt}
    [hbody : Located scope body] : Located scope (⟨p, body⟩ : Block) := ⟨hp.isIn, hbody.isIn⟩

instance [h : Located scope b] : Located scope b.pos := ⟨h.isIn.1⟩

instance [h : Located scope b] : Located scope b.body := ⟨h.isIn.2⟩

instance : Located scope (Part.none : Part α) := ⟨trivial⟩

instance {a : α} [h : Located scope a] : Located scope (Part.last a) := ⟨h.isIn⟩

instance {a : α} [h : Located scope a] : Located scope (Part.more a) := ⟨h.isIn⟩

instance [Located scope t] : Located scope (identifierOf t) := by
  unfold identifierOf; infer_instance

instance [Located scope t] : Located scope (stringOf t) := by
  unfold stringOf; infer_instance

instance {target : Expr} {a : α} [Located scope a] :
    Located scope (partOf target a) := by
  unfold partOf; infer_instance

instance [hb : Located scope b] : Located scope (soleValue? b) := by
  refine ⟨fun e he => ?_⟩
  unfold soleValue? at he
  split at he
  · rename_i body p value hbody
    have hstmt := hb.isIn.2 _ (hbody ▸ List.mem_singleton_self _)
    split at he
    · cases he
    · cases he
      exact (List.forall_mem_cons.mp hstmt).2
  · cases he

instance {p : Position} [Located scope p] {ps : List Param}
    [Located scope ps] [Located scope b] : Located scope (arrowBlock p ps b) := by
  unfold arrowBlock; infer_instance

instance {p : Position} [Located scope p] {ps : List Param}
    [Located scope ps] [Located scope b] : Located scope (arrowOf p ps b) := by
  have hvalue : Located scope (soleValue? b) := inferInstance
  unfold arrowOf
  split
  · rename_i e he
    have hlocated : Located scope e := ⟨hvalue.isIn e he⟩
    infer_instance
  · infer_instance

/-- From the start of a token to the start of another. -/
theorem located_between {u : Token} (ht : Located scope t) (hu : Located scope u) :
    Located scope (⟨t.offset, u.offset⟩ : Span) :=
  ⟨fun source hsource =>
    ⟨(ht.isIn source hsource).pos.offset_le, (hu.isIn source hsource).pos.offset_le⟩⟩

/-- From the start of a token to the end of another. -/
theorem located_through {u : Token} (ht : Located scope t) (hu : Located scope u) :
    Located scope (⟨t.offset, u.stop⟩ : Span) :=
  ⟨fun source hsource =>
    ⟨(ht.isIn source hsource).pos.offset_le, (hu.isIn source hsource).stop_le⟩⟩

theorem located_comment {span : Span} (h : Located scope span) :
    Located scope (Slot.comment span) := ⟨h.isIn, nofun⟩

theorem located_node {span : Span} {e : Expr} (h : Located scope span) (he : Located scope e) :
    Located scope (Slot.node span e) :=
  ⟨h.isIn, fun _ _ hn => by cases hn; exact he.isIn⟩

instance [h : Located scope t] : Located scope (textSlot t) := by
  unfold textSlot
  split
  · infer_instance
  · have hslot : Located scope (Slot.text ⟨t.offset, t.stop⟩) :=
      ⟨(located_through h h).isIn, nofun⟩
    infer_instance

end

end ReactiveScript.Grammar
