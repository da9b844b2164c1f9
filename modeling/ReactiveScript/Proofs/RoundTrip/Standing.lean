import ReactiveScript.Proofs.Grammar.Ending
import ReactiveScript.Proofs.RoundTrip.Lexing

/-!
# A reader before written tokens

`Stands` ties a state of the reader to the tokens it has before it: the current token is the first
of them, and the cursor is cut into the others. Nothing has been reported. All tokens lie on one
line, so that only the very first of a source can start one (`Goes` for the others).

Looking ahead from such a state finds the partner of a bracket (`closing_of_balanced`). So a
function is recognised where its parameters stand, and nothing else is taken for one.
-/

namespace ReactiveScript.Grammar

variable {c : Cursor} {ts : List Lexed}

open Lexed

/-! ## 1. States -/

/-- The reader stands before these tokens, at a depth, with more rounds than tokens. -/
structure Stands (rounds d : Nat) (s : State) (ts : List Lexed) : Prop where
  kind_eq : s.current.kind = headKind ts
  text_eq : s.current.text = headText ts
  lexes : Lexes s.cursor.rest ts.tail
  cursor_lineStart : s.cursor.lineStart = false
  reports_eq : s.reports = []
  tooDeep_eq : s.tooDeep = false
  depth_eq : s.depth = d
  length_lt : ts.length < rounds

/-- The reader stands before these tokens, the first of which does not start a line. -/
structure Goes (rounds d : Nat) (s : State) (ts : List Lexed) : Prop
    extends Stands rounds d s ts where
  lineStart_eq : s.current.lineStart = false

section
variable {rounds d : Nat} {s : State} {t : Lexed} {ts : List Lexed}

/-- Taking a token from a place that is cut into tokens. -/
theorem stands_advance (hlexes : Lexes s.cursor.rest ts) (hreports : s.reports = [])
    (hdeep : s.tooDeep = false) (hlength : ts.length < rounds) :
    Stands rounds s.depth s.advance ts ∧ s.advance.current.lineStart = s.cursor.lineStart := by
  obtain ⟨hkind, htext, hline, hnone, hcursor, hrest⟩ := hlexes.next
  refine ⟨⟨?_, ?_, ?_, ?_, ?_, ?_, s.advance_depth, hlength⟩, ?_⟩
  · rw [State.advance_current, hkind]
  · rw [State.advance_current, htext]
  · rw [State.advance_cursor]
    exact hrest
  · rw [State.advance_cursor, hcursor]
  · rw [State.advance_reports, hnone, hreports]
    rfl
  · rw [State.advance_tooDeep, hdeep]
  · rw [State.advance_current, hline]

theorem stands_start {source : Text} (hlexes : Lexes source ts) (hlength : ts.length < rounds) :
    Stands rounds 0 (State.ofText source) ts :=
  (stands_advance (s := { cursor := Cursor.ofText source }) hlexes rfl rfl hlength).1

namespace Stands

theorem advance (h : Stands rounds d s (t :: ts)) : Goes rounds d s.advance ts := by
  have hlength : ts.length < rounds := Nat.lt_of_succ_lt h.length_lt
  obtain ⟨hstands, hline⟩ := stands_advance h.lexes h.reports_eq h.tooDeep_eq hlength
  rw [h.depth_eq] at hstands
  exact ⟨hstands, hline.trans h.cursor_lineStart⟩

theorem sees_eq (h : Stands rounds d s ts) (k : Kind) : s.sees k = decide (headKind ts = k) := by
  rw [State.sees, h.kind_eq]

theorem sees_head {k : Kind} (h : Stands rounds d s (.fixed k :: ts)) : s.sees k = true := by
  rw [h.sees_eq]
  exact decide_eq_true rfl

theorem not_sees {k : Kind} (h : Stands rounds d s ts) (hk : decide (headKind ts = k) = false) :
    s.sees k = false := (h.sees_eq k).trans hk

theorem atEnd_eq (h : Stands rounds d s ts) : s.atEnd = decide (headKind ts = .eof) := by
  rw [State.atEnd, h.kind_eq]

theorem setNesting (h : Stands rounds d s ts) (n : Nat) :
    Stands rounds d { s with nesting := n } ts :=
  ⟨h.kind_eq, h.text_eq, h.lexes, h.cursor_lineStart, h.reports_eq, h.tooDeep_eq, h.depth_eq,
    h.length_lt⟩

theorem setDepth (h : Stands rounds d s ts) (n : Nat) : Stands rounds n { s with depth := n } ts :=
  ⟨h.kind_eq, h.text_eq, h.lexes, h.cursor_lineStart, h.reports_eq, h.tooDeep_eq, rfl, h.length_lt⟩

theorem deepened_eq (h : Stands rounds d s ts) (hd : d < maxDepth) :
    s.deepened = { s with depth := d + 1 } := by
  rw [State.deepened, State.checkDepth, h.depth_eq, h.tooDeep_eq]
  rw [if_neg (by simpa using Nat.succ_le_of_lt hd)]

theorem deepened_tooDeep (h : Stands rounds d s ts) (hd : d < maxDepth) :
    s.deepened.tooDeep = false := by
  rw [h.deepened_eq hd]
  exact h.tooDeep_eq

end Stands

theorem Goes.setNesting (h : Goes rounds d s ts) (n : Nat) :
    Goes rounds d { s with nesting := n } ts :=
  ⟨h.toStands.setNesting n, h.lineStart_eq⟩

theorem Goes.setDepth (h : Goes rounds d s ts) (n : Nat) : Goes rounds n { s with depth := n } ts :=
  ⟨h.toStands.setDepth n, h.lineStart_eq⟩

theorem Goes.canContinue_eq (h : Goes rounds d s ts) : s.canContinue = true := by
  rw [State.canContinue, h.lineStart_eq, Bool.not_false, Bool.or_true]

end

/-! ## 2. Looking ahead -/

/-- One step of the search for a closing bracket. -/
theorem closingFrom_of_isPassed {t : Lexed} (ht : t.kind.isPassed = true)
    (h : Lexes c.rest (t :: ts)) (fuel depth : Nat) :
    closingFrom (fuel + 1) depth c = closingFrom fuel depth c.next.cursor := by
  have hkind : c.next.token.kind = t.kind := h.next.1
  rw [closingFrom, hkind]
  cases hk : t.kind with
  | eof =>
    rw [hk] at ht
    cases ht
  | punct p =>
    rw [hk, Kind.isPassed, Bool.and_eq_true, Bool.not_eq_true', Bool.not_eq_true'] at ht
    simp [ht.1, ht.2]
  | _ => rfl

/-- The search for a closing bracket passes over balanced tokens. -/
theorem closingFrom_of_balanced {us : List Lexed} (hus : Balanced us)
    (h : Lexes c.rest (us ++ ts)) {depth : Nat} (hdepth : 1 ≤ depth) (fuel : Nat) :
    ∃ c', closingFrom (fuel + us.length) depth c = closingFrom fuel depth c' ∧
      Lexes c'.rest ts := by
  induction hus generalizing ts c depth fuel with
  | nil => exact ⟨c, rfl, h⟩
  | @token t us ht _ ih =>
    obtain ⟨c', hc', hrest⟩ := ih h.next.2.2.2.2.2 hdepth fuel
    refine ⟨c', ?_, hrest⟩
    rw [List.length_cons, ← Nat.add_assoc, closingFrom_of_isPassed ht h, hc']
  | @group p q us vs hp hq _ _ ih₁ ih₂ =>
    rw [List.cons_append, List.append_assoc, List.cons_append] at h
    have hopen : c.next.token.kind = .punct p := h.next.1
    obtain ⟨c₁, hc₁, h₁⟩ :=
      ih₁ h.next.2.2.2.2.2 (Nat.le_add_left 1 depth) (fuel + vs.length + 1)
    have hclose : c₁.next.token.kind = .punct q := h₁.next.1
    obtain ⟨c₂, hc₂, h₂⟩ := ih₂ h₁.next.2.2.2.2.2 hdepth fuel
    have hq' : q.isOpening = false := by cases q <;> revert hq <;> decide
    refine ⟨c₂, ?_, h₂⟩
    have hlength : fuel + (punct p :: (us ++ punct q :: vs)).length =
        fuel + vs.length + 1 + us.length + 1 := by
      simp only [List.length_cons, List.length_append]
      omega
    rw [hlength, closingFrom, hopen]
    dsimp only
    rw [if_pos hp, hc₁, closingFrom, hclose]
    dsimp only
    rw [if_neg (by simp [hq']), if_pos hq, if_neg (by omega), Nat.add_sub_cancel, hc₂]

/-- The partner of a bracket is found behind balanced tokens. -/
theorem closing_of_balanced {us : List Lexed} (hus : Balanced us) {q : Punct}
    (hq : q.isClosing = true) (h : Lexes c.rest (us ++ punct q :: ts)) :
    ∃ r, closing c = some r ∧ r.token.kind = .punct q ∧ r.cursor.lineStart = false ∧
      Lexes r.cursor.rest ts := by
  have hlength := h.length_le
  simp only [List.length_append, List.length_cons] at hlength
  obtain ⟨c', hc', h'⟩ := closingFrom_of_balanced hus h (Nat.le_refl 1) (c.rest.length - us.length + 1)
  obtain ⟨hkind, -, -, -, hline, hrest⟩ := h'.next
  have hq' : q.isOpening = false := by cases q <;> revert hq <;> decide
  refine ⟨c'.next, ?_, hkind, hline, hrest⟩
  have hfuel : c.rest.length + 1 = c.rest.length - us.length + 1 + us.length := by omega
  rw [closing, hfuel, hc', closingFrom, hkind]
  dsimp only [headKind, punct, fixed]
  rw [if_neg (by simp [hq']), if_pos hq, if_pos (Nat.le_refl 1)]

theorem arrowFollows_of_isTame (h : Lexes c.rest ts) (hts : (headKind ts).isTame = true) :
    arrowFollows c = false := by
  rw [Kind.isTame, Bool.and_eq_true, decide_eq_true_eq] at hts
  simp [arrowFollows, h.next.1, hts.1]

section
variable {rounds d : Nat} {s : State} {ts : List Lexed}

/-- Where nothing but tame tokens follow the first operand, neither lookahead finds anything. -/
theorem Stands.sees_nothing (h : Stands rounds d s ts) (hts : Opens ts) :
    s.seesDestructuring = false ∧ s.seesArrow = false := by
  have hkind := h.kind_eq
  have hlexes := h.lexes
  rw [State.seesDestructuring, State.seesArrow, h.sees_eq, h.sees_eq, hkind]
  cases hts with
  | @other t ts ht =>
    have hbracket : t.kind ≠ .punct .openBracket := ht.2 _ rfl
    have hbrace : t.kind ≠ .punct .openBrace := ht.2 _ rfl
    have hparen : t.kind ≠ .punct .openParen := ht.2 _ rfl
    refine ⟨by simp [headKind, hbracket, hbrace], ?_⟩
    dsimp only [headKind]
    split
    · rename_i heq
      exact absurd heq ht.1
    · rename_i heq
      exact absurd heq hparen
    · rfl
  | name hnext => exact ⟨rfl, arrowFollows_of_isTame hlexes hnext⟩
  | @group p q us ts hp hq hus hnext =>
    obtain ⟨r, hr, -, -, hrest⟩ := closing_of_balanced hus hq hlexes
    have harrow := arrowFollows_of_isTame hrest hnext
    have hassign : r.cursor.next.token.kind.isAssignment = false := by
      rw [hrest.next.1]
      rw [Kind.isTame, Bool.and_eq_true, Bool.not_eq_true'] at hnext
      exact hnext.2
    rw [hr]
    refine ⟨by simp [hassign], ?_⟩
    cases p <;> first | rfl | simp [headKind, punct, fixed, harrow]

/-- The parameters of a function are recognised. -/
theorem Stands.sees_function {us : List Lexed} (hus : Balanced us)
    (h : Stands rounds d s
      (punct .openParen :: (us ++ punct .closeParen :: punct .arrow :: ts))) :
    s.seesDestructuring = false ∧ s.seesArrow = true := by
  have hkind := h.kind_eq
  obtain ⟨r, hr, hclose, hline, hrest⟩ := closing_of_balanced hus rfl h.lexes
  obtain ⟨harrow, -, hstart, -⟩ := hrest.next
  have hnext : arrowFollows r.cursor = true := by
    simp [arrowFollows, harrow, hstart, hline, headKind, punct, fixed]
  rw [State.seesDestructuring, State.seesArrow, h.sees_eq, h.sees_eq, hkind]
  refine ⟨rfl, ?_⟩
  dsimp only [headKind, punct, fixed]
  rw [hr]
  simp [hclose, hnext]

end

end ReactiveScript.Grammar
