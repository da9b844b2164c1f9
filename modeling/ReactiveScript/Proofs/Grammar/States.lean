import ReactiveScript.Proofs.Grammar.Running
import ReactiveScript.Proofs.Token.Tiling

/-!
# States of a reading

A state is steady if it agrees with its source, settled if its token is an ordinary one, and ready
if a routine may be run from it at a depth. A routine leads onward: the place is the same or a later
one, and reports are only added.
-/

namespace ReactiveScript

/-! ## 1. Tokens that fit a source -/

/-- A token that was read from a source at an offset or later, and the place after it. -/
structure Scanned.Fits (source : Text) (offset : Nat) (r : Scanned) : Prop where
  rest_eq : r.cursor.rest = source.drop r.cursor.pos.offset
  offset_le : offset ≤ r.token.offset
  stop_eq : r.token.stop = r.cursor.pos.offset
  text_ne : r.token.kind.isScanned = true → r.token.text ≠ []
  inside : r.token.text ≠ [] → r.token.stop ≤ source.length
  ended : r.token.kind = .eof → source.length ≤ r.token.offset

namespace Cursor

theorem take_ne_nil_of_pos {t : Text} {b : UInt8} {n : Nat} (hn : 0 < n) :
    (b :: t).take n ≠ [] := by
  simp only [ne_eq, List.take_eq_nil_iff, reduceCtorEq, or_false]
  omega

theorem next_fits {source : Text} {c : Cursor} (h : c.rest = source.drop c.pos.offset) :
    c.next.Fits source c.pos.offset := by
  have hgap := c.gap_append_afterGap
  rw [h] at hgap
  rcases c.next_cases with ⟨hrest, ht, hc⟩ | ⟨b, rest, hrest, ht, hc⟩
  · rw [hrest, List.append_nil] at hgap
    have hlen := congrArg List.length hgap
    rw [List.length_drop] at hlen
    refine ⟨?_, ?_, ?_, ?_, ?_, ?_⟩
    · rw [hc, Position.advance_offset]
      exact (List.drop_eq_nil_of_le (by omega)).symm
    · simp [ht, Token.offset]
    · simp [ht, hc, Token.stop]
    · simp [ht, Kind.isScanned]
    · simp [ht]
    · intro _
      rw [ht, Token.offset, Position.advance_offset]
      omega
  · have hpos := Lexeme.scan_width_pos b rest
    rw [hrest] at hgap
    have hlen := congrArg List.length hgap
    simp only [List.length_append, List.length_drop, List.length_cons] at hlen
    refine ⟨?_, ?_, ?_, ?_, ?_, ?_⟩
    · rw [hc]
      simp only [Position.advance_offset, List.length_take, List.length_cons]
      rw [Nat.add_assoc, ← List.drop_drop, ← hgap, ← List.drop_drop, List.drop_left]
      by_cases hw : (Lexeme.scan b rest).width ≤ rest.length + 1
      · rw [Nat.min_eq_left hw]
      · rw [List.drop_eq_nil_of_le (by simp; omega), List.drop_eq_nil_of_le (by simp; omega)]
    · simp [ht, Token.offset]
    · simp [ht, hc, Token.stop]
    · intro _
      rw [ht]
      exact take_ne_nil_of_pos hpos
    · intro _
      simp only [ht, Token.stop, Position.advance_offset, List.length_take, List.length_cons]
      omega
    · intro hk
      rw [ht] at hk
      have hscan := Lexeme.scan_kind b rest
      rw [show (Lexeme.scan b rest).kind = .eof from hk] at hscan
      cases hscan

theorem next_kind_ne_jsxText (c : Cursor) : c.next.token.kind ≠ .jsxText := by
  rcases c.next_cases with ⟨-, ht, -⟩ | ⟨b, rest, -, ht, -⟩
  · rw [ht]
    simp
  · have h := Lexeme.scan_kind b rest
    rw [ht]
    intro hk
    rw [show (Lexeme.scan b rest).kind = .jsxText from hk] at h
    cases h

theorem jsxText_fits {source : Text} {c : Cursor} (h : c.rest = source.drop c.pos.offset) :
    c.jsxText.Fits source c.pos.offset := by
  have hle : (c.rest.takeWhile isJsxText).length ≤ c.rest.length :=
    (List.takeWhile_sublist _).length_le
  have hlen : c.rest.length = source.length - c.pos.offset := by rw [h, List.length_drop]
  refine ⟨?_, ?_, ?_, ?_, ?_, fun heof => by cases heof⟩
  · simp only [jsxText, Position.advance_offset]
    rw [← List.drop_drop, ← h]
  · exact Nat.le_refl _
  · simp [jsxText, Token.stop]
  · intro hk
    cases hk
  · intro hne
    have hpos := List.length_pos_iff.mpr hne
    simp only [jsxText, Token.stop] at hpos ⊢
    omega

end Cursor

end ReactiveScript

namespace ReactiveScript.Grammar

/-! ## 2. States that fit a source -/

namespace State
variable (s : State)

@[simp] theorem advance_current : s.advance.current = s.cursor.next.token := by
  unfold advance
  dsimp only
  split <;> rfl

@[simp] theorem advance_cursor : s.advance.cursor = s.cursor.next.cursor := by
  unfold advance
  dsimp only
  split <;> rfl

@[simp] theorem advance_reports : s.advance.reports = s.cursor.next.reports.reverse ++ s.reports := by
  unfold advance
  dsimp only
  split <;> rfl

@[simp] theorem advance_nesting : s.advance.nesting = s.nesting := by
  unfold advance
  dsimp only
  split <;> rfl

@[simp] theorem advance_braceBlocks : s.advance.braceBlocks = s.braceBlocks := by
  unfold advance
  dsimp only
  split <;> rfl

@[simp] theorem advance_depth : s.advance.depth = s.depth := by
  unfold advance
  dsimp only
  split <;> rfl

@[simp] theorem advance_tooDeep : s.advance.tooDeep = s.tooDeep := by
  unfold advance
  dsimp only
  split <;> rfl

theorem advance_previous : s.advance.previous = s.current := by
  unfold advance
  dsimp only
  split <;> rfl

theorem advance_lineIndent : s.advance.lineIndent =
    if s.cursor.next.token.lineStart then s.cursor.next.token.column else s.lineIndent := by
  unfold advance
  dsimp only
  split <;> rename_i h <;> simp only [accept] at h ⊢
  · rw [if_pos h]
  · rw [if_neg h]

end State

/-- A state agrees with its source, and is on its way out only after a report. -/
structure Steady (source : Text) (s : State) : Prop where
  rest_eq : s.cursor.rest = source.drop s.cursor.pos.offset
  stop_le : s.current.stop ≤ s.cursor.pos.offset
  text_ne : s.current.kind.isScanned = true → s.current.text ≠ []
  inside : s.current.text ≠ [] → s.current.stop ≤ source.length
  ended : s.current.kind = .eof → source.length ≤ s.current.offset
  deep : s.tooDeep = true → s.reports ≠ []

/-- A steady state whose token is not the text between tags. -/
structure Settled (source : Text) (s : State) : Prop extends Steady source s where
  kind_ne : s.current.kind ≠ .jsxText

/-- A state from which a routine may be run at a depth. -/
structure Ready (source : Text) (d : Nat) (s : State) : Prop extends Settled source s where
  depth_eq : s.depth = d
  depth_le : d ≤ maxDepth

/-- The state after a routine, against the state before it. -/
structure Onward (s s' : State) : Prop where
  offset_le : s.current.offset ≤ s'.current.offset
  reports : s.reports <:+ s'.reports
  tooDeep : s'.reports = s.reports → s'.tooDeep = s.tooDeep

theorem Onward.refl (s : State) : Onward s s :=
  ⟨Nat.le_refl _, List.suffix_refl _, fun _ => rfl⟩

theorem reports_eq_of_suffix {r₁ r₂ r₃ : List Report} (h₁ : r₁ <:+ r₂) (h₂ : r₂ <:+ r₃)
    (h : r₃ = r₁) : r₂ = r₁ ∧ r₃ = r₂ := by
  subst h
  have := List.IsSuffix.eq_of_length_le h₂ h₁.length_le
  exact ⟨this, this.symm⟩

theorem Onward.trans {s₁ s₂ s₃ : State} (h₁ : Onward s₁ s₂) (h₂ : Onward s₂ s₃) : Onward s₁ s₃ where
  offset_le := Nat.le_trans h₁.offset_le h₂.offset_le
  reports := h₁.reports.trans h₂.reports
  tooDeep h := by
    obtain ⟨h21, h32⟩ := reports_eq_of_suffix h₁.reports h₂.reports h
    rw [h₂.tooDeep h32, h₁.tooDeep h21]

section
variable {source : Text} {s : State}

theorem Settled.isScanned (h : Settled source s) (hend : s.atEnd = false) :
    s.current.kind.isScanned = true := by
  have hkind := h.kind_ne
  have heof : s.current.kind ≠ .eof := by simpa [State.atEnd] using hend
  cases hk : s.current.kind <;> simp_all [Kind.isScanned]

/-- A token that is not the end takes bytes of the source. -/
theorem Settled.offset_lt (h : Settled source s) (hend : s.atEnd = false) :
    s.current.offset < s.current.stop ∧ s.current.stop ≤ source.length := by
  have hne := h.text_ne (h.isScanned hend)
  have hpos := List.length_pos_iff.mpr hne
  exact ⟨by simp only [Token.offset, Token.stop]; omega, h.inside hne⟩

/-- The depth does not bear on whether a state is steady. -/
theorem Steady.setDepth (h : Steady source s) (n : Nat) : Steady source { s with depth := n } :=
  ⟨h.rest_eq, h.stop_le, h.text_ne, h.inside, h.ended, h.deep⟩

theorem Settled.setDepth (h : Settled source s) (n : Nat) : Settled source { s with depth := n } :=
  ⟨h.toSteady.setDepth n, h.kind_ne⟩

omit source in
theorem Onward.setDepth {s' : State} (h : Onward s s') (n : Nat) :
    Onward s { s' with depth := n } :=
  ⟨h.offset_le, h.reports, h.tooDeep⟩

/-- What is next depends on the place only, not on the current token. -/
theorem settled_advance (hrest : s.cursor.rest = source.drop s.cursor.pos.offset)
    (hdeep : s.tooDeep = true → s.reports ≠ []) : Settled source s.advance := by
  have hfits := Cursor.next_fits hrest
  refine ⟨⟨?_, ?_, ?_, ?_, ?_, ?_⟩, ?_⟩
  · simpa using hfits.rest_eq
  · simpa using Nat.le_of_eq hfits.stop_eq
  · simpa using hfits.text_ne
  · simpa using hfits.inside
  · simpa using hfits.ended
  · intro ht
    rw [State.advance_tooDeep] at ht
    rw [State.advance_reports]
    exact List.append_ne_nil_of_right_ne_nil _ (hdeep ht)
  · rw [State.advance_current]
    exact Cursor.next_kind_ne_jsxText _

theorem Steady.advance (h : Steady source s) : Settled source s.advance :=
  settled_advance h.rest_eq h.deep

/-- The next token does not start before the current one has ended. -/
theorem Steady.stop_le_advance (h : Steady source s) :
    s.current.stop ≤ s.advance.current.offset := by
  rw [State.advance_current]
  exact Nat.le_trans h.stop_le (Cursor.next_fits h.rest_eq).offset_le

theorem Steady.onward_advance (h : Steady source s) : Onward s s.advance where
  offset_le := Nat.le_trans (Nat.le_add_right _ _) h.stop_le_advance
  reports := by simp
  tooDeep _ := by simp

/-- A token that is not the end is left behind. -/
theorem Settled.lt_advance (h : Settled source s) (hend : s.atEnd = false) :
    s.current.offset < s.advance.current.offset :=
  Nat.lt_of_lt_of_le (h.offset_lt hend).1 h.stop_le_advance

theorem Ready.advance {d : Nat} (h : Ready source d s) : Ready source d s.advance :=
  ⟨h.toSteady.advance, by rw [State.advance_depth, h.depth_eq], h.depth_le⟩

/-! ## 3. Reports -/

theorem Steady.report (h : Steady source s) (r : Report) : Steady source (s.report r) :=
  ⟨h.rest_eq, h.stop_le, h.text_ne, h.inside, h.ended, fun _ => List.cons_ne_nil _ _⟩

theorem Ready.report {d : Nat} (h : Ready source d s) (r : Report) : Ready source d (s.report r) :=
  ⟨⟨h.toSteady.report r, h.kind_ne⟩, h.depth_eq, h.depth_le⟩

theorem Onward.report (s : State) (r : Report) : Onward s (s.report r) where
  offset_le := Nat.le_refl _
  reports := List.suffix_cons _ _
  tooDeep h := absurd h (List.cons_ne_self _ _)

theorem Settled.giveUp (h : Settled source s) (p : Position) : Settled source (s.giveUp p) :=
  ⟨⟨h.rest_eq, h.stop_le, h.text_ne, h.inside, h.ended, fun _ => List.cons_ne_nil _ _⟩, h.kind_ne⟩

theorem Onward.giveUp (s : State) (p : Position) : Onward s (s.giveUp p) where
  offset_le := Nat.le_refl _
  reports := List.suffix_cons _ _
  tooDeep h := absurd h (List.cons_ne_self _ _)

theorem Ready.fault {d : Nat} (h : Ready source d s) (f : ParseFault) (p : Position) :
    Ready source d (s.fault f p) := by
  unfold State.fault
  split
  · exact h
  · exact h.report _

theorem Onward.fault (s : State) (f : ParseFault) (p : Position) : Onward s (s.fault f p) := by
  unfold State.fault
  split
  · exact .refl s
  · exact .report s _

theorem State.fault_reports_ne_self (s : State) (ht : s.tooDeep = false) (f : ParseFault)
    (p : Position) : (s.fault f p).reports ≠ s.reports := by
  simp [State.fault, ht, State.report]

end

end ReactiveScript.Grammar
