import ReactiveScript.Proofs.Token.Scanning
import ReactiveScript.Source.LineMap

/-!
# Positions and the line map

Lines and columns come from two sides. A reader counts them byte by byte (`Position.advance`), and
the line map looks them up from an offset. Both give the same.
-/

namespace ReactiveScript

/-! ## 1. The starts of lines -/

namespace LineMap

/-- The starts of the lines that begin inside a text at `offset`. -/
def startsIn (offset : Nat) : Text → List Nat
  | [] => []
  | b :: rest =>
    if b = Byte.newline then (offset + 1) :: startsIn (offset + 1) rest
    else startsIn (offset + 1) rest

theorem startsFrom_eq (found : List Nat) (offset : Nat) (t : Text) :
    startsFrom found offset t = found.reverse ++ startsIn offset t := by
  induction t generalizing found offset with
  | nil => simp [startsFrom, startsIn]
  | cons b t ih =>
    rw [startsFrom, startsIn]
    split
    · rw [ih, List.reverse_cons, List.append_assoc]
      rfl
    · exact ih found (offset + 1)

theorem bounds_of_mem_startsIn {offset n : Nat} {t : Text} (h : n ∈ startsIn offset t) :
    offset < n ∧ n ≤ offset + t.length := by
  induction t generalizing offset with
  | nil => cases h
  | cons b t ih =>
    rw [startsIn] at h
    rw [List.length_cons]
    split at h
    · rcases List.mem_cons.mp h with rfl | h
      · omega
      · have := ih h
        omega
    · have := ih h
      omega

/-- Counting over `n` bytes, from a line that started at `last`, against the starts of lines up to
    there. -/
theorem advance_take (offset line last : Nat) (hlast : last ≤ offset) (t : Text) (n : Nat)
    (hn : n ≤ t.length) :
    Position.advance ⟨offset, line, offset - last + 1⟩ (t.take n) =
      ⟨offset + n, line + ((startsIn offset t).takeWhile (· ≤ offset + n)).length,
        offset + n - ((startsIn offset t).takeWhile (· ≤ offset + n)).getLastD last + 1⟩ := by
  induction t generalizing offset line last n with
  | nil =>
    obtain rfl : n = 0 := Nat.le_zero.mp hn
    rfl
  | cons b t ih =>
    cases n with
    | zero =>
      have hnone : (startsIn offset (b :: t)).takeWhile (· ≤ offset + 0) = [] := by
        rw [List.eq_nil_iff_forall_not_mem]
        intro n hmem
        have hlt := (bounds_of_mem_startsIn ((List.takeWhile_sublist _).mem hmem)).1
        have hle := List.all_eq_true.mp List.all_takeWhile n hmem
        simp only [Nat.add_zero, decide_eq_true_eq] at hle
        omega
      rw [hnone]
      rfl
    | succ n =>
      have hn' : n ≤ t.length := Nat.le_of_succ_le_succ hn
      have hsum : offset + (n + 1) = offset + 1 + n := by omega
      rw [List.take_succ_cons, Position.advance_cons, Position.step, startsIn, hsum]
      split
      · -- A line starts right after this byte.
        have hnew := ih (offset + 1) (line + 1) (offset + 1) (Nat.le_refl _) n hn'
        rw [Nat.sub_self, Nat.zero_add] at hnew
        rw [hnew, List.takeWhile_cons_of_pos (by simp), List.length_cons, List.getLastD_cons]
        congr 1
        omega
      · have hsame := ih (offset + 1) line last (Nat.le_succ_of_le hlast) n hn'
        have hcolumn : offset + 1 - last + 1 = offset - last + 1 + 1 := by omega
        rw [hcolumn] at hsame
        exact hsame

/-- **The line map finds the position that counting comes to.** -/
theorem position_eq_advance {t : Text} {offset : Nat} (h : offset ≤ t.length) :
    (ofText t).position offset = Position.start.advance (t.take offset) := by
  have hcount := advance_take 0 1 0 (Nat.le_refl 0) t offset h
  have hstart : (⟨0, 1, 0 - 0 + 1⟩ : Position) = Position.start := rfl
  rw [hstart, Nat.zero_add] at hcount
  have hstarts : (ofText t).starts = 0 :: startsIn 0 t := startsFrom_eq [0] 0 t
  have hsize : min offset (ofText t).size = offset := Nat.min_eq_left h
  simp only [hcount, position, hsize, hstarts]
  rw [List.takeWhile_cons_of_pos (by simp), List.length_cons, List.getLastD_cons]
  congr 1
  exact Nat.add_comm _ _

end LineMap

/-! ## 2. Positions of a source -/

/-- A position of the source: one that counting over its first bytes comes to. -/
def Position.IsIn (source : Text) (p : Position) : Prop :=
  ∃ n, n ≤ source.length ∧ p = Position.start.advance (source.take n)

namespace Position
variable {source : Text} {p : Position}

/-- A position of the source lies where the line map finds its offset. -/
theorem isIn_iff :
    p.IsIn source ↔ p.offset ≤ source.length ∧ (LineMap.ofText source).position p.offset = p := by
  constructor
  · rintro ⟨n, hn, rfl⟩
    have hoffset : (start.advance (source.take n)).offset = n := by
      rw [advance_offset, List.length_take, Nat.min_eq_left hn]
      exact Nat.zero_add n
    rw [hoffset]
    exact ⟨hn, LineMap.position_eq_advance hn⟩
  · rintro ⟨hle, hp⟩
    exact ⟨p.offset, hle, by rw [← LineMap.position_eq_advance hle, hp]⟩

theorem isIn_start (source : Text) : start.IsIn source := ⟨0, Nat.zero_le _, rfl⟩

/-- What the line map gives for an offset of the source is a position of it. -/
theorem isIn_position {offset : Nat} (h : offset ≤ source.length) :
    ((LineMap.ofText source).position offset).IsIn source :=
  ⟨offset, h, LineMap.position_eq_advance h⟩

theorem IsIn.offset_le (h : p.IsIn source) : p.offset ≤ source.length := (isIn_iff.mp h).1

/-- Counting on over bytes of the source. -/
theorem IsIn.advance (h : p.IsIn source) {t : Text} (ht : t <+: source.drop p.offset) :
    (p.advance t).IsIn source := by
  obtain ⟨hle, _⟩ := isIn_iff.mp h
  obtain ⟨n, hn, hp⟩ := h
  have hoffset : p.offset = n := by
    rw [hp, advance_offset, List.length_take, Nat.min_eq_left hn]
    exact Nat.zero_add n
  have hlength := ht.length_le
  rw [List.length_drop] at hlength
  rw [hoffset] at ht hlength
  obtain ⟨rest, hrest⟩ := ht
  refine ⟨n + t.length, by omega, ?_⟩
  rw [List.take_add, ← hrest, List.take_left, advance_append, ← hp]

/-- Behind the first part of a text that stands in the source stands the second part. -/
theorem IsIn.pass (h : p.IsIn source) {w rest : Text} (hw : w ++ rest <+: source.drop p.offset) :
    (p.advance w).IsIn source ∧ rest <+: source.drop (p.advance w).offset := by
  refine ⟨h.advance ((List.prefix_append w rest).trans hw), ?_⟩
  obtain ⟨tail, htail⟩ := hw
  refine ⟨tail, ?_⟩
  rw [advance_offset, ← List.drop_drop, ← htail, List.append_assoc, List.drop_left]

/-! ## 3. Lines and columns -/

theorem advance_congr {p q : Position} (hline : q.line = p.line) (hcolumn : q.column = p.column)
    (t : Text) : (q.advance t).line = (p.advance t).line ∧
      (q.advance t).column = (p.advance t).column := by
  induction t generalizing p q with
  | nil => exact ⟨hline, hcolumn⟩
  | cons b t ih =>
    refine ih ?_ ?_ <;> unfold step <;> split <;> simp [hline, hcolumn]

/-- Counting from two places of one line: the lines are the same, and the columns are so as soon as
    a line has ended. -/
theorem advance_beside {p q : Position} (h : q.line = p.line) (t : Text) :
    (q.advance t).line = (p.advance t).line ∧
      (p.line < (p.advance t).line → (q.advance t).column = (p.advance t).column) := by
  induction t generalizing p q with
  | nil => exact ⟨h, fun hlt => absurd hlt (Nat.lt_irrefl _)⟩
  | cons b t ih =>
    by_cases hb : b = Byte.newline
    · obtain ⟨hline, hcolumn⟩ := advance_congr (p := p.step b) (q := q.step b)
        (by simp [step, hb, h]) (by simp [step, hb]) t
      exact ⟨hline, fun _ => hcolumn⟩
    · have hp : (p.step b).line = p.line := by simp [step, hb]
      have hq : (q.step b).line = (p.step b).line := by simp [step, hb, h]
      obtain ⟨hline, hcolumn⟩ := ih hq
      rw [hp] at hcolumn
      exact ⟨hline, hcolumn⟩

theorem line_le_advance (p : Position) (t : Text) : p.line ≤ (p.advance t).line := by
  induction t generalizing p with
  | nil => exact Nat.le_refl _
  | cons b t ih =>
    refine Nat.le_trans ?_ (ih (p.step b))
    unfold step
    split <;> simp

/-- A line feed ends the line. -/
theorem line_lt_advance (p : Position) {t : Text} (h : Byte.newline ∈ t) :
    p.line < (p.advance t).line := by
  induction t generalizing p with
  | nil => cases h
  | cons b t ih =>
    rw [advance_cons]
    rcases List.mem_cons.mp h with rfl | h
    · exact Nat.lt_of_lt_of_le (by simp [step]) (line_le_advance _ t)
    · refine Nat.lt_of_le_of_lt ?_ (ih (p.step b) h)
      unfold step
      split <;> simp

theorem column_pos_advance {p : Position} (h : 0 < p.column) (t : Text) :
    0 < (p.advance t).column := by
  induction t generalizing p with
  | nil => exact h
  | cons b t ih =>
    refine ih ?_
    unfold step
    split <;> simp

theorem IsIn.line_pos (h : p.IsIn source) : 0 < p.line := by
  obtain ⟨n, _, rfl⟩ := h
  exact line_le_advance start _

theorem IsIn.column_pos (h : p.IsIn source) : 0 < p.column := by
  obtain ⟨n, _, rfl⟩ := h
  exact column_pos_advance Nat.one_pos _

/-- A position of the source is the one that its offset comes to. -/
theorem IsIn.eq_advance (h : p.IsIn source) : p = start.advance (source.take p.offset) := by
  obtain ⟨hle, hp⟩ := isIn_iff.mp h
  rw [← LineMap.position_eq_advance hle, hp]

/-! ## 4. Where a line starts -/

/-- The offset at which the line of a position starts. -/
def lineOffset (p : Position) : Nat := p.offset + 1 - p.column

/-- Counting over a text comes to a column on the last line of the text: between the start of that
    line and the end of the text no line ends, and a line ends right before it. -/
theorem advance_lineOffset (t : Text) :
    (start.advance t).column ≤ t.length + 1 ∧
    (∀ i, (start.advance t).lineOffset ≤ i → i < t.length → t[i]? ≠ some Byte.newline) ∧
    (∀ i, i + 1 = (start.advance t).lineOffset → t[i]? = some Byte.newline) := by
  induction ht : t.length generalizing t with
  | zero =>
    obtain rfl := List.length_eq_zero_iff.mp ht
    refine ⟨Nat.le_refl 1, fun i _ hi => absurd hi (Nat.not_lt_zero i), fun i hi => ?_⟩
    cases hi
  | succ n ih =>
    obtain ⟨u, b, rfl⟩ : ∃ u b, t = u ++ [b] :=
      ⟨t.dropLast, _, (List.dropLast_concat_getLast (List.ne_nil_of_length_eq_add_one ht)).symm⟩
    have hu : u.length = n := by simpa using ht
    obtain ⟨hcolumn, hline, hbreak⟩ := ih u hu
    have hbefore {i : Nat} (hi : i < n) : (u ++ [b])[i]? = u[i]? :=
      List.getElem?_append_left (by omega)
    have hlast : (u ++ [b])[n]? = some b := by rw [← hu, List.getElem?_concat_length]
    have hoffset : (start.advance u).offset = n := by
      rw [advance_offset, hu]
      exact Nat.zero_add n
    have hpos : 0 < (start.advance u).column := column_pos_advance Nat.one_pos u
    rw [advance_append, advance_cons, advance_nil]
    generalize start.advance u = q at hcolumn hline hbreak hoffset hpos
    unfold lineOffset at hline hbreak ⊢
    unfold step
    split
    · rename_i hb
      refine ⟨Nat.le_add_left 1 _, fun i hle hi => ?_, fun i hi => ?_⟩
      · simp only at hle
        omega
      · obtain rfl : i = n := by simpa [hoffset] using hi
        rw [hlast, hb]
    · rename_i hb
      refine ⟨Nat.succ_le_succ hcolumn, fun i hle hi => ?_, fun i hi => ?_⟩
      · simp only at hle
        rcases Nat.lt_succ_iff_lt_or_eq.mp hi with hi | rfl
        · rw [hbefore hi]
          exact hline i (by omega) hi
        · rw [hlast]
          exact fun h => hb (Option.some.inj h)
      · simp only at hi
        rw [hbefore (by omega)]
        exact hbreak i (by omega)

section
variable (h : p.IsIn source)
include h

theorem IsIn.column_le : p.column ≤ p.offset + 1 := by
  have hcolumn := (advance_lineOffset (source.take p.offset)).1
  rw [← h.eq_advance, List.length_take, Nat.min_eq_left h.offset_le] at hcolumn
  exact hcolumn

theorem IsIn.lineOffset_le : p.lineOffset ≤ p.offset := by
  have hpos := h.column_pos
  unfold lineOffset
  omega

/-- No line ends between the start of a line and a position on it. -/
theorem IsIn.getElem?_ne_newline {i : Nat} (hle : p.lineOffset ≤ i) (hi : i < p.offset) :
    source[i]? ≠ some Byte.newline := by
  have hline := (advance_lineOffset (source.take p.offset)).2.1 i
  rw [← h.eq_advance, List.length_take, Nat.min_eq_left h.offset_le,
    List.getElem?_take_of_lt hi] at hline
  exact hline hle hi

/-- A line ends right before the start of another. -/
theorem IsIn.getElem?_eq_newline {i : Nat} (hi : i + 1 = p.lineOffset) :
    source[i]? = some Byte.newline := by
  have hbreak := (advance_lineOffset (source.take p.offset)).2.2 i
  have hle := h.lineOffset_le
  rw [← h.eq_advance, List.getElem?_take_of_lt (by omega)] at hbreak
  exact hbreak hi

/-- What stands between the start of a line and a position on it stands on the same line. -/
theorem IsIn.lineOffset_eq {q : Position} (hq : q.IsIn source) (hle : p.lineOffset ≤ q.offset)
    (hqp : q.offset ≤ p.offset) : q.lineOffset = p.lineOffset := by
  have hqle := hq.lineOffset_le
  rcases Nat.lt_trichotomy q.lineOffset p.lineOffset with hlt | heq | hlt
  · have hbreak := h.getElem?_eq_newline (i := p.lineOffset - 1) (by omega)
    exact absurd hbreak (hq.getElem?_ne_newline (by omega) (by omega))
  · exact heq
  · have hbreak := hq.getElem?_eq_newline (i := q.lineOffset - 1) (by omega)
    exact absurd hbreak (h.getElem?_ne_newline (by omega) (by omega))

end

end Position

end ReactiveScript
