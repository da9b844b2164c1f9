import Mathlib.Data.Prod.Lex
import Mathlib.Order.Interval.Set.Defs
import Mathlib.Order.Monotone.Defs
import ReactiveScript.Proofs.Source.Lines
import ReactiveScript.Source.Span

/-!
# What the line map finds

The line map looks an offset up in a table of the offsets at which lines start. What it finds is what
a count over the source comes to: the line feeds before the offset, and the bytes since the last of
them.
-/

namespace ReactiveScript

open LineMap

/-! ## 1. The table -/

namespace LineMap

theorem starts_ofText (t : Text) : (ofText t).starts = 0 :: startsIn 0 t := startsFrom_eq [0] 0 t

theorem pairwise_startsIn (offset : Nat) (t : Text) : (startsIn offset t).Pairwise (· < ·) := by
  induction t generalizing offset with
  | nil => exact .nil
  | cons b t ih =>
    rw [startsIn]
    split
    · exact .cons (fun n hn => (bounds_of_mem_startsIn hn).1) (ih (offset + 1))
    · exact ih (offset + 1)

/-- **The table ascends.** -/
theorem pairwise_starts (t : Text) : (ofText t).starts.Pairwise (· < ·) := by
  rw [starts_ofText]
  exact .cons (fun n hn => (bounds_of_mem_startsIn hn).1) (pairwise_startsIn 0 t)

/-- In an ascending table, all entries from the first large one on are large. -/
theorem lt_of_mem_dropWhile {starts : List Nat} (h : starts.Pairwise (· < ·)) {place n : Nat}
    (hn : n ∈ starts.dropWhile (· ≤ place)) : place < n := by
  induction h with
  | nil => cases hn
  | @cons first rest hfirst _ ih =>
    rw [List.dropWhile_cons] at hn
    split at hn
    · exact ih hn
    · rename_i hlarge
      have hplace : place < first := by simpa using hlarge
      rcases List.mem_cons.mp hn with rfl | hn
      · exact hplace
      · exact Nat.lt_trans hplace (hfirst n hn)

section
variable (t : Text) (offset : Nat)

/-- The lines up to the one that is found. -/
theorem take_line : (ofText t).starts.take ((ofText t).position offset).line =
    (ofText t).starts.takeWhile (· ≤ min offset t.length) :=
  (List.prefix_iff_eq_take.mp (List.takeWhile_prefix _)).symm

/-- The lines behind it. -/
theorem drop_line : (ofText t).starts.drop ((ofText t).position offset).line =
    (ofText t).starts.dropWhile (· ≤ min offset t.length) := by
  refine (List.append_right_inj ((ofText t).starts.takeWhile (· ≤ min offset t.length))).mp ?_
  rw [List.takeWhile_append_dropWhile, ← take_line, List.take_append_drop]

theorem le_of_mem_take_line {n : Nat}
    (hn : n ∈ (ofText t).starts.take ((ofText t).position offset).line) : n ≤ min offset t.length := by
  rw [take_line] at hn
  simpa using List.all_eq_true.mp List.all_takeWhile n hn

/-- **The line is where the offset splits the table**: the lines up to it start at or before the
    offset, and those behind it start later. -/
theorem starts_split :
    (∀ n ∈ (ofText t).starts.take ((ofText t).position offset).line, n ≤ min offset t.length) ∧
      ∀ n ∈ (ofText t).starts.drop ((ofText t).position offset).line, min offset t.length < n := by
  refine ⟨fun n hn => le_of_mem_take_line t offset hn, fun n hn => ?_⟩
  rw [drop_line] at hn
  exact lt_of_mem_dropWhile (pairwise_starts t) hn

/-- The offset that has a line and column. -/
def offsetAt (m : LineMap) (line column : Nat) : Nat := m.starts.getD (line - 1) 0 + (column - 1)

/-- **The way back** from line and column to the offset. -/
theorem offsetAt_position : (ofText t).offsetAt ((ofText t).position offset).line
    ((ofText t).position offset).column = min offset t.length := by
  obtain ⟨last, hlast⟩ : ∃ last, ((ofText t).starts.take ((ofText t).position offset).line).getLast? =
      some last := by
    rw [take_line, starts_ofText, List.takeWhile_cons_of_pos (by simp)]
    exact ⟨_, List.getLast?_cons⟩
  have hle : last ≤ min offset t.length :=
    le_of_mem_take_line t offset (List.mem_of_getLast? hlast)
  have hcolumn : ((ofText t).position offset).column = min offset t.length - last + 1 := by
    show min offset t.length - ((ofText t).starts.takeWhile (· ≤ min offset t.length)).getLastD 0 + 1 = _
    rw [← take_line, List.getLastD_eq_getLast?, hlast]
    rfl
  have hstart : (ofText t).starts.getD (((ofText t).position offset).line - 1) 0 = last := by
    have hlength : ((ofText t).starts.take ((ofText t).position offset).line).length =
        ((ofText t).position offset).line := by
      rw [take_line]
      rfl
    rw [List.getLast?_eq_getElem?, hlength, List.getElem?_take] at hlast
    split at hlast
    · rw [List.getD_eq_getElem?_getD, hlast]
      rfl
    · cases hlast
  rw [offsetAt, hstart, hcolumn]
  omega

end

end LineMap

/-! ## 2. Counting -/

namespace Position

/-- Each line feed is one line more. -/
theorem advance_line (p : Position) (t : Text) :
    (p.advance t).line = p.line + t.count Byte.newline := by
  induction t generalizing p with
  | nil => rfl
  | cons b t ih =>
    rw [advance_cons, ih, step, List.count_cons]
    by_cases hb : b = Byte.newline
    · simp [hb]
      omega
    · simp [hb]

/-- Line and column, the line first. -/
def place (p : Position) : Nat ×ₗ Nat := toLex (p.line, p.column)

theorem place_lt_step (p : Position) (b : UInt8) : p.place < (p.step b).place := by
  unfold place step
  rw [Prod.Lex.toLex_lt_toLex]
  split
  · exact .inl (Nat.lt_succ_self _)
  · exact .inr ⟨rfl, Nat.lt_succ_self _⟩

/-- **Who goes on in the source comes to a later place.** -/
theorem place_lt_advance (p : Position) {t : Text} (ht : t ≠ []) : p.place < (p.advance t).place := by
  induction t generalizing p with
  | nil => exact absurd rfl ht
  | cons b t ih =>
    rw [advance_cons]
    cases t with
    | nil => exact place_lt_step p b
    | cons c t => exact (place_lt_step p b).trans (ih (p.step b) (List.cons_ne_nil c t))

end Position

/-! ## 3. All offsets of a source -/

/-- The line of an offset starts here: right behind the last line feed before the offset, or at the
    start of the source if there is none. -/
structure LineMap.IsStart (source : Text) (offset start : Nat) : Prop where
  start_le : start ≤ offset
  behind : start = 0 ∨ source[start - 1]? = some Byte.newline
  clear : ∀ i, start ≤ i → i < offset → source[i]? ≠ some Byte.newline

namespace Position
variable {source : Text} {p : Position} (h : p.IsIn source)
include h

theorem IsIn.isStart : IsStart source p.offset p.lineOffset where
  start_le := h.lineOffset_le
  behind := by
    rcases Nat.eq_zero_or_pos p.lineOffset with hzero | hpos
    · exact .inl hzero
    · exact .inr (h.getElem?_eq_newline (by omega))
  clear _ hle hi := h.getElem?_ne_newline hle hi

theorem IsIn.column_eq : p.column = 1 + (p.offset - p.lineOffset) := by
  have hle := h.column_le
  have hpos := h.column_pos
  unfold lineOffset
  omega

theorem IsIn.line_eq : p.line = 1 + (source.take p.offset).count Byte.newline := by
  have hline := advance_line start (source.take p.offset)
  rw [← h.eq_advance] at hline
  exact hline

end Position

/-- An offset past the end has the line and column of the end. -/
theorem LineMap.position_eq_min (source : Text) (offset : Nat) : (ofText source).position offset =
    ⟨offset, ((ofText source).position (min offset source.length)).line,
      ((ofText source).position (min offset source.length)).column⟩ := by
  have hmin : min (min offset source.length) (ofText source).size = min offset source.length :=
    Nat.min_eq_left (Nat.min_le_right offset source.length)
  unfold position
  rw [hmin]
  rfl

/-- A later offset of the source has a later line and column. -/
theorem LineMap.place_position_lt {source : Text} {m n : Nat} (hmn : m < n) (hn : n ≤ source.length) :
    ((ofText source).position m).place < ((ofText source).position n).place := by
  have hsplit : source.take n = source.take m ++ (source.drop m).take (n - m) := by
    rw [← List.take_add, Nat.add_sub_cancel' (Nat.le_of_lt hmn)]
  have hne : (source.drop m).take (n - m) ≠ [] := by
    rw [Ne, List.take_eq_nil_iff, List.drop_eq_nil_iff]
    omega
  rw [position_eq_advance hn, position_eq_advance (Nat.le_trans (Nat.le_of_lt hmn) hn), hsplit,
    Position.advance_append]
  exact Position.place_lt_advance _ hne

/-- What is found, as numbers: with `p` the offset, or the end of the source if that comes first, the
    line is one more than the line feeds before `p`, and the column one more than the bytes from the
    start of the line of `p`. -/
theorem LineMap.position_counts (source : Text) (offset : Nat) :
    ∃ start, IsStart source (min offset source.length) start ∧
      (ofText source).position offset =
        ⟨offset, 1 + (source.take (min offset source.length)).count Byte.newline,
          1 + (min offset source.length - start)⟩ := by
  have hin := Position.isIn_position (Nat.min_le_right offset source.length)
  refine ⟨_, hin.isStart, ?_⟩
  rw [position_eq_min, hin.line_eq, hin.column_eq]
  rfl

/-! ## 4. Words -/

/-- A source with as many bytes as a word can count, and with a single line or nothing but line
    feeds. -/
def Text.OverflowsWords (source : Text) : Prop :=
  source.length + 1 = Span.wordCount ∧
    (Byte.newline ∉ source ∨ ∀ b ∈ source, b = Byte.newline)

namespace LineMap
variable {source : Text} {offset : Nat}

/-- **Where words hold what is found**: everywhere but at the end of a source that is too long for
    one number, of its lines or of its columns. -/
theorem words_position_iff (hsize : source.length < Span.wordCount)
    (hoffset : offset < Span.wordCount) :
    ((ofText source).position offset).words = (ofText source).position offset ↔
      ¬ (source.OverflowsWords ∧ source.length ≤ offset) := by
  obtain ⟨start, hstart, hposition⟩ := position_counts source offset
  have hplace := Nat.min_le_right offset source.length
  have hfeeds : (source.take (min offset source.length)).count Byte.newline ≤
      min offset source.length :=
    List.count_le_length.trans (List.length_take_le _ _)
  rw [hposition, Position.words, Position.mk.injEq]
  dsimp only
  constructor
  · rintro ⟨-, hline, hcolumn⟩ ⟨⟨hlength, hsource⟩, hend⟩
    have hlt : 0 < Span.wordCount := by omega
    have hline := hline ▸ Nat.mod_lt _ hlt
    have hcolumn := hcolumn ▸ Nat.mod_lt _ hlt
    rw [Nat.min_eq_right hend] at hline hcolumn hstart
    rcases hsource with hnone | hall
    · rcases hstart.behind with rfl | hbreak
      · omega
      · exact hnone (List.mem_of_getElem? hbreak)
    · rw [List.take_length, List.count_eq_length.mpr fun b hb => (hall b hb).symm] at hline
      omega
  · intro hnot
    refine ⟨Nat.mod_eq_of_lt hoffset, Nat.mod_eq_of_lt ?_, Nat.mod_eq_of_lt ?_⟩
    · refine Nat.lt_of_not_le fun hline => hnot ⟨⟨by omega, .inr fun b hb => ?_⟩, by omega⟩
      have hend : source.length ≤ offset := by omega
      rw [Nat.min_eq_right hend, List.take_length] at hline hfeeds
      exact (List.count_eq_length.mp (show _ = source.length by omega) b hb).symm
    · refine Nat.lt_of_not_le fun hcolumn => hnot ⟨⟨by omega, .inl fun hmem => ?_⟩, by omega⟩
      obtain ⟨i, hi, hbyte⟩ := List.getElem_of_mem hmem
      exact hstart.clear i (by omega) (by omega) (hbyte ▸ List.getElem?_eq_getElem hi)

/-- **Later offsets have later places, in words**, unless the source is too long for them. -/
theorem strictMonoOn_words (hsize : source.length < Span.wordCount) (hnot : ¬ source.OverflowsWords) :
    StrictMonoOn (fun offset => ((ofText source).position offset).words.place)
      (Set.Iic source.length) := by
  intro m hm n hn hmn
  have hwords {k : Nat} (hk : k ≤ source.length) :=
    (words_position_iff hsize (Nat.lt_of_le_of_lt hk hsize)).mpr fun h => hnot h.1
  dsimp only
  rw [hwords (Set.mem_Iic.mp hm), hwords (Set.mem_Iic.mp hn)]
  exact place_position_lt hmn (Set.mem_Iic.mp hn)

/-- The table is kept in words, too. -/
theorem starts_lt (hsize : source.length < Span.wordCount) :
    ∀ n ∈ (ofText source).starts, n < Span.wordCount := by
  intro n hn
  rw [starts_ofText] at hn
  rcases List.mem_cons.mp hn with rfl | hn
  · omega
  · have := bounds_of_mem_startsIn hn
    omega

end LineMap

/-- **The line map counts lines and columns, in words of 32 bits.** With `p` the offset, or the end of
    the source if that comes first: the line that is found is one more than the line feeds before `p`,
    and the column is one more than the bytes from the start of the line of `p`. The table that is
    searched ascends in words, and the line is where `p` splits it. The words are the numbers, later
    offsets have later places, line before column, and the offset can be told from its place, with
    one exception: at the end of a source of as many bytes as a word can count, the column of a single
    line and the line behind nothing but line feeds are zero. -/
theorem position_counts_lines (source : Text) (hsize : source.length < Span.wordCount) :
    (∀ offset, offset < Span.wordCount →
      (∃ start, IsStart source (min offset source.length) start ∧
        ((ofText source).position offset).words =
          ⟨offset,
            (1 + (source.take (min offset source.length)).count Byte.newline) % Span.wordCount,
            (1 + (min offset source.length - start)) % Span.wordCount⟩) ∧
      (((ofText source).position offset).words = (ofText source).position offset ↔
        ¬ (source.OverflowsWords ∧ source.length ≤ offset))) ∧
    (ofText source).starts.Pairwise (· < ·) ∧
    (∀ n ∈ (ofText source).starts, n < Span.wordCount) ∧
    (∀ offset,
      (∀ n ∈ (ofText source).starts.take ((ofText source).position offset).line,
        n ≤ min offset source.length) ∧
      ∀ n ∈ (ofText source).starts.drop ((ofText source).position offset).line,
        min offset source.length < n) ∧
    (∀ offset, (ofText source).offsetAt ((ofText source).position offset).line
      ((ofText source).position offset).column = min offset source.length) ∧
    (¬ source.OverflowsWords →
      StrictMonoOn (fun offset => ((ofText source).position offset).words.place)
        (Set.Iic source.length)) := by
  refine ⟨fun offset hoffset => ⟨?_, words_position_iff hsize hoffset⟩,
    pairwise_starts source, starts_lt hsize, starts_split source,
    offsetAt_position source, strictMonoOn_words hsize⟩
  obtain ⟨start, hstart, hposition⟩ := position_counts source offset
  refine ⟨start, hstart, ?_⟩
  rw [hposition, Position.words, Nat.mod_eq_of_lt hoffset]

/-- Empty lines at both ends, and an offset past the end; and a single line that is too long. -/
theorem position_counts_lines_of_blank_ends :
    ((txt "\n\nab\n").length < Span.wordCount ∧
      ((ofText (txt "\n\nab\n")).position 9).words = ⟨9, 4, 1⟩ ∧
      (ofText (txt "\n\nab\n")).position 4 = ⟨4, 3, 3⟩ ∧
      (ofText (txt "\n\nab\n")).offsetAt 3 3 = 4 ∧
      ((ofText (txt "\n\nab\n")).position 4).words.place <
        ((ofText (txt "\n\nab\n")).position 5).words.place) ∧
    ∃ source : Text, source.length < Span.wordCount ∧
      ((ofText source).position source.length).words.column = 0 := by
  constructor
  · have hsize : (txt "\n\nab\n").length < Span.wordCount := by decide +kernel
    obtain ⟨hplaces, -, -, -, hback, hlater⟩ := position_counts_lines (txt "\n\nab\n") hsize
    have hshort : ¬ (txt "\n\nab\n").OverflowsWords := fun h => by
      have hlength : (txt "\n\nab\n").length + 1 ≠ Span.wordCount := by decide +kernel
      exact hlength h.1
    refine ⟨hsize, ?_, by decide +kernel, hback 4, ?_⟩
    · rw [(hplaces 9 (by decide +kernel)).2.mpr fun h => hshort h.1]
      decide +kernel
    · exact hlater hshort (Set.mem_Iic.mpr (by decide +kernel)) (Set.mem_Iic.mpr (by decide +kernel))
        (by decide)
  · obtain ⟨n, hn⟩ : ∃ n, 1 + n = Span.wordCount := ⟨2 ^ 32 - 1, by decide⟩
    have hsize : (List.replicate n Byte.dot).length < Span.wordCount := by simp; omega
    obtain ⟨start, ⟨-, hbehind, -⟩, hwords⟩ := ((position_counts_lines _ hsize).1 _ hsize).1
    obtain rfl : start = 0 := hbehind.resolve_right fun h => by
      have hne : Byte.newline ≠ Byte.dot := by decide
      exact hne (List.eq_of_mem_replicate (List.mem_of_getElem? h))
    exact ⟨_, hsize, by rw [hwords]; simp [hn]⟩

end ReactiveScript
