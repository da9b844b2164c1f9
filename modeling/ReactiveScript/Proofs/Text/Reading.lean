import ReactiveScript.Proofs.Text.Utf8
import ReactiveScript.Text.Entity

/-!
# Escapes and references, one after the other

`Escape.cook` and `Entity.decode` go over a text byte by byte. They carry a count of bytes that are
read already and what they have read so far. Their equations need neither: a byte that starts nothing
is kept, and behind an escape or a reference reading goes on with the rest.
-/

namespace ReactiveScript

namespace Text

/-- The first of some bytes is where none stands before. -/
theorem indexOf?_append {b : UInt8} {t : Text} (h : b ∉ t) (u : Text) :
    indexOf? b (t ++ b :: u) = some t.length := by
  rw [indexOf?, List.findIdx?_append, List.findIdx?_eq_none_iff.mpr]
  · simp [List.findIdx?_cons]
  · intro a ha
    exact beq_false_of_ne fun heq => h (heq ▸ ha)

theorem exists_append_of_indexOf? {b : UInt8} {t : Text} {n : Nat} (h : indexOf? b t = some n) :
    ∃ u v, t = u ++ b :: v ∧ u.length = n := by
  obtain ⟨hn, hb, -⟩ := List.findIdx?_eq_some_iff_getElem.mp h
  refine ⟨t.take n, t.drop (n + 1), ?_, List.length_take_of_le (Nat.le_of_lt hn)⟩
  rw [← beq_iff_eq.mp hb, ← List.drop_eq_getElem_cons hn, List.take_append_drop]

end Text

/-! ## 1. Escapes -/

namespace Escape

/-- Bytes to be skipped are dropped, and what has been read stays in front. -/
theorem cookFrom_eq (skip : Nat) (done t : Text) :
    cookFrom skip done t = done.reverse ++ cook (t.drop skip) := by
  induction t generalizing skip done with
  | nil =>
    rw [List.drop_nil, cook, cookFrom, cookFrom]
    exact (List.append_nil _).symm
  | cons b t ih =>
    cases skip with
    | succ n => exact ih n done
    | zero =>
      rw [List.drop_zero, cook, cookFrom, cookFrom]
      dsimp only
      split
      · rw [ih, ih _ ((escape t).text.reverse ++ [])]
        simp
      · rw [ih, ih _ [b]]
        simp

/-- A byte that is no backslash is kept. -/
theorem cook_cons {b : UInt8} (hb : b ≠ Byte.backslash) (t : Text) :
    cook (b :: t) = b :: cook t := by
  rw [cook, cookFrom]
  dsimp only
  rw [if_neg hb, cookFrom_eq]
  rfl

/-- A backslash starts an escape. -/
theorem cook_backslash (t : Text) :
    cook (Byte.backslash :: t) = (escape t).text ++ cook (t.drop (escape t).width) := by
  rw [cook, cookFrom]
  dsimp only
  rw [if_pos rfl, cookFrom_eq]
  simp

theorem cook_append {w : Text} (hw : Byte.backslash ∉ w) (t : Text) :
    cook (w ++ t) = w ++ cook t := by
  induction w with
  | nil => rfl
  | cons b w ih =>
    rw [List.mem_cons, not_or] at hw
    rw [List.cons_append, cook_cons (Ne.symm hw.1), ih hw.2, List.cons_append]

end Escape

/-! ## 2. References -/

namespace Entity

/-- Bytes to be skipped are dropped, and what has been read stays in front. -/
theorem decodeFrom_eq (skip : Nat) (done t : Text) :
    decodeFrom skip done t = done.reverse ++ decode (t.drop skip) := by
  induction t generalizing skip done with
  | nil =>
    rw [List.drop_nil, decode, decodeFrom, decodeFrom]
    exact (List.append_nil _).symm
  | cons b t ih =>
    cases skip with
    | succ n => exact ih n done
    | zero =>
      rw [List.drop_zero, decode, decodeFrom, decodeFrom]
      split
      · split
        · rename_i c width _
          rw [ih, ih width ((Utf8.encode c).reverse ++ [])]
          simp
        · rw [ih, ih _ [b]]
          simp
      · rw [ih, ih _ [b]]
        simp

/-- A byte that is no ampersand is kept. -/
theorem decode_cons {b : UInt8} (hb : b ≠ Byte.ampersand) (t : Text) :
    decode (b :: t) = b :: decode t := by
  rw [decode, decodeFrom]
  rw [if_neg hb, decodeFrom_eq]
  rfl

/-- A reference stands for the character that it names. -/
theorem decode_reference {t : Text} {c width : Nat} (h : reference? t = some (c, width)) :
    decode (Byte.ampersand :: t) = Utf8.encode c ++ decode (t.drop width) := by
  rw [decode, decodeFrom]
  rw [if_pos rfl, h]
  dsimp only
  rw [decodeFrom_eq]
  simp

/-- A text with a byte is one with a byte when it is decoded. -/
theorem decode_ne_nil {t : Text} (h : t ≠ []) : decode t ≠ [] := by
  obtain ⟨b, rest, rfl⟩ := List.exists_cons_of_ne_nil h
  rw [decode, decodeFrom]
  simp only [decodeFrom_eq]
  split
  · split
    · simp [Utf8.encode_ne_nil]
    · simp
  · simp

/-- **A reference is what stands before the first semicolon**, if that is near enough. -/
theorem reference?_append {name : Text} (hname : Byte.semicolon ∉ name)
    (hwidth : name.length < maxWidth) (t : Text) :
    reference? (name ++ Byte.semicolon :: t) = (lookup? name).map (·, name.length + 1) := by
  have htake : (name ++ Byte.semicolon :: t).take maxWidth =
      name ++ Byte.semicolon :: t.take (maxWidth - name.length - 1) := by
    obtain ⟨n, hn⟩ := Nat.exists_eq_add_of_lt hwidth
    rw [List.take_append, List.take_of_length_le (Nat.le_of_lt hwidth), hn]
    have hrest : name.length + n + 1 - name.length = n + 1 := by omega
    rw [hrest, List.take_succ_cons, Nat.add_sub_cancel]
  rw [reference?, htake, Text.indexOf?_append hname]
  dsimp only
  rw [List.take_left]

end Entity

end ReactiveScript
