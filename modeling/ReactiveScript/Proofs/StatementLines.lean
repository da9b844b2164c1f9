import ReactiveScript.Proofs.Grammar.Laying

/-!
# The lines of statements

A program that is accepted is laid out by lines. Its tokens are read one after the other up to the
end of the source, and each of its statements starts with the first token of a line, all in one
column. The same holds of the statements of every indented block, wherever it lies in the program,
in text between tags and in the holes of templates too; in a block in braces the first statement may
stand behind other tokens of its line.
-/

namespace ReactiveScript

open Grammar

/-- **Statements start lines**, in accepted programs and in all of their blocks. The lines of a
    program are those of the tokens on which the run that gives it ends. -/
theorem statements_start_lines {source : Text} {p : Program}
    (h : readProgram source = some (.ok p)) :
    (∃ rounds t ts, program (Context.ofSource source rounds) (State.ofText source) = .ok (p, t) ∧
      t.Stands source (Cursor.ofText source) ts ∧ t.current.kind = .eof ∧
      Aligned (Cursor.ofText source) (t.current :: ts) p.body) ∧
    ∀ q block body, Within (.program p) q → q.block? = some (block, body) →
      LaidOut source block body := by
  obtain ⟨rounds, t, -, hrun, hclean⟩ := exists_run_of_accepted h
  have hlevels : levels ≤ (State.ofText source).depth + (levels + 1) := by omega
  have hprogram := lays_program (c := Context.ofSource source rounds) .whole
    (State.stands_start source (Cursor.ofText source)) (State.fit_ofText source) hlevels
  obtain ⟨hblocks, ts, hstands, hend, haligned⟩ := hprogram hrun hclean
  exact ⟨⟨rounds, t, ts, hrun, hstands, hend, haligned⟩,
    fun q block body hq => hblocks q hq block body⟩

/-- A block in braces that starts behind other tokens, and an indented one. -/
def twoBlocks : Text := txt "f = () => \x7b a = 1\n  b = 2\n\x7d\n@effect:\n  f(1)\n  f(2)\n"

/-- The block in braces comes first. -/
def holdsTwoBlocks (p : Program) : Bool :=
  match p.body with
  | [.expression _ _ (.declare _ _ (.arrowBlock _ _ braces [_, _])),
      .modifierBlock _ _ indented [_, _]] =>
    decide (twoBlocks[braces.offset]? = some Byte.openBrace) &&
      decide (twoBlocks[indented.offset]? ≠ some Byte.openBrace)
  | _ => false

theorem twoBlocks_laidOut : ∃ p, readProgram twoBlocks = some (.ok p) ∧
    (∃ rounds t ts, program (Context.ofSource twoBlocks rounds)
        (State.ofText twoBlocks) = .ok (p, t) ∧
      t.Stands twoBlocks (Cursor.ofText twoBlocks) ts ∧ t.current.kind = .eof ∧
      Aligned (Cursor.ofText twoBlocks) (t.current :: ts) p.body) ∧
    (∃ q block a b, Within (.program p) q ∧ q.block? = some (block, [a, b]) ∧
      twoBlocks[block.offset]? = some Byte.openBrace ∧ LaidOut twoBlocks block [a, b]) ∧
    ∃ q block a b, Within (.program p) q ∧ q.block? = some (block, [a, b]) ∧
      twoBlocks[block.offset]? ≠ some Byte.openBrace ∧ LaidOut twoBlocks block [a, b] := by
  obtain ⟨p, hread, htest⟩ : ∃ p, readProgram twoBlocks = some (.ok p) ∧
      holdsTwoBlocks p = true := exists_of_givesAtOnce (by decide +kernel)
  obtain ⟨hbody, hblocks⟩ := statements_start_lines hread
  refine ⟨p, hread, hbody, ?_⟩
  unfold holdsTwoBlocks at htest
  split at htest
  · rename_i heq
    obtain ⟨hopen, hindented⟩ := Bool.and_eq_true_iff.mp htest
    have hstmt {s : Stmt} (hs : s ∈ p.body) : Within (.program p) (.stmt s) :=
      .step (List.mem_map_of_mem hs) (.refl _)
    have hmodifier := hstmt (heq ▸ List.mem_cons_of_mem _ List.mem_cons_self)
    have hexpr := (hstmt (heq ▸ List.mem_cons_self)).part List.mem_cons_self
    have hfunction := hexpr.part (List.mem_cons_of_mem _ List.mem_cons_self)
    exact ⟨⟨_, _, _, _, hfunction, rfl, of_decide_eq_true hopen, hblocks _ _ _ hfunction rfl⟩,
      _, _, _, _, hmodifier, rfl, of_decide_eq_true hindented, hblocks _ _ _ hmodifier rfl⟩
  · cases htest

end ReactiveScript
