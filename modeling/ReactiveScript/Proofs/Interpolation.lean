import ReactiveScript.Proofs.Grammar.Embedding
import ReactiveScript.Proofs.Syntax.Splitting

/-!
# Expressions in templates

An accepted source between `${` and `}` is the only expression of a template, with its tree as it
is, exactly where the scanner of nested constructs ends the interpolation at the added brace. It
knows strings, braces and templates, but no comments and no text of elements.
-/

namespace ReactiveScript

open Byte

/-! ## 1. Templates with one hole -/

namespace Template

variable {t : Text}

/-- The bytes of a hole are passed over. -/
theorem splitFrom_hole {stop n i : Nat} {p : Position} {part : Text} {quasis : List Text}
    {holes : List Hole} (hstop : i + n ≤ stop) (ht : n ≤ t.length) :
    splitFrom stop (.hole n) i p part quasis holes t =
      splitFrom stop (.hole 0) (i + n) (p.advance (t.take n)) part quasis holes (t.drop n) := by
  induction n generalizing i p t with
  | zero => rfl
  | succ n ih =>
    cases t with
    | nil => simp at ht
    | cons b rest =>
      have ht' : n ≤ rest.length := by simpa using ht
      rw [splitFrom, if_neg (by omega), ih (by omega) ht', Nat.add_assoc, Nat.add_comm 1 n]
      rfl

/-- The bytes that open a template and a hole in it. -/
def opening : Text := [backtick, dollar, openBrace]

/-- A template that starts with a hole, up to the brace behind it. -/
theorem split_hole (p : Position) {length : Nat}
    (hlength : Nesting.interpolationLength t = length)
    (hstop : length + 4 ≤ bodyEnd (opening ++ t)) :
    ∃ q, split p (opening ++ t) =
      splitFrom (bodyEnd (opening ++ t)) (.hole 0) (length + 4) q [] [[]]
        [⟨p.advance opening, t.take length⟩] (t.drop (length + 1)) := by
  have hle : bodyEnd (opening ++ t) ≤ (opening ++ t).length := by
    unfold bodyEnd
    split
    · exact Nat.sub_le _ _
    · exact Nat.le_refl _
  have hbytes : (opening ++ t).length = 3 + t.length := by
    rw [List.length_append]
    rfl
  have hmin : min (Nesting.interpolationLength t) (bodyEnd (opening ++ t) - 3) = length := by omega
  have hfirst : split p (opening ++ t) =
      splitFrom (bodyEnd (opening ++ t)) (.hole (length + 2)) 2
        ((p.advance [backtick]).step dollar) [] [[]]
        [⟨p.advance opening, t.take length⟩] (openBrace :: t) := by
    have hsplit : split p (opening ++ t) =
        splitFrom (bodyEnd (opening ++ t)) .nothing 1 (p.advance [backtick]) [] [] []
          (dollar :: openBrace :: t) := rfl
    rw [hsplit, splitFrom.eq_def]
    dsimp only
    rw [if_neg (by omega), if_neg (by decide), if_pos ⟨rfl, by omega, rfl⟩, List.drop_one,
      List.tail_cons, holeLength_eq, hmin]
    rfl
  refine ⟨((p.advance [backtick]).step dollar).advance
    ((openBrace :: t).take (length + 2)), ?_⟩
  rw [hfirst, splitFrom_hole (by omega) (by rw [List.length_cons]; omega),
    show 2 + (length + 2) = length + 4 by omega]
  rfl

/-- A template that ends with a backtick. -/
theorem bodyEnd_opening {k : Nat} (h : t[k]? = some backtick) :
    bodyEnd (opening ++ t.take (k + 1)) = k + 3 := by
  have hlt : k < t.length := (List.getElem?_eq_some_iff.mp h).1
  have hlength : (t.take (k + 1)).length = k + 1 := by
    rw [List.length_take]
    omega
  have hlast : (opening ++ t.take (k + 1)).getLast? = some backtick := by
    rw [List.getLast?_append, List.getLast?_eq_getElem?, hlength, Nat.add_sub_cancel,
      List.getElem?_take_of_lt (Nat.lt_succ_self k), h]
    rfl
  have hbytes : (opening ++ t.take (k + 1)).length = k + 4 := by
    rw [List.length_append, hlength, Nat.add_comm]
    rfl
  rw [bodyEnd, hbytes, if_pos ⟨by omega, hlast⟩]
  rfl

/-- The end of a template whose opening bytes stand before the text, and whether it is closed. -/
def endOf (t : Text) : Nat × Bool :=
  Nesting.closeFrom [.body] 1 (dollar :: openBrace :: t)

open Nesting

/-- A template with nothing around its only hole ends right behind it. -/
theorem hole_of_split {width : Nat} (h : endOf t = (width, true))
    (hquasis : (split .start ((opening ++ t).take width)).quasis = [[], []]) :
    ∃ n, closeFrom [.code 1] 0 t = (n + 1, true) ∧ width = n + 5 ∧
      t[n + 1]? = some backtick := by
  obtain ⟨hpos, hlast⟩ :=
    closeFrom_template [.body] 1 (dollar :: openBrace :: t) rfl (congrArg (·.2) h)
  rw [endOf] at h
  rw [h] at hpos hlast
  obtain ⟨stop, rfl⟩ : ∃ stop, width = stop + 1 := ⟨width - 1, by dsimp only at hpos; omega⟩
  obtain ⟨n, hhole, hle, -⟩ := synced_hole h
  obtain ⟨k, rfl⟩ : ∃ k, stop = k + 3 := ⟨stop - 3, by omega⟩
  have hlast : t[k]? = some backtick := hlast
  have hk : k < t.length := (List.getElem?_eq_some_iff.mp hlast).1
  have hlength : (t.take (k + 1)).length = k + 1 := by
    rw [List.length_take]
    omega
  have hbody := bodyEnd_opening hlast
  have hwhole : (opening ++ t.take (k + 1)).drop 1 ++ t.drop (k + 1) = dollar :: openBrace :: t :=
    congrArg (dollar :: openBrace :: ·) (List.take_append_drop _ _)
  have hdivided := divided_split .start (t := opening ++ t.take (k + 1)) (List.cons_ne_nil _ _)
    (t.drop (k + 1)) true fun _ => ⟨by rw [hbody, List.length_append, hlength, Nat.add_comm]; rfl,
      by rw [hbody, hwhole, h]⟩
  have htake : (opening ++ t).take (k + 3 + 1) = opening ++ t.take (k + 1) := rfl
  rw [hbody] at hdivided
  rw [htake] at hquasis
  generalize split .start (opening ++ t.take (k + 1)) = r at hdivided hquasis
  cases hdivided with
  | cut _ incomplete => cases incomplete
  | @closed j quasis holes laid hj =>
    obtain ⟨hrest, rfl⟩ := List.cons.inj (List.reverse_eq_iff.mp hquasis)
    obtain _ | ⟨_ | _, pair, closes⟩ := laid
    have htext : t.take (k + 1) = _ := List.tail_eq_of_cons_eq (List.tail_eq_of_cons_eq pair.text)
    rw [← htext, closeFrom_of_append [.code 1] 0 (n + 1) (t.take (k + 1)) (t.drop (k + 1)) rfl
      (by rw [List.take_append_drop, hhole]) (by omega)] at closes
    have hinner := congrArg Prod.fst closes
    have hend := List.drop_eq_nil_iff.mp hrest
    have hopening : opening.length = 3 := rfl
    rw [List.length_take, List.length_append, hlength, hopening] at hend
    simp only [List.length_nil] at hj hinner hend
    obtain rfl : k = n + 1 := by omega
    exact ⟨n, hhole, rfl, hlast⟩

end Template

/-! ## 2. The added bytes -/

open Nesting Template

/-- A source in a template of its own, the closing brace on the next line. -/
def interpolated (source : Text) : Text := txt "`$\x7b" ++ (source ++ txt "\n\x7d`")

/-- The bytes around a source in a template. -/
theorem length_interpolated (source : Text) : (interpolated source).length = source.length + 6 := by
  have hopening : (txt "`$\x7b").length = 3 := rfl
  have hending : (txt "\n\x7d`").length = 3 := rfl
  rw [interpolated, List.length_append, List.length_append, hopening, hending]
  omega

section
variable {source : Text} (h : interpolationLength (source ++ txt "\n\x7d`") = source.length + 1)
include h

/-- The added brace closes the hole. -/
theorem closeFrom_of_interpolationLength :
    closeFrom [.code 1] 0 (source ++ txt "\n\x7d`") = (source.length + 2, true) := by
  have hlength : (source ++ txt "\n\x7d`").length = source.length + 3 := by
    rw [List.length_append]
    rfl
  rcases hr : closeFrom [.code 1] 0 (source ++ txt "\n\x7d`") with ⟨n, closed⟩
  rw [interpolationLength, hr] at h
  cases closed with
  | false =>
    have hall := closeFrom_of_not_closed _ _ _ (congrArg (·.2) hr)
    rw [hr, hlength] at hall
    simp only [Bool.false_eq_true, if_false] at h hall
    omega
  | true =>
    have hpos := lt_closeFrom _ _ _ rfl (congrArg (·.2) hr)
    rw [hr] at hpos
    simp only [if_true] at h hpos
    rw [show n = source.length + 2 by omega]

/-- The template takes the whole source. -/
theorem endOf_interpolated :
    endOf (source ++ txt "\n\x7d`") = ((interpolated source).length, true) := by
  have hdrop : (source ++ txt "\n\x7d`").drop (source.length + 2) = [backtick] := by
    rw [List.drop_length_add_append]
    rfl
  rw [endOf, closeFrom_opening, closeFrom_of_interpolationLength h, if_pos rfl, hdrop,
    closeFrom.eq_def, length_interpolated]
  dsimp only
  rw [if_pos rfl, if_pos List.isEmpty_nil,
    show 3 + (source.length + 2) + 1 = source.length + 6 by omega]

/-- Its only hole holds the source and the line feed behind it. -/
theorem split_interpolated :
    split .start (interpolated source) = ⟨[[], []], [⟨⟨3, 1, 4⟩, source ++ [newline]⟩]⟩ := by
  have hlast : (source ++ txt "\n\x7d`")[source.length + 2]? = some backtick := by
    rw [List.getElem?_append_right (Nat.le_add_right _ _), Nat.add_sub_cancel_left]
    rfl
  have hall : (source ++ txt "\n\x7d`").take (source.length + 2 + 1) = source ++ txt "\n\x7d`" := by
    rw [Nat.add_assoc, List.take_length_add_append]
    rfl
  have hstop := bodyEnd_opening hlast
  rw [hall] at hstop
  have htake : (source ++ txt "\n\x7d`").take (source.length + 1) = source ++ [newline] := by
    rw [List.take_length_add_append]
    rfl
  have hwhole : opening ++ (source ++ txt "\n\x7d`") = interpolated source := rfl
  obtain ⟨q, hsplit⟩ := split_hole .start h (Nat.le_of_eq hstop.symm)
  rw [hstop, hwhole, htake] at hsplit
  rw [hsplit, splitFrom.eq_def]
  split
  · rfl
  · rw [if_pos (Nat.le_refl _)]
    rfl

end

namespace Grammar

variable {t : State} {source : Text} {e : Expr}

/-- A source between its braces. -/
def braces (source : Text) : Setting := ⟨opening, source, .brace, by decide⟩

theorem scan_opening (t : Text) :
    Lexeme.scan backtick (dollar :: openBrace :: t) =
      ⟨.template, (endOf t).1, if (endOf t).2 then [] else [(0, .openTemplate)]⟩ := rfl

/-- The reader at a template that starts with a hole. -/
theorem firstReader_opening (n : Nat) {t : Text} {width : Nat} (h : endOf t = (width, true)) :
    firstReader n (opening ++ t) =
      { cursor :=
          { rest := (opening ++ t).drop width
            pos := Position.start.advance ((opening ++ t).take width)
            lineStart := false }
        current := { kind := .template, text := (opening ++ t).take width, lineStart := true }
        nesting := 1
        depth := n } := by
  have hscan := scan_opening t
  rw [h, if_pos rfl] at hscan
  have hsolid := firstReader_of_solid n (b := backtick) (by decide) (congrArg (·.faults) hscan)
  rw [hscan] at hsolid
  exact hsolid

/-- A template that is read without a fault is closed. -/
theorem endOf_of_clean {n : Nat} {t : Text} (h : (firstReader n (opening ++ t)).reports = []) :
    (endOf t).2 = true := by
  rw [firstReader_eq] at h
  have hskip : Trivia.skip (opening ++ t) = { width := 0, breaks := false } :=
    skipFrom_of_solid (b := backtick) (by decide) 0 false _
  have hafter : (Cursor.ofText (opening ++ t)).afterGap =
      backtick :: dollar :: openBrace :: t := by
    rw [Cursor.afterGap, Cursor.ofText, hskip]
    rfl
  have hfaults := ((Cursor.next_reports_eq_nil _).mp (next_reports_of_advance h)).2 _ _ hafter
  rw [scan_opening] at hfaults
  cases hclosed : (endOf t).2 with
  | false => simp [hclosed] at hfaults
  | true => rfl

/-! ## 3. Blank sources -/

/-- What follows trivia is neither a space nor the end of a line. -/
theorem skipFrom_head (w : Trivia.Within) (n : Nat) (breaks : Bool) (t : Text) {b : UInt8}
    {rest : Text} (h : t.drop ((Trivia.skipFrom w n breaks t).width - n) = b :: rest) :
    b ≠ space ∧ b ≠ tab ∧ b ≠ newline ∧ b ≠ carriageReturn := by
  fun_induction Trivia.skipFrom w n breaks t
  all_goals grind [drop_sub_cons, Trivia.le_skipFrom_width]

/-- A blank byte that starts a token is a stray one. -/
theorem scan_blank {b : UInt8} (hb : isBlank b = true)
    (hhead : b ≠ space ∧ b ≠ tab ∧ b ≠ newline ∧ b ≠ carriageReturn)
    (rest : Text) : (Lexeme.scan b rest).faults ≠ [] := by
  have hcases : b = 0x0B ∨ b = 0x0C := by
    simp only [isBlank, space, tab, newline, carriageReturn] at hb hhead
    grind
  rcases hcases with rfl | rfl <;> exact List.cons_ne_nil _ _

set_option synthInstance.maxSize 1000 in
/-- There is no expression at the end of a source. -/
theorem cleanly_assignment_of_end {c : Context} [c.Adds] {s : State} (hdeep : s.tooDeep = false)
    (hs : s.current.kind = .eof) : Cleanly (assignment c) s fun _ _ => False := by
  have hchain : Cleanly (chain c) { s with depth := s.depth + 1 } fun _ _ => False := by
    refine .bind (.token ?_) fun _ _ => False.elim
    rw [hs]
    exact .faulty hdeep
  have hunary : Cleanly (unary c) { s with depth := s.depth + 1 } fun _ _ => False := by
    refine .token ?_
    rw [hs]
    exact .bind (r := .token fun e t => by split <;> infer_instance) hchain fun _ _ => False.elim
  refine .nested hdeep (.get (.ite (fun hsees => ?_) fun _ => .ite (fun hsees => ?_) fun _ => ?_))
  · simp [State.seesDestructuring, State.sees, hs] at hsees
  · simp [State.seesArrow, hs] at hsees
  · refine .bind (r := .token fun left t => by split <;> infer_instance) ?_ fun _ _ => False.elim
    exact .bind (.bind hunary fun _ _ => False.elim) fun _ _ => False.elim

/-- A blank source holds no expression. -/
theorem not_isBlank_of_read {n : Nat} (h : readExpressionFrom n source = some (.ok e)) :
    Text.isBlank source = false := by
  obtain ⟨rounds, t, hrun, ht, _⟩ := exists_run_of_readExpressionFrom h
  have hclean : (firstReader n source).reports = [] := Adds.reports_nil hrun ht
  have hcurrent : (firstReader n source).current = (Cursor.ofText source).next.token := by
    rw [firstReader_eq]
    exact State.advance_current _
  rcases (Cursor.ofText source).next_cases with ⟨_, hend, _⟩ | ⟨b, rest, hrest, _⟩
  · have hkind : (firstReader n source).current.kind = .eof := by rw [hcurrent, hend]
    exact (cleanly_assignment_of_end (c := (Context.ground source rounds).raised (maxDepth + 1))
      (sound_firstReader n source).tooDeep hkind hrun ht).elim
  · rw [firstReader_eq] at hclean
    have hscan := (Cursor.next_reports_eq_nil _).mp (next_reports_of_advance hclean)
    refine Bool.eq_false_iff.mpr fun hblank => ?_
    have hmem : b ∈ source := List.mem_of_mem_drop (hrest ▸ List.mem_cons_self)
    refine scan_blank (List.all_eq_true.mp hblank b hmem) ?_ rest (hscan.2 b rest hrest)
    exact skipFrom_head .space 0 false source hrest

/-! ## 4. Where the added brace is found -/

/-- The hole is read as the source is alone. -/
theorem hole_interpolated {rounds : Nat} {w : State}
    (hrun : (Context.ofSource source rounds).inner.assignment (firstReader 1 source) = .ok (e, t))
    (ht : t.reports = []) (hend : t.current.kind = .eof) (hw : w.depth = 1) :
    ∃ e', hole ((Context.ground (interpolated source) rounds).raised (maxDepth + 1))
      ⟨⟨3, 1, 4⟩, source ++ [newline]⟩ w = .ok (some e', w) ∧ e'.unplaced = e.unplaced := by
  have hpos : (⟨3, 1, 4⟩ : Position).IsIn (interpolated source) :=
    (Position.isIn_start _).advance (List.prefix_append opening _)
  have hnear : Near (braces source) ⟨1, 1, 1, Iff.rfl⟩ (firstReader 1 source)
      (holeStart (interpolated source) ⟨3, 1, 4⟩ 1) := by
    rw [holeStart_eq]
    exact near_firstReader (S := braces source)
      (w := { cursor := Cursor.place (interpolated source) ⟨3, 1, 4⟩, nesting := 1, depth := 1 })
      Nat.one_pos (Nat.le_refl 1) rfl rfl rfl (Cursor.isIn_place hpos) rfl rfl
      (Adds.reports_nil hrun ht)
  obtain ⟨e', u, hrun', hsame, hbeside⟩ :=
    reads_inside (S := braces source) (m := maxDepth + 1) hrun ht (Nat.le_refl 1) hnear (by decide)
  have hclose : AtClose (braces source) t u :=
    hbeside.place.resolve_left fun hin => hin.inText nofun hend
  have hstop : u.current.offset = 3 + (source ++ [newline]).length := by
    have hoffset : u.current.offset = 3 + source.length + 1 := hclose.offset'
    rw [hoffset, List.length_append, List.length_singleton, Nat.add_assoc]
  have hsource := ((Context.ground (interpolated source) rounds).raised_gathers
    (maxDepth + 1)).source_eq
  refine ⟨e', hole_eq_ok ?_ hbeside.tooDeep' hbeside.clean' hstop, hsame⟩
  rw [hsource, hw]
  exact hrun'

/-- So the template has two empty literal parts and one expression. -/
theorem ends_parts_interpolated {rounds : Nat} {w : State}
    (h : interpolationLength (source ++ txt "\n\x7d`") = source.length + 1)
    (hrun : (Context.ofSource source rounds).inner.assignment (firstReader 1 source) = .ok (e, t))
    (ht : t.reports = []) (hend : t.current.kind = .eof) (hblank : Text.isBlank source = false)
    (hw : w.depth = 1) {tok : Token} (hpos : tok.pos = .start)
    (htext : tok.text = interpolated source) :
    Ends (templateParts ((Context.ground (interpolated source) rounds).raised (maxDepth + 1)) tok)
      w fun r u => u = w ∧ ∃ e', r = ([⟨[], []⟩, ⟨[], []⟩], [e']) ∧ e'.unplaced = e.unplaced := by
  obtain ⟨e', hhole, hsame⟩ := hole_interpolated hrun ht hend hw
  have hblank' : Text.isBlank (source ++ [newline]) = false := by
    rw [Text.isBlank] at hblank ⊢
    rw [List.all_append, hblank, Bool.false_and]
  rw [templateParts, Template.parts, hpos, htext, split_interpolated h]
  simp only [List.mapM_cons, List.mapM_nil, Template.holeExpr, hblank', Bool.false_eq_true,
    if_false, ends_bind, ends_pure]
  refine (ends_of_eq hhole).mpr ?_
  simp only [Template.foundIn, ends_pure]
  exact ⟨trivial, e', rfl, hsame⟩

/-- **Where the added brace closes the hole, interpolation is transparent.** -/
theorem readExpression_interpolated (hroom : readExpressionFrom 1 source = some (.ok e))
    (h : interpolationLength (source ++ txt "\n\x7d`") = source.length + 1) :
    ∃ p e', readExpression (interpolated source) =
      some (.ok (.template p [⟨[], []⟩, ⟨[], []⟩] [e'])) ∧ e'.unplaced = e.unplaced := by
  obtain ⟨rounds, t, hrun, ht, hend⟩ := exists_run_of_readExpressionFrom hroom
  have hfirst (n : Nat) : firstReader n (interpolated source) =
      { cursor := ⟨[], Position.start.advance (interpolated source), false⟩
        current := { kind := .template, text := interpolated source, lineStart := true }
        nesting := 1
        depth := n } := by
    have hopening := firstReader_opening n (endOf_interpolated h)
    have hwhole : opening ++ (source ++ txt "\n\x7d`") = interpolated source := rfl
    rw [hwhole, List.take_length, List.drop_length] at hopening
    exact hopening
  have hkind (n : Nat) : (firstReader n (interpolated source)).current.kind = .template := by
    rw [hfirst]
  -- Behind the template the source ends.
  have hlast : (firstReader 1 (interpolated source)).advance.current.kind = .eof ∧
      (firstReader 1 (interpolated source)).advance.reports = [] := by
    rw [State.advance_current, State.advance_reports, hfirst]
    exact ⟨rfl, rfl⟩
  have hparts := ends_parts_interpolated h hrun ht hend (not_isBlank_of_read hroom)
    (State.advance_depth (firstReader 1 (interpolated source)))
    (congrArg (·.current.pos) (hfirst 1)) (congrArg (·.current.text) (hfirst 1))
  have hprimary :
      Ends (primary ((Context.ground (interpolated source) rounds).raised (maxDepth + 1)))
      (firstReader 1 (interpolated source)) fun a t => t.current.kind = .eof ∧ t.reports = [] ∧
        ∃ p e', a = .template p [⟨[], []⟩, ⟨[], []⟩] [e'] ∧ e'.unplaced = e.unplaced := by
    rw [primary, ends_token, hkind, ends_take, ends_bind]
    refine hparts.mono fun r v hr => ?_
    obtain ⟨rfl, e', rfl, hsame⟩ := hr
    exact ends_pure.mpr ⟨hlast.1, hlast.2, _, e', rfl, hsame⟩
  obtain ⟨a, hread, p, e', rfl, hsame⟩ :=
    readExpression_of_operand rounds (by simp [State.seesDestructuring, State.sees, hkind])
      (by simp [State.seesArrow, hkind]) (by rw [hkind]; rfl) (by rw [hkind]; rfl) hprimary
  exact ⟨p, e', hread, hsame⟩

/-! ## 5. Where the added brace is missed -/

/-- Behind a text, the bytes that close a hole are never all trivia. -/
theorem skip_ending (t : Text) (hclosed : (Trivia.skip (t ++ txt "\n\x7d`")).unclosed = none) :
    (Trivia.skip (t ++ txt "\n\x7d`")).width < t.length + 3 := by
  have htxt : txt "\n\x7d`" = [newline, closeBrace, backtick] := rfl
  have hbrace (n : Nat) :=
    skipFrom_of_solid (b := closeBrace) (by decide) n true [backtick]
  rcases Trivia.skipFrom_append (a := txt "\n\x7d`") rfl .space 0 false t rfl with
    ⟨hless, hq⟩ | ⟨_, w, hq, _⟩
  · rw [Trivia.skip, ← hq]
    omega
  · rw [Trivia.skip, ← hq, htxt, Trivia.skipFrom.eq_def] at hclosed ⊢
    cases w with
    | space =>
      dsimp only
      rw [if_neg (by decide), if_pos rfl, hbrace]
      dsimp only
      omega
    | lineComment =>
      dsimp only
      rw [if_pos rfl, hbrace]
      dsimp only
      omega
    | blockComment start =>
      -- A comment goes on to the end of the source.
      simp only [Trivia.skipFrom, if_true] at hclosed
      rw [if_neg (by decide), if_neg (by decide)] at hclosed
      cases hclosed

/-- If only trivia follows such a template, the added brace has closed its hole. -/
theorem interpolationLength_of_split {source : Text} {width : Nat}
    (h : endOf (source ++ txt "\n\x7d`") = (width, true))
    (hquasis : (split .start ((interpolated source).take width)).quasis = [[], []])
    (hrest : ((interpolated source).drop width).length ≤
      (Trivia.skip ((interpolated source).drop width)).width)
    (hclosed : (Trivia.skip ((interpolated source).drop width)).unclosed = none) :
    interpolationLength (source ++ txt "\n\x7d`") = source.length + 1 := by
  obtain ⟨n, hhole, rfl, hbyte⟩ := hole_of_split h hquasis
  have hdrop : (interpolated source).drop (n + 5) = (source ++ txt "\n\x7d`").drop (n + 2) := rfl
  rw [hdrop] at hrest hclosed
  rw [interpolationLength, hhole]
  rcases Nat.lt_or_ge (n + 1) source.length with hlt | hge
  · -- A backtick of the source: what follows ends with more than trivia.
    rw [List.drop_append_of_le_length hlt] at hrest hclosed
    have hless := skip_ending _ hclosed
    rw [List.length_append, show (txt "\n\x7d`").length = 3 from rfl] at hrest
    omega
  · -- The only backtick among the added bytes is the last of them.
    obtain ⟨k, hk⟩ := Nat.exists_eq_add_of_le hge
    rw [hk, List.getElem?_append_right (Nat.le_add_right _ _), Nat.add_sub_cancel_left] at hbyte
    have htwo : k = 2 := by
      rcases k with _ | _ | _ | k
      · cases hbyte
      · cases hbyte
      · rfl
      · cases hbyte
    simp only [if_true]
    omega

/-- The run of an operand that is a template. -/
theorem primary_of_template {c : Context} {s : State} (hs : s.current.kind = .template)
    (h : primary c s = .ok (e, t)) :
    ∃ es, e = .template s.current.pos ((split s.current.pos s.current.text).quasis.map quasi) es ∧
      templateParts c s.current s.advance =
        .ok (((split s.current.pos s.current.text).quasis.map quasi, es), t) := by
  obtain ⟨_, _, htoken, h⟩ := bind_eq_ok h
  cases htoken
  rw [hs] at h
  obtain ⟨_, _, htake, h⟩ := bind_eq_ok h
  cases htake
  obtain ⟨r, u, hparts, h⟩ := bind_eq_ok h
  cases h
  obtain ⟨es, v, hholes, hpure⟩ := bind_eq_ok hparts
  cases hpure
  exact ⟨es, rfl, hparts⟩

/-- **Where interpolation is transparent, the added brace closes the hole.** -/
theorem interpolationLength_of_read {source : Text} {p : Position} {es : List Expr}
    (hread : readExpression (interpolated source) =
      some (.ok (.template p [⟨[], []⟩, ⟨[], []⟩] es))) :
    interpolationLength (source ++ txt "\n\x7d`") = source.length + 1 := by
  rw [← readExpressionFrom_zero] at hread
  obtain ⟨rounds, t, hrun, ht, hend⟩ := exists_run_of_readExpressionFrom hread
  -- The first token is a template that is closed.
  have hclean : (firstReader 0 (interpolated source)).reports = [] := Adds.reports_nil hrun ht
  obtain ⟨width, hwidth⟩ : ∃ width, endOf (source ++ txt "\n\x7d`") = (width, true) :=
    ⟨_, Prod.ext rfl (endOf_of_clean hclean)⟩
  have hfirst (n : Nat) : firstReader n (interpolated source) = _ := firstReader_opening n hwidth
  have hkind : (firstReader 1 (interpolated source)).current.kind = .template := by rw [hfirst]
  have hrest : (firstReader 1 (interpolated source)).cursor.rest =
      (interpolated source).drop width := by
    rw [hfirst]
    rfl
  -- It is the whole expression, so only trivia follows it.
  rcases unit_of_run hrun ht rfl with harrow | ⟨u, hprimary, rfl⟩
  · rw [hfirst, State.seesArrow] at harrow
    cases harrow
  · obtain ⟨es', he, hparts⟩ := primary_of_template hkind hprimary
    have hsound := sound_firstReader 1 (interpolated source)
    obtain ⟨rfl, _⟩ :=
      cleanly_templateParts hsound.advance.tooDeep hsound.current hparts ht
    have hquasis : (split .start ((interpolated source).take width)).quasis = [[], []] := by
      have hmap := congrArg (List.map Quasi.raw) (Expr.template.inj he).2.1
      have hraw : Quasi.raw ∘ quasi = id := rfl
      rw [hfirst, List.map_map, hraw, List.map_id] at hmap
      exact hmap.symm
    have hgap : (firstReader 1 (interpolated source)).cursor.afterGap = [] := by
      refine Cursor.afterGap_of_eof ?_
      rw [← State.advance_current]
      exact hend
    have hclosed := ((Cursor.next_reports_eq_nil _).mp (next_reports_of_advance ht)).1
    rw [Cursor.afterGap, hrest, List.drop_eq_nil_iff] at hgap
    rw [hrest] at hclosed
    exact interpolationLength_of_split hwidth hquasis hgap hclosed

end Grammar

open Grammar

/-- **Interpolation.** An accepted source between `${` and `}` is the only expression of a template
    without other text, with the same tree but for its positions, exactly where the scanner of
    nested constructs ends the interpolation at the added brace. The source has to be accepted one
    level down, too: the levels that it needs do not reach the limit. -/
theorem interpolation_transparent_iff {source : Text} {e : Expr}
    (hread : readExpression source = some (.ok e))
    (hroom : ∃ e₁, readExpressionFrom 1 source = some (.ok e₁)) :
    (∃ p e', readExpression (interpolated source) =
      some (.ok (.template p [⟨[], []⟩, ⟨[], []⟩] [e'])) ∧ e'.unplaced = e.unplaced) ↔
      interpolationLength (source ++ txt "\n\x7d`") = source.length + 1 := by
  obtain ⟨e₁, hroom⟩ := hroom
  obtain ⟨e₀, hread₀, hsame⟩ := readExpression_of_room hroom
  cases hread.symm.trans hread₀
  rw [hsame]
  constructor
  · intro h
    obtain ⟨p, e', hread', _⟩ := h
    exact interpolationLength_of_read hread'
  · exact readExpression_interpolated hroom

/-- A comment with a brace in it. -/
def braceComment : Text := txt "a // \x7d"

/-- The condition can fail and can hold: an object with a string that holds a brace is interpolated,
    and a comment that holds one is not. -/
theorem sample_interpolations :
    (∃ e p e', readExpression (txt "\x7bb: '\x7d'\x7d") = some (.ok e) ∧
      readExpression (interpolated (txt "\x7bb: '\x7d'\x7d")) =
        some (.ok (.template p [⟨[], []⟩, ⟨[], []⟩] [e'])) ∧ e'.unplaced = e.unplaced) ∧
    ∃ e, readExpression braceComment = some (.ok e) ∧
      ¬ ∃ p e', readExpression (interpolated braceComment) =
        some (.ok (.template p [⟨[], []⟩, ⟨[], []⟩] [e'])) ∧ e'.unplaced = e.unplaced := by
  obtain ⟨e₁, hroom⟩ : ∃ e, readExpressionFrom 1 (txt "\x7bb: '\x7d'\x7d") = some (.ok e) :=
    exists_of_acceptsAtOnce (by decide +kernel)
  obtain ⟨e, hread, -⟩ := readExpression_of_room hroom
  obtain ⟨e₂, hroom'⟩ : ∃ e, readExpressionFrom 1 braceComment = some (.ok e) :=
    exists_of_acceptsAtOnce (by decide +kernel)
  obtain ⟨a, hcomment, -⟩ := readExpression_of_room hroom'
  obtain ⟨p, e', hread', hsame⟩ :=
    (interpolation_transparent_iff hread ⟨e₁, hroom⟩).mpr (by decide +kernel)
  refine ⟨⟨e, p, e', hread, hread', hsame⟩, a, hcomment, fun h => ?_⟩
  exact absurd ((interpolation_transparent_iff hcomment ⟨e₂, hroom'⟩).mp h) (by decide +kernel)

end ReactiveScript
