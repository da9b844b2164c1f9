import ReactiveScript.Proofs.Script.Woven

/-!
# Effects in assignments to slices

A call, an update or an assignment in a tree has an effect when the script is run, so it matters how
often it is written. Everything is written at least once. It is written more than once exactly if it
lies in the object of an assignment to a slice without an end, or in a start that is subtracted; and
as often again for every such assignment further up.
-/

namespace ReactiveScript

open Script

/-! ## 1. Effects that are there, and effects that are written -/

/-- Does running this expression by itself have an effect? -/
def Expr.isEffect : Expr → Bool
  | .call _ _ _ _ | .update _ _ _ _ | .assign _ _ _ _ => true
  | _ => false

namespace Piece

variable {r q t : Piece} {e : Expr} {f g : Piece → List Expr} {qs : List Piece}

/-- The effect of a piece itself. -/
def effect : Piece → List Expr
  | .expr e => if e.isEffect then [e] else []
  | .program _ | .stmt _ => []

/-- The effects in a piece. -/
def effects (q : Piece) : List Expr := q.effect ++ q.parts.attach.flatMap fun r => effects r.1
termination_by sizeOf q
decreasing_by exact sizeOf_lt_of_mem_parts r.2

theorem effects_eq (q : Piece) : q.effects = q.effect ++ q.parts.flatMap effects := by
  rw [effects, List.flatMap_subtype (g := effects) (fun _ _ => rfl), List.unattach_attach]

/-- The effect that is written with a piece and is in none of the pieces below it: its own, or that
    of an assignment whose sides are written apart. -/
def effectAlong : Piece → List Expr
  | .stmt (.expression _ _ e) | .stmt (.exportDeclaration _ _ _ e) =>
    if (sides? e).isSome then Piece.effect (.expr e) else []
  | q => q.effect

theorem mem_ofExprs {es : List Expr} : r ∈ ofExprs es ↔ ∃ e ∈ es, .expr e = r :=
  List.mem_map

/-- The sides of a binding are the parts of its expression. -/
theorem parts_of_sides? {target value : Expr} (h : sides? e = some (target, value)) :
    e.parts = ofExprs [target, value] := (value?_of_sides? .start none h).2

/-- A piece that is written with an expression statement lies in its expression. -/
theorem within_of_mem_once_expression {p : Position} {m : Option Text}
    (h : r ∈ (Piece.stmt (.expression p m e)).once) : Within (.expr e) r := by
  simp only [once] at h
  split at h
  · rename_i target value hsides
    rw [← parts_of_sides? hsides] at h
    exact .step h (.refl r)
  · obtain rfl : r = .expr e := List.mem_singleton.mp h
    exact .refl _

/-- A piece that is written with another lies below it. -/
theorem exists_part_of_mem_once (h : r ∈ q.once) : ∃ t ∈ q.parts, Within t r := by
  unfold once at h
  split at h
  · rename_i p tag body quasis es
    rcases List.mem_cons.mp h with rfl | h
    · exact ⟨_, List.mem_cons_self, .refl _⟩
    · exact ⟨.expr (.template body quasis es), by simp [parts, Expr.parts, ofExprs], .step h (.refl _)⟩
  · rename_i p object start stop value
    obtain ⟨e, he, rfl⟩ := mem_ofExprs.mp h
    by_cases hvalue : e = value
    · exact ⟨.expr value, by simp [parts, Expr.parts, ofExprs], hvalue ▸ .refl _⟩
    · have hslice : Piece.expr e ∈ (Piece.expr (.slice p object start stop)).parts := by
        refine mem_ofExprs.mpr ⟨e, ?_, rfl⟩
        cases hfold : foldable start stop <;> simp [hfold, hvalue] at he ⊢ <;> grind
      exact ⟨.expr (.slice p object start stop), List.mem_cons_self, .step hslice (.refl _)⟩
  · rename_i p m e
    exact ⟨.expr e, List.mem_cons_self, within_of_mem_once_expression (p := p) (m := m) h⟩
  · rename_i p q m e
    refine ⟨.stmt (.expression q m e), List.mem_cons_self, .step List.mem_cons_self ?_⟩
    exact within_of_mem_once_expression (p := q) (m := m) h
  · cases h
  · cases h
  · exact ⟨r, h, .refl r⟩

theorem mem_once_of_mem_again (h : r ∈ q.again) : r ∈ q.once := by
  unfold again at h
  split at h
  · rename_i p object start stop value
    obtain ⟨e, he, rfl⟩ := mem_ofExprs.mp h
    refine mem_ofExprs.mpr ⟨e, ?_, rfl⟩
    cases hfold : foldable start stop <;> simp [hfold] at he ⊢ <;> grind
  · cases h

theorem sizeOf_lt_of_mem_once (h : r ∈ q.once) : sizeOf r < sizeOf q := by
  obtain ⟨t, ht, hr⟩ := exists_part_of_mem_once h
  exact Nat.lt_of_le_of_lt hr.sizeOf_le (sizeOf_lt_of_mem_parts ht)

theorem sizeOf_lt_of_mem_again (h : r ∈ q.again) : sizeOf r < sizeOf q :=
  sizeOf_lt_of_mem_once (mem_once_of_mem_again h)

/-- The effects in the script of a piece, as often as they are written. -/
def effectsWritten (q : Piece) : List Expr :=
  q.effectAlong ++ (q.once.attach.flatMap fun r => effectsWritten r.1) ++
    q.again.attach.flatMap fun r => effectsWritten r.1
termination_by sizeOf q
decreasing_by
  · exact sizeOf_lt_of_mem_once r.2
  · exact sizeOf_lt_of_mem_again r.2

theorem effectsWritten_eq (q : Piece) :
    q.effectsWritten =
      q.effectAlong ++ q.once.flatMap effectsWritten ++ q.again.flatMap effectsWritten := by
  rw [effectsWritten, List.flatMap_subtype (g := effectsWritten) (fun _ _ => rfl),
    List.unattach_attach, List.flatMap_subtype (g := effectsWritten) (fun _ _ => rfl),
    List.unattach_attach]

/-- The effects of an expression statement are those of its expression. -/
theorem effects_expression (p : Position) (m : Option Text) (e : Expr) :
    (Piece.stmt (.expression p m e)).effects = (Piece.expr e).effects := by
  rw [effects_eq]
  simp [effect, parts, Stmt.parts, ofExprs]

theorem effects_along_expression (p : Position) (m : Option Text) (e : Expr) :
    (Piece.expr e).effects = (Piece.stmt (.expression p m e)).effectAlong ++
      (Piece.stmt (.expression p m e)).once.flatMap effects := by
  simp only [effectAlong, once]
  cases hsides : sides? e with
  | none => simp [ofExprs]
  | some sides =>
    obtain ⟨target, value⟩ := sides
    rw [effects_eq, parts, parts_of_sides? hsides]
    rfl

theorem effects_eq_nil_of_leaf (heffect : q.effect = []) (hparts : q.parts = []) :
    q.effects = [] := by
  rw [effects_eq, heffect, hparts]
  rfl

/-- There is nothing to collect in an end that is a number. -/
theorem flatMap_foldable (hf : ∀ p n, f (.expr (.number p n)) = []) (start stop : Option Expr) :
    (ofExprs (if foldable start stop then [] else stop.toList)).flatMap f =
      (ofExprs stop.toList).flatMap f := by
  split
  · rename_i hfold
    unfold foldable at hfold
    split at hfold
    · simp [ofExprs, hf]
    · cases hfold
  · rfl

/-- There are no effects in an import. -/
theorem effects_import {s : Stmt} {source : Expr} (hsource : source.isString = true)
    (hparts : s.parts = ofExprs [source]) : (Piece.stmt s).effects = [] := by
  have hleaf : (Piece.expr source).effects = [] := by
    cases source with
    | string => exact effects_eq_nil_of_leaf rfl rfl
    | _ => cases hsource
  rw [effects_eq, parts, hparts]
  simp [effect, ofExprs, hleaf]

/-- **The effects in a piece are those along with it and those in the pieces that are written.** -/
theorem effects_eq_once (hwf : WellFormed.piece q = true) :
    q.effects = q.effectAlong ++ q.once.flatMap effects := by
  unfold once
  split
  · rename_i p tag body quasis es
    have htemplate : (Piece.expr (.template body quasis es)).effects = (ofExprs es).flatMap effects := by
      rw [effects_eq]
      rfl
    rw [effects_eq]
    simp [effect, effectAlong, parts, Expr.parts, ofExprs, Expr.isEffect, htemplate]
  · rename_i p object start stop value
    have hslice : (Piece.expr (.slice p object start stop)).effects =
        (ofExprs (object :: (start.toList ++ stop.toList))).flatMap effects := by
      rw [effects_eq]
      rfl
    have hstop := flatMap_foldable (fun _ _ => effects_eq_nil_of_leaf rfl rfl) start stop
    rw [effects_eq]
    simp only [ofExprs, List.map_cons, List.map_append, List.flatMap_cons, List.flatMap_append]
      at hslice hstop
    simp [effect, effectAlong, parts, Expr.parts, ofExprs, Expr.isEffect, hslice, hstop]
  · rename_i p m e
    rw [effects_expression]
    exact effects_along_expression p m e
  · rename_i p q m e
    have hstmt : (Piece.stmt (.exportDeclaration p q m e)).effects = (Piece.expr e).effects := by
      rw [effects_eq]
      simp [effect, parts, Stmt.parts, ofStmts, effects_expression]
    rw [hstmt]
    exact effects_along_expression q m e
  · rw [WellFormed.piece, WellFormed.stmt, Bool.and_eq_true] at hwf
    exact effects_import hwf.1 rfl
  · rw [WellFormed.piece, WellFormed.stmt, Bool.and_eq_true] at hwf
    exact effects_import hwf.1 rfl
  · rename_i hexpression hexport _ _
    rw [effects_eq]
    unfold effectAlong
    split
    · exact absurd rfl (hexpression _ _ _)
    · exact absurd rfl (hexport _ _ _ _)
    · rfl

/-! ## 2. When every effect is written once -/

/-- Below a piece that writes nothing twice itself, what does so lies in one of its parts. -/
theorem exists_part_of_again (h : Within q t) (hq : q.again = []) (ht : t.again ≠ []) :
    ∃ r ∈ q.parts, Within r t := by
  cases h with
  | refl => exact absurd hq ht
  | step hr h => exact ⟨_, hr, h⟩

theorem not_within_leaf (h : Within q t) (hq : q.again = []) (hparts : q.parts = [])
    (ht : t.again ≠ []) : False := by
  obtain ⟨r, hr, -⟩ := exists_part_of_again h hq ht
  rw [hparts] at hr
  cases hr

theorem not_within_number {start stop : Option Expr} (hfold : foldable start stop = true)
    (he : e ∈ stop.toList) (h : Within (.expr e) t) (ht : t.again ≠ []) : False := by
  unfold foldable at hfold
  split at hfold
  · rw [List.mem_singleton.mp he] at h
    exact not_within_leaf h rfl rfl ht
  · cases hfold

theorem exists_once_of_expression {p : Position} {m : Option Text} (h : Within (.expr e) t)
    (ht : t.again ≠ []) : ∃ r ∈ (Piece.stmt (.expression p m e)).once, Within r t := by
  simp only [once]
  cases hsides : sides? e with
  | none => exact ⟨_, List.mem_cons_self, h⟩
  | some sides =>
    obtain ⟨target, value⟩ := sides
    have hagain : (Piece.expr e).again = [] := by
      unfold sides? at hsides
      split at hsides <;> first | rfl | cases hsides
    obtain ⟨r, hr, hwithin⟩ := exists_part_of_again h hagain ht
    rw [parts, parts_of_sides? hsides] at hr
    exact ⟨r, hr, hwithin⟩

/-- What writes something twice is a piece itself, or lies in a piece that is written with it. -/
theorem within_once (hwf : WellFormed.piece q = true) (h : Within q t) (ht : t.again ≠ []) :
    t = q ∨ ∃ r ∈ q.once, Within r t := by
  cases h with
  | refl => exact .inl rfl
  | @step q r t hr h =>
    refine .inr ?_
    have himport {source : Expr} (hsource : source.isString = true)
        (hparts : q.parts = ofExprs [source]) : False := by
      rw [hparts, ofExprs, List.map_singleton, List.mem_singleton] at hr
      subst hr
      cases source with
      | string => exact not_within_leaf h rfl rfl ht
      | _ => cases hsource
    unfold once
    split
    · rename_i p tag body quasis es
      rcases List.mem_cons.mp hr with rfl | hr
      · exact ⟨_, List.mem_cons_self, h⟩
      · obtain rfl := List.mem_singleton.mp hr
        obtain ⟨r, hr, hwithin⟩ := exists_part_of_again h rfl ht
        exact ⟨r, List.mem_cons_of_mem _ hr, hwithin⟩
    · rename_i p object start stop value
      rcases List.mem_cons.mp hr with rfl | hr
      · obtain ⟨r, hr, hwithin⟩ := exists_part_of_again h rfl ht
        obtain ⟨e, he, rfl⟩ := mem_ofExprs.mp hr
        refine ⟨_, mem_ofExprs.mpr ⟨e, ?_, rfl⟩, hwithin⟩
        cases hfold : foldable start stop with
        | false => simpa [or_assoc] using Or.imp_right (Or.imp_right .inl) (by simpa using he)
        | true =>
          have hstop : e ∉ stop.toList := fun hmem => not_within_number hfold hmem hwithin ht
          have hfirst : e = object ∨ e ∈ start.toList := by simpa [hstop] using he
          simp only [List.mem_cons, List.mem_append]
          exact hfirst.imp_right fun h => .inl (.inl h)
      · obtain rfl := List.mem_singleton.mp hr
        exact ⟨_, mem_ofExprs.mpr ⟨value, by simp, rfl⟩, h⟩
    · rename_i p m e
      obtain rfl := List.mem_singleton.mp hr
      exact exists_once_of_expression (p := p) (m := m) h ht
    · rename_i p q m e
      obtain rfl := List.mem_singleton.mp hr
      obtain ⟨r, hr, hwithin⟩ := exists_part_of_again h rfl ht
      obtain rfl := List.mem_singleton.mp hr
      exact exists_once_of_expression (p := q) (m := m) hwithin ht
    · rw [WellFormed.piece, WellFormed.stmt, Bool.and_eq_true] at hwf
      exact (himport hwf.1 rfl).elim
    · rw [WellFormed.piece, WellFormed.stmt, Bool.and_eq_true] at hwf
      exact (himport hwf.1 rfl).elim
    · exact ⟨r, hr, h⟩

/-- Whatever is written twice in a piece has no effects. -/
def Calm (q : Piece) : Prop := ∀ t, Within q t → ∀ r ∈ t.again, r.effects = []

theorem Calm.within (h : q.Calm) (hr : Within q r) : r.Calm :=
  fun t ht => h t (hr.trans ht)

theorem within_of_mem_once (h : r ∈ q.once) : Within q r := by
  obtain ⟨t, ht, hr⟩ := exists_part_of_mem_once h
  exact .step ht hr

theorem flatMap_congr_mem (h : ∀ q ∈ qs, f q = g q) : qs.flatMap f = qs.flatMap g := by
  rw [List.flatMap_def, List.flatMap_def, List.map_congr_left h]

/-- In a calm piece every effect is written once. -/
theorem effectsWritten_of_calm {q : Piece} (hsensible : Sensible q) (hcalm : q.Calm) :
    q.effectsWritten = q.effects := by
  have honce (r : Piece) (hr : r ∈ q.once) : r.effectsWritten = r.effects :=
    effectsWritten_of_calm (hsensible.within (within_of_mem_once hr))
      (hcalm.within (within_of_mem_once hr))
  have hagain : q.again.flatMap effectsWritten = [] := by
    refine List.flatMap_eq_nil_iff.mpr fun r hr => ?_
    rw [honce r (mem_once_of_mem_again hr)]
    exact hcalm q (.refl q) r hr
  rw [effectsWritten_eq, hagain, List.append_nil, flatMap_congr_mem honce,
    effects_eq_once hsensible.wellFormed]
termination_by sizeOf q
decreasing_by exact sizeOf_lt_of_mem_once hr

theorem sublist_flatMap (h : ∀ q ∈ qs, (f q).Sublist (g q)) :
    (qs.flatMap f).Sublist (qs.flatMap g) := by
  induction qs with
  | nil => exact .slnil
  | cons q qs ih =>
    obtain ⟨hq, hqs⟩ := List.forall_mem_cons.mp h
    exact hq.append (ih hqs)

/-- If nothing is added to all pieces together, then nothing is added to any of them. -/
theorem eq_of_flatMap_eq (h : ∀ q ∈ qs, (f q).Sublist (g q))
    (heq : (qs.flatMap f).length = (qs.flatMap g).length) : ∀ q ∈ qs, f q = g q := by
  induction qs with
  | nil => exact nofun
  | cons q qs ih =>
    obtain ⟨hq, hqs⟩ := List.forall_mem_cons.mp h
    have hle := hq.length_le
    have hle' := (sublist_flatMap hqs).length_le
    simp only [List.flatMap_cons, List.length_append] at heq
    refine List.forall_mem_cons.mpr ⟨hq.eq_of_length (by omega), ih hqs (by omega)⟩

/-- **Every effect is written**, in the order of the tree, with others between them. -/
theorem effects_sublist_effectsWritten {q : Piece} (hsensible : Sensible q) :
    q.effects.Sublist q.effectsWritten := by
  have honce (r : Piece) (hr : r ∈ q.once) : r.effects.Sublist r.effectsWritten :=
    effects_sublist_effectsWritten (hsensible.within (within_of_mem_once hr))
  rw [effectsWritten_eq, effects_eq_once hsensible.wellFormed]
  exact ((List.Sublist.refl _).append (sublist_flatMap honce)).trans (List.sublist_append_left _ _)
termination_by sizeOf q
decreasing_by exact sizeOf_lt_of_mem_once hr

/-- A piece in which every effect is written once is calm. -/
theorem calm_of_length_eq {q : Piece} (hsensible : Sensible q)
    (h : q.effectsWritten.length = q.effects.length) : q.Calm := by
  have honce (r : Piece) (hr : r ∈ q.once) : r.effects.Sublist r.effectsWritten :=
    effects_sublist_effectsWritten (hsensible.within (within_of_mem_once hr))
  have hle := (sublist_flatMap honce).length_le
  rw [effectsWritten_eq, effects_eq_once hsensible.wellFormed] at h
  simp only [List.length_append] at h
  have hagain : q.again.flatMap effectsWritten = [] := List.eq_nil_of_length_eq_zero (by omega)
  have heq := eq_of_flatMap_eq honce (by omega)
  intro t ht r hr
  rcases within_once hsensible.wellFormed ht (List.ne_nil_of_mem hr) with rfl | ⟨u, hu, hwithin⟩
  · have hnone := List.flatMap_eq_nil_iff.mp hagain r hr
    rw [heq r (mem_once_of_mem_again hr), hnone]
  · exact calm_of_length_eq (hsensible.within (within_of_mem_once hu))
      (congrArg List.length (heq u hu).symm) t hwithin r hr
termination_by sizeOf q
decreasing_by exact sizeOf_lt_of_mem_once hu

/-- **Every effect is written exactly once** if, and only if, whatever is written twice has none. -/
theorem effectsWritten_perm_iff (hsensible : Sensible q) :
    q.effectsWritten.Perm q.effects ↔ q.Calm :=
  ⟨fun h => calm_of_length_eq hsensible h.length_eq,
    fun h => .of_eq (effectsWritten_of_calm hsensible h)⟩

end Piece

/-! ## 3. Assignments to slices -/

/-- **Effects in an assignment to a slice.** In every piece of it, the script is put together from the
    scripts of the pieces below, written once and again. So the effects in the object are written
    twice if the slice has no end, those in the start are written twice unless both bounds are
    numbers, and those in the end and in the value once. Every effect is written; and every effect is
    written exactly once if, and only if, whatever is written twice, here and further down, has
    none. -/
theorem slice_assignment_effects (o : Options) (p : Position) (object : Expr)
    (start stop : Option Expr) (value : Expr) (whole : Piece)
    (hwhole : whole = .expr (.sliceAssign p object start stop value)) (hsensible : Sensible whole) :
    (∀ e d, Within whole (.expr e) → (emit o d e).Woven o e.words
      (((Piece.expr e).once ++ (Piece.expr e).again).map (codeBelow o d))) ∧
    (∀ s d inherited, Within whole (.stmt s) → (stmt o d inherited s).faults = [] →
      (stmt o d inherited s).Woven o s.words ((Piece.stmt s).once.map (codeInside o d s))) ∧
    whole.effectsWritten =
      (Piece.ofExprs (object :: (start.toList ++ stop.toList ++ [value]) ++
        ((if stop.isNone then [object] else []) ++
          if foldable start stop then [] else start.toList))).flatMap Piece.effectsWritten ∧
    whole.effects.Sublist whole.effectsWritten ∧
    (whole.effectsWritten.Perm whole.effects ↔
      ∀ q, Within whole q → ∀ r ∈ q.again, r.effects = []) := by
  refine ⟨fun e d he => ?_, fun s d inherited hs hclean => ?_, ?_,
    Piece.effects_sublist_effectsWritten hsensible, Piece.effectsWritten_perm_iff hsensible⟩
  · exact woven_emit (hsensible _ he).1 (hsensible _ he).2
  · exact woven_stmt (hsensible _ hs).1 hclean
  · have hnumber (q : Position) (n : NumberLiteral) :
        (Piece.expr (.number q n)).effectsWritten = [] := by
      rw [Piece.effectsWritten_eq]
      rfl
    have hstop := Piece.flatMap_foldable hnumber start stop
    rw [hwhole, Piece.effectsWritten_eq]
    simp only [Piece.ofExprs] at hstop
    simp [Piece.effectAlong, Piece.effect, Expr.isEffect, Piece.once, Piece.again, Piece.ofExprs, hstop]

/-- A call as the object of a slice without an end. -/
def openSlice : Text := txt "f()[1...] := v"

/-- Is this the tree of `openSlice`? -/
def isOpenSlice : Expr → Bool
  | .sliceAssign _ (.call _ (.identifier _ _) [] _) (some (.number _ _)) none (.identifier _ _) => true
  | _ => false

theorem exists_openSlice :
    ∃ p object start stop value,
      readExpression openSlice = some (.ok (.sliceAssign p object start stop value)) ∧
      (emit {} 0 (.sliceAssign p object start stop value)).text =
        txt "Array.prototype.splice.apply(f(), [1, f().length - 1].concat(v))" ∧
      (Piece.expr (.sliceAssign p object start stop value)).effects.length = 1 ∧
      (Piece.expr (.sliceAssign p object start stop value)).effectsWritten.length = 2 := by
  obtain ⟨e, hread, htest⟩ : ∃ e, readExpression openSlice = some (.ok e) ∧
      (isOpenSlice e && decide ((emit {} 0 e).text =
        txt "Array.prototype.splice.apply(f(), [1, f().length - 1].concat(v))")) = true :=
    Grammar.exists_of_givesAtOnce (by decide +kernel)
  obtain ⟨hshape, htext⟩ := Bool.and_eq_true_iff.mp htest
  unfold isOpenSlice at hshape
  split at hshape
  · refine ⟨_, _, _, _, _, hread, of_decide_eq_true htext, ?_, ?_⟩
    · simp [Piece.effects_eq, Piece.effect, Piece.parts, Expr.parts, Piece.ofExprs, Expr.isEffect]
    · simp [Piece.effectsWritten_eq, Piece.effect, Piece.effectAlong, Piece.parts, Expr.parts,
        Piece.once, Piece.again, Piece.ofExprs, Expr.isEffect]
  · cases hshape

/-- There is one call, and it is written twice. -/
theorem open_slice_calls_twice :
    ∃ e, readExpression openSlice = some (.ok e) ∧
      (emit {} 0 e).text = txt "Array.prototype.splice.apply(f(), [1, f().length - 1].concat(v))" ∧
      (Piece.expr e).effects.length = 1 ∧ (Piece.expr e).effectsWritten.length = 2 ∧
      ¬ (Piece.expr e).effectsWritten.Perm (Piece.expr e).effects := by
  obtain ⟨p, object, start, stop, value, hread, htext, heffects, hwritten⟩ := exists_openSlice
  refine ⟨_, hread, htext, heffects, hwritten, fun hperm => ?_⟩
  have hlength := hperm.length_eq
  rw [heffects, hwritten] at hlength
  cases hlength

theorem sensible_of_readExpression {source : Text} {e : Expr}
    (h : readExpression source = some (.ok e)) : Sensible (.expr e) :=
  sensible_of_shallow (Grammar.built_of_readExpression h).wellFormed
    (Grammar.built_of_readExpression h).shallow

/-- The object of `openSlice` is what has an effect and is written twice. -/
theorem open_slice_has_effect_again :
    ∃ p object start stop value,
      readExpression openSlice = some (.ok (.sliceAssign p object start stop value)) ∧
      (Piece.expr (.sliceAssign p object start stop value)).effects.Sublist
        (Piece.expr (.sliceAssign p object start stop value)).effectsWritten ∧
      ¬ ∀ q, Within (.expr (.sliceAssign p object start stop value)) q →
        ∀ r ∈ q.again, r.effects = [] := by
  obtain ⟨p, object, start, stop, value, hread, -, heffects, hwritten⟩ := exists_openSlice
  obtain ⟨-, -, -, hsublist, hiff⟩ := slice_assignment_effects {} p object start stop value _ rfl
    (sensible_of_readExpression hread)
  refine ⟨p, object, start, stop, value, hread, hsublist, fun hcalm => ?_⟩
  have hlength := (hiff.mpr hcalm).length_eq
  rw [heffects, hwritten] at hlength
  cases hlength

end ReactiveScript
