import ReactiveScript.Proofs.Grammar.Laying
import ReactiveScript.Proofs.SourceOrder
import ReactiveScript.Proofs.Syntax.Occurrences
import ReactiveScript.Script.FreeNames

/-!
# Free names

The names that the value of an accepted expression depends on are those of its identifiers that
neither lie in a function nor are labels. They are listed once each, in the order in which they
first stand in the source.
-/

namespace ReactiveScript

open FreeNames Grammar

/-! ## 1. Uses and operands -/

namespace FreeNames

theorem usesAll_eq_flatMap (es : List Expr) : usesAll es = es.flatMap uses :=
  eq_flatMap_of_cons rfl (fun _ _ => rfl) es

theorem uses?_eq_flatMap (o : Option Expr) : uses? o = o.toList.flatMap uses := by
  cases o <;> simp [uses?]

theorem propertyUses_eq (p : Property) :
    propertyUses p = (Role.operandsOf p.roled).flatMap uses := by
  cases p <;> simp [propertyUses, Property.roled, uses?_eq_flatMap]

theorem propertiesUses_eq (ps : List Property) :
    propertiesUses ps = (Role.operandsOf (ps.flatMap Property.roled)).flatMap uses := by
  induction ps with
  | nil => rfl
  | cons p ps ih => simp [propertiesUses, propertyUses_eq, ih]

theorem elementUses_eq (e : PatternElement) : elementUses e = e.parts.flatMap uses := by
  cases e <;> simp [elementUses, uses?_eq_flatMap]

theorem elementsUses_eq (es : List PatternElement) :
    elementsUses es = (es.flatMap PatternElement.parts).flatMap uses := by
  induction es with
  | nil => rfl
  | cons e es ih => rw [elementsUses, elementUses_eq, ih, List.flatMap_cons, List.flatMap_append]

theorem patternPropertyUses_eq (p : PatternProperty) :
    patternPropertyUses p = (Role.operandsOf p.roled).flatMap uses := by
  cases p <;> simp [patternPropertyUses, PatternProperty.roled, uses?_eq_flatMap]

theorem patternPropertiesUses_eq (ps : List PatternProperty) :
    patternPropertiesUses ps =
      (Role.operandsOf (ps.flatMap PatternProperty.roled)).flatMap uses := by
  induction ps with
  | nil => rfl
  | cons p ps ih => simp [patternPropertiesUses, patternPropertyUses_eq, ih]

theorem attrUses_eq (a : Attribute) : attrUses a = a.parts.flatMap uses := by
  cases a <;> simp [attrUses]

theorem attributesUses_eq (as : List Attribute) :
    attributesUses as = (as.flatMap Attribute.parts).flatMap uses := by
  induction as with
  | nil => rfl
  | cons a as ih => rw [attributesUses, attrUses_eq, ih, List.flatMap_cons, List.flatMap_append]

end FreeNames

namespace Piece

/-- The uses in a piece; a statement has none, since it lies in a function. -/
def uses : Piece → List Use
  | .expr e => FreeNames.uses e
  | _ => []

/-- The use that a piece is, if it is an identifier. -/
def ownUses : Piece → List Use
  | .expr (.identifier p x) => [⟨p, x⟩]
  | _ => []

theorem ownUses_cases (q : Piece) : q.ownUses = [] ∨ ∃ p x, q = .expr (.identifier p x) := by
  cases q with
  | expr e =>
    cases e with
    | identifier p x => exact .inr ⟨p, x, rfl⟩
    | _ => exact .inl rfl
  | _ => exact .inl rfl

theorem flatMap_uses_ofExprs (es : List Expr) :
    (ofExprs es).flatMap uses = es.flatMap FreeNames.uses := by
  rw [ofExprs, List.flatMap_map]
  rfl

/-- **The uses in a piece are its own and those of its operands**, in order. -/
theorem uses_eq (q : Piece) : q.uses = q.ownUses ++ q.operands.flatMap uses := by
  cases q with
  | program p => simp [uses, ownUses, operands, roled]
  | stmt s => simp [uses, ownUses, operands, roled]
  | expr e =>
    -- Labels and functions need their own cases; elsewhere all parts are operands.
    suffices h : FreeNames.uses e = (expr e).ownUses ++ (expr e).operands.flatMap uses from h
    cases e with
    | object p ps =>
      rw [operands, roled, Expr.roled, Role.operandsOf_map_id, FreeNames.uses, propertiesUses_eq]
      exact (flatMap_uses_ofExprs _).symm
    | objectPattern p ps =>
      rw [operands, roled, Expr.roled, Role.operandsOf_map_id, FreeNames.uses,
        patternPropertiesUses_eq]
      exact (flatMap_uses_ofExprs _).symm
    | member p o property computed optional =>
      cases computed <;> simp [FreeNames.uses, ownUses, operands, roled, Expr.roled, ofExprs, uses]
    | _ =>
      simp [FreeNames.uses, ownUses, operands, roled, Expr.roled, flatMap_uses_ofExprs,
        usesAll_eq_flatMap, uses?_eq_flatMap, elementsUses_eq, attributesUses_eq]

/-- **The uses in a piece are the identifiers to which only operands lead.** -/
theorem mem_uses_iff (q : Piece) {p : Position} {x : Text} :
    ⟨p, x⟩ ∈ q.uses ↔ ∃ way, Occurs q way p x ∧ ∀ role ∈ way, role = .operand := by
  induction q using parts_induction with
  | step q ih =>
    rw [uses_eq, List.mem_append, List.mem_flatMap]
    constructor
    · rintro (hown | ⟨r, hr, hmem⟩)
      · rcases q.ownUses_cases with hnone | ⟨p', x', rfl⟩
        · rw [hnone] at hown
          cases hown
        · cases List.mem_singleton.mp hown
          exact ⟨[], .here p x, nofun⟩
      · obtain ⟨way, h, hway⟩ := (ih r (q.operands_sublist.subset hr)).mp hmem
        exact ⟨.operand :: way, .step (Role.mem_operandsOf.mp hr) h,
          List.forall_mem_cons.mpr ⟨rfl, hway⟩⟩
    · rintro ⟨way, h, hway⟩
      cases h with
      | here => exact .inl (List.mem_singleton_self _)
      | @step _ r role way _ _ hr h =>
        obtain ⟨rfl, hrest⟩ := List.forall_mem_cons.mp hway
        exact .inr ⟨r, Role.mem_operandsOf.mpr hr,
          (ih r (mem_parts_of_mem_roled hr)).mpr ⟨way, h, hrest⟩⟩

end Piece

/-! ## 2. The order of uses -/

/-- The place of the identifier that is a use. -/
def FreeNames.Use.place (u : Use) : Nat × Nat := (u.pos.offset, u.pos.offset + 1)

/-- The uses in a piece are nodes of it, in the order of the nodes. -/
theorem Piece.places_uses_sublist (q : Piece) (hwf : WellFormed.piece q = true) :
    (q.uses.map Use.place).Sublist (placesOf q.nodes) := by
  induction q using parts_induction with
  | step q ih =>
    have hparts : ((q.operands.flatMap uses).map Use.place).Sublist (placesOf q.nodes) := by
      refine List.Sublist.trans ?_ ((sown_nodes hwf).sublist.filterMap Node.place?)
      rw [List.map_flatMap, List.filterMap_flatMap]
      refine flatMap_sublist q.operands_sublist fun r hr => ?_
      have hr := q.operands_sublist.subset hr
      exact ih r hr (WellFormed.piece_of_mem_parts hwf hr)
    rcases q.ownUses_cases with hnone | ⟨p, x, rfl⟩
    · rw [uses_eq, hnone, List.nil_append]
      exact hparts
    · exact List.Sublist.refl _

/-- Every use in an accepted expression stands before those behind it. -/
theorem uses_in_order {source : Text} {e : Expr} (h : readExpression source = some (.ok e)) :
    (uses e).Pairwise fun u v => u.pos.offset < v.pos.offset := by
  obtain ⟨rounds, s, -, hrun, hclean⟩ := exists_run_of_accepted h
  obtain ⟨hcovers, -⟩ := gathers_wholeExpression (sound_start source) hrun hclean
  have hwf : WellFormed.expr e = true := (built_of_readExpression h).wellFormed
  have hplaces := hcovers.inOrder.before.sublist (Piece.places_uses_sublist (.expr e) hwf)
  rw [List.pairwise_map] at hplaces
  exact hplaces

/-! ## 3. First uses -/

/-- When duplicate names are erased, the first use of each name is kept. -/
theorem exists_firsts : (us : List Use) → (us.Pairwise fun u v => u.pos.offset < v.pos.offset) →
    ∃ firsts : List Use, firsts.Sublist us ∧ firsts.map Use.name = (us.map Use.name).eraseDups ∧
      ∀ u ∈ firsts, ∀ v ∈ us, v.name = u.name → u.pos.offset ≤ v.pos.offset
  | [], _ => ⟨[], .slnil, rfl, nofun⟩
  | u :: us, h => by
    obtain ⟨hu, hus⟩ := List.pairwise_cons.mp h
    have hsublist : (us.filter (·.name != u.name)).Sublist us := List.filter_sublist
    obtain ⟨firsts, hfirsts, hnames, hleast⟩ := exists_firsts (us.filter (·.name != u.name))
      (hus.sublist hsublist)
    refine ⟨u :: firsts, (hfirsts.trans hsublist).cons_cons u, ?_, ?_⟩
    · rw [List.map_cons, List.map_cons, List.eraseDups_cons, hnames, List.filter_map]
      rfl
    · refine List.forall_mem_cons.mpr ⟨fun v hv _ => ?_, fun w hw v hv hname => ?_⟩
      · rcases List.mem_cons.mp hv with rfl | hv
        · exact Nat.le_refl _
        · exact Nat.le_of_lt (hu v hv)
      · have hother : w.name ≠ u.name := by simpa using (List.mem_filter.mp (hfirsts.subset hw)).2
        rcases List.mem_cons.mp hv with rfl | hv
        · exact absurd hname.symm hother
        · refine hleast w hw v (List.mem_filter.mpr ⟨hv, ?_⟩) hname
          simpa [hname] using hother
termination_by us => us.length
decreasing_by exact Nat.lt_succ_of_le (List.length_filter_le _ _)

/-! ## 4. Free names -/

theorem Property.mem_keys_of_mem_roled {p : Property} {key : Expr}
    (h : (Role.label, key) ∈ p.roled) : key ∈ p.keys := by
  cases p <;> simp_all [Property.roled]

theorem PatternProperty.mem_keys_of_mem_roled {p : PatternProperty} {key : Expr}
    (h : (Role.label, key) ∈ p.roled) : key ∈ p.keys := by
  cases p <;> simp_all [PatternProperty.roled]

/-- Labels among the parts of some properties are keys. -/
theorem labelsEnd_flatMap {α : Type} {roled : α → List (Role × Expr)} {keys : α → List Expr}
    (hlabel : ∀ {a : α} {key : Expr}, (.label, key) ∈ roled a → key ∈ keys a) {as : List α}
    (hkeys : AllLeaves (as.flatMap keys)) {r : Piece}
    (h : (Role.label, r) ∈ (as.flatMap roled).map (Prod.map id .expr)) : r.parts = [] := by
  obtain ⟨⟨role, key⟩, hkey, heq⟩ := List.mem_map.mp h
  obtain ⟨a, ha, hkey⟩ := List.mem_flatMap.mp hkey
  cases heq
  exact hkeys.leaf key (List.mem_flatMap.mpr ⟨a, ha, hlabel hkey⟩)

/-- The name of a member that is not computed has no parts, nor has a key. -/
theorem Piece.labelsEnd {q : Piece} (hwf : WellFormed.piece q = true) (hkeys : AllLeaves q.keys) :
    q.LabelsEnd := by
  intro r hr
  cases q with
  | program p => simp [roled] at hr
  | stmt s => simp [roled] at hr
  | expr e =>
    cases e with
    | member p o property computed optional =>
      cases computed with
      | true => simp [roled, Expr.roled] at hr
      | false =>
        obtain rfl : r = .expr property := by simpa [roled, Expr.roled] using hr
        have hname : property.isName = true := by
          simp only [WellFormed.piece, WellFormed.expr, Bool.false_or, Bool.and_eq_true] at hwf
          exact hwf.2
        cases property <;> first | rfl | cases hname
    | object p ps => exact labelsEnd_flatMap Property.mem_keys_of_mem_roled hkeys hr
    | objectPattern p ps => exact labelsEnd_flatMap PatternProperty.mem_keys_of_mem_roled hkeys hr
    | _ => simp [roled, Expr.roled] at hr

/-- **Free names in the order of the source.** The names listed for an accepted expression are those
    of its identifiers that neither lie in a function nor are labels. No name is listed twice, and
    of two names, the one that first stands further ahead in the source is listed first. -/
theorem freeNames_in_source_order {source : Text} {e : Expr}
    (h : readExpression source = some (.ok e)) :
    (FreeNames.ofExpr e).Nodup ∧
    (∀ x, x ∈ FreeNames.ofExpr e ↔ ∃ p, e.FreeAt p x) ∧
    (FreeNames.ofExpr e).Pairwise fun x y =>
      ∃ i j, e.FirstFreeAt x i ∧ e.FirstFreeAt y j ∧ i < j := by
  have hwf : WellFormed.expr e = true := (built_of_readExpression h).wellFormed
  have hlabels (q : Piece) (hq : Within (.expr e) q) : q.LabelsEnd :=
    Piece.labelsEnd (WellFormed.piece_of_within hq hwf) ((built_of_readExpression h).made q hq).keys
  have hfree {p : Position} {x : Text} : e.FreeAt p x ↔ ⟨p, x⟩ ∈ uses e :=
    (Expr.freeAt_iff hlabels).trans (Piece.mem_uses_iff (.expr e)).symm
  have hsorted := uses_in_order h
  obtain ⟨firsts, hsublist, hnames, hleast⟩ := exists_firsts (uses e) hsorted
  have hfirst {u : Use} (hu : u ∈ firsts) : e.FirstFreeAt u.name u.pos.offset :=
    ⟨⟨u.pos, hfree.mpr (hsublist.subset hu), rfl⟩,
      fun p hp => hleast u hu ⟨p, u.name⟩ (hfree.mp hp) rfl⟩
  have hpairwise : (FreeNames.ofExpr e).Pairwise fun x y =>
      ∃ i j, e.FirstFreeAt x i ∧ e.FirstFreeAt y j ∧ i < j := by
    rw [FreeNames.ofExpr, ← hnames, List.pairwise_map]
    exact (hsorted.sublist hsublist).imp_of_mem fun hu hv hlt => ⟨_, _, hfirst hu, hfirst hv, hlt⟩
  refine ⟨hpairwise.imp ?_, fun x => ?_, hpairwise⟩
  · -- A name has one first place only.
    rintro x _ ⟨i, j, hi, hj, hlt⟩ rfl
    exact absurd (hi.eq hj) (Nat.ne_of_lt hlt)
  · rw [FreeNames.ofExpr, List.mem_eraseDups, List.mem_map]
    constructor
    · rintro ⟨u, hu, rfl⟩
      exact ⟨u.pos, hfree.mpr hu⟩
    · rintro ⟨p, hp⟩
      exact ⟨⟨p, x⟩, hfree.mp hp, rfl⟩

/-- An expression with labels, functions and names that come again. -/
def manyUses : Text :=
  txt "[b, \x7ba: x, b, [k]: v.w?.[b], ...rest\x7d, items.map((i = c) => i * factor),\n" ++
  txt " (\x7ba: m, n = c\x7d = t)[x ? l[p...q] : 0],\n" ++
  txt " <u v=\x7bw\x7d>\x7b a \x7d</u>, `$\x7bz\x7d$\x7bb\x7d`]\n"

theorem manyUses_in_source_order :
    ∃ e, readExpression manyUses = some (.ok e) ∧
      FreeNames.ofExpr e = [txt "b", txt "x", txt "k", txt "v", txt "rest", txt "items", txt "m",
        txt "n", txt "c", txt "t", txt "l", txt "p", txt "q", txt "w", txt "a", txt "z"] ∧
      (FreeNames.ofExpr e).Nodup ∧
      (∀ x, x ∈ FreeNames.ofExpr e ↔ ∃ p, e.FreeAt p x) ∧
      (FreeNames.ofExpr e).Pairwise fun x y =>
        ∃ i j, e.FirstFreeAt x i ∧ e.FirstFreeAt y j ∧ i < j := by
  obtain ⟨e, he, hnames⟩ : ∃ e, readExpression manyUses = some (.ok e) ∧
      decide (FreeNames.ofExpr e = [txt "b", txt "x", txt "k", txt "v", txt "rest", txt "items",
        txt "m", txt "n", txt "c", txt "t", txt "l", txt "p", txt "q", txt "w", txt "a",
        txt "z"]) = true :=
    exists_of_givesAtOnce (by decide +kernel)
  exact ⟨e, he, of_decide_eq_true hnames, freeNames_in_source_order he⟩

end ReactiveScript
