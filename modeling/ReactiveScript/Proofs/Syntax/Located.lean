import ReactiveScript.Proofs.Syntax.Nodes
import ReactiveScript.Proofs.Syntax.Splitting
import ReactiveScript.Proofs.Token.Located
import ReactiveScript.Syntax.Check
import ReactiveScript.Syntax.Children
import ReactiveScript.Syntax.Template

/-!
# Trees in their source

A tree lies in a source if each of its nodes does. What is made from parts that lie in the source
lies there itself, so the facts are instances: the nodes of a tree are computed when one is looked
for, and there is one for each rule that reports a fault of it.
-/

namespace ReactiveScript

open ReactiveScript.Preorder

/-! ## 1. Values that lie in a source -/

/-- A kind of values that can lie in a source. Where no source is given, all of them do. -/
class Placed (α : Type) where
  IsIn : Option Text → α → Prop
  isIn_none : ∀ a, IsIn none a

/-- What it means to lie in a source, said for each source. -/
abbrev Placed.within {α : Type} (p : Text → α → Prop) : Placed α :=
  ⟨fun scope a => ∀ source ∈ scope, p source a, nofun⟩

/-- The value lies in the source. -/
class Located (scope : Option Text) {α : Type} [Placed α] (a : α) : Prop where
  isIn : Placed.IsIn scope a

/-- The values that lie in the source. -/
abbrev ValueIn (scope : Option Text) (α : Type) [Placed α] : Type :=
  { a : α // Placed.IsIn scope a }

instance : Placed Position where
  IsIn
    | none, _ => True
    | some source, p => p.IsIn source
  isIn_none _ := trivial

theorem Position.isIn_iff_forall {scope : Option Text} {p : Position} :
    Placed.IsIn scope p ↔ ∀ source ∈ scope, p.IsIn source := by
  cases scope with
  | none => exact ⟨nofun, fun _ => trivial⟩
  | some source => exact ⟨fun h _ hsource => Option.some.inj hsource ▸ h, fun h => h source rfl⟩

instance : Placed Token := .within Token.IsIn

instance : Placed Report := ⟨fun scope r => Placed.IsIn scope r.pos, fun _ => Placed.isIn_none _⟩

/-- A hole lies in the source if its text stands at its position. -/
structure Template.Hole.IsIn (source : Text) (h : Template.Hole) : Prop where
  pos : h.pos.IsIn source
  inner : h.inner <+: source.drop h.pos.offset

instance : Placed Template.Hole := .within Template.Hole.IsIn

/-- A span lies in the source if its ends do. -/
structure Span.IsIn (source : Text) (span : Span) : Prop where
  start_le : span.start ≤ source.length
  stop_le : span.stop ≤ source.length

instance : Placed Span := .within Span.IsIn

instance {α : Type} [Placed α] : Placed (List α) :=
  ⟨fun scope as => ∀ a ∈ as, Placed.IsIn scope a, fun _ a _ => Placed.isIn_none a⟩

instance {α : Type} [Placed α] : Placed (Option α) :=
  ⟨fun scope o => ∀ a ∈ o, Placed.IsIn scope a, fun _ a _ => Placed.isIn_none a⟩

instance : Placed Node := ⟨fun scope n => Placed.IsIn scope n.pos?, fun _ => Placed.isIn_none _⟩

/-- A tree lies in a source if its nodes do. -/
abbrev Placed.ofNodes {α : Type} (nodes : α → List Node) : Placed α :=
  ⟨fun scope a => Placed.IsIn scope (nodes a), fun _ => Placed.isIn_none _⟩

instance : Placed Expr := .ofNodes expr
instance : Placed Property := .ofNodes property
instance : Placed Param := .ofNodes param
instance : Placed PatternElement := .ofNodes patternElement
instance : Placed PatternProperty := .ofNodes patternProperty
instance : Placed Attribute := .ofNodes attr
instance : Placed Stmt := .ofNodes stmt
instance : Placed Program := .ofNodes program

instance : Placed Slot where
  IsIn scope s := Placed.IsIn scope s.span ∧ ∀ span e, s = .node span e → Placed.IsIn scope e
  isIn_none _ := ⟨Placed.isIn_none _, fun _ e _ => Placed.isIn_none e⟩

instance {α β : Type} [Placed α] [Placed β] : Placed (α × β) :=
  ⟨fun scope p => Placed.IsIn scope p.1 ∧ Placed.IsIn scope p.2,
    fun _ => ⟨Placed.isIn_none _, Placed.isIn_none _⟩⟩

/-- Values that hold no positions lie in every source. -/
class Placeless (α : Type) : Prop

instance : Placeless Unit where
instance : Placeless Bool where
instance : Placeless UInt8 where
instance : Placeless Specifier where
instance : Placeless Quasi where

instance (priority := low) {α : Type} [Placeless α] : Placed α :=
  ⟨fun _ _ => True, fun _ => trivial⟩

section
variable {scope : Option Text} {α β : Type} [Placed α] [Placed β] {a : α} {as : List α}

instance (priority := high) (a : α) : Located none a := ⟨Placed.isIn_none a⟩

instance (a : ValueIn scope α) : Located scope a.1 := ⟨a.2⟩

instance (priority := low) {α : Type} [Placeless α] (a : α) :
    Located scope a := ⟨trivial⟩

instance {α : Type} [Placeless α] (as : List α) : Located scope as :=
  ⟨fun _ _ => trivial⟩

instance {α : Type} [Placeless α] (o : Option (List α)) : Located scope o :=
  ⟨fun _ _ _ _ => trivial⟩

instance located_nil : Located scope ([] : List α) := ⟨fun _ h => by cases h⟩

instance [ha : Located scope a] [has : Located scope as] :
    Located scope (a :: as) := ⟨List.forall_mem_cons.mpr ⟨ha.isIn, has.isIn⟩⟩

instance {bs : List α} [has : Located scope as] [hbs : Located scope bs] :
    Located scope (as ++ bs) := ⟨List.forall_mem_append.mpr ⟨has.isIn, hbs.isIn⟩⟩

instance [has : Located scope as] : Located scope as.reverse :=
  ⟨fun a ha => has.isIn a (List.mem_reverse.mp ha)⟩

instance located_none : Located scope (none : Option α) := ⟨fun _ h => by cases h⟩

instance located_some [ha : Located scope a] : Located scope (some a) :=
  ⟨fun _ h => by cases h; exact ha.isIn⟩

instance {f : α → β} [hf : ∀ a : ValueIn scope α, Located scope (f a)]
    {o : Option α} [ho : Located scope o] : Located scope (o.map f) := by
  cases o with
  | none => exact located_none
  | some a =>
    have ha := hf ⟨a, ho.isIn a rfl⟩
    exact located_some

instance {b : Prop} [Decidable b] {a' : α} [Located scope a] [Located scope a'] :
    Located scope (if b then a else a') := by
  split <;> assumption

instance {b : β} [ha : Located scope a] [hb : Located scope b] :
    Located scope (a, b) := ⟨ha.isIn, hb.isIn⟩

instance {p : α × β} [h : Located scope p] : Located scope p.2 := ⟨h.isIn.2⟩

instance {t : Token} [h : Located scope t] : Located scope t.pos :=
  ⟨Position.isIn_iff_forall.mpr fun source hsource => (h.isIn source hsource).pos⟩

instance {h : Template.Hole} [hh : Located scope h] : Located scope h.pos :=
  ⟨Position.isIn_iff_forall.mpr fun source hsource => (hh.isIn source hsource).pos⟩

instance {f : Fault} {p : Position} [h : Located scope p] :
    Located scope (⟨f, p⟩ : Report) := ⟨h.isIn⟩

end

/-! ## 2. Trees -/

section
variable {scope : Option Text}

instance located_node {n : Node} [h : Located scope n.pos?] : Located scope n := ⟨h.isIn⟩

/-- The nodes of a list lie where those of its members do. -/
theorem located_list {α : Type} {nodes : α → List Node} {list : List α → List Node}
    (hlist : ∀ as, list as = as.flatMap nodes) {as : List α}
    (h : ∀ a ∈ as, Placed.IsIn scope (nodes a)) : Located scope (list as) := by
  refine ⟨fun n hn => ?_⟩
  rw [hlist] at hn
  obtain ⟨a, ha, hn⟩ := List.mem_flatMap.mp hn
  exact h a ha n hn

section
variable {e : Expr} {o : Option Expr} {es : List Expr} {quasis : List Quasi}

instance [h : Located scope (expr e)] : Located scope e := ⟨h.isIn⟩

instance [h : Located scope e] : Located scope (expr e) := ⟨h.isIn⟩

instance [h : Located scope o] : Located scope (expr? o) := by
  cases o with
  | none => exact located_nil
  | some e => exact ⟨h.isIn e rfl⟩

instance [h : Located scope es] : Located scope (exprs es) :=
  located_list exprs_eq_flatMap h.isIn

instance [h : Located scope es] :
    Located scope (template quasis es) := by
  obtain ⟨hes⟩ := h
  induction es generalizing quasis with
  | nil =>
    have hquasis : template quasis [] = quasis.map .quasi := by cases quasis <;> rfl
    refine ⟨fun n hn p hp => ?_⟩
    rw [hquasis] at hn
    obtain ⟨q, _, rfl⟩ := List.mem_map.mp hn
    cases hp
  | cons e es ih =>
    obtain ⟨he, hes⟩ := List.forall_mem_cons.mp hes
    cases quasis with
    | nil => exact located_nil
    | cons q quasis =>
      have hrest : Located scope (template quasis es) := ih hes
      exact ⟨List.forall_mem_cons.mpr ⟨nofun, List.forall_mem_append.mpr ⟨he, hrest.isIn⟩⟩⟩

instance [h : Located scope e] : Located scope e.pos := by
  obtain ⟨n, hn, hpos⟩ := Option.bind_eq_some_iff.mp (expr_head e)
  exact ⟨h.isIn n (List.mem_of_head? hn) e.pos hpos⟩

end

instance {p : Property} [h : Located scope (property p)] :
    Located scope p := ⟨h.isIn⟩

instance {ps : List Property} [h : Located scope ps] :
    Located scope (properties ps) :=
  located_list properties_eq_flatMap h.isIn

instance {p : Param} [h : Located scope (param p)] : Located scope p :=
  ⟨h.isIn⟩

instance {ps : List Param} [h : Located scope ps] :
    Located scope (params ps) :=
  located_list params_eq_flatMap h.isIn

instance {e : PatternElement}
    [h : Located scope (patternElement e)] : Located scope e := ⟨h.isIn⟩

instance {es : List PatternElement} [h : Located scope es] :
    Located scope (patternElements es) :=
  located_list patternElements_eq_flatMap h.isIn

instance {p : PatternProperty}
    [h : Located scope (patternProperty p)] : Located scope p := ⟨h.isIn⟩

instance {ps : List PatternProperty} [h : Located scope ps] :
    Located scope (patternProperties ps) :=
  located_list patternProperties_eq_flatMap h.isIn

instance {a : Attribute} [h : Located scope (attr a)] :
    Located scope a := ⟨h.isIn⟩

instance {as : List Attribute} [h : Located scope as] :
    Located scope (attributes as) :=
  located_list attributes_eq_flatMap h.isIn

instance {s : Stmt} [h : Located scope (stmt s)] : Located scope s :=
  ⟨h.isIn⟩

instance {ss : List Stmt} [h : Located scope ss] :
    Located scope (stmts ss) :=
  located_list stmts_eq_flatMap h.isIn

instance {p : Position} [hp : Located scope p] {body : List Stmt}
    [Located scope body] : Located scope (⟨p, body⟩ : Program) := by
  have hnodes : Located scope (Node.program p :: stmts body) := inferInstance
  exact ⟨hnodes.isIn⟩

/-! ## 3. Rules beyond the grammar -/

namespace Check

/-- The reports of rest elements lie where the elements do. -/
theorem located_restLast {α : Type} [Placed α] {rest? : α → Option Position}
    (hrest : ∀ a p, Placed.IsIn scope a → rest? a = some p → Placed.IsIn scope p) {items : List α}
    (h : Located scope items) : Located scope (restLast rest? items) := by
  refine ⟨fun r hr => ?_⟩
  obtain ⟨p, hp, rfl⟩ := List.mem_map.mp hr
  obtain ⟨a, ha, hap⟩ := List.mem_filterMap.mp hp
  exact hrest a p (h.isIn a (List.dropLast_subset _ ha)) hap

instance {ps : List Param} [h : Located scope ps] :
    Located scope (restLast restParam? ps) :=
  located_restLast (fun
    | .rest _ _, _, ha, rfl => ha _ List.mem_cons_self _ rfl) h

instance {es : List PatternElement} [h : Located scope es] :
    Located scope (restLast restElement? es) :=
  located_restLast (fun
    | .rest _ _, _, ha, rfl => ha _ List.mem_cons_self _ rfl) h

instance {ps : List PatternProperty} [h : Located scope ps] :
    Located scope (restLast restProperty? ps) :=
  located_restLast (fun
    | .rest _ _, _, ha, rfl => ha _ List.mem_cons_self _ rfl) h

instance {ps : List Property} [h : Located scope ps] :
    Located scope (computedComplete ps) := by
  refine ⟨fun r hr => ?_⟩
  obtain ⟨p, hp, rfl⟩ := List.mem_map.mp hr
  obtain ⟨a, ha, hap⟩ := List.mem_filterMap.mp hp
  have hin := h.isIn a ha
  unfold incomplete? at hap
  split at hap
  · cases hap
  · cases hap
    exact hin _ List.mem_cons_self _ rfl
  · cases hap

/-- An assignment lies in the source with its target and its value, and so does its fault. -/
theorem located_assignment (scope : Option Text) (sign : AssignSign) (signPos : Position)
    [hsign : Located scope signPos] (target value : Expr) [htarget : Located scope target]
    [hvalue : Located scope value] :
    (∀ e, assignment? sign signPos target value = .ok e → Located scope e) ∧
    ∀ r, assignment? sign signPos target value = .error r → Located scope r := by
  have hpos : Located scope (some target.pos) := inferInstance
  -- What is made of the two is one node more; a slice stands in its assignment as it is.
  have hnodes (n : Node) (hn : n.pos? = some target.pos) :
      Placed.IsIn scope (n :: (expr target ++ expr value)) :=
    List.forall_mem_cons.mpr ⟨fun p hp => hpos.isIn p (hn ▸ hp),
      List.forall_mem_append.mpr ⟨htarget.isIn, hvalue.isIn⟩⟩
  unfold assignment?
  refine ⟨fun e he => ?_, fun r hr => ?_⟩
  · split at he <;> cases he <;> first | exact htarget | exact ⟨hnodes _ rfl⟩
  · split at hr <;> cases hr <;> first | exact ⟨hpos.isIn _ rfl⟩ | exact ⟨hsign.isIn⟩

end Check

/-! ## 4. Templates -/

namespace Template

variable {source : Text}

/-- **The holes of a template token lie in the source.** -/
theorem isIn_holes {t : Token} (h : t.IsIn source) :
    ∀ hole ∈ (split t.pos t.text).holes, hole.IsIn source := by
  intro hole hmem
  obtain ⟨⟨k, hpos, hinner⟩, -⟩ := (parts_split t.pos t.text).2.of_mem hmem
  have hsplit : t.text.take k ++ t.text.drop k <+: source.drop t.pos.offset := by
    rw [List.take_append_drop]
    exact h.text
  obtain ⟨hin, hrest⟩ := h.pos.pass hsplit
  rw [← hpos] at hin hrest
  exact ⟨hin, hinner.trans hrest⟩

instance located_holes {t : Token} [h : Located scope t] :
    Located scope (split t.pos t.text).holes :=
  ⟨fun hole hhole source hsource => isIn_holes (h.isIn source hsource) hole hhole⟩

end Template

/-! ## 5. Children -/

namespace Children

variable {source : Text} {children : List Expr}

/-- A piece lies in the source if its ends do. -/
structure Entry.IsIn (source : Text) (e : Entry) : Prop where
  span : e.span.IsIn source
  node : Placed.IsIn (some source) e.node

/-- Blanks at the start end before a byte that is none. -/
theorem leadingBlanks_le {t u : Text} {b : UInt8} (hb : Byte.isBlank b = false) :
    Text.leadingBlanks (t ++ b :: u) ≤ t.length := by
  induction t with
  | nil => simp [Text.leadingBlanks, hb]
  | cons a t ih =>
    simp only [Text.leadingBlanks, List.cons_append, List.takeWhile_cons] at ih ⊢
    split
    · exact Nat.succ_le_succ ih
    · exact Nat.zero_le _

/-- The part between the blank ends of a text. -/
theorem trimBounds_le {t : Text} {first last : Nat} (h : t.trimBounds = some (first, last)) :
    first ≤ last ∧ last ≤ t.length := by
  unfold Text.trimBounds at h
  split at h
  · cases h
  · rename_i hblank
    rw [Text.isBlank, Bool.not_eq_true, List.all_eq_false] at hblank
    obtain ⟨b, hmem, hb⟩ := hblank
    rw [Bool.not_eq_true] at hb
    obtain ⟨front, back, rfl⟩ := List.append_of_mem hmem
    have hfront := leadingBlanks_le (t := front) (u := back) hb
    have hback := leadingBlanks_le (t := back.reverse) (u := front.reverse) hb
    cases h
    simp only [List.reverse_append, List.reverse_cons, List.append_assoc, List.singleton_append,
      List.length_append, List.length_cons, List.length_reverse] at hback ⊢
    omega

theorem located_position {n : Nat} (h : n ≤ source.length) :
    Located (some source) ((LineMap.ofText source).position n) :=
  ⟨Position.isIn_position h⟩

theorem isIn_piece {s : Slot} {e : Entry} (hs : Placed.IsIn (some source) s)
    (he : piece? (LineMap.ofText source) source s = some e) : e.IsIn source := by
  obtain ⟨hspan, hnode⟩ := hs
  have hspan : s.span.IsIn source := hspan source rfl
  cases s with
  | text span =>
    obtain ⟨⟨first, last⟩, hbounds, rfl⟩ := Option.map_eq_some_iff.mp he
    obtain ⟨hfirst, hlast⟩ := trimBounds_le hbounds
    have hlength : (span.slice source).length ≤ source.length - span.start := by
      rw [Span.slice, List.length_take, List.length_drop]
      exact Nat.min_le_right _ _
    have hstart : span.start ≤ source.length := hspan.start_le
    have hfirst' : span.start + first ≤ source.length := by omega
    refine ⟨⟨hfirst', by simp only; omega⟩, fun e he => ?_⟩
    cases he
    have hpos := located_position hfirst'
    exact Located.isIn
  | node span e' =>
    cases he
    exact ⟨hspan, fun e he => by cases he; exact hnode span e' rfl⟩
  | comment span =>
    cases he
    exact ⟨hspan, nofun⟩

theorem located_blank {before : Option Entry} (hbefore : ∀ b ∈ before, b.IsIn source) (e : Entry) :
    Placed.IsIn (some source) (blank? (LineMap.ofText source) source before e) := by
  intro x hx
  cases before with
  | none => cases hx
  | some b =>
    have hpos := located_position (hbefore b rfl).span.stop_le
    simp only [blank?, Option.mem_def, Option.ite_none_right_eq_some] at hx
    cases hx.2
    exact Located.isIn

/-- Text that joins a text keeps the position of the first one. -/
theorem isIn_push {node : Expr} (hchildren : Placed.IsIn (some source) children)
    (hnode : Placed.IsIn (some source) node) : Placed.IsIn (some source) (push children node) := by
  unfold push
  split
  · obtain ⟨hfirst, hrest⟩ := List.forall_mem_cons.mp hchildren
    have hpos := Located.mk (hfirst _ List.mem_cons_self _ rfl)
    exact List.forall_mem_cons.mpr ⟨Located.isIn, hrest⟩
  · exact List.forall_mem_cons.mpr ⟨hnode, hchildren⟩

theorem isIn_foldl_push {nodes : List Expr} (hchildren : Placed.IsIn (some source) children)
    (hnodes : Placed.IsIn (some source) nodes) :
    Placed.IsIn (some source) (nodes.foldl push children) := by
  induction nodes generalizing children with
  | nil => exact hchildren
  | cons node nodes ih =>
    obtain ⟨hnode, hrest⟩ := List.forall_mem_cons.mp hnodes
    exact ih (isIn_push hchildren hnode) hrest

theorem isIn_join {before : Option Entry} {es : List Entry}
    (hbefore : ∀ b ∈ before, b.IsIn source) (hchildren : Placed.IsIn (some source) children)
    (hes : ∀ e ∈ es, e.IsIn source) :
    Placed.IsIn (some source) (join (LineMap.ofText source) source before children es) := by
  induction es generalizing before children with
  | nil => exact fun e he => hchildren e (List.mem_reverse.mp he)
  | cons e es ih =>
    obtain ⟨he, hes⟩ := List.forall_mem_cons.mp hes
    have hnodes : Placed.IsIn (some source)
        ((blank? (LineMap.ofText source) source before e).toList ++ e.node.toList) := by
      refine List.forall_mem_append.mpr ⟨fun x hx => ?_, fun x hx => ?_⟩
      · exact located_blank hbefore e x (Option.mem_toList.mp hx)
      · exact he.node x (Option.mem_toList.mp hx)
    exact ih (fun b hb => by cases hb; exact he) (isIn_foldl_push hchildren hnodes) hes

/-- **The children that slots leave lie in the source.** -/
theorem located_ofSlots {lines : LineMap} {text : Text} {slots : List Slot}
    (hlines : ∀ source ∈ scope, text = source ∧ lines = LineMap.ofText source)
    (h : Located scope slots) : Located scope (ofSlots lines text slots) := by
  cases scope with
  | none => infer_instance
  | some source =>
    obtain ⟨rfl, rfl⟩ := hlines source rfl
    refine ⟨isIn_join nofun nofun fun e he => ?_⟩
    obtain ⟨s, hs, hpiece⟩ := List.mem_filterMap.mp he
    exact isIn_piece (h.isIn s hs) hpiece

end Children

end

end ReactiveScript
