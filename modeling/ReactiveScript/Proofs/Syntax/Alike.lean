import ReactiveScript.Grammar.Function
import ReactiveScript.Proofs.Syntax.Order
import ReactiveScript.Proofs.Syntax.Unplaced

/-!
# What does not depend on places

Two trees that are the same up to the places of their nodes are judged alike by the rules beyond the
grammar, and the parts of a template and the children of an element are the same wherever they
stand.
-/

namespace ReactiveScript

/-! ## 1. Lists of parts -/

namespace Unplaced

theorem expr?_eq_map (o : Option Expr) : expr? o = o.map Expr.unplaced := by
  cases o <;> rw [expr?] <;> rfl

theorem properties_eq_map (ps : List Property) : properties ps = ps.map property :=
  eq_map_of_cons (by rw [properties]) (fun _ _ => by rw [properties]) ps

theorem patternElements_eq_map (es : List PatternElement) :
    patternElements es = es.map patternElement :=
  eq_map_of_cons (by rw [patternElements]) (fun _ _ => by rw [patternElements]) es

theorem patternProperties_eq_map (ps : List PatternProperty) :
    patternProperties ps = ps.map patternProperty :=
  eq_map_of_cons (by rw [patternProperties]) (fun _ _ => by rw [patternProperties]) ps

theorem attributes_eq_map (as : List Attribute) : attributes as = as.map attr :=
  eq_map_of_cons (by rw [attributes]) (fun _ _ => by rw [attributes]) as

theorem stmts_eq_map (ss : List Stmt) : stmts ss = ss.map stmt :=
  eq_map_of_cons (by rw [stmts]) (fun _ _ => by rw [stmts]) ss

end Unplaced

/-! ## 2. Rules beyond the grammar -/

namespace Expr
variable {e e' : Expr}

theorem isBinding_unplaced (e : Expr) : e.unplaced.isBinding = e.isBinding := by
  cases e <;> rw [unplaced] <;> rfl

theorem declares_unplaced (e : Expr) : e.unplaced.declares = e.declares := by
  cases e with
  | assign p op target value =>
    rw [unplaced]
    cases op <;> cases target <;> rw [unplaced] <;> rfl
  | _ => rw [unplaced]; rfl

end Expr

namespace Check

/-- Whether only the last element is a rest element can be seen without the places. -/
theorem restLast_congr {α : Type} {rest? : α → Option Position} {k : α → α}
    (hk : ∀ a, rest? (k a) = none ↔ rest? a = none) {as bs : List α}
    (h : bs.map k = as.map k) (has : restLast rest? as = []) : restLast rest? bs = [] := by
  have hnil (as : List α) : restLast rest? as = [] ↔
      ∀ a ∈ (as.map k).dropLast, rest? a = none := by
    rw [restLast, List.map_eq_nil_iff, List.filterMap_eq_nil_iff, ← List.map_dropLast]
    simp only [List.forall_mem_map, hk]
  rw [hnil] at has ⊢
  rwa [h]

theorem restParam?_unplaced (p : Param) :
    restParam? (Unplaced.param p) = none ↔ restParam? p = none := by
  cases p <;> simp [Unplaced.param, restParam?]

theorem restElement?_unplaced (e : PatternElement) :
    restElement? (Unplaced.patternElement e) = none ↔ restElement? e = none := by
  cases e <;> simp [Unplaced.patternElement, restElement?]

theorem restProperty?_unplaced (p : PatternProperty) :
    restProperty? (Unplaced.patternProperty p) = none ↔ restProperty? p = none := by
  cases p <;> simp [Unplaced.patternProperty, restProperty?]

theorem incomplete?_unplaced (p : Property) :
    incomplete? (Unplaced.property p) = none ↔ incomplete? p = none := by
  cases p with
  | computed p key value =>
    cases key <;> cases value <;> simp [Unplaced.property, Unplaced.expr?, incomplete?]
  | _ => simp [Unplaced.property, incomplete?]

theorem computedComplete_congr {ps qs : List Property}
    (h : qs.map Unplaced.property = ps.map Unplaced.property) (hps : computedComplete ps = []) :
    computedComplete qs = [] := by
  have hnil (ps : List Property) : computedComplete ps = [] ↔
      ∀ p ∈ ps.map Unplaced.property, incomplete? p = none := by
    rw [computedComplete, List.map_eq_nil_iff, List.filterMap_eq_nil_iff]
    simp only [List.forall_mem_map, incomplete?_unplaced]
  rw [hnil] at hps ⊢
  rwa [h]

/-- What an assignment gives, without places. -/
theorem assignment?_unplaced (sign : AssignSign) (p q : Position) (target value : Expr) :
    (assignment? sign q target.unplaced value.unplaced).toOption =
      (assignment? sign p target value).toOption.map Expr.unplaced := by
  rcases sign with _ | _ | op <;> cases target <;>
    simp [assignment?, Expr.unplaced, Expr.pos, Except.toOption]

/-- A sign that can stand behind a target can do so wherever the target stands. -/
theorem assignment?_congr {sign : AssignSign} {p q : Position}
    {target target' value value' e : Expr} (htarget : target'.unplaced = target.unplaced)
    (hvalue : value'.unplaced = value.unplaced)
    (h : assignment? sign p target value = .ok e) :
    ∃ e', assignment? sign q target' value' = .ok e' ∧ e'.unplaced = e.unplaced := by
  have hsame : (assignment? sign q target' value').toOption.map Expr.unplaced =
      some e.unplaced := by
    rw [← assignment?_unplaced sign q .start, htarget, hvalue,
      assignment?_unplaced sign p .start, h]
    rfl
  cases he' : assignment? sign q target' value' with
  | error r =>
    rw [he'] at hsame
    cases hsame
  | ok e' =>
    rw [he'] at hsame
    exact ⟨e', rfl, Option.some.inj hsame⟩

end Check

/-! ## 3. Templates -/

namespace Template

/-- What a hole is, so many bytes further. -/
def Hole.shifted (shift : Nat) (h : Hole) : Text × Nat := (h.inner, shift + h.pos.offset)

/-- The parts of a template that has moved. -/
theorem splitFrom_shifted {shift : Nat} (stop : Nat) (pending : Pending) (i : Nat) (p q : Position)
    (part : Text) (quasis : List Text) (holes holes' : List Hole) (t : Text)
    (hpos : q.offset = shift + p.offset)
    (hholes : holes'.map (Hole.shifted 0) = holes.map (Hole.shifted shift)) {r : Parts}
    (hr : splitFrom stop pending i q part quasis holes' t = r) :
    r.quasis = (splitFrom stop pending i p part quasis holes t).quasis ∧
    r.holes.map (Hole.shifted 0) =
      (splitFrom stop pending i p part quasis holes t).holes.map (Hole.shifted shift) := by
  have hstep (b : UInt8) {p q : Position} (hpos : q.offset = shift + p.offset) :
      (q.step b).offset = shift + (p.step b).offset := by
    rw [step_offset, step_offset, hpos, Nat.add_assoc]
  fun_induction splitFrom stop pending i p part quasis holes t generalizing q holes'
  case case1 =>
    rw [← hr]
    exact ⟨rfl, by simp [splitFrom, hholes]⟩
  case case2 hstop =>
    rw [splitFrom.eq_def] at hr
    simp only [hstop, if_true] at hr
    rw [← hr]
    exact ⟨rfl, by simp [hholes]⟩
  case case6 =>
    rename_i b rest hstop _ hmark length hole _ _ ih
    refine ih (q.step b) (⟨(q.step b).step Byte.openBrace, hole.inner⟩ :: holes')
      (hstep b hpos) ?_ ?_
    · rw [List.map_cons, List.map_cons, hholes, Hole.shifted, hstep _ (hstep b hpos), Nat.zero_add]
      rfl
    · have hdollar : Byte.dollar ≠ Byte.backslash := by decide
      rw [← hr]
      conv => rhs; rw [splitFrom.eq_def]
      simp [hstop, hmark, hdollar, hole, length]
  all_goals
    rename_i ih
    refine ih _ _ (hstep _ hpos) hholes ?_
    rw [← hr]
    conv => rhs; rw [splitFrom.eq_def]
    simp [*]

/-- **The parts of a template that has moved** are the same, with the holes so much further. -/
theorem split_shifted {shift : Nat} {p q : Position} (t : Text)
    (hpos : q.offset = shift + p.offset) :
    (split q t).quasis = (split p t).quasis ∧
    (split q t).holes.map (Hole.shifted 0) = (split p t).holes.map (Hole.shifted shift) := by
  have hstart : (q.advance (t.take 1)).offset = shift + (p.advance (t.take 1)).offset := by
    rw [Position.advance_offset, Position.advance_offset, hpos, Nat.add_assoc]
  exact splitFrom_shifted (bodyEnd t) .nothing 1 _ _ [] [] [] [] (t.drop 1) hstart rfl rfl

/-- A hole of a template that is closed ends before the last byte. -/
theorem split_hole_lt {p : Position} {t : Text}
    (hclosed : 2 ≤ t.length ∧ t.getLast? = some Byte.backtick) {h : Hole}
    (hh : h ∈ (split p t).holes) : h.span.stop < p.offset + t.length := by
  have hstop := ((parts_split p t).2.of_mem hh).2
  rw [bodyEnd, if_pos hclosed] at hstop
  omega

end Template

/-! ## 4. Children -/

/-- A span so many bytes further. -/
def Span.shifted (shift : Nat) (s : Span) : Span := ⟨shift + s.start, shift + s.stop⟩

/-- A slot so many bytes further, its node without places. -/
def Slot.shifted (shift : Nat) : Slot → Slot
  | .text s => .text (s.shifted shift)
  | .node s e => .node (s.shifted shift) e.unplaced
  | .comment s => .comment (s.shifted shift)

/-- A slot that lies in a source of so many bytes. -/
structure Slot.Within (length : Nat) (s : Slot) : Prop where
  start_le : s.span.start ≤ length
  stop_le : s.span.stop ≤ length
  text_le : ∀ span, s = .text span → span.start ≤ span.stop

namespace Children

/-- A piece so many bytes further, its node without places. -/
def Entry.shifted (shift : Nat) (e : Entry) : Span × Option Expr :=
  (e.span.shifted shift, e.node.map Expr.unplaced)

/-- Adding a child does not depend on places. -/
theorem push_unplaced (children : List Expr) (node : Expr) :
    (push children node).map Expr.unplaced =
      push (children.map Expr.unplaced) node.unplaced := by
  cases node with
  | jsxText p v =>
    cases children with
    | nil => simp [push, Expr.unplaced]
    | cons e es => cases e <;> simp [push, Expr.unplaced]
  | _ => simp [push, Expr.unplaced]

theorem foldl_push_unplaced (nodes children : List Expr) :
    (nodes.foldl push children).map Expr.unplaced =
      (nodes.map Expr.unplaced).foldl push (children.map Expr.unplaced) := by
  induction nodes generalizing children with
  | nil => rfl
  | cons node nodes ih => rw [List.foldl_cons, ih, push_unplaced, List.map_cons, List.foldl_cons]

/-- A run of text lies where its slot lies once it is trimmed. -/
theorem trimmed_le {source : Text} {s : Span} (hs : (Slot.text s).Within source.length)
    {first last : Nat} (h : (s.slice source).trimBounds = some (first, last)) :
    first ≤ last ∧ s.start + last ≤ source.length := by
  have hle := hs.text_le s rfl
  have hstop : s.stop ≤ source.length := hs.stop_le
  have hlength : (s.slice source).length ≤ s.stop - s.start := by
    rw [Span.slice, List.length_take, Span.size, if_pos hle]
    exact Nat.min_le_left _ _
  obtain ⟨hfirst, hlast⟩ := trimBounds_le h
  omega

section
variable {source whole : Text} {shift : Nat} (lines lines' : LineMap)
  (hslice : ∀ s : Span, s.start ≤ s.stop → s.stop ≤ source.length →
    (s.shifted shift).slice whole = s.slice source)
include hslice

theorem piece?_shifted {s s' : Slot} (h : s'.shifted 0 = s.shifted shift)
    (hs : s.Within source.length) :
    (piece? lines' whole s').map (Entry.shifted 0) =
      (piece? lines source s).map (Entry.shifted shift) := by
  cases s with
  | text span =>
    cases s' with
    | text span' =>
      obtain rfl : span' = span.shifted shift := by
        simp only [Slot.shifted, Slot.text.injEq] at h
        rw [← h, Span.shifted, Nat.zero_add, Nat.zero_add]
      rw [piece?, piece?, hslice span (hs.text_le span rfl) hs.stop_le]
      cases hbounds : (span.slice source).trimBounds with
      | none => rfl
      | some bounds =>
        obtain ⟨first, last⟩ := bounds
        obtain ⟨hfirst, hlast⟩ := trimmed_le hs hbounds
        have htrimmed := hslice ⟨span.start + first, span.start + last⟩
          (Nat.add_le_add_left hfirst _) hlast
        simp only [Span.shifted] at htrimmed
        simp only [Option.map_some, Entry.shifted, Expr.unplaced, Span.shifted, Nat.zero_add,
          Nat.add_assoc, htrimmed]
    | _ => cases h
  | node span e =>
    cases s' with
    | node span' e' =>
      simp only [Slot.shifted, Slot.node.injEq] at h
      simp [piece?, Entry.shifted, h]
    | _ => cases h
  | comment span =>
    cases s' with
    | comment span' =>
      simp only [Slot.shifted, Slot.comment.injEq] at h
      simp [piece?, Entry.shifted, h]
    | _ => cases h

theorem blank?_shifted {before before' : Option Entry} {e e' : Entry}
    (hbefore : before'.map (Entry.shifted 0) = before.map (Entry.shifted shift))
    (he : e'.shifted 0 = e.shifted shift) (hstart : e.span.start ≤ source.length) :
    (blank? lines' whole before' e').map Expr.unplaced =
      (blank? lines source before e).map Expr.unplaced := by
  cases before with
  | none =>
    cases before' with
    | none => rfl
    | some b' => cases hbefore
  | some b =>
    cases before' with
    | none => cases hbefore
    | some b' =>
      simp only [Option.map_some, Option.some.injEq, Entry.shifted, Prod.mk.injEq, Span.shifted,
        Nat.zero_add, Span.mk.injEq] at hbefore he
      have hgap : leavesBlank whole ⟨b'.span.stop, e'.span.start⟩ =
          leavesBlank source ⟨b.span.stop, e.span.start⟩ := by
        rw [hbefore.1.2, he.1.1]
        unfold leavesBlank
        by_cases hempty : e.span.start ≤ b.span.stop
        · simp [Span.isEmpty, hempty]
        · have hsame := hslice ⟨b.span.stop, e.span.start⟩ (by simp only; omega) hstart
          simp only [Span.shifted] at hsame
          simp [Span.isEmpty, hsame]
      simp only [blank?, hgap]
      split <;> simp [Expr.unplaced]

theorem join_shifted {before before' : Option Entry} {children children' : List Expr}
    {es es' : List Entry}
    (hbefore : before'.map (Entry.shifted 0) = before.map (Entry.shifted shift))
    (hchildren : children'.map Expr.unplaced = children.map Expr.unplaced)
    (hes : es'.map (Entry.shifted 0) = es.map (Entry.shifted shift))
    (hstart : ∀ e ∈ es, e.span.start ≤ source.length) :
    (join lines' whole before' children' es').map Expr.unplaced =
      (join lines source before children es).map Expr.unplaced := by
  induction es generalizing before before' children children' es' with
  | nil =>
    cases es' with
    | nil => simp [join, hchildren]
    | cons e' es' => cases hes
  | cons e es ih =>
    cases es' with
    | nil => cases hes
    | cons e' es' =>
      rw [List.map_cons, List.map_cons, List.cons.injEq] at hes
      obtain ⟨he, hes⟩ := hes
      obtain ⟨hfirst, hrest⟩ := List.forall_mem_cons.mp hstart
      have hblank := blank?_shifted lines lines' hslice hbefore he hfirst
      have hnode : e'.node.map Expr.unplaced = e.node.map Expr.unplaced := (Prod.ext_iff.mp he).2
      have htoList (o o' : Option Expr) (h : o'.map Expr.unplaced = o.map Expr.unplaced) :
          o'.toList.map Expr.unplaced = o.toList.map Expr.unplaced := by
        cases o <;> cases o' <;> simp_all
      rw [join, join]
      refine ih (by simp [he]) ?_ hes hrest
      rw [foldl_push_unplaced, foldl_push_unplaced, List.map_append, List.map_append,
        htoList _ _ hblank, htoList _ _ hnode, hchildren]

theorem entries_shifted {ss ss' : List Slot}
    (h : ss'.map (Slot.shifted 0) = ss.map (Slot.shifted shift))
    (hss : ∀ s ∈ ss, s.Within source.length) :
    (entries lines' whole ss').map (Entry.shifted 0) =
      (entries lines source ss).map (Entry.shifted shift) := by
  induction ss generalizing ss' with
  | nil =>
    cases ss' with
    | nil => rfl
    | cons s' ss' => cases h
  | cons s ss ih =>
    cases ss' with
    | nil => cases h
    | cons s' ss' =>
      rw [List.map_cons, List.map_cons, List.cons.injEq] at h
      obtain ⟨hfirst, hrest⟩ := List.forall_mem_cons.mp hss
      have hpiece := piece?_shifted lines lines' hslice h.1 hfirst
      have hentries := ih h.2 hrest
      rw [entries, entries] at hentries ⊢
      rw [List.filterMap_cons, List.filterMap_cons]
      cases hs : piece? lines source s <;> cases hs' : piece? lines' whole s' <;>
        simp_all

end

theorem start_le_of_mem_entries {lines : LineMap} {source : Text} {ss : List Slot} {e : Entry}
    (hss : ∀ s ∈ ss, s.Within source.length) (he : e ∈ entries lines source ss) :
    e.span.start ≤ source.length := by
  obtain ⟨s, hs, hpiece⟩ := List.mem_filterMap.mp he
  have hwithin := hss s hs
  cases s with
  | text span =>
    obtain ⟨bounds, hbounds, rfl⟩ := Option.map_eq_some_iff.mp hpiece
    obtain ⟨hfirst, hlast⟩ := trimmed_le hwithin hbounds
    exact Nat.le_trans (Nat.add_le_add_left hfirst _) hlast
  | node span e =>
    obtain rfl := Option.some.inj hpiece
    exact hwithin.start_le
  | comment span =>
    obtain rfl := Option.some.inj hpiece
    exact hwithin.start_le

/-- **The children of an element that has moved** are the same. -/
theorem ofSlots_shifted {lines lines' : LineMap} {source whole : Text} {shift : Nat}
    (hslice : ∀ s : Span, s.start ≤ s.stop → s.stop ≤ source.length →
      (s.shifted shift).slice whole = s.slice source) {ss ss' : List Slot}
    (h : ss'.map (Slot.shifted 0) = ss.map (Slot.shifted shift))
    (hss : ∀ s ∈ ss, s.Within source.length) :
    (ofSlots lines' whole ss').map Expr.unplaced = (ofSlots lines source ss).map Expr.unplaced := by
  have hentries := entries_shifted lines lines' hslice h hss
  refine join_shifted lines lines' hslice ?_ ?_ hentries fun e he => start_le_of_mem_entries hss he
  · rfl
  · rfl

end Children
/-! ## 5. Functions -/

/-- The value that a block stands for is the same wherever the block stands. -/
theorem Grammar.soleValue?_congr {b b' : Block}
    (h : Unplaced.stmts b'.body = Unplaced.stmts b.body) :
    (soleValue? b').map Expr.unplaced = (soleValue? b).map Expr.unplaced := by
  have hsole (b : Block) : (soleValue? b).map Expr.unplaced =
      soleValue? ⟨.start, Unplaced.stmts b.body⟩ := by
    rcases b with ⟨p, _ | ⟨s, _ | ⟨s', rest⟩⟩⟩
    · rfl
    · cases s with
      | expression q modifier e =>
        cases modifier with
        | none =>
          simp only [soleValue?, Unplaced.stmts, Unplaced.stmt, Expr.isBinding_unplaced]
          split <;> rfl
        | some m => simp [soleValue?, Unplaced.stmts, Unplaced.stmt]
      | _ => simp [soleValue?, Unplaced.stmts, Unplaced.stmt]
    · simp [soleValue?, Unplaced.stmts]
  rw [hsole, hsole, h]

end ReactiveScript
