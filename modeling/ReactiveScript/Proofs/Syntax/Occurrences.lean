import ReactiveScript.Proofs.Syntax.Pieces

/-!
# Where names occur

An identifier occurs in a tree at the end of a way down from its root. What each step of the way
leads to has a role in the piece above it: it is an operand, a label, or it lies in a function. The
roles on the way tell whether the identifier stands for a value that the whole depends on.
-/

namespace ReactiveScript

/-! ## 1. Roles -/

/-- What a part is to the piece right above it. -/
inductive Role where
  | operand
  /-- The name of a member that is not computed, or the key of a property that is neither computed
      nor a value as well. -/
  | label
  /-- A part of a function, or of a statement in it. -/
  | inner
  deriving DecidableEq

/-- The expressions in a property with their roles. -/
def Property.roled : Property → List (Role × Expr)
  | .named _ key value => [(.label, key), (.operand, value)]
  | p => p.parts.map (.operand, ·)

/-- The expressions in a property of an object pattern with their roles. -/
def PatternProperty.roled : PatternProperty → List (Role × Expr)
  | .named _ key target default => (.label, key) :: (target :: default.toList).map (.operand, ·)
  | p => p.parts.map (.operand, ·)

/-- The parts of an expression with their roles. -/
def Expr.roled : Expr → List (Role × Piece)
  | .arrow p ps body => (arrow p ps body).parts.map (.inner, ·)
  | .arrowBlock p ps block body => (arrowBlock p ps block body).parts.map (.inner, ·)
  | .member _ o property false _ => [(.operand, .expr o), (.label, .expr property)]
  | .object _ ps => (ps.flatMap Property.roled).map (Prod.map id .expr)
  | .objectPattern _ ps => (ps.flatMap PatternProperty.roled).map (Prod.map id .expr)
  | e => e.parts.map (.operand, ·)

namespace Piece

/-- The parts of a piece with their roles. -/
def roled : Piece → List (Role × Piece)
  | .expr e => e.roled
  | q => q.parts.map (.inner, ·)

theorem map_snd_flatMap_roled {α : Type} {roled : α → List (Role × Expr)} {parts : α → List Expr}
    (h : ∀ a, (roled a).map Prod.snd = parts a) (as : List α) :
    ((as.flatMap roled).map (Prod.map id expr)).map Prod.snd = ofExprs (as.flatMap parts) := by
  simp [ofExprs, List.map_flatMap, ← h, Function.comp_def]

/-- Each part has one role. -/
theorem map_snd_roled (q : Piece) : q.roled.map Prod.snd = q.parts := by
  cases q with
  | program p => simp [roled, Function.comp_def]
  | stmt s => simp [roled, Function.comp_def]
  | expr e =>
    cases e with
    | member p object property computed optional =>
      cases computed <;> simp [roled, Expr.roled, parts, ofExprs]
    | object p ps =>
      exact map_snd_flatMap_roled
        (fun a => by cases a <;> simp [Property.roled, Function.comp_def]) ps
    | objectPattern p ps =>
      exact map_snd_flatMap_roled
        (fun a => by cases a <;> simp [PatternProperty.roled, Function.comp_def]) ps
    | _ => simp [roled, Expr.roled, parts, Function.comp_def]

theorem mem_parts_of_mem_roled {q r : Piece} {role : Role} (h : (role, r) ∈ q.roled) :
    r ∈ q.parts := by
  rw [← map_snd_roled]
  exact List.mem_map_of_mem (f := Prod.snd) h

end Piece

/-! ## 2. Operands -/

/-- Those of some pieces that are operands. -/
def Role.operandsOf {α : Type} (rs : List (Role × α)) : List α :=
  rs.filterMap fun a => if a.1 = .operand then some a.2 else none

namespace Role
variable {α β : Type}

@[simp] theorem operandsOf_nil : operandsOf ([] : List (Role × α)) = [] := rfl

@[simp] theorem operandsOf_cons_operand (a : α) (rs : List (Role × α)) :
    operandsOf ((.operand, a) :: rs) = a :: operandsOf rs := rfl

@[simp] theorem operandsOf_cons_label (a : α) (rs : List (Role × α)) :
    operandsOf ((.label, a) :: rs) = operandsOf rs := rfl

@[simp] theorem operandsOf_append (rs rs' : List (Role × α)) :
    operandsOf (rs ++ rs') = operandsOf rs ++ operandsOf rs' :=
  List.filterMap_append

@[simp] theorem operandsOf_map_operand (as : List α) :
    operandsOf (as.map (Role.operand, ·)) = as := by
  rw [operandsOf, List.filterMap_map]
  exact List.filterMap_some

@[simp] theorem operandsOf_map_inner (as : List α) : operandsOf (as.map (Role.inner, ·)) = [] := by
  rw [operandsOf, List.filterMap_map]
  exact List.filterMap_eq_nil_iff.mpr fun _ _ => rfl

theorem operandsOf_map_id (f : α → β) (rs : List (Role × α)) :
    operandsOf (rs.map (Prod.map id f)) = (operandsOf rs).map f := by
  rw [operandsOf, operandsOf, List.filterMap_map, List.map_filterMap]
  refine congrArg (rs.filterMap ·) (funext fun r => ?_)
  rw [apply_ite (Option.map f)]
  rfl

theorem mem_operandsOf {a : α} {rs : List (Role × α)} :
    a ∈ operandsOf rs ↔ (Role.operand, a) ∈ rs := by
  simp [operandsOf]

theorem operandsOf_sublist (rs : List (Role × α)) :
    (operandsOf rs).Sublist (rs.map Prod.snd) := by
  induction rs with
  | nil => exact .slnil
  | cons a rs ih =>
    by_cases h : a.1 = .operand
    · simpa [operandsOf, h] using ih
    · simpa [operandsOf, h] using ih.cons _

end Role

/-- The operands of a piece. -/
def Piece.operands (q : Piece) : List Piece := Role.operandsOf q.roled

theorem Piece.operands_sublist (q : Piece) : q.operands.Sublist q.parts :=
  q.map_snd_roled ▸ Role.operandsOf_sublist q.roled

/-! ## 3. Occurrences -/

/-- An identifier with this position and name lies in a piece, and these are the roles on the way
    down to it. -/
inductive Occurs : Piece → List Role → Position → Text → Prop
  | here (p : Position) (x : Text) : Occurs (.expr (.identifier p x)) [] p x
  | step {q r : Piece} {role : Role} {way : List Role} {p : Position} {x : Text}
      (hr : (role, r) ∈ q.roled) (h : Occurs r way p x) : Occurs q (role :: way) p x

/-- An identifier in an expression that does not lie in a function and is no label. -/
def Expr.FreeAt (e : Expr) (p : Position) (x : Text) : Prop :=
  ∃ way, Occurs (.expr e) way p x ∧ .inner ∉ way ∧ way.getLast? ≠ some .label

/-- The first identifier with this name that does not lie in a function and is no label has this
    offset. -/
def Expr.FirstFreeAt (e : Expr) (x : Text) (offset : Nat) : Prop :=
  (∃ p, e.FreeAt p x ∧ p.offset = offset) ∧ ∀ p, e.FreeAt p x → offset ≤ p.offset

theorem Expr.FirstFreeAt.eq {e : Expr} {x : Text} {i j : Nat} (hi : e.FirstFreeAt x i)
    (hj : e.FirstFreeAt x j) : i = j := by
  obtain ⟨⟨p, hp, rfl⟩, hfirst⟩ := hi
  obtain ⟨⟨q, hq, rfl⟩, hfirst'⟩ := hj
  exact Nat.le_antisymm (hfirst q hq) (hfirst' p hp)

/-! ## 4. Ways through operands -/

/-- The labels right below a piece have no parts. -/
def Piece.LabelsEnd (q : Piece) : Prop := ∀ r, (Role.label, r) ∈ q.roled → r.parts = []

/-- A way that leads into no function leads past no label, if labels have no parts. -/
theorem Occurs.forall_operand {q : Piece} {way : List Role} {p : Position} {x : Text}
    (h : Occurs q way p x) (hlabels : ∀ r, Within q r → r.LabelsEnd) (hinner : .inner ∉ way)
    (hlast : way.getLast? ≠ some .label) : ∀ role ∈ way, role = .operand := by
  induction h with
  | here p x => exact nofun
  | @step q r role way p x hr h ih =>
    rw [List.mem_cons, not_or] at hinner
    have hbelow {t : Piece} (ht : Within r t) : t.LabelsEnd :=
      hlabels t (.step (Piece.mem_parts_of_mem_roled hr) ht)
    cases role with
    | operand =>
      refine List.forall_mem_cons.mpr ⟨rfl, ih (fun t => hbelow) hinner.2 fun hlabel => hlast ?_⟩
      rw [List.getLast?_cons, hlabel]
      rfl
    | label =>
      have hleaf := hlabels q (.refl q) r hr
      cases h with
      | here p x => exact absurd rfl hlast
      | step hr' _ => cases hleaf ▸ Piece.mem_parts_of_mem_roled hr'
    | inner => exact absurd rfl hinner.1

theorem Expr.freeAt_iff {e : Expr} {p : Position} {x : Text}
    (hlabels : ∀ r, Within (.expr e) r → r.LabelsEnd) :
    e.FreeAt p x ↔ ∃ way, Occurs (.expr e) way p x ∧ ∀ role ∈ way, role = .operand := by
  constructor
  · rintro ⟨way, h, hinner, hlast⟩
    exact ⟨way, h, h.forall_operand hlabels hinner hlast⟩
  · rintro ⟨way, h, hway⟩
    refine ⟨way, h, fun hinner => ?_, fun hlast => ?_⟩
    · cases hway _ hinner
    · cases hway _ (List.mem_of_getLast? hlast)

end ReactiveScript
