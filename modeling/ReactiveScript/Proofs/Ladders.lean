import ReactiveScript.Proofs.RoundTrip

/-!
# Ladders of operators

Names with binary operators between them are read as the one tree that has these names and operators
from left to right, and in which every operand binds tightly enough for its side of the operator
above it.
-/

namespace ReactiveScript

open Lexed

/-! ## 1. Rows of names and operators -/

/-- Names and operators in a row. -/
abbrev Row := List (Text ⊕ BinaryOp)

namespace Row

/-- A name, and further names with an operator in front of each. -/
def ladder (x : Text) (more : List (BinaryOp × Text)) : Row :=
  .inl x :: more.flatMap fun q => [.inr q.1, .inl q.2]

/-- The row as a source, with single blanks. -/
def text (row : Row) : Text := Text.join [Byte.space] (row.map (Sum.elim id BinaryOp.spelling))

/-- The tokens of the row. -/
def lexed (row : Row) : List Lexed := row.map (Sum.elim Lexed.name fun op => .fixed op.token)

/-- How many names stand in the row. -/
def names (row : Row) : Nat := row.countP Sum.isLeft

/-- How many operators stand in the row. -/
def operators (row : Row) : Nat := row.countP Sum.isRight

section
variable (row row' : Row) (op : BinaryOp)

theorem names_append :
    names (row ++ .inr op :: row') = names row + names row' := by
  simp only [names, List.countP_append, List.countP_cons]
  rfl

theorem operators_append :
    operators (row ++ .inr op :: row') = operators row + operators row' + 1 := by
  simp only [operators, List.countP_append, List.countP_cons]
  rfl

end

theorem ladder_cons (x : Text) (q : BinaryOp × Text) (more : List (BinaryOp × Text)) :
    ladder x (q :: more) = [.inl x] ++ .inr q.1 :: ladder q.2 more :=
  rfl

theorem operators_ladder (x : Text) (more : List (BinaryOp × Text)) :
    operators (ladder x more) = more.length := by
  induction more generalizing x with
  | nil => rfl
  | cons q more ih =>
    have hname : operators [.inl x] = 0 := rfl
    rw [ladder_cons, operators_append, ih, hname, List.length_cons, Nat.zero_add]

theorem names_ladder (x : Text) (more : List (BinaryOp × Text)) :
    names (ladder x more) = more.length + 1 := by
  induction more generalizing x with
  | nil => rfl
  | cons q more ih =>
    have hname : names [.inl x] = 1 := rfl
    rw [ladder_cons, names_append, ih, hname, List.length_cons, Nat.add_comm]

/-- A row around two operators: they are the same, or each is on one side of the other. -/
theorem append_eq_cases {l r l' r' : Row} {op op' : BinaryOp}
    (h : l' ++ .inr op' :: r' = l ++ .inr op :: r) :
    (l' = l ∧ op' = op ∧ r' = r) ∨ (.inr op' ∈ l ∧ .inr op ∈ r') ∨
      (.inr op ∈ l' ∧ .inr op' ∈ r) := by
  rcases List.append_eq_append_iff.mp h with ⟨gap, hl, hr⟩ | ⟨gap, hl, hr⟩
  · cases gap with
    | nil =>
      cases hr
      exact .inl ⟨by rw [hl, List.append_nil], rfl, rfl⟩
    | cons x gap =>
      cases hr
      exact .inr (.inl ⟨by simp [hl], by simp⟩)
  · cases gap with
    | nil =>
      cases hr
      exact .inl ⟨by rw [hl, List.append_nil], rfl, rfl⟩
    | cons x gap =>
      cases hr
      exact .inr (.inr ⟨by simp [hl], by simp⟩)

end Row

/-! ## 2. Trees of operators -/

namespace Expr

/-- The names and operators of a tree, from left to right. -/
def inOrder : Expr → Row
  | .identifier _ x => [.inl x]
  | .binary _ op l r => l.inOrder ++ .inr op :: r.inOrder
  | _ => []

/-- The operator at the top of a tree. -/
def operator? : Expr → Option BinaryOp
  | .binary _ op _ _ => some op
  | _ => none

end Expr

namespace BinaryOp

/-- Does an operator bind tightly enough at the top of the left operand of another? The operators
    `**` and `<|` group to the right, so that it has to bind tighter than these. -/
def FitsLeft (parent child : BinaryOp) : Prop :=
  if parent = .power ∨ parent = .compose then parent.strength < child.strength
  else parent.strength ≤ child.strength

/-- Does an operator bind tightly enough at the top of the right operand of another? -/
def FitsRight (parent child : BinaryOp) : Prop :=
  if parent = .power ∨ parent = .compose then parent.strength ≤ child.strength
  else parent.strength < child.strength

/-- The kind of node that an operator asks for. -/
def Asks (op : BinaryOp) (k : ExprKind) : Prop :=
  (k = .logical ↔ op = .and ∨ op = .or ∨ op = .nullish) ∧ (k = .pipe ↔ op = .pipe) ∧
    (k = .compose ↔ op = .compose) ∧
    (k = .logical ∨ k = .pipe ∨ k = .compose ∨ k = .binary)

theorem groupsRight_iff {op : BinaryOp} :
    op.groupsRight = true ↔ op = .power ∨ op = .compose := by
  cases op <;> decide

theorem fitsLeft_iff {parent child : BinaryOp} :
    parent.FitsLeft child ↔ parent.leftStrength ≤ child.strength := by
  simp only [FitsLeft, leftStrength, groupsRight_iff]
  split <;> rfl

theorem fitsRight_iff {parent child : BinaryOp} :
    parent.FitsRight child ↔ parent.rightStrength ≤ child.strength := by
  simp only [FitsRight, rightStrength, groupsRight_iff]
  split <;> rfl

/-- An operator that does not fit into the right operand of another takes the other into its left
    operand. -/
theorem leftStrength_le_of_lt {op₁ op₂ : BinaryOp} (h : op₂.strength < op₁.rightStrength) :
    op₂.leftStrength ≤ op₁.strength := by
  revert h
  cases op₁ <;> cases op₂ <;> decide

end BinaryOp

namespace Expr

variable {op : BinaryOp} {e : Expr}

/-- The operands in a tree of operators bind tightly enough for their places, and its nodes are of
    the kinds that the operators ask for. -/
def Climbs : Expr → Prop
  | .binary p op l r =>
    (∀ o, l.operator? = some o → op.FitsLeft o) ∧ (∀ o, r.operator? = some o → op.FitsRight o) ∧
      op.Asks (Expr.binary p op l r).kind ∧ l.Climbs ∧ r.Climbs
  | _ => True

theorem climbs_binary {p : Position} {l r : Expr} :
    (binary p op l r).Climbs ↔
      (∀ o, l.operator? = some o → op.leftStrength ≤ o.strength) ∧
        (∀ o, r.operator? = some o → op.rightStrength ≤ o.strength) ∧ l.Climbs ∧ r.Climbs := by
  have hasks : op.Asks (binary p op l r).kind := by
    cases op <;> simp [BinaryOp.Asks, kind, ExprKind.ofBinary]
  simp only [Climbs, BinaryOp.fitsLeft_iff, BinaryOp.fitsRight_iff, hasks, true_and]

theorem inOrder_unplaced (e : Expr) : e.unplaced.inOrder = e.inOrder := by
  fun_induction inOrder e with
  | case1 => rw [unplaced, inOrder]
  | case2 p op l r hl hr => rw [unplaced, inOrder, hl, hr]
  | case3 e hname hbinary =>
    cases e with
    | identifier p x => exact absurd rfl (hname p x)
    | binary p op l r => exact absurd rfl (hbinary p op l r)
    | _ => rw [unplaced]; rfl

theorem operator?_unplaced (e : Expr) : e.unplaced.operator? = e.operator? := by
  cases e <;> rw [unplaced] <;> rfl

theorem climbs_unplaced (e : Expr) : e.unplaced.Climbs ↔ e.Climbs := by
  fun_induction Climbs e with
  | case1 p op l r hl hr =>
    rw [unplaced, climbs_binary, operator?_unplaced, operator?_unplaced, hl, hr, ← climbs_binary,
      Climbs]
  | case2 e hbinary =>
    cases e with
    | binary p op l r => exact absurd rfl (hbinary p op l r)
    | _ => rw [unplaced]; rfl

/-! ## 3. There is at most one tree -/

/-- An operator binds at least as tightly as the one at the top. -/
theorem Climbs.top_le (h : e.Climbs) (hop : .inr op ∈ e.inOrder) :
    ∃ top, e.operator? = some top ∧ top.strength ≤ op.strength := by
  fun_induction inOrder e with
  | case1 => simp at hop
  | case2 p o l r ihl ihr =>
    obtain ⟨hl, hr, hlc, hrc⟩ := climbs_binary.mp h
    refine ⟨o, rfl, ?_⟩
    rcases List.mem_append.mp hop with hop | hop
    · obtain ⟨top, htop, hle⟩ := ihl hlc hop
      exact Nat.le_trans o.strength_le_leftStrength (Nat.le_trans (hl top htop) hle)
    rcases List.mem_cons.mp hop with hop | hop
    · cases hop
      exact Nat.le_refl _
    · obtain ⟨top, htop, hle⟩ := ihr hrc hop
      have hright : o.strength ≤ o.rightStrength := by
        unfold BinaryOp.rightStrength
        split <;> omega
      exact Nat.le_trans hright (Nat.le_trans (hr top htop) hle)
  | case3 => cases hop

/-- Of two operators in a row only one can be above the other. -/
theorem Climbs.not_crossed {p q : Position} {op₁ op₂ : BinaryOp} {l₁ r₁ l₂ r₂ : Expr}
    (h₁ : (binary p op₁ l₁ r₁).Climbs) (h₂ : (binary q op₂ l₂ r₂).Climbs)
    (hleft : .inr op₁ ∈ l₂.inOrder) (hright : .inr op₂ ∈ r₁.inOrder) : False := by
  obtain ⟨-, hr, -, hrc⟩ := climbs_binary.mp h₁
  obtain ⟨hl, -, hlc, -⟩ := climbs_binary.mp h₂
  obtain ⟨top₁, htop₁, hle₁⟩ := hrc.top_le hright
  obtain ⟨top₂, htop₂, hle₂⟩ := hlc.top_le hleft
  have hbelow := Nat.le_trans (hr top₁ htop₁) hle₁
  have habove := BinaryOp.strength_lt_of_leftStrength_le (Nat.le_trans (hl top₂ htop₂) hle₂)
  omega

theorem names_inOrder_le (e : Expr) : e.inOrder.names ≤ e.inOrder.operators + 1 := by
  fun_induction inOrder e with
  | case1 => exact Nat.le_refl _
  | case2 p op l r hl hr =>
    rw [Row.names_append, Row.operators_append]
    omega
  | case3 => exact Nat.zero_le _

/-- If a tree has one name more than operators, so have its operands. -/
theorem names_inOrder_operands {op : BinaryOp} {l r : Expr}
    (h : Row.names (l.inOrder ++ .inr op :: r.inOrder) =
      Row.operators (l.inOrder ++ .inr op :: r.inOrder) + 1) :
    l.inOrder.names = l.inOrder.operators + 1 ∧ r.inOrder.names = r.inOrder.operators + 1 := by
  have hl := names_inOrder_le l
  have hr := names_inOrder_le r
  rw [Row.names_append, Row.operators_append] at h
  omega

/-- A tree with an operator in its row has one at its top. -/
theorem exists_binary_of_mem (h : .inr op ∈ e.inOrder) : ∃ p o l r, e = .binary p o l r := by
  revert h
  fun_cases inOrder e with
  | case1 p x => simp
  | case2 p o l r => exact fun _ => ⟨p, o, l, r, rfl⟩
  | case3 => nofun

/-- **The tree is determined by its names and operators**, if there is one more of the names. -/
theorem unplaced_eq_of_inOrder {e' : Expr} (h : e.Climbs) (h' : e'.Climbs)
    (hrow : e'.inOrder = e.inOrder) (hnames : e.inOrder.names = e.inOrder.operators + 1) :
    e'.unplaced = e.unplaced := by
  fun_induction inOrder e generalizing e' with
  | case1 p x =>
    revert hrow
    fun_cases inOrder e' with
    | case1 q y =>
      intro hrow
      cases hrow
      rw [unplaced, unplaced]
    | case2 q op l r => simp [List.append_eq_cons_iff]
    | case3 =>
      intro hrow
      cases hrow
  | case2 p op l r ihl ihr =>
    have hop : .inr op ∈ e'.inOrder := by simp [hrow]
    obtain ⟨q, op', l', r', rfl⟩ := exists_binary_of_mem hop
    obtain ⟨-, -, hl, hr⟩ := climbs_binary.mp h
    obtain ⟨-, -, hl', hr'⟩ := climbs_binary.mp h'
    obtain ⟨hnl, hnr⟩ := names_inOrder_operands hnames
    rcases Row.append_eq_cases hrow with ⟨heql, rfl, heqr⟩ | ⟨hleft, hright⟩ | ⟨hleft, hright⟩
    · rw [unplaced, unplaced, ihl hl hl' heql hnl, ihr hr hr' heqr hnr]
    · exact (h'.not_crossed h hleft hright).elim
    · exact (h.not_crossed h' hleft hright).elim
  | case3 => cases hnames

/-! ## 4. There is a tree -/

/-- The tree with one more operator and name on the right: it goes down the right operands as long
    as the operator fits there. -/
def graft (op : BinaryOp) (y : Text) : Expr → Expr
  | .binary p o l r =>
    if o.rightStrength ≤ op.strength then .binary p o l (r.graft op y)
    else .binary .start op (.binary p o l r) (.identifier .start y)
  | e => .binary .start op e (.identifier .start y)

/-- The tree of a row. -/
def tower (x : Text) (more : List (BinaryOp × Text)) : Expr :=
  more.foldl (fun e q => e.graft q.1 q.2) (.identifier .start x)

theorem inOrder_graft (op : BinaryOp) (y : Text) (e : Expr) :
    (e.graft op y).inOrder = e.inOrder ++ [.inr op, .inl y] := by
  fun_induction graft op y e with
  | case1 p o l r _ ih => rw [inOrder, ih, inOrder, List.append_assoc, List.cons_append]
  | case2 p o l r => rw [inOrder, inOrder]
  | case3 e => rw [inOrder, inOrder]

theorem operator?_graft {o : BinaryOp} {y : Text} (h : (e.graft op y).operator? = some o) :
    e.operator? = some o ∨ o = op := by
  revert h
  fun_cases graft op y e with
  | case1 => exact .inl
  | case2 => exact fun h => .inr (Option.some.inj h).symm
  | case3 => exact fun h => .inr (Option.some.inj h).symm

theorem climbs_graft (op : BinaryOp) (y : Text) (h : e.Climbs) : (e.graft op y).Climbs := by
  fun_induction graft op y e with
  | case1 p o l r hfits ih =>
    obtain ⟨hl, hr, hlc, hrc⟩ := climbs_binary.mp h
    refine climbs_binary.mpr ⟨hl, fun o' ho' => ?_, hlc, ih hrc⟩
    rcases operator?_graft ho' with ho' | rfl
    · exact hr o' ho'
    · exact hfits
  | case2 p o l r hfits =>
    refine climbs_binary.mpr ⟨fun o' ho' => ?_, nofun, h, trivial⟩
    cases ho'
    exact BinaryOp.leftStrength_le_of_lt (Nat.lt_of_not_le hfits)
  | case3 e hbinary =>
    refine climbs_binary.mpr ⟨fun o' ho' => ?_, nofun, h, trivial⟩
    cases e with
    | binary p o l r => exact absurd rfl (hbinary p o l r)
    | _ => cases ho'

theorem inOrder_tower (x : Text) (more : List (BinaryOp × Text)) :
    (tower x more).inOrder = .ladder x more := by
  have hfold : ∀ e : Expr, (more.foldl (fun e q => e.graft q.1 q.2) e).inOrder =
      e.inOrder ++ more.flatMap fun q => [.inr q.1, .inl q.2] := by
    induction more with
    | nil => exact fun e => (List.append_nil _).symm
    | cons q more ih =>
      intro e
      rw [List.foldl_cons, ih, inOrder_graft, List.append_assoc, List.flatMap_cons]
  exact hfold (.identifier .start x)

/-- **Every row has a tree** whose operands bind tightly enough. -/
theorem climbs_tower (x : Text) (more : List (BinaryOp × Text)) : (tower x more).Climbs :=
  List.foldlRecOn more _ trivial fun _ h q _ => climbs_graft q.1 q.2 h

/-! ## 5. The tree is read -/

/-- The names and operators of the tree spell it, and every operator is a level of nesting. -/
theorem Climbs.written (h : e.Climbs) (hnames : e.inOrder.names = e.inOrder.operators + 1)
    {m : Nat} (hm : ∀ o, e.operator? = some o → m ≤ o.strength) :
    Written (.binary m) e.inOrder.operators e.inOrder.lexed e := by
  fun_induction inOrder e generalizing m with
  | case1 p x => exact .ofUnary (.ofChain (.ofOperand .name))
  | case2 p op l r ihl ihr =>
    obtain ⟨hl, hr, hlc, hrc⟩ := climbs_binary.mp h
    obtain ⟨hnl, hnr⟩ := names_inOrder_operands hnames
    rw [Row.operators_append, Row.lexed, List.map_append, List.map_cons]
    exact .binary (hm op rfl) (ihl hlc hnl hl) (ihr hrc hnr hr)
  | case3 => cases hnames

end Expr

theorem Row.cuts_ladder {x : Text} {more : List (BinaryOp × Text)} (hx : x.isIdentifier = true)
    (hmore : ∀ q ∈ more, q.2.isIdentifier = true) :
    Cuts (ladder x more).text (ladder x more).lexed := by
  induction more generalizing x with
  | nil =>
    obtain ⟨hname, hkind⟩ := Bool.and_eq_true_iff.mp hx
    exact cuts_name hname (of_decide_eq_true hkind)
  | cons q more ih =>
    obtain ⟨hname, hkind⟩ := Bool.and_eq_true_iff.mp hx
    obtain ⟨hq, hmore⟩ := List.forall_mem_cons.mp hmore
    have hfixed : q.1.token.isFixed = true := by cases q.1 <;> rfl
    have hrest := ((ih hq hmore).fixed hfixed (List.cons_ne_nil _ _)).blank (List.cons_ne_nil _ _)
    have htext : (ladder x (q :: more)).text =
        x ++ Byte.space :: (q.1.token.name ++ Byte.space :: (ladder q.2 more).text) := by
      show x ++ [Byte.space] ++ (q.1.spelling ++ [Byte.space] ++ (ladder q.2 more).text) = _
      simp [BinaryOp.spelling]
    rw [htext]
    exact (cuts_name hname (of_decide_eq_true hkind)).append rfl hrest

/-- **Names with operators between them are read as the one tree** that has them in this order and
    whose operands bind tightly enough for their places. -/
theorem ladder_climbs {x : Text} {more : List (BinaryOp × Text)} (hx : x.isIdentifier = true)
    (hmore : ∀ q ∈ more, q.2.isIdentifier = true) (hlength : more.length ≤ 999) :
    ∃ e, readExpression (Row.ladder x more).text = some (.ok e) ∧
      e.inOrder = .ladder x more ∧ e.Climbs ∧
      ∀ e' : Expr, e'.inOrder = .ladder x more → e'.Climbs → e'.unplaced = e.unplaced := by
  have hrow := Expr.inOrder_tower x more
  have hclimbs := Expr.climbs_tower x more
  have hnames : (Expr.tower x more).inOrder.names = (Expr.tower x more).inOrder.operators + 1 := by
    rw [hrow, Row.names_ladder, Row.operators_ladder]
  have hwritten := hclimbs.written hnames (m := 1) fun o _ => by cases o <;> decide
  rw [hrow, Row.operators_ladder] at hwritten
  obtain ⟨e, hread, he⟩ := Grammar.readExpression_of_lexes (.ofBinary hwritten)
    (Nat.succ_le_succ hlength) (Row.cuts_ladder hx hmore).lexes
  refine ⟨e, hread, ?_, ?_, fun e' hrow' hclimbs' => ?_⟩
  · rw [← Expr.inOrder_unplaced, he, Expr.inOrder_unplaced, hrow]
  · rwa [← Expr.climbs_unplaced, he, Expr.climbs_unplaced]
  · rw [he]
    exact Expr.unplaced_eq_of_inOrder hclimbs hclimbs' (hrow'.trans hrow.symm) hnames

namespace Ladder

/-- Operators that group to the right, among others. -/
def rungs : List (BinaryOp × Text) :=
  [(.add, txt "b"), (.power, txt "c"), (.power, txt "d"), (.pipe, txt "e")]

def a : Expr := .identifier .start (txt "a")
def b : Expr := .identifier .start (txt "b")
def c : Expr := .identifier .start (txt "c")
def d : Expr := .identifier .start (txt "d")
def e : Expr := .identifier .start (txt "e")

def tree : Expr :=
  .binary .start .pipe
    (.binary .start .add a (.binary .start .power b (.binary .start .power c d))) e

end Ladder

theorem ladder_climbs_powers :
    (Row.ladder (txt "a") Ladder.rungs).text = txt "a + b ** c ** d |> e" ∧
      ∃ e, readExpression (txt "a + b ** c ** d |> e") = some (.ok e) ∧
        e.unplaced = Ladder.tree.unplaced := by
  have htext : (Row.ladder (txt "a") Ladder.rungs).text = txt "a + b ** c ** d |> e" := by decide
  obtain ⟨e, hread, -, -, honly⟩ :=
    ladder_climbs (show (txt "a").isIdentifier = true by decide)
      (show ∀ q ∈ Ladder.rungs, q.2.isIdentifier = true by decide) (by decide)
  rw [htext] at hread
  exact ⟨htext, e, hread, (honly Ladder.tree rfl (Expr.climbs_tower (txt "a") Ladder.rungs)).symm⟩

end ReactiveScript
