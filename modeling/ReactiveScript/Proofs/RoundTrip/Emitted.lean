import ReactiveScript.Proofs.RoundTrip.Lexing
import ReactiveScript.Proofs.Script.Findings

/-!
# How plain expressions are emitted

Plain expressions are those that the script spells as the source does (`Plain`). The piece that is
emitted for one is cut into tokens that are `Written` for the same expression: without parentheses
in the form of the expression (`Expr.form`), and in any other place in the form that the place asks
for, because a place asks for a level, and the parentheses it puts around lower levels turn
whatever they hold into an operand.
-/

namespace ReactiveScript

open Code (text_append text_lit text_plain faults_append faults_lit faults_plain)

variable {e : Expr} {op : BinaryOp}

open Lexed

/-! ## 1. Plain expressions -/

/-- Can the text be read as a name? Keywords cannot. -/
def Text.isIdentifier (w : Text) : Bool := w.isName && Kind.ofWord w = .identifier

/-- Is the operator spelt in the script as it is in the source, between its operands? -/
def BinaryOp.isPlain : BinaryOp → Bool
  | .equal | .notEqual | .pipe | .compose => false
  | _ => true

/-- An expression that the script spells as the source does. -/
inductive Plain : Expr → Prop
  | identifier {p : Position} {name : Text} (h : name.isIdentifier = true) :
      Plain (.identifier p name)
  | boolean {p : Position} (b : Bool) : Plain (.boolean p b)
  | null {p : Position} : Plain (.null p)
  | array {p : Position} {es : List Expr} (h : ∀ e ∈ es, Plain e) : Plain (.array p es)
  | call {p : Position} {callee : Expr} {args : List Expr} (optional : Bool)
      (hcallee : Plain callee) (h : ∀ e ∈ args, Plain e) : Plain (.call p callee args optional)
  | member {p q : Position} {object : Expr} {name : Text} (optional : Bool)
      (hobject : Plain object) (hname : name.isIdentifier = true) :
      Plain (.member p object (.identifier q name) false optional)
  | index {p : Position} {object property : Expr} (optional : Bool) (hobject : Plain object)
      (hproperty : Plain property) : Plain (.member p object property true optional)
  | unary {p : Position} {e : Expr} (op : UnaryOp) (h : Plain e) : Plain (.unary p op e)
  | binary {p : Position} {op : BinaryOp} {l r : Expr} (hop : op.isPlain = true) (hl : Plain l)
      (hr : Plain r) : Plain (.binary p op l r)
  | conditional {p : Position} {test yes no : Expr} (htest : Plain test) (hyes : Plain yes)
      (hno : Plain no) : Plain (.conditional p test yes no)
  | arrow {p : Position} {names : List (Position × Text)} {body : Expr}
      (hnames : ∀ q ∈ names, q.2.isIdentifier = true) (h : Plain body) :
      Plain (.arrow p (names.map Param.ofName) body)

/-! ## 2. Forms and levels -/

/-- The form in which an expression is emitted without parentheses. -/
def Expr.form : Expr → Form
  | .call _ _ _ _ | .member _ _ _ _ _ => .chain
  | .unary _ _ _ => .unary
  | .binary _ op _ _ => .binary op.strength
  | .conditional _ _ _ _ | .arrow _ _ _ => .whole
  | _ => .operand

/-- Can what is written in the first form stand where the second one is asked for? A whole
    expression is asked for in places of its own. -/
def Form.fits : Form → Form → Bool
  | _, .whole | .whole, _ => false
  | .operand, _ => true
  | .chain, .operand => false
  | .chain, _ => true
  | .unary, .unary | .unary, .binary _ => true
  | .binary m, .binary m' => m' ≤ m
  | _, _ => false

theorem Written.fit {f g : Form} {k : Nat} {ts : List Lexed} (hfits : f.fits g = true)
    (h : Written f k ts e) : Written g k ts e := by
  cases f with
  | operand =>
    cases g with
    | operand => exact h
    | chain => exact .ofOperand h
    | unary => exact .ofChain (.ofOperand h)
    | binary m => exact .ofUnary (.ofChain (.ofOperand h))
    | whole => cases hfits
  | chain =>
    cases g with
    | chain => exact h
    | unary => exact .ofChain h
    | binary m => exact .ofUnary (.ofChain h)
    | operand | whole => cases hfits
  | unary =>
    cases g with
    | unary => exact h
    | binary m => exact .ofUnary h
    | operand | chain | whole => cases hfits
  | binary m =>
    cases g with
    | binary m' => exact h.weaken (of_decide_eq_true hfits)
    | operand | chain | unary | whole => cases hfits
  | whole => cases g <;> cases hfits

theorem BinaryOp.level_bounds (hop : op.isPlain = true) :
    Level.or ≤ op.level ∧ op.level ≤ Level.power := by
  revert hop
  cases op <;> decide

/-- What the form of a plain expression says about its level. -/
theorem Plain.form_cases (h : Plain e) :
    e.form = .operand ∧ e.level = Level.primary ∨ e.form = .chain ∧ e.level = Level.call ∨
      e.form = .unary ∧ e.level = Level.unary ∨
      (∃ p op l r, e = .binary p op l r ∧ op.isPlain = true) ∨
      e.form = .whole ∧ Level.assignment ≤ e.level ∧ e.level ≤ Level.conditional := by
  cases h with
  | identifier | boolean | null | array => exact .inl ⟨rfl, rfl⟩
  | call | member | index => exact .inr (.inl ⟨rfl, rfl⟩)
  | unary => exact .inr (.inr (.inl ⟨rfl, rfl⟩))
  | binary hop => exact .inr (.inr (.inr (.inl ⟨_, _, _, _, rfl, hop⟩)))
  | conditional =>
    have hle : Level.assignment ≤ Level.conditional := by decide
    exact .inr (.inr (.inr (.inr ⟨rfl, hle, Nat.le_refl _⟩)))
  | arrow =>
    have hle : Level.assignment ≤ Level.conditional := by decide
    exact .inr (.inr (.inr (.inr ⟨rfl, Nat.le_refl _, hle⟩)))

/-- Every plain expression can stand where an assignment can. -/
theorem Plain.assignment_le_level (h : Plain e) : Level.assignment ≤ e.level := by
  rcases h.form_cases with ⟨-, hl⟩ | ⟨-, hl⟩ | ⟨-, hl⟩ | ⟨p, op, l, r, rfl, hop⟩ | ⟨-, hl, -⟩
  · rw [hl]; decide
  · rw [hl]; decide
  · rw [hl]; decide
  · exact Nat.le_trans (by decide) (BinaryOp.level_bounds hop).1
  · exact hl

/-- What can be updated from behind is a chain. -/
theorem Plain.fits_chain_of_update (h : Plain e) (hlevel : Level.update ≤ e.level) :
    e.form.fits .chain = true := by
  rcases h.form_cases with ⟨hf, -⟩ | ⟨hf, -⟩ | ⟨-, hl⟩ | ⟨p, op, l, r, rfl, hop⟩ | ⟨-, -, hl⟩
  · rw [hf]; rfl
  · rw [hf]; rfl
  · rw [hl] at hlevel
    exact absurd hlevel (by decide)
  · exact absurd (Nat.le_trans hlevel (BinaryOp.level_bounds hop).2) (by decide)
  · exact absurd (Nat.le_trans hlevel hl) (by decide)

/-- So is what can be called or have members. -/
theorem Plain.fits_chain (h : Plain e) (hlevel : Level.call ≤ e.level) :
    e.form.fits .chain = true :=
  h.fits_chain_of_update (Nat.le_trans (by decide) hlevel)

/-- What can have a sign in front is a chain with signs. -/
theorem Plain.fits_unary (h : Plain e) (hlevel : Level.unary ≤ e.level) :
    e.form.fits .unary = true := by
  rcases h.form_cases with ⟨hf, -⟩ | ⟨hf, -⟩ | ⟨hf, -⟩ | ⟨p, op, l, r, rfl, hop⟩ | ⟨-, -, hl⟩
  · rw [hf]; rfl
  · rw [hf]; rfl
  · rw [hf]; rfl
  · exact absurd (Nat.le_trans hlevel (BinaryOp.level_bounds hop).2) (by decide)
  · exact absurd (Nat.le_trans hlevel hl) (by decide)

/-- What can stand next to an operator is a ladder, if its own operator is strong enough. -/
theorem Plain.fits_binary {least m : Nat} (h : Plain e) (hleast : Level.or ≤ least)
    (hop : ∀ p op l r, e = .binary p op l r → op.isPlain = true → m ≤ op.strength)
    (hlevel : least ≤ e.level) : e.form.fits (.binary m) = true := by
  rcases h.form_cases with ⟨hf, -⟩ | ⟨hf, -⟩ | ⟨hf, -⟩ | ⟨p, op, l, r, rfl, hplain⟩ | ⟨-, -, hl⟩
  · rw [hf]; rfl
  · rw [hf]; rfl
  · rw [hf]; rfl
  · exact decide_eq_true (hop p op l r rfl hplain)
  · exact absurd (Nat.le_trans hleast (Nat.le_trans hlevel hl)) (by decide)

/-! ## 3. Operands of binary operators -/

/-- Two binary operators clash or not, whatever their operands are. -/
theorem BinaryOp.clashes_binary (op op₁ : BinaryOp) (p : Position) (l r : Expr) :
    op.clashes (.binary p op₁ l r) =
      op.clashes (.binary .start op₁ (.null .start) (.null .start)) := by
  cases op <;> rfl

/-- A left operand without parentheses holds no operator that the reader would take as weaker. -/
theorem BinaryOp.leftStrength_le {op₁ : BinaryOp} {p : Position} {l r : Expr}
    (hop : op.isPlain = true) (hop₁ : op₁.isPlain = true)
    (h : op.leftLevel (.binary p op₁ l r) ≤ op₁.level) : op.leftStrength ≤ op₁.strength := by
  rw [BinaryOp.leftLevel, BinaryOp.clashes_binary] at h
  revert hop hop₁ h
  cases op <;> cases op₁ <;> decide

theorem BinaryOp.rightStrength_le {op₁ : BinaryOp} {p : Position} {l r : Expr}
    (hop : op.isPlain = true) (hop₁ : op₁.isPlain = true)
    (h : op.rightLevel (.binary p op₁ l r) ≤ op₁.level) : op.rightStrength ≤ op₁.strength := by
  rw [BinaryOp.rightLevel, BinaryOp.clashes_binary] at h
  revert hop hop₁ h
  cases op <;> cases op₁ <;> decide

theorem BinaryOp.or_le_leftLevel (hop : op.isPlain = true) (l : Expr) :
    Level.or ≤ op.leftLevel l := by
  unfold BinaryOp.leftLevel
  split
  · decide
  · split
    · decide
    · exact (BinaryOp.level_bounds hop).1

theorem BinaryOp.or_le_rightLevel (hop : op.isPlain = true) (r : Expr) :
    Level.or ≤ op.rightLevel r := by
  unfold BinaryOp.rightLevel
  split
  · decide
  · split
    · exact (BinaryOp.level_bounds hop).1
    · exact Nat.le_succ_of_le (BinaryOp.level_bounds hop).1

/-! ## 4. Emitted pieces -/

/-- A piece without faults that spells an expression in a form. -/
structure Spells (f : Form) (e : Expr) (c : Code) : Prop where
  faults_eq : c.faults = []
  opens : c.text.opensExpr = true
  cuts : ∃ ts, Written f (2 * e.size) ts e ∧ Cuts c.text ts

/-- A piece that spells an expression, alone and in every place that its form fits. -/
structure Emits (e : Expr) (c : Code) : Prop where
  whole : Spells .whole e c
  fits : ∀ g, e.form.fits g = true → Spells g e c

theorem Written.ne_nil {f : Form} {k : Nat} {ts : List Lexed} (h : Written f k ts e) : ts ≠ [] := by
  rintro rfl
  exact Form.ne_eof_of_starts h.starts rfl

section
variable {e : Expr} {c : Code} {f g : Form}

/-- What is written in the form of an expression is written in all others that it fits. -/
theorem emits_of_written {k : Nat} {ts : List Lexed} (hform : e.form.fits (.binary 1) = true)
    (hfaults : c.faults = []) (hopens : c.text.opensExpr = true) (h : Written e.form k ts e)
    (hk : k < 2 * e.size) (hcuts : Cuts c.text ts) : Emits e c := by
  refine ⟨⟨hfaults, hopens, ts, ?_, hcuts⟩, fun g hg => ⟨hfaults, hopens, ts, ?_, hcuts⟩⟩
  · exact (Written.ofBinary (h.fit hform)).mono hk
  · exact (h.fit hg).mono (Nat.le_of_lt hk)

theorem emits_of_whole {k : Nat} {ts : List Lexed} (hform : e.form = .whole)
    (hfaults : c.faults = []) (hopens : c.text.opensExpr = true) (h : Written .whole k ts e)
    (hk : k ≤ 2 * e.size) (hcuts : Cuts c.text ts) : Emits e c := by
  refine ⟨⟨hfaults, hopens, ts, h.mono hk, hcuts⟩, fun g hg => ?_⟩
  rw [hform] at hg
  cases g <;> cases hg

/-- Parentheses make an operand of anything. -/
theorem Spells.parenthesized (h : Spells .whole e c) : Spells .operand e c.parenthesized := by
  obtain ⟨ts, hts, hcuts⟩ := h.cuts
  have htext : c.parenthesized.text =
      Punct.openParen.spelling ++ (c.text ++ Punct.closeParen.spelling) := by
    rw [Code.parenthesized, text_append, text_append, text_lit, text_lit,
      List.append_assoc]
    rfl
  refine ⟨?_, ?_, _, .parens hts, ?_⟩
  · rw [Code.parenthesized, faults_append, faults_append, h.faults_eq]
    rfl
  · rw [htext]
    rfl
  · rw [htext]
    exact hcuts.bracketed rfl rfl

/-- An emitted piece in a place that asks for a level. -/
theorem Emits.atLevel {least : Nat} (h : Emits e c) (hg : Form.operand.fits g = true)
    (hfits : least ≤ e.level → e.form.fits g = true) : Spells g e (Script.atLevel least e c) := by
  rw [Script.atLevel, Code.parenthesizedIf]
  by_cases hlevel : e.level < least
  · have hparens := h.whole.parenthesized
    obtain ⟨ts, hts, hcuts⟩ := hparens.cuts
    rw [if_pos (decide_eq_true hlevel)]
    exact ⟨hparens.faults_eq, hparens.opens, ts, hts.fit hg, hcuts⟩
  · rw [if_neg (by simpa using hlevel)]
    exact h.fits g (hfits (Nat.le_of_not_lt hlevel))

/-- An emitted piece where a whole expression is asked for. -/
theorem Emits.atWhole {least : Nat} (h : Emits e c) (hleast : least ≤ e.level) :
    Spells .whole e (Script.atLevel least e c) := by
  rw [Script.atLevel, Code.parenthesizedIf, if_neg (by simpa using hleast)]
  exact h.whole

end

/-! ## 5. Lists -/

theorem Code.faults_join {α : Type} {sep : String} {item : α → Code} {xs : List α}
    (h : ∀ x ∈ xs, (item x).faults = []) : (Code.join sep (xs.map item)).faults = [] := by
  rw [List.eq_nil_iff_forall_not_mem]
  intro r hr
  obtain ⟨c, hc, hr⟩ := Code.mem_faults_join.mp hr
  obtain ⟨x, hx, rfl⟩ := List.mem_map.mp hc
  rw [h x hx] at hr
  cases hr

/-- Pieces with commas between them are cut into their tokens with commas between them. -/
theorem cuts_join {α : Type} (item : α → Code) (tokens : α → List Lexed) {xs : List α}
    (h : ∀ x ∈ xs, Cuts (item x).text (tokens x) ∧ tokens x ≠ []) :
    Cuts (Code.join ", " (xs.map item)).text (commas (xs.map tokens)) := by
  induction xs with
  | nil => exact fun t us _ hus => hus
  | cons x xs ih =>
    obtain ⟨⟨hx, -⟩, hxs⟩ := List.forall_mem_cons.mp h
    cases xs with
    | nil => exact hx
    | cons y ys =>
      have hne : commas ((y :: ys).map tokens) ≠ [] := by
        have hy := (List.forall_mem_cons.mp hxs).1.2
        cases ys with
        | nil => exact hy
        | cons z zs => exact List.append_ne_nil_of_left_ne_nil hy _
      have htext : (Code.join ", " ((x :: y :: ys).map item)).text =
          (item x).text ++ (Punct.comma.spelling ++
            Byte.space :: (Code.join ", " ((y :: ys).map item)).text) := by
        rw [List.map_cons, List.map_cons, Code.join, text_append, text_append,
          text_lit, List.append_assoc]
        · rfl
        · intro h
          cases h
      rw [htext]
      exact hx.append rfl ((ih hxs).fixed (k := .punct .comma) rfl hne)

/-- The expressions of a list, each with the tokens that spell it. -/
theorem exists_parts {P : List Lexed → Expr → Prop} {es : List Expr}
    (h : ∀ e ∈ es, ∃ ts, P ts e) :
    ∃ parts : List (List Lexed × Expr), parts.map (·.2) = es ∧ ∀ q ∈ parts, P q.1 q.2 := by
  induction es with
  | nil => exact ⟨[], rfl, List.forall_mem_nil _⟩
  | cons e es ih =>
    obtain ⟨⟨ts, hts⟩, hes⟩ := List.forall_mem_cons.mp h
    obtain ⟨parts, rfl, hparts⟩ := ih hes
    exact ⟨(ts, e) :: parts, rfl, List.forall_mem_cons.mpr ⟨hts, hparts⟩⟩

/-- The tokens of a list of expressions, one part for each of them. -/
theorem cuts_items {es : List Expr} {item : Expr → Code}
    (h : ∀ e ∈ es, Spells .whole e (item e)) :
    ∃ parts : List (List Lexed × Expr), parts.map (·.2) = es ∧
      (∀ q ∈ parts, Written .whole (2 * Expr.sizes es) q.1 q.2) ∧
      Cuts (Code.join ", " (es.map item)).text (commas (parts.map (·.1))) := by
  have htokens : ∀ e ∈ es, ∃ ts,
      Written .whole (2 * Expr.sizes es) ts e ∧ Cuts (item e).text ts := by
    intro e he
    obtain ⟨ts, hts, hcuts⟩ := (h e he).cuts
    exact ⟨ts, hts.mono (Nat.mul_le_mul_left 2 (Expr.size_le_sizes he)), hcuts⟩
  obtain ⟨parts, hparts, hq⟩ := exists_parts htokens
  refine ⟨parts, hparts, fun q hmem => (hq q hmem).1, ?_⟩
  have hjoin := cuts_join (fun q : List Lexed × Expr => item q.2) (·.1) fun q hmem =>
    ⟨(hq q hmem).2, (hq q hmem).1.ne_nil⟩
  rw [← hparts, List.map_map]
  exact hjoin

/-! ## 6. One construct at a time -/

section
variable {p : Position} {e : Expr} {c : Code} {object property : Expr} {c' : Code}

theorem Expr.two_mul_size_pos (e : Expr) : 0 < 2 * e.size :=
  Nat.mul_pos Nat.two_pos e.size_pos

theorem emits_identifier {name : Text} (h : name.isIdentifier = true) :
    Emits (.identifier p name) (.plain name) := by
  obtain ⟨hname, hkind⟩ := (Bool.and_eq_true _ _).mp h
  refine emits_of_written rfl rfl ?_ (.name (k := 0)) (Expr.two_mul_size_pos _) ?_
  · rw [text_plain]
    exact Text.opensExpr_of_isName hname
  · rw [text_plain]
    exact cuts_name hname (of_decide_eq_true hkind)

theorem emits_boolean (b : Bool) :
    Emits (.boolean p b) (.lit (if b then "true" else "false")) := by
  refine emits_of_written rfl rfl ?_ (.boolean (k := 0) b) (Expr.two_mul_size_pos _) ?_
  · cases b <;> rfl
  · rw [text_lit]
    cases b
    · exact cuts_keyword .false
    · exact cuts_keyword .true

theorem emits_null : Emits (.null p) (.lit "null") := by
  refine emits_of_written rfl rfl rfl (.null (k := 0)) (Expr.two_mul_size_pos _) ?_
  rw [text_lit]
  exact cuts_keyword .null

theorem emits_array {es : List Expr} {item : Expr → Code}
    (h : ∀ e ∈ es, Spells .whole e (item e)) :
    Emits (.array p es) (.lit "[" ++ .join ", " (es.map item) ++ .lit "]") := by
  obtain ⟨parts, rfl, hparts, hcuts⟩ := cuts_items h
  have htext : (Code.lit "[" ++ .join ", " ((parts.map (·.2)).map item) ++ .lit "]").text =
      Punct.openBracket.spelling ++ ((Code.join ", " ((parts.map (·.2)).map item)).text ++
        Punct.closeBracket.spelling) := by
    rw [text_append, text_append, text_lit, text_lit, List.append_assoc]
    rfl
  refine emits_of_written rfl ?_ ?_ (.array hparts) ?_ ?_
  · rw [faults_append, faults_append, Code.faults_join fun e he => (h e he).faults_eq]
    rfl
  · rw [htext]
    rfl
  · rw [Expr.size_array]
    omega
  · rw [htext]
    exact hcuts.bracketed rfl rfl

theorem Script.text_call (callee : Expr) (optional : Bool) (c : Code) (args : List Code) :
    (Script.call callee optional c args).text =
      (Script.atLevel Level.call callee c).text ++
        ((if optional then Punct.optional.spelling else []) ++ (Punct.openParen.spelling ++
          ((Code.join ", " args).text ++ Punct.closeParen.spelling))) := by
  simp only [Script.call, text_append, text_lit, Code.text_findings, Code.text_bare,
    List.append_assoc, List.nil_append]
  cases optional <;> rfl

theorem emits_call {callee : Expr} {args : List Expr} {item : Expr → Code} (optional : Bool)
    (hcallee : Spells .chain callee (Script.atLevel Level.call callee c))
    (h : ∀ e ∈ args, Spells .whole e (item e)) :
    Emits (.call p callee args optional) (Script.call callee optional c (args.map item)) := by
  obtain ⟨ts, hts, hcuts⟩ := hcallee.cuts
  obtain ⟨parts, rfl, hparts, hargs⟩ := cuts_items h
  refine emits_of_written rfl ?_ ?_ (.call optional hts hparts) ?_ ?_
  · simp only [Script.call, faults_append, Code.faults_findings, Code.faults_bare,
      faults_lit, hcallee.faults_eq, Code.faults_join fun e he => (h e he).faults_eq]
    rfl
  · rw [Script.text_call]
    exact Text.opensExpr_append hcallee.opens
  · rw [Expr.size_call]
    omega
  · rw [Script.text_call]
    refine hcuts.append ?_ (hargs.link optional (.inr rfl) rfl)
    cases optional <;> rfl

/-- No plain object is a number. -/
theorem Plain.memberObject_eq (h : Plain object) (computed : Bool) (c : Code) :
    Script.memberObject object computed c = Script.atLevel Level.call object c := by
  cases h <;> rfl

theorem Script.text_member (optional : Bool)
    (hobject : Script.memberObject object false c = Script.atLevel Level.call object c) :
    (Script.member object property false optional c c').text =
      (Script.atLevel Level.call object c).text ++
        ((if optional then Punct.optional else Punct.dot).spelling ++ c'.text) := by
  simp only [Script.member, hobject, Bool.false_eq_true, if_false, text_append, text_lit,
    List.append_assoc]
  cases optional <;> rfl

theorem emits_member {q : Position} {name : Text} (optional : Bool) (hplain : Plain object)
    (hobject : Spells .chain object (Script.atLevel Level.call object c))
    (hname : name.isIdentifier = true) :
    Emits (.member p object (.identifier q name) false optional)
      (Script.member object (.identifier q name) false optional c (.plain name)) := by
  obtain ⟨hword, hkind⟩ := (Bool.and_eq_true _ _).mp hname
  obtain ⟨ts, hts, hcuts⟩ := hobject.cuts
  refine emits_of_written rfl ?_ ?_ (.member optional hts) ?_ ?_
  · simp only [Script.member, hplain.memberObject_eq, Bool.false_eq_true, if_false,
      faults_append, faults_lit, faults_plain, hobject.faults_eq]
    rfl
  · rw [Script.text_member optional (hplain.memberObject_eq false c)]
    exact Text.opensExpr_append hobject.opens
  · rw [Expr.size_member]
    omega
  · rw [Script.text_member optional (hplain.memberObject_eq false c), text_plain]
    refine hcuts.append ?_ (cuts_dot hword (of_decide_eq_true hkind) optional)
    cases optional <;> rfl

theorem Script.text_index (optional : Bool)
    (hobject : Script.memberObject object true c = Script.atLevel Level.call object c) :
    (Script.member object property true optional c c').text =
      (Script.atLevel Level.call object c).text ++
        ((if optional then Punct.optional.spelling else []) ++ (Punct.openBracket.spelling ++
          ((Script.atLevel Level.lowest property c').text ++ Punct.closeBracket.spelling))) := by
  simp only [Script.member, hobject, if_true, text_append, text_lit, List.append_assoc]
  cases optional <;> rfl

theorem emits_index (optional : Bool) (hplain : Plain object)
    (hobject : Spells .chain object (Script.atLevel Level.call object c))
    (hproperty : Spells .whole property (Script.atLevel Level.lowest property c')) :
    Emits (.member p object property true optional)
      (Script.member object property true optional c c') := by
  obtain ⟨ts, hts, hcuts⟩ := hobject.cuts
  obtain ⟨us, hus, hcuts'⟩ := hproperty.cuts
  refine emits_of_written rfl ?_ ?_ (.index optional hts hus) ?_ ?_
  · simp only [Script.member, hplain.memberObject_eq, if_true, faults_append,
      faults_lit, hobject.faults_eq, hproperty.faults_eq]
    rfl
  · rw [Script.text_index optional (hplain.memberObject_eq true c)]
    exact Text.opensExpr_append hobject.opens
  · rw [Expr.size_member]
    omega
  · rw [Script.text_index optional (hplain.memberObject_eq true c)]
    refine hcuts.append ?_ (hcuts'.link optional (.inl rfl) rfl)
    cases optional <;> rfl

theorem UnaryOp.token_isFixed (op : UnaryOp) : op.token.isFixed = true := by
  cases op <;> rfl

/-- A sign that needs no blank behind it. -/
theorem cuts_sign {op : UnaryOp} {w : Text} {ts : List Lexed} (hword : op.isWord = false)
    (hrun : ((op = .minus || op = .plus) && w.head? == op.spelling.head?) = false)
    (hopens : w.opensExpr = true) (h : Cuts w ts) :
    Cuts (op.spelling ++ w) (.fixed op.token :: ts) := by
  cases w with
  | nil => cases hopens
  | cons b w =>
    cases op with
    | not => exact h.mark (p := .bang) fun t => Punct.sign_standsBefore (.inl rfl) hopens
    | bitNot => exact h.mark (p := .tilde) fun t => Punct.sign_standsBefore (.inr (.inl rfl)) hopens
    | plus =>
      have hne : Punct.plus.spelling ≠ [b] := by
        rintro ⟨⟩
        cases hrun
      exact h.mark (p := .plus) fun t =>
        Punct.sign_standsBefore (.inr (.inr ⟨.inl rfl, hne⟩)) hopens
    | minus =>
      have hne : Punct.minus.spelling ≠ [b] := by
        rintro ⟨⟩
        cases hrun
      exact h.mark (p := .minus) fun t =>
        Punct.sign_standsBefore (.inr (.inr ⟨.inr rfl, hne⟩)) hopens
    | typeOf | void | delete => cases hword

theorem emits_unary (op : UnaryOp) (h : Spells .unary e c) :
    Emits (.unary p op e) (Script.unary op c) := by
  obtain ⟨ts, hts, hcuts⟩ := h.cuts
  have hsize : 2 * e.size + 1 < 2 * (Expr.unary p op e).size := by
    rw [Expr.size_unary]
    omega
  have hopens : ∀ w, Text.opensExpr (op.spelling ++ w) = true := by
    intro w
    cases op <;> rfl
  rw [Script.unary]
  split
  · refine emits_of_written rfl ?_ ?_ (.signed op hts) hsize ?_
    · rw [faults_append, faults_append, h.faults_eq]
      rfl
    · rw [text_append, text_append, text_plain, List.append_assoc]
      exact hopens _
    · rw [text_append, text_append, text_plain, List.append_assoc]
      exact hcuts.fixed op.token_isFixed hts.ne_nil
  · rename_i hnot
    rw [Rope.head?_eq] at hnot
    simp only [Bool.or_eq_true, not_or, Bool.not_eq_true] at hnot
    refine emits_of_written rfl ?_ ?_ (.signed op hts) hsize ?_
    · rw [faults_append, h.faults_eq]
      rfl
    · rw [text_append, text_plain]
      exact hopens _
    · rw [text_append, text_plain]
      exact cuts_sign hnot.1 hnot.2 h.opens hcuts

theorem BinaryOp.token_isFixed (op : BinaryOp) : op.token.isFixed = true := by
  cases op <;> rfl

theorem Script.binary_of_isPlain {op : BinaryOp} (hop : op.isPlain = true) (l r : Expr)
    (left right : Code) :
    Script.binary op l r left right =
      Script.atLevel (op.leftLevel l) l left ++ .lit " " ++ .plain op.token.name ++ .lit " " ++
        Script.atLevel (op.rightLevel r) r right := by
  cases op <;> first | rfl | cases hop

theorem emits_binary {op : BinaryOp} {l r : Expr} {left right : Code} (hop : op.isPlain = true)
    (hl : Spells (.binary op.leftStrength) l (Script.atLevel (op.leftLevel l) l left))
    (hr : Spells (.binary op.rightStrength) r (Script.atLevel (op.rightLevel r) r right)) :
    Emits (.binary p op l r) (Script.binary op l r left right) := by
  obtain ⟨ts, hts, hcuts⟩ := hl.cuts
  obtain ⟨us, hus, hcuts'⟩ := hr.cuts
  rw [Script.binary_of_isPlain hop]
  have hform : (Expr.binary p op l r).form.fits (.binary 1) = true := by
    cases op <;> rfl
  refine emits_of_written hform ?_ ?_ (.binary (Nat.le_refl _) hts hus) ?_ ?_
  · simp only [faults_append, faults_lit, faults_plain, hl.faults_eq, hr.faults_eq]
    rfl
  · simp only [text_append, List.append_assoc]
    exact Text.opensExpr_append hl.opens
  · rw [Expr.size_binary]
    omega
  · simp only [text_append, text_lit, text_plain, List.append_assoc]
    exact hcuts.append rfl ((hcuts'.fixed op.token_isFixed hus.ne_nil).blank (List.cons_ne_nil _ _))

theorem emits_conditional {test yes no : Expr} {ct cy cn : Code} (htest : Spells (.binary 1) test ct)
    (hyes : Spells .whole yes cy) (hno : Spells .whole no cn) :
    Emits (.conditional p test yes no) (ct ++ .lit " ? " ++ cy ++ .lit " : " ++ cn) := by
  obtain ⟨ts, hts, hcuts⟩ := htest.cuts
  obtain ⟨us, hus, hcutsYes⟩ := hyes.cuts
  obtain ⟨vs, hvs, hcutsNo⟩ := hno.cuts
  have htext : (ct ++ .lit " ? " ++ cy ++ .lit " : " ++ cn).text =
      ct.text ++ Byte.space :: (Punct.question.spelling ++ Byte.space ::
        (cy.text ++ Byte.space :: (Punct.colon.spelling ++ Byte.space :: cn.text))) := by
    simp only [text_append, text_lit, List.append_assoc]
    rfl
  have hwritten : Written .whole (2 * (test.size + yes.size + no.size) + 1)
      (ts ++ punct .question :: (us ++ punct .colon :: vs)) (.conditional p test yes no) :=
    .conditional (hts.mono (by omega)) (hus.mono (by omega)) (hvs.mono (by omega))
  refine emits_of_whole rfl ?_ ?_ hwritten ?_ ?_
  · simp only [faults_append, faults_lit, htest.faults_eq, hyes.faults_eq, hno.faults_eq]
    rfl
  · rw [htext]
    exact Text.opensExpr_append htest.opens
  · rw [Expr.size_conditional]
    omega
  · rw [htext]
    have hcolon := (hcutsNo.fixed (k := .punct .colon) rfl hvs.ne_nil).blank (List.cons_ne_nil _ _)
    have hbranches := hcutsYes.append rfl hcolon
    have hne : us ++ punct .colon :: vs ≠ [] := List.append_ne_nil_of_left_ne_nil hus.ne_nil _
    exact hcuts.append rfl ((hbranches.fixed (k := .punct .question) rfl hne).blank (List.cons_ne_nil _ _))

/-- No expression starts with a brace here. -/
theorem Code.noBraceFirst_of_opensExpr (h : c.text.opensExpr = true) : c.noBraceFirst = c := by
  have hhead : (c.rope.head? == some Byte.openBrace) = false := by
    rw [Rope.head?_eq]
    have hopens : Text.opensExpr c.rope.text = true := h
    cases htext : c.rope.text with
    | nil => rfl
    | cons b w =>
      rw [htext] at hopens
      simpa using Byte.ne_of_opensExpr hopens rfl
  rw [Code.noBraceFirst, Code.parenthesizedIf, hhead, if_neg Bool.false_ne_true]

theorem param_ofName (o : Script.Options) (d : Nat) (q : Position × Text) :
    (Script.param o d (.ofName q)).text = q.2 ∧ (Script.param o d (.ofName q)).faults = [] := by
  rw [Param.ofName, Script.param, Script.defaultValue, text_append, text_plain]
  exact ⟨List.append_nil _, rfl⟩

theorem cuts_params {names : List (Position × Text)} (o : Script.Options) (d : Nat)
    (h : ∀ q ∈ names, q.2.isIdentifier = true) :
    (Code.join ", " (Script.params o d (names.map .ofName))).faults = [] ∧
      Cuts (Code.join ", " (Script.params o d (names.map .ofName))).text
        (commas (names.map fun q => [.name q.2])) := by
  rw [Script.params_eq_map, List.map_map]
  refine ⟨Code.faults_join fun q _ => (param_ofName o d q).2, cuts_join _ _ fun q hq => ?_⟩
  refine ⟨?_, List.cons_ne_nil _ _⟩
  obtain ⟨hname, hkind⟩ := (Bool.and_eq_true _ _).mp (h q hq)
  have htext : ((Script.param o d ∘ Param.ofName) q).text = q.2 := (param_ofName o d q).1
  rw [htext]
  exact cuts_name hname (of_decide_eq_true hkind)

theorem emits_arrow {o : Script.Options} {d : Nat} {names : List (Position × Text)}
    (hnames : ∀ q ∈ names, q.2.isIdentifier = true) (h : Spells .whole e c) :
    Emits (.arrow p (names.map .ofName) e)
      (.lit "(" ++ .join ", " (Script.params o d (names.map .ofName)) ++ .lit ") => " ++
        c.noBraceFirst) := by
  obtain ⟨ts, hts, hcuts⟩ := h.cuts
  obtain ⟨hfaults, hparams⟩ := cuts_params o d hnames
  rw [Code.noBraceFirst_of_opensExpr h.opens]
  generalize Code.join ", " (Script.params o d (names.map .ofName)) = ps at hfaults hparams ⊢
  have htext : (.lit "(" ++ ps ++ .lit ") => " ++ c).text =
      Punct.openParen.spelling ++ (ps.text ++ (Punct.closeParen.spelling ++ Byte.space ::
        (Punct.arrow.spelling ++ Byte.space :: c.text))) := by
    simp only [text_append, text_lit, List.append_assoc]
    rfl
  refine emits_of_whole rfl ?_ ?_ (.arrow hts) ?_ ?_
  · simp only [faults_append, faults_lit, hfaults, h.faults_eq]
    rfl
  · rw [htext]
    rfl
  · have hsize := Expr.size_arrow_gt (p := p) (names.map .ofName) e
    omega
  · rw [htext]
    have harrow := (hcuts.fixed (k := .punct .arrow) rfl hts.ne_nil).blank (List.cons_ne_nil _ _)
    have hclose := harrow.mark (p := .closeParen) fun t =>
      Punct.standsBefore_of_isBracket (.inr (.inl rfl)) _
    exact (hparams.append rfl hclose).mark (p := .openParen) fun t =>
      Punct.standsBefore_of_isBracket (.inl rfl) _

end

/-! ## 7. All plain expressions -/

/-- **The piece that is emitted for a plain expression spells it.** -/
theorem emits_of_plain (o : Script.Options) (d : Nat) (h : Plain e) :
    Emits e (Script.emit o d e) := by
  induction h with
  | identifier h =>
    rw [Script.emit]
    exact emits_identifier h
  | boolean b =>
    rw [Script.emit]
    exact emits_boolean b
  | null =>
    rw [Script.emit]
    exact emits_null
  | array h ih =>
    rw [Script.emit, Script.items_eq_map]
    exact emits_array fun e he => (ih e he).atWhole (h e he).assignment_le_level
  | call optional hcallee h ihcallee ih =>
    rw [Script.emit, Script.items_eq_map]
    exact emits_call optional (ihcallee.atLevel rfl hcallee.fits_chain) fun e he =>
      (ih e he).atWhole (h e he).assignment_le_level
  | member optional hobject hname ihobject =>
    rw [Script.emit, Script.emit]
    exact emits_member optional hobject (ihobject.atLevel rfl hobject.fits_chain) hname
  | index optional hobject hproperty ihobject ihproperty =>
    rw [Script.emit]
    exact emits_index optional hobject (ihobject.atLevel rfl hobject.fits_chain)
      (ihproperty.atWhole (Nat.zero_le _))
  | unary op h ih =>
    rw [Script.emit]
    exact emits_unary op (ih.atLevel rfl h.fits_unary)
  | @binary p op l r hop hl hr ihl ihr =>
    rw [Script.emit]
    refine emits_binary hop (ihl.atLevel rfl fun hlevel => ?_) (ihr.atLevel rfl fun hlevel => ?_)
    · refine hl.fits_binary (op.or_le_leftLevel hop l) ?_ hlevel
      rintro p₁ op₁ a b rfl hop₁
      exact BinaryOp.leftStrength_le hop hop₁ hlevel
    · refine hr.fits_binary (op.or_le_rightLevel hop r) ?_ hlevel
      rintro p₁ op₁ a b rfl hop₁
      exact BinaryOp.rightStrength_le hop hop₁ hlevel
  | conditional htest hyes hno ihtest ihyes ihno =>
    rw [Script.emit]
    refine emits_conditional (ihtest.atLevel rfl fun hlevel => ?_)
      (ihyes.atWhole hyes.assignment_le_level) (ihno.atWhole hno.assignment_le_level)
    refine htest.fits_binary (Nat.le_refl _) ?_ hlevel
    intro p₁ op₁ a b _ _
    cases op₁ <;> decide
  | arrow hnames h ih =>
    rw [Script.emit]
    exact emits_arrow hnames (ih.atWhole h.assignment_le_level)

end ReactiveScript
