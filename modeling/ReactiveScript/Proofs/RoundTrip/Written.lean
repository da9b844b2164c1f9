import ReactiveScript.Proofs.Syntax.Unplaced

/-!
# How expressions are written

`Written` relates an expression to the tokens that spell it, place by place. The forms are the
places that a reader of expressions tells apart, from the tightest to the loosest: an operand, a
chain of links on an operand, a chain with signs in front of it, a ladder of binary operators of at
least some strength, and a whole expression. What is written in one form can stand where a looser
one is wanted; the other way around it needs parentheses.
-/

namespace ReactiveScript

variable {k : Nat} {ts us : List Lexed} {e : Expr} {f : Form}

/-! ## 1. Tokens without places -/

/-- A token without its place. -/
structure Lexed where
  kind : Kind
  text : Text
  deriving DecidableEq

namespace Lexed

/-- A token with a spelling of its own. -/
def fixed (k : Kind) : Lexed := ⟨k, k.name⟩

def punct (p : Punct) : Lexed := fixed (.punct p)

def name (t : Text) : Lexed := ⟨.identifier, t⟩

/-- The kind of the first token, or of the end. -/
def headKind : List Lexed → Kind
  | [] => .eof
  | t :: _ => t.kind

def headText : List Lexed → Text
  | [] => []
  | t :: _ => t.text

/-- Lists of tokens with commas between them. -/
def commas : List (List Lexed) → List Lexed
  | [] => []
  | [t] => t
  | t :: u :: ts => t ++ punct .comma :: commas (u :: ts)

/-- What stands in front of a computed member or the arguments of a call. -/
def link (optional : Bool) (p : Punct) : List Lexed :=
  if optional then [punct .optional, punct p] else [punct p]

/-- What stands in front of the name of a member. -/
def dot (optional : Bool) : Lexed := punct (if optional then .optional else .dot)

theorem headKind_append {ts : List Lexed} (h : headKind ts ≠ .eof) (us : List Lexed) :
    headKind (ts ++ us) = headKind ts := by
  cases ts with
  | nil => exact absurd rfl h
  | cons t ts => rfl

end Lexed

open Lexed

/-! ## 2. Forms -/

/-- The least strength of an operator inside the left operand. -/
def BinaryOp.leftStrength (op : BinaryOp) : Nat :=
  if op.groupsRight then op.strength + 1 else op.strength

/-- A place for an expression. -/
inductive Form where
  | operand
  | chain
  | unary
  | binary (least : Nat)
  | whole

/-- The parameter that a name stands for. -/
def Param.ofName (q : Position × Text) : Param := .name q.1 q.2 none

/-- The tokens of an expression in a form, with so many levels of nesting at most. Brackets, signs,
    links and operators are a level each, as they are to the reader. -/
inductive Written : Form → Nat → List Lexed → Expr → Prop
  | name {p : Position} {k : Nat} {t : Text} : Written .operand k [.name t] (.identifier p t)
  | boolean {p : Position} {k : Nat} (b : Bool) :
      Written .operand k [.fixed (.keyword (if b then .true else .false))] (.boolean p b)
  | null {p : Position} {k : Nat} : Written .operand k [.fixed (.keyword .null)] (.null p)
  | array {p : Position} {k : Nat} {parts : List (List Lexed × Expr)}
      (h : ∀ q ∈ parts, Written .whole k q.1 q.2) :
      Written .operand k
        (punct .openBracket :: (commas (parts.map (·.1)) ++ [punct .closeBracket]))
        (.array p (parts.map (·.2)))
  | parens {k : Nat} {ts : List Lexed} {e : Expr} (h : Written .whole k ts e) :
      Written .operand k (punct .openParen :: (ts ++ [punct .closeParen])) e
  | ofOperand {k : Nat} {ts : List Lexed} {e : Expr} (h : Written .operand k ts e) :
      Written .chain k ts e
  | member {p q : Position} {k : Nat} {ts : List Lexed} {o : Expr} {t : Text} (optional : Bool)
      (h : Written .chain k ts o) :
      Written .chain (k + 1) (ts ++ [dot optional, .name t])
        (.member p o (.identifier q t) false optional)
  | index {p : Position} {k j : Nat} {ts us : List Lexed} {o i : Expr} (optional : Bool)
      (ho : Written .chain k ts o) (hi : Written .whole j us i) :
      Written .chain (k + j + 1)
        (ts ++ (link optional .openBracket ++ (us ++ [punct .closeBracket])))
        (.member p o i true optional)
  | call {p : Position} {k j : Nat} {ts : List Lexed} {f : Expr}
      {parts : List (List Lexed × Expr)} (optional : Bool) (hf : Written .chain k ts f)
      (h : ∀ q ∈ parts, Written .whole j q.1 q.2) :
      Written .chain (k + j + 1)
        (ts ++ (link optional .openParen ++ (commas (parts.map (·.1)) ++ [punct .closeParen])))
        (.call p f (parts.map (·.2)) optional)
  | ofChain {k : Nat} {ts : List Lexed} {e : Expr} (h : Written .chain k ts e) :
      Written .unary k ts e
  | signed {p : Position} {k : Nat} {ts : List Lexed} {e : Expr} (op : UnaryOp)
      (h : Written .unary k ts e) :
      Written .unary (k + 1) (.fixed op.token :: ts) (.unary p op e)
  | ofUnary {m k : Nat} {ts : List Lexed} {e : Expr} (h : Written .unary k ts e) :
      Written (.binary m) k ts e
  | binary {p : Position} {m k j : Nat} {ts us : List Lexed} {l r : Expr} {op : BinaryOp}
      (hop : m ≤ op.strength) (hl : Written (.binary op.leftStrength) k ts l)
      (hr : Written (.binary op.rightStrength) j us r) :
      Written (.binary m) (k + j + 1) (ts ++ .fixed op.token :: us) (.binary p op l r)
  | ofBinary {k : Nat} {ts : List Lexed} {e : Expr} (h : Written (.binary 1) k ts e) :
      Written .whole (k + 1) ts e
  | conditional {p : Position} {k : Nat} {ts us vs : List Lexed} {test yes no : Expr}
      (htest : Written (.binary 1) k ts test) (hyes : Written .whole k us yes)
      (hno : Written .whole k vs no) :
      Written .whole (k + 1) (ts ++ punct .question :: (us ++ punct .colon :: vs))
        (.conditional p test yes no)
  | arrow {p : Position} {k : Nat} {names : List (Position × Text)} {ts : List Lexed}
      {body : Expr} (h : Written .whole k ts body) :
      Written .whole (k + 1)
        (punct .openParen :: (commas (names.map fun q => [.name q.2]) ++
          punct .closeParen :: punct .arrow :: ts))
        (.arrow p (names.map Param.ofName) body)

/-- A ladder of strong operators can stand where weaker ones are allowed. -/
theorem Written.weaken {m m' : Nat} (hm : m' ≤ m) (h : Written (.binary m) k ts e) :
    Written (.binary m') k ts e := by
  cases h with
  | ofUnary h => exact .ofUnary h
  | binary hop hl hr => exact .binary (Nat.le_trans hm hop) hl hr

/-- What is written with some levels is written with more. -/
theorem Written.mono {k' : Nat} (h : Written f k ts e) (hk : k ≤ k') : Written f k' ts e := by
  induction h generalizing k' with
  | name => exact .name
  | boolean b => exact .boolean b
  | null => exact .null
  | array _ ih => exact .array fun q hq => ih q hq hk
  | parens _ ih => exact .parens (ih hk)
  | ofOperand _ ih => exact .ofOperand (ih hk)
  | ofChain _ ih => exact .ofChain (ih hk)
  | ofUnary _ ih => exact .ofUnary (ih hk)
  | member optional _ ih =>
    obtain ⟨i, rfl⟩ := Nat.exists_eq_add_of_le' (Nat.le_trans (Nat.le_add_left 1 _) hk)
    exact .member optional (ih (by omega))
  | @index _ k j _ _ _ _ optional ho _ _ ihi =>
    obtain ⟨i, rfl⟩ := Nat.exists_eq_add_of_le hk
    rw [show k + j + 1 + i = k + (j + i) + 1 by omega]
    exact .index optional ho (ihi (Nat.le_add_right j i))
  | @call _ k j _ _ _ optional hf _ _ ih =>
    obtain ⟨i, rfl⟩ := Nat.exists_eq_add_of_le hk
    rw [show k + j + 1 + i = k + (j + i) + 1 by omega]
    exact .call optional hf fun q hq => ih q hq (Nat.le_add_right j i)
  | signed op _ ih =>
    obtain ⟨i, rfl⟩ := Nat.exists_eq_add_of_le' (Nat.le_trans (Nat.le_add_left 1 _) hk)
    exact .signed op (ih (by omega))
  | @binary _ _ k j _ _ _ _ _ hop hl _ _ ihr =>
    obtain ⟨i, rfl⟩ := Nat.exists_eq_add_of_le hk
    rw [show k + j + 1 + i = k + (j + i) + 1 by omega]
    exact .binary hop hl (ihr (Nat.le_add_right j i))
  | ofBinary _ ih =>
    obtain ⟨i, rfl⟩ := Nat.exists_eq_add_of_le' (Nat.le_trans (Nat.le_add_left 1 _) hk)
    exact .ofBinary (ih (by omega))
  | conditional _ _ _ iht ihy ihn =>
    obtain ⟨i, rfl⟩ := Nat.exists_eq_add_of_le' (Nat.le_trans (Nat.le_add_left 1 _) hk)
    exact .conditional (iht (by omega)) (ihy (by omega)) (ihn (by omega))
  | arrow _ ih =>
    obtain ⟨i, rfl⟩ := Nat.exists_eq_add_of_le' (Nat.le_trans (Nat.le_add_left 1 _) hk)
    exact .arrow (ih (by omega))

/-! ## 3. First tokens -/

/-- Does an operand start with a token of this kind? -/
def Kind.startsOperand : Kind → Bool
  | .identifier | .keyword .true | .keyword .false | .keyword .null
  | .punct .openBracket | .punct .openParen => true
  | _ => false

/-- Does what is written in a form start with a token of this kind? -/
def Form.starts : Form → Kind → Bool
  | .operand, k | .chain, k => k.startsOperand
  | _, k => k.startsOperand || (UnaryOp.ofKind? k).isSome

theorem Form.starts_of_startsOperand {k : Kind} (h : k.startsOperand = true) :
    f.starts k = true := by
  cases f <;> simp [Form.starts, h]

theorem Form.ne_eof_of_starts {k : Kind} (h : f.starts k = true) : k ≠ .eof := by
  rintro rfl
  have hend : f.starts .eof = false := by cases f <;> rfl
  rw [hend] at h
  cases h

theorem UnaryOp.ofKind?_token (op : UnaryOp) : UnaryOp.ofKind? op.token = some op := by
  cases op <;> rfl

theorem Form.starts_append (h : f.starts (headKind ts) = true) (us : List Lexed) :
    f.starts (headKind (ts ++ us)) = true := by
  rw [headKind_append (Form.ne_eof_of_starts h)]
  exact h

/-- What is written in a form starts as the form does. -/
theorem Written.starts (h : Written f k ts e) : f.starts (headKind ts) = true := by
  induction h with
  | name | null | array | parens => rfl
  | boolean b => cases b <;> rfl
  | ofOperand _ ih => exact ih
  | member _ _ ih => exact Form.starts_append ih _
  | index _ _ _ ih => exact Form.starts_append ih _
  | call _ _ _ ih => exact Form.starts_append ih _
  | ofChain _ ih => exact Form.starts_of_startsOperand ih
  | signed op => simp [Form.starts, headKind, fixed, UnaryOp.ofKind?_token]
  | ofUnary _ ih | ofBinary _ ih => exact ih
  | binary _ _ _ ih => exact Form.starts_append (f := .unary) ih _
  | conditional _ _ _ ih => exact Form.starts_append (f := .unary) ih _
  | arrow => rfl

/-! ## 4. Brackets -/

/-- Does looking for a closing bracket pass over a token of this kind? -/
def Kind.isPassed : Kind → Bool
  | .eof => false
  | .punct p => !p.isOpening && !p.isClosing
  | _ => true

/-- Every bracket is opened and closed again. Brackets of all shapes count alike. -/
inductive Balanced : List Lexed → Prop
  | nil : Balanced []
  | token {t : Lexed} {ts : List Lexed} (ht : t.kind.isPassed = true) (h : Balanced ts) :
      Balanced (t :: ts)
  | group {p q : Punct} {ts us : List Lexed} (hp : p.isOpening = true) (hq : q.isClosing = true)
      (h : Balanced ts) (hus : Balanced us) : Balanced (punct p :: (ts ++ punct q :: us))

theorem Balanced.append (hts : Balanced ts) (hus : Balanced us) : Balanced (ts ++ us) := by
  induction hts with
  | nil => exact hus
  | token ht _ ih => exact .token ht ih
  | group hp hq h _ _ ih =>
    rw [List.cons_append, List.append_assoc, List.cons_append]
    exact .group hp hq h ih

theorem Balanced.commas {parts : List (List Lexed)} (h : ∀ ts ∈ parts, Balanced ts) :
    Balanced (Lexed.commas parts) := by
  induction parts with
  | nil => exact .nil
  | cons t ts ih =>
    obtain ⟨ht, hts⟩ := List.forall_mem_cons.mp h
    cases ts with
    | nil => exact ht
    | cons u us => exact ht.append (.token rfl (ih hts))

theorem BinaryOp.token_isPassed (op : BinaryOp) : op.token.isPassed = true := by
  cases op <;> rfl

theorem UnaryOp.token_isPassed (op : UnaryOp) : op.token.isPassed = true := by
  cases op <;> rfl

/-- A link with balanced tokens inside. -/
theorem Balanced.link {p q : Punct} (hp : p.isOpening = true) (hq : q.isClosing = true)
    (h : Balanced ts) (optional : Bool) :
    Balanced (Lexed.link optional p ++ (ts ++ [punct q])) := by
  cases optional with
  | false => exact .group hp hq h .nil
  | true => exact .token rfl (.group hp hq h .nil)

/-- The brackets of an expression match. -/
theorem Written.balanced (h : Written f k ts e) : Balanced ts := by
  induction h with
  | name | null => exact .token rfl .nil
  | boolean b => exact .token rfl .nil
  | array _ ih =>
    refine .group rfl rfl (.commas fun ts hts => ?_) .nil
    obtain ⟨q, hq, rfl⟩ := List.mem_map.mp hts
    exact ih q hq
  | parens _ ih => exact .group rfl rfl ih .nil
  | ofOperand _ ih | ofChain _ ih | ofUnary _ ih | ofBinary _ ih => exact ih
  | member optional _ ih =>
    refine ih.append (.token ?_ (.token rfl .nil))
    cases optional <;> rfl
  | index optional _ _ iho ihi => exact iho.append (.link rfl rfl ihi optional)
  | call optional _ _ ihf ih =>
    refine ihf.append (.link rfl rfl (.commas fun ts hts => ?_) optional)
    obtain ⟨q, hq, rfl⟩ := List.mem_map.mp hts
    exact ih q hq
  | signed op _ ih => exact .token op.token_isPassed ih
  | binary _ _ _ ihl ihr => exact ihl.append (.token (BinaryOp.token_isPassed _) ihr)
  | conditional _ _ _ iht ihy ihn => exact iht.append (.token rfl (ihy.append (.token rfl ihn)))
  | arrow _ ih =>
    refine .group rfl rfl (.commas fun ts hts => ?_) (.token rfl ih)
    obtain ⟨q, _, rfl⟩ := List.mem_map.mp hts
    exact .token rfl .nil

/-! ## 5. What follows the first operand -/

/-- Neither an arrow nor an assignment sign. -/
def Kind.isTame (k : Kind) : Bool := k ≠ .punct .arrow && !k.isAssignment

/-- The tokens start with something that no lookahead takes for a function or a pattern, however
    they go on: with a token that is neither a name nor a bracket, or with a name or a bracketed
    group that a tame token follows. -/
inductive Opens : List Lexed → Prop
  | other {t : Lexed} {ts : List Lexed}
      (ht : t.kind ≠ .identifier ∧ ∀ p : Punct, p.isOpening = true → t.kind ≠ .punct p) :
      Opens (t :: ts)
  | name {t : Text} {ts : List Lexed} (h : (headKind ts).isTame = true) : Opens (.name t :: ts)
  | group {p q : Punct} {us ts : List Lexed} (hp : p.isOpening = true) (hq : q.isClosing = true)
      (hus : Balanced us) (h : (headKind ts).isTame = true) :
      Opens (punct p :: (us ++ punct q :: ts))

theorem isTame_append (hts : (headKind ts).isTame = true) (hus : (headKind us).isTame = true) :
    (headKind (ts ++ us)).isTame = true := by
  cases ts with
  | nil => exact hus
  | cons t ts => exact hts

theorem Opens.append (hts : Opens ts) (hus : (headKind us).isTame = true) : Opens (ts ++ us) := by
  cases hts with
  | other ht => exact .other ht
  | name h => exact .name (isTame_append h hus)
  | group hp hq hbal h =>
    rw [List.cons_append, List.append_assoc, List.cons_append]
    exact .group hp hq hbal (isTame_append h hus)

theorem BinaryOp.token_isTame (op : BinaryOp) : op.token.isTame = true := by
  cases op <;> rfl

theorem UnaryOp.token_opens (op : UnaryOp) :
    op.token ≠ .identifier ∧ ∀ p : Punct, p.isOpening = true → op.token ≠ .punct p := by
  refine ⟨by cases op <;> decide, fun p hp htoken => ?_⟩
  have hopening : op.token = .punct p → p.isOpening = false := by
    cases op <;> rintro ⟨⟩ <;> rfl
  rw [hopening htoken] at hp
  cases hp

theorem Kind.keyword_opens (w : Keyword) :
    Kind.keyword w ≠ .identifier ∧
      ∀ p : Punct, p.isOpening = true → Kind.keyword w ≠ .punct p := by
  constructor
  · intro h
    cases h
  · intro p _ h
    cases h

def Form.isWhole : Form → Bool
  | .whole => true
  | _ => false

/-- Nothing but a function is taken for one at its first token. -/
theorem Written.opens (h : Written f k ts e) (hf : f.isWhole = false) : Opens ts := by
  induction h with
  | name => exact .name rfl
  | boolean b => exact .other (Kind.keyword_opens _)
  | null => exact .other (Kind.keyword_opens _)
  | array h =>
    refine .group rfl rfl (.commas fun ts hts => ?_) rfl
    obtain ⟨q, hq, rfl⟩ := List.mem_map.mp hts
    exact (h q hq).balanced
  | parens h => exact .group rfl rfl h.balanced rfl
  | ofOperand _ ih | ofChain _ ih | ofUnary _ ih => exact ih rfl
  | member optional _ ih =>
    refine (ih rfl).append ?_
    cases optional <;> rfl
  | index optional _ _ ih =>
    refine (ih rfl).append ?_
    cases optional <;> rfl
  | call optional _ _ ih =>
    refine (ih rfl).append ?_
    cases optional <;> rfl
  | signed op => exact .other op.token_opens
  | binary _ _ _ ih => exact (ih rfl).append (BinaryOp.token_isTame _)
  | ofBinary | conditional | arrow => cases hf

end ReactiveScript
