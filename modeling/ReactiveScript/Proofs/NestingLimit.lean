import ReactiveScript.Proofs.Grammar.Laying
import ReactiveScript.Proofs.RoundTrip

/-!
# The depth limit

The limit bounds the levels that the reader takes at one time. It does not bound the levels on a way
down the tree in the same measure: a chain of links or operators gives its levels back when it ends,
and yet all of them lie on the way down to its first operand.
-/

namespace ReactiveScript

open Grammar Lexed

/-! ## 1. Ways down -/

/-- In every expression that differs from this one at most in its places, there is a way down with
    so many levels. -/
def Reaches (n : Nat) (e : Expr) : Prop :=
  ∀ e' : Expr, e'.unplaced = e.unplaced →
    ∃ path, Path (.expr e') path ∧ path.countP Piece.takesLevel = n

/-- The way down to a part, from an expression that takes a level. -/
theorem exists_path_of_part {n : Nat} {e : Expr} {r : Piece} (hlevel : e.takesLevel = true)
    (hr : r ∈ e.parts) (h : ∃ path, Path r path ∧ path.countP Piece.takesLevel = n) :
    ∃ path, Path (.expr e) path ∧ path.countP Piece.takesLevel = n + 1 := by
  obtain ⟨path, hpath, hcount⟩ := h
  have hpiece : (Piece.expr e).takesLevel = true := hlevel
  refine ⟨.expr e :: path, .step hr hpath, ?_⟩
  rw [List.countP_cons_of_pos hpiece, hcount]

theorem reaches_name {p : Position} {t : Text} : Reaches 0 (.identifier p t) := by
  intro e' he'
  cases e' with
  | identifier p' t' => exact ⟨[.expr (.identifier p' t')], .leaf rfl, rfl⟩
  | _ => simp [Expr.unplaced] at he'

theorem Reaches.member {n : Nat} {p : Position} {o i : Expr} {computed optional : Bool}
    (h : Reaches n o) : Reaches (n + 1) (.member p o i computed optional) := by
  intro e' he'
  cases e' with
  | member p' o' i' computed' optional' =>
    simp only [Expr.unplaced, Expr.member.injEq] at he'
    exact exists_path_of_part rfl List.mem_cons_self (h o' he'.2.1)
  | _ => simp [Expr.unplaced] at he'

theorem Reaches.binary {n : Nat} {p : Position} {op : BinaryOp} {l r : Expr} (h : Reaches n l) :
    Reaches (n + 1) (.binary p op l r) := by
  intro e' he'
  cases e' with
  | binary p' op' l' r' =>
    simp only [Expr.unplaced, Expr.binary.injEq] at he'
    exact exists_path_of_part rfl List.mem_cons_self (h l' he'.2.2.1)
  | _ => simp [Expr.unplaced] at he'

theorem Reaches.unary {n : Nat} {p : Position} {op : UnaryOp} {e : Expr} (h : Reaches n e) :
    Reaches (n + 1) (.unary p op e) := by
  intro e' he'
  cases e' with
  | unary p' op' operand =>
    simp only [Expr.unplaced, Expr.unary.injEq] at he'
    exact exists_path_of_part rfl List.mem_cons_self (h operand he'.2.2)
  | _ => simp [Expr.unplaced] at he'

/-! ## 2. Links and operators from one level on -/

namespace Tower

/-- A member of an expression. -/
def link (e : Expr) : Expr := .member .start e (.identifier .start (txt "b")) false false

/-- A sum with an expression in front. -/
def sum (e : Expr) : Expr := .binary .start .add e (.identifier .start (txt "c"))

/-- So many links or sums on an expression. -/
def grown (f : Expr → Expr) (e : Expr) : Nat → Expr
  | 0 => e
  | j + 1 => grown f (f e) j

/-- Bytes or tokens, so many times. -/
def repeated {α : Type} (w : List α) (j : Nat) : List α := (List.replicate j w).flatten

/-- The tokens of so many members. -/
def links (j : Nat) : List Lexed := repeated [dot false, .name (txt "b")] j

/-- The tokens of so many sums. -/
def terms (j : Nat) : List Lexed := repeated [.fixed BinaryOp.add.token, .name (txt "c")] j

section
variable {f : Expr → Expr} {e e' : Expr} {n : Nat}

theorem reaches_grown (hf : ∀ {n e}, Reaches n e → Reaches (n + 1) (f e)) (h : Reaches n e)
    (j : Nat) : Reaches (n + j) (grown f e j) := by
  induction j generalizing n e with
  | zero => exact h
  | succ j ih =>
    rw [← Nat.add_assoc, Nat.add_right_comm]
    exact ih (hf h)

theorem grown_unplaced
    (hf : ∀ {e e' : Expr}, e'.unplaced = e.unplaced → (f e').unplaced = (f e).unplaced)
    (h : e'.unplaced = e.unplaced) (j : Nat) :
    (grown f e' j).unplaced = (grown f e j).unplaced := by
  induction j generalizing e e' with
  | zero => exact h
  | succ j ih => exact ih (hf h)

theorem grown_isBad (hf : ∀ e, (f e).isBad = false) (h : e.isBad = false) (j : Nat) :
    (grown f e j).isBad = false := by
  induction j generalizing e with
  | zero => exact h
  | succ j ih => exact ih (hf e)

theorem link_unplaced (h : e'.unplaced = e.unplaced) : (link e').unplaced = (link e).unplaced := by
  simp only [link, Expr.unplaced, h]

theorem sum_unplaced (h : e'.unplaced = e.unplaced) : (sum e').unplaced = (sum e).unplaced := by
  simp only [sum, Expr.unplaced, h]

end

end Tower

namespace Grammar

section
variable {c : Context} {n d k : Nat} {s : State} {e : Expr} {ts rest : List Lexed}
  {Q : Expr → State → Prop}

/-- Links are read one level deeper each, from the level of the operand on. -/
theorem ends_links (j : Nat) {optional : Bool} (hn : levels ≤ n + d) (hd : d + j ≤ maxDepth)
    (hs : Goes c.rounds d s (Tower.links j ++ rest))
    (hnext : ∀ n' d' e' s', levels ≤ n' + d' → d' ≤ d + j →
      e'.unplaced = (Tower.grown Tower.link e j).unplaced → Goes c.rounds d' s' rest →
      Ends (chainRest (c.raised n') optional e') s' Q) :
    Ends (chainRest (c.raised n) optional e) s Q := by
  induction j generalizing n d s e with
  | zero => exact hnext n d e s hn (Nat.le_refl d) rfl hs
  | succ j ih =>
    have hdot : s.sees (.punct .dot) = true := Stands.sees_head hs.toStands
    rw [chainRest, ends_ifAccept_of_sees hdot, ends_bind]
    refine (ends_memberName hs.advance.toStands).mono ?_
    rintro _ s₁ ⟨⟨p', rfl⟩, hs₁⟩
    refine ends_chainOn rfl hn (by omega) hs₁ fun n' s₂ hn' hs₂ => ?_
    refine ih hn' (by omega) hs₂ fun n'' d'' e'' s₃ hn'' hd'' he'' hs₃ => ?_
    refine hnext n'' d'' e'' s₃ hn'' (by omega) (he''.trans (Tower.grown_unplaced Tower.link_unplaced ?_ j)) hs₃
    rw [Tower.link, Expr.unplaced, Expr.unplaced, Expr.unplaced, Expr.unplaced]

/-- As many links as the operand has levels inside need no more levels. -/
theorem readsChain_links {j : Nat} (hbad : e.isBad = false) (h : ReadsOperand c k ts e)
    (hj : j ≤ k) : ReadsChain c k (ts ++ Tower.links j) (Tower.grown Tower.link e j) := by
  refine ⟨false, ?_⟩
  intro n d s rest Q hn hd hs hnext
  rw [List.append_assoc] at hs
  refine (h hn hd hs).mono ?_
  rintro e' s' ⟨he', hs'⟩
  have hbad' : e'.isBad = false := (Expr.isBad_of_unplaced_eq he').trans hbad
  refine ⟨hbad', hs'.depth_eq, ends_links j hn (by omega) hs' ?_⟩
  intro n' d' e'' s'' hn' hd' he'' hs''
  exact hnext n' d' e'' s'' hn' (by omega) (he''.trans (Tower.grown_unplaced Tower.link_unplaced he' j)) hs''

/-- Operators are read one level deeper each, from the level of the first operand on. -/
theorem ends_terms (j : Nat) {least : Nat} (hleast : least ≤ BinaryOp.add.strength)
    (hrest : (headKind rest).canFollow 1 = true) (hn : levels ≤ n + d) (hd : d + j ≤ maxDepth)
    (hs : Goes c.rounds d s (Tower.terms j ++ rest))
    (hnext : ∀ n' d' e' s', levels ≤ n' + d' → d' ≤ d + j →
      e'.unplaced = (Tower.grown Tower.sum e j).unplaced → Goes c.rounds d' s' rest →
      Ends (binaryRest (c.raised n') least e') s' Q) :
    Ends (binaryRest (c.raised n) least e) s Q := by
  induction j generalizing n d s e with
  | zero => exact hnext n d e s hn (Nat.le_refl d) rfl hs
  | succ j ih =>
    have hstops : (headKind (Tower.terms j ++ rest)).stops BinaryOp.add.rightStrength = true := by
      cases j with
      | zero =>
        refine Kind.follows_mono hrest fun op hop => decide_eq_true ?_
        have hweak : op.leftStrength ≤ BinaryOp.add.strength :=
          Nat.le_trans (of_decide_eq_true hop) (by decide)
        exact BinaryOp.strength_lt_of_leftStrength_le hweak
      | succ j => rfl
    have hterm : ReadsBinary c BinaryOp.add.rightStrength 0 [.name (txt "c")]
        (.identifier .start (txt "c")) :=
      readsForm_of_written (.ofUnary (.ofChain (.ofOperand .name)))
    obtain ⟨n, rfl⟩ := exists_level (k := 1) hn (by omega)
    have hs₁ := (hs.toStands.setDepth (d + 1)).advance.toStands
    rw [binaryRest, ends_get, hs.operator?_eq hleast]
    dsimp only
    rw [ends_deeper (hs.deepened_tooDeep (by omega)), hs.deepened_eq (by omega), ends_advance, ends_bind]
    refine (ends_binary hterm (by omega) (by omega) hstops hs₁).mono ?_
    rintro r s₂ ⟨hr, hs₂⟩
    refine ih (by omega) (by omega) hs₂ fun n' d' e' s₃ hn' hd' he' hs₃ => ?_
    refine hnext n' d' e' s₃ hn' (by omega) (he'.trans (Tower.grown_unplaced Tower.sum_unplaced ?_ j)) hs₃
    rw [Tower.sum, Expr.unplaced, Expr.unplaced, hr]

/-- As many operators as the first operand has levels inside need no more levels. -/
theorem readsBinary_terms {j : Nat} (h : ReadsUnary c k ts e) (hj : j ≤ k) :
    ReadsBinary c 1 k (ts ++ Tower.terms j) (Tower.grown Tower.sum e j) := by
  intro n d least s rest Q hn hd hleast hrest hs hnext
  rw [List.append_assoc] at hs
  have hends : (headKind (Tower.terms j ++ rest)).endsChain = true := by
    cases j with
    | zero => exact Kind.endsChain_of_follows hrest
    | succ j => rfl
  refine (h hn hd hends hs).mono ?_
  rintro e' s' ⟨he', hs'⟩
  have hstrong : least ≤ BinaryOp.add.strength := Nat.le_trans hleast (by decide)
  refine ⟨hs'.depth_eq, ends_terms j hstrong hrest hn (by omega) hs' ?_⟩
  intro n' d' e'' s'' hn' hd' he'' hs''
  exact hnext n' d' e'' s'' hn' (by omega) (he''.trans (Tower.grown_unplaced Tower.sum_unplaced he' j)) hs''

end

end Grammar

/-! ## 3. Towers -/

namespace Tower

/-- The expression with so many storeys: the one below in parentheses, with links and then with
    operators on it. -/
def expr : Nat → Expr
  | 0 => .identifier .start (txt "a")
  | m + 1 => grown sum (grown link (expr m) (m + 1)) (m + 1)

def tokens : Nat → List Lexed
  | 0 => [.name (txt "a")]
  | m + 1 =>
    punct .openParen :: (tokens m ++ punct .closeParen :: (links (m + 1) ++ terms (m + 1)))

theorem tokens_succ (m : Nat) :
    tokens (m + 1) = (punct .openParen :: (tokens m ++ [punct .closeParen])) ++ links (m + 1) ++
      terms (m + 1) := by
  simp [tokens]

/-- Every storey adds twice its number. -/
theorem reaches_expr (m : Nat) : Reaches (m * (m + 1)) (expr m) := by
  induction m with
  | zero => exact reaches_name
  | succ m ih =>
    have hcount : (m + 1) * (m + 1 + 1) = m * (m + 1) + (m + 1) + (m + 1) := by
      rw [Nat.mul_add_one, Nat.add_one_mul]
    rw [hcount]
    exact reaches_grown .binary (reaches_grown .member ih (m + 1)) (m + 1)

theorem expr_isBad (m : Nat) : (expr m).isBad = false := by
  induction m with
  | zero => rfl
  | succ m ih => exact grown_isBad (fun _ => rfl) (grown_isBad (fun _ => rfl) ih (m + 1)) (m + 1)

theorem balanced_repeated {ts : List Lexed} (h : Balanced ts) (j : Nat) :
    Balanced (repeated ts j) := by
  induction j with
  | zero => exact .nil
  | succ j ih => exact h.append ih

theorem balanced_tokens (m : Nat) : Balanced (tokens m) := by
  induction m with
  | zero => exact .token rfl .nil
  | succ m ih =>
    exact .group rfl rfl ih ((balanced_repeated (.token rfl (.token rfl .nil)) (m + 1)).append
      (balanced_repeated (.token rfl (.token rfl .nil)) (m + 1)))

/-- A tower needs a level more than it has storeys. -/
theorem readsWhole_tokens (c : Context) (m : Nat) : ReadsWhole c (m + 1) (tokens m) (expr m) := by
  induction m with
  | zero => exact readsForm_of_written (.ofBinary (.ofUnary (.ofChain (.ofOperand .name))))
  | succ m ih =>
    have hopens : Opens (tokens (m + 1)) := .group rfl rfl (balanced_tokens m) rfl
    have hbinary : ReadsBinary c 1 (m + 1) (tokens (m + 1)) (expr (m + 1)) := by
      rw [tokens_succ]
      refine readsBinary_terms (readsUnary_ofChain rfl ?_) (Nat.le_refl (m + 1))
      exact readsChain_links (expr_isBad m) (readsOperand_parens ih) (Nat.le_refl (m + 1))
    intro n d s rest
    exact readsWhole_ofBinary hopens hbinary

theorem cuts_repeated {w : Text} {ts : List Lexed} (happart : ∀ t, Text.isApart (w ++ t) = true)
    (h : Cuts w ts) (j : Nat) :
    Text.isApart (repeated w j) = true ∧ Cuts (repeated w j) (repeated ts j) := by
  induction j with
  | zero => exact ⟨rfl, fun _ _ _ hus => hus⟩
  | succ j ih => exact ⟨happart _, h.append ih.1 ih.2⟩

theorem cuts_terms (j : Nat) :
    Text.isApart (repeated (txt "+c") j) = true ∧ Cuts (repeated (txt "+c") j) (terms j) := by
  have hterm : Cuts (Punct.plus.spelling ++ txt "c") [punct .plus, .name (txt "c")] :=
    (cuts_name rfl rfl).mark fun t =>
      Punct.sign_standsBefore (.inr (.inr ⟨.inl rfl, by decide⟩)) rfl
  exact cuts_repeated (fun _ => rfl) hterm j

theorem exists_cuts_tokens (m : Nat) : ∃ w, Cuts w (tokens m) := by
  induction m with
  | zero => exact ⟨txt "a", cuts_name rfl rfl⟩
  | succ m ih =>
    obtain ⟨w, hcuts⟩ := ih
    obtain ⟨hlinksApart, hlinks⟩ :=
      cuts_repeated (fun _ => rfl) (cuts_dot (w := txt "b") rfl rfl false) (m + 1)
    obtain ⟨htermsApart, hterms⟩ := cuts_terms (m + 1)
    have hgroup := hcuts.bracketed (p := .openParen) (q := .closeParen) rfl rfl
    rw [tokens_succ]
    exact ⟨_, (hgroup.append hlinksApart hlinks).append htermsApart hterms⟩

end Tower

/-- A tower of as many storeys as there are levels, but for the one of the whole expression, is
    accepted. -/
theorem exists_accepted_tower :
    ∃ source e path, readExpression source = some (.ok e) ∧ Path (.expr e) path ∧
      path.countP Piece.takesLevel = maxDepth * (maxDepth - 1) := by
  obtain ⟨w, hcuts⟩ := Tower.exists_cuts_tokens (maxDepth - 1)
  obtain ⟨e, hread, he⟩ := readExpression_of_readsWhole
    (fun c => Tower.readsWhole_tokens c (maxDepth - 1)) (by decide) hcuts.lexes
  obtain ⟨path, hpath, hcount⟩ := Tower.reaches_expr (maxDepth - 1) e he
  exact ⟨w, e, path, hread, hpath, hcount.trans (Nat.mul_comm _ _)⟩

/-! ## 4. The bound -/

/-- **The levels on a way down the tree of an accepted source.** They are bounded, for programs and
    for expressions, but by the square of the limit and not by the limit: there is a source that
    falls short of the bound by one level only. -/
theorem levels_of_accepted (source : Text) :
    (∀ p path, readProgram source = some (.ok p) → Path (.program p) path →
      path.countP Piece.takesLevel ≤ maxDepth * (maxDepth - 1) + 1) ∧
    (∀ e path, readExpression source = some (.ok e) → Path (.expr e) path →
      path.countP Piece.takesLevel ≤ maxDepth * (maxDepth - 1) + 1) ∧
    ∃ source e path, readExpression source = some (.ok e) ∧ Path (.expr e) path ∧
      path.countP Piece.takesLevel = maxDepth * (maxDepth - 1) := by
  refine ⟨fun p path hread hpath => ?_, fun e path hread hpath => ?_, exists_accepted_tower⟩
  · exact (built_of_readProgram hread).shallow.countP_le hpath
  · exact (built_of_readExpression hread).shallow.countP_le hpath

/-- So many negations of an expression. -/
def Tower.negated (e : Expr) : Nat → Expr
  | 0 => e
  | j + 1 => .unary .start .not (negated e j)

theorem Tower.reaches_negated {n : Nat} {e : Expr} (h : Reaches n e) (j : Nat) :
    Reaches (n + j) (negated e j) := by
  induction j with
  | zero => exact h
  | succ j ih => exact ih.unary

theorem Grammar.readsUnary_negated {c : Context} {k : Nat} {ts : List Lexed} {e : Expr}
    (h : ReadsUnary c k ts e) (j : Nat) :
    ReadsUnary c (k + j) (List.replicate j (punct .bang) ++ ts) (Tower.negated e j) := by
  induction j with
  | zero => exact h
  | succ j ih => exact readsUnary_signed .not ih

theorem Tower.cuts_negated {w : Text} {ts : List Lexed} (h : Cuts w ts)
    (hopens : w.opensExpr = true) (j : Nat) :
    Cuts (List.replicate j 0x21 ++ w) (List.replicate j (punct .bang) ++ ts) ∧
      Text.opensExpr (List.replicate j 0x21 ++ w) = true := by
  induction j with
  | zero => exact ⟨h, hopens⟩
  | succ j ih =>
    obtain ⟨hcuts, hopens⟩ := ih
    have hword : UnaryOp.not.isWord = false := rfl
    exact ⟨cuts_sign hword rfl hopens hcuts, rfl⟩

/-- Two operators after a name with as many signs as the limit allows: one level more than the limit
    on the way down to the name. -/
theorem signs_and_sums_pass_limit :
    ∃ e path, readExpression (List.replicate (maxDepth - 1) 0x21 ++ txt "a+c+c") = some (.ok e) ∧
      Path (.expr e) path ∧ path.countP Piece.takesLevel = maxDepth + 1 ∧
      maxDepth + 1 ≤ maxDepth * (maxDepth - 1) + 1 := by
  have hreads : ∀ c, ReadsWhole c maxDepth
      (List.replicate (maxDepth - 1) (punct .bang) ++ [.name (txt "a")] ++ Tower.terms 2)
      (Tower.grown Tower.sum (Tower.negated (.identifier .start (txt "a")) (maxDepth - 1)) 2) := by
    intro c
    have hname : ReadsUnary c 0 [.name (txt "a")] (.identifier .start (txt "a")) :=
      readsForm_of_written (.ofChain (.ofOperand .name))
    have hbinary : ReadsBinary c 1 (maxDepth - 1) _ _ :=
      readsBinary_terms (j := 2) (readsUnary_negated hname (maxDepth - 1)) (by decide)
    intro n d s rest
    exact readsWhole_ofBinary (.other (UnaryOp.token_opens .not)) hbinary
  have hlexes : Lexes (List.replicate (maxDepth - 1) 0x21 ++ txt "a+c+c")
      (List.replicate (maxDepth - 1) (punct .bang) ++ [.name (txt "a")] ++ Tower.terms 2) := by
    have hsigns := (Tower.cuts_negated (cuts_name (w := txt "a") rfl rfl) rfl (maxDepth - 1)).1
    have hcuts := (hsigns.append (Tower.cuts_terms 2).1 (Tower.cuts_terms 2).2) [] [] rfl .nil
    rwa [List.append_nil, List.append_nil, List.append_assoc] at hcuts
  obtain ⟨e, hread, he⟩ := readExpression_of_readsWhole hreads (Nat.le_refl _) hlexes
  obtain ⟨path, hpath, hcount⟩ :=
    Tower.reaches_grown .binary (Tower.reaches_negated reaches_name (maxDepth - 1)) 2 e he
  have hbound := (levels_of_accepted _).2.1 e path hread hpath
  exact ⟨e, path, hread, hpath, hcount, by rwa [hcount] at hbound⟩

end ReactiveScript
