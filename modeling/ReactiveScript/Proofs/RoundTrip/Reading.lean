import ReactiveScript.Grammar.Read
import ReactiveScript.Proofs.RoundTrip.Standing

/-!
# What is written is read

The reader, standing before the tokens of an expression, reads that expression and stands behind
it. The proof follows the forms: each has a statement of its own about the routine that reads it
(`ReadsOperand` to `ReadsWhole`), and each way of writing a form one lemma.

Chains and ladders of operators are read from left to right by a loop that goes a level deeper with
every link or operator, so their statements are about the loop: whatever holds of the loop behind
the expression, at any depth that the expression can lead to, holds of the loop from its start.
-/

namespace ReactiveScript

variable {k : Kind} {test : BinaryOp → Bool}

open Lexed

/-! ## 1. What may follow -/

/-- Does a whole expression end before a token of this kind? -/
def Kind.endsWhole : Kind → Bool
  | .eof | .punct .closeParen | .punct .closeBracket | .punct .comma | .punct .colon => true
  | _ => false

/-- An end, a question mark, or a binary operator of which `test` holds. -/
def Kind.follows (test : BinaryOp → Bool) (k : Kind) : Bool :=
  k.endsWhole || k = .punct .question || ((BinaryOp.ofKind? k).map test).getD false

/-- May a token of this kind follow a ladder of operators at least so strong? -/
def Kind.canFollow (m : Nat) (k : Kind) : Bool := k.follows fun op => op.leftStrength ≤ m

/-- Does a reader of operators at least so strong stop before a token of this kind? -/
def Kind.stops (m : Nat) (k : Kind) : Bool := k.follows fun op => op.strength < m

/-- Neither a link of a chain nor an operator behind an operand. -/
def Kind.endsChain : Kind → Bool
  | .punct .dot | .punct .optional | .punct .openBracket | .punct .openParen | .template
  | .punct .increment | .punct .decrement => false
  | _ => true

/-- Does a link of a chain start with a token of this kind? -/
def Kind.startsLink : Kind → Bool
  | .punct .dot | .punct .optional | .punct .openBracket | .punct .openParen | .template => true
  | _ => false

theorem Kind.startsLink_of_endsChain (h : k.endsChain = true) : k.startsLink = false := by
  unfold Kind.startsLink
  split <;> first | rfl | cases h

theorem BinaryOp.ofKind?_token (op : BinaryOp) : BinaryOp.ofKind? op.token = some op := by
  cases op <;> rfl

theorem BinaryOp.token_of_ofKind? {op : BinaryOp} (h : BinaryOp.ofKind? k = some op) :
    op.token = k := by
  simpa using List.find?_some h

theorem Kind.follows_cases (h : k.follows test = true) :
    k.endsWhole = true ∨ k = .punct .question ∨ ∃ op : BinaryOp, k = op.token ∧ test op = true := by
  simp only [Kind.follows, Bool.or_eq_true, decide_eq_true_eq] at h
  rcases h with (h | h) | h
  · exact .inl h
  · exact .inr (.inl h)
  · cases hop : BinaryOp.ofKind? k with
    | none =>
      rw [hop] at h
      cases h
    | some op =>
      rw [hop] at h
      exact .inr (.inr ⟨op, (BinaryOp.token_of_ofKind? hop).symm, h⟩)

theorem Kind.follows_of_endsWhole (h : k.endsWhole = true) (test : BinaryOp → Bool) :
    k.follows test = true := by
  rw [Kind.follows, h, Bool.true_or, Bool.true_or]

theorem Kind.follows_mono {test' : BinaryOp → Bool} (h : k.follows test = true)
    (himp : ∀ op, test op = true → test' op = true) : k.follows test' = true := by
  rcases Kind.follows_cases h with hend | rfl | ⟨op, rfl, hop⟩
  · exact Kind.follows_of_endsWhole hend _
  · rfl
  · simp [Kind.follows, BinaryOp.ofKind?_token, himp op hop]

theorem Kind.endsWhole_cases (h : k.endsWhole = true) :
    k = .eof ∨ k = .punct .closeParen ∨ k = .punct .closeBracket ∨ k = .punct .comma ∨
      k = .punct .colon := by
  unfold Kind.endsWhole at h
  split at h <;> simp_all

theorem Kind.endsChain_of_follows (h : k.follows test = true) : k.endsChain = true := by
  rcases Kind.follows_cases h with hend | rfl | ⟨op, rfl, -⟩
  · rcases Kind.endsWhole_cases hend with rfl | rfl | rfl | rfl | rfl <;> rfl
  · rfl
  · cases op <;> rfl

theorem Kind.isTame_of_endsWhole (h : k.endsWhole = true) : k.isTame = true := by
  rcases Kind.endsWhole_cases h with rfl | rfl | rfl | rfl | rfl <;> rfl

theorem Kind.ofKind?_of_endsWhole (h : k.endsWhole = true) :
    BinaryOp.ofKind? k = none ∧ AssignSign.ofKind? k = none ∧ k ≠ .punct .question := by
  rcases Kind.endsWhole_cases h with rfl | rfl | rfl | rfl | rfl <;>
    exact ⟨rfl, rfl, by decide⟩

theorem UpdateOp.ofKind?_of_endsChain (h : k.endsChain = true) : UpdateOp.ofKind? k = none := by
  cases k with
  | punct p => cases p <;> first | rfl | cases h
  | _ => rfl

theorem UpdateOp.ofKind?_of_startsOperand (h : k.startsOperand = true) :
    UnaryOp.ofKind? k = none ∧ UpdateOp.ofKind? k = none := by
  cases k with
  | punct p => cases p <;> first | exact ⟨rfl, rfl⟩ | cases h
  | keyword w => cases w <;> first | exact ⟨rfl, rfl⟩ | cases h
  | _ => exact ⟨rfl, rfl⟩

theorem BinaryOp.strength_le_leftStrength (op : BinaryOp) : op.strength ≤ op.leftStrength := by
  unfold BinaryOp.leftStrength
  split <;> omega

/-- An operator that can follow another's right operand is weaker than what that operand holds. -/
theorem BinaryOp.strength_lt_of_leftStrength_le {op₁ op₂ : BinaryOp}
    (h : op₂.leftStrength ≤ op₁.strength) : op₂.strength < op₁.rightStrength := by
  revert h
  cases op₁ <;> cases op₂ <;> decide

namespace Grammar

/-! ## 2. Statements for the forms -/

/-- A whole expression is read by `assignment`. -/
def ReadsWhole (c : Context) (k : Nat) (ts : List Lexed) (e : Expr) : Prop :=
  ∀ {n d : Nat} {s : State} {rest : List Lexed}, levels ≤ n + d + 1 → d + k ≤ maxDepth →
    (headKind rest).endsWhole = true → Stands c.rounds d s (ts ++ rest) →
    Ends (assignment (c.raised n)) s fun e' s' =>
      e'.unplaced = e.unplaced ∧ Goes c.rounds d s' rest

/-- An operand is read by `primary`, whatever follows. -/
def ReadsOperand (c : Context) (k : Nat) (ts : List Lexed) (e : Expr) : Prop :=
  ∀ {n d : Nat} {s : State} {rest : List Lexed}, levels ≤ n + d → d + k ≤ maxDepth →
    Stands c.rounds d s (ts ++ rest) →
    Ends (primary (c.raised n)) s fun e' s' => e'.unplaced = e.unplaced ∧ Goes c.rounds d s' rest

/-- A chain is read by `primary` and the loop over its links, which remembers whether one of them
    was optional. -/
def ReadsLinks (c : Context) (optional : Bool) (k : Nat) (ts : List Lexed) (e : Expr) : Prop :=
  ∀ {n d : Nat} {s : State} {rest : List Lexed} {Q : Expr → State → Prop}, levels ≤ n + d →
    d + k ≤ maxDepth → Stands c.rounds d s (ts ++ rest) →
    (∀ n' d' e' s', levels ≤ n' + d' → d' ≤ d + k → e'.unplaced = e.unplaced →
      Goes c.rounds d' s' rest → Ends (chainRest (c.raised n') optional e') s' Q) →
    Ends (primary (c.raised n)) s fun e' s' =>
      e'.isBad = false ∧ s'.depth = d ∧ Ends (chainRest (c.raised n) false e') s' Q

/-- A chain is read, whether or not one of its links is optional. -/
def ReadsChain (c : Context) (k : Nat) (ts : List Lexed) (e : Expr) : Prop :=
  ∃ optional, ReadsLinks c optional k ts e

/-- A chain with signs in front is read by `unary`. -/
def ReadsUnary (c : Context) (k : Nat) (ts : List Lexed) (e : Expr) : Prop :=
  ∀ {n d : Nat} {s : State} {rest : List Lexed}, levels ≤ n + d → d + k ≤ maxDepth →
    (headKind rest).endsChain = true → Stands c.rounds d s (ts ++ rest) →
    Ends (unary (c.raised n)) s fun e' s' => e'.unplaced = e.unplaced ∧ Goes c.rounds d s' rest

/-- A ladder of operators is read by `unary` and the loop over the operators. -/
def ReadsBinary (c : Context) (m k : Nat) (ts : List Lexed) (e : Expr) : Prop :=
  ∀ {n d least : Nat} {s : State} {rest : List Lexed} {Q : Expr → State → Prop}, levels ≤ n + d →
    d + k ≤ maxDepth → least ≤ m → (headKind rest).canFollow m = true →
    Stands c.rounds d s (ts ++ rest) →
    (∀ n' d' e' s', levels ≤ n' + d' → d' ≤ d + k → e'.unplaced = e.unplaced →
      Goes c.rounds d' s' rest → Ends (binaryRest (c.raised n') least e') s' Q) →
    Ends (unary (c.raised n)) s fun e' s' =>
      s'.depth = d ∧ Ends (binaryRest (c.raised n) least e') s' Q

/-- What the reader does with an expression in a form. -/
def ReadsForm (c : Context) : Form → Nat → List Lexed → Expr → Prop
  | .operand => ReadsOperand c
  | .chain => ReadsChain c
  | .unary => ReadsUnary c
  | .binary m => ReadsBinary c m
  | .whole => ReadsWhole c

/-- Above the depth limit there is always a level below. -/
theorem exists_level {n d k : Nat} (hn : levels ≤ n + d) (hd : d + k ≤ maxDepth) :
    ∃ n', n = n' + 1 := by
  have hlevels : levels = maxDepth + 2 := rfl
  exact ⟨n - 1, by omega⟩

theorem Context.raised_rounds (c : Context) (n : Nat) : (c.raised n).rounds = c.rounds := by
  cases n <;> rfl

/-! ## 3. Lists of parts -/

theorem length_le_commas (ts : List (List Lexed)) : ts.length ≤ (commas ts).length + 1 := by
  induction ts with
  | nil => exact Nat.zero_le _
  | cons t ts ih =>
    cases ts with
    | nil => exact Nat.le_add_left 1 _
    | cons u us =>
      simp only [commas, List.length_append, List.length_cons] at ih ⊢
      omega

/-- Behind the first of several lists there is a comma, behind the last one none. -/
theorem commas_cons_append (t : List Lexed) (ts : List (List Lexed)) (us : List Lexed) :
    commas (t :: ts) ++ us = t ++ if ts = [] then us else punct .comma :: (commas ts ++ us) := by
  cases ts with
  | nil => rw [if_pos rfl, commas]
  | cons u ts => rw [if_neg (List.cons_ne_nil u ts), commas, List.append_assoc, List.cons_append]

section
variable {α β γ : Type} {close : Punct} {part : Reading (Part α)} {f : α → γ} {g : β → γ}
  {rounds d : Nat} {rest : List Lexed}

/-- A part of a list is read up to the comma or the closing token behind it. -/
def ReadsPart (rounds d : Nat) (close : Punct) (part : Reading (Part α)) (f : α → γ) (g : β → γ)
    (q : List Lexed × β) : Prop :=
  headKind q.1 ≠ .punct close ∧ headKind q.1 ≠ .eof ∧
    ∀ s ts, headKind ts = .punct .comma ∨ headKind ts = .punct close →
      Stands rounds d s (q.1 ++ ts) →
      Ends part s fun x s' => ∃ a, x = .more a ∧ f a = g q.2 ∧ Goes rounds d s' ts

/-- The loop over the parts of a list reads them all. -/
theorem ends_partsFrom (hcomma : close ≠ .comma) (items : List (List Lexed × β))
    (hitems : ∀ q ∈ items, ReadsPart rounds d close part f g q) {k : Nat} {s : State}
    {done : List α} (hk : items.length < k)
    (hs : Stands rounds d s (commas (items.map (·.1)) ++ punct close :: rest)) :
    Ends (partsFrom (.punct close) part done k) s fun as s' =>
      as.map f = done.reverse.map f ++ items.map (fun q => g q.2) ∧
        Stands rounds d s' (punct close :: rest) := by
  induction items generalizing k s done with
  | nil =>
    obtain ⟨k, rfl⟩ := Nat.exists_eq_add_of_lt hk
    rw [partsFrom]
    simp only [ends_sees, ends_atEnd, hs.sees_head, Bool.true_or, if_true, ends_pure]
    exact ⟨(List.append_nil _).symm, hs⟩
  | cons q items ih =>
    obtain ⟨k, rfl⟩ := Nat.exists_eq_add_of_lt hk
    obtain ⟨⟨hclose, heof, hpart⟩, hitems⟩ := List.forall_mem_cons.mp hitems
    rw [List.map_cons, commas_cons_append] at hs
    have hsees : s.sees (.punct close) = false := by
      rw [hs.sees_eq, headKind_append heof]
      exact decide_eq_false hclose
    have hend : s.atEnd = false := by
      rw [hs.atEnd_eq, headKind_append heof]
      exact decide_eq_false heof
    rw [partsFrom]
    simp only [ends_sees, ends_atEnd, hsees, hend, Bool.or_self, Bool.false_eq_true, if_false]
    rw [ends_bind]
    cases items with
    | nil =>
      refine (hpart s _ (.inr rfl) hs).mono ?_
      rintro _ s₁ ⟨a, rfl, ha, hs₁⟩
      have hsees₁ : s₁.sees (.punct .comma) = false :=
        hs₁.not_sees (decide_eq_false fun h => hcomma (by cases h; rfl))
      rw [ends_accept_of_not_sees hsees₁, if_neg Bool.false_ne_true, ends_pure]
      exact ⟨by simp [ha], hs₁.toStands⟩
    | cons q' items =>
      refine (hpart s _ (.inl rfl) hs).mono ?_
      rintro _ s₁ ⟨a, rfl, ha, hs₁⟩
      rw [ends_accept_of_sees hs₁.sees_head, if_pos rfl]
      have hrounds : (q' :: items).length < (q :: q' :: items).length + k := by
        simp only [List.length_cons]
        omega
      refine (ih hitems hrounds hs₁.advance.toStands).mono ?_
      rintro as s₂ ⟨has, hs₂⟩
      exact ⟨by simp [has, ha], hs₂⟩

end

section
variable {c : Context} {n d k : Nat} {s : State} {rounds m : Nat} {ts rest us : List Lexed}
  {parts : List (List Lexed × Expr)} {p : Position} {e : Expr} {optional before : Bool}
  {Q : Expr → State → Prop} {names : List (Position × Text)}

/-- Elements in brackets are read, and the bracket behind them is taken. -/
theorem ends_listed {α β γ : Type} {part : Reading (Part α)} {f : α → γ} {g : β → γ} {close : Punct}
    (hcomma : close ≠ .comma) (items : List (List Lexed × β))
    (hitems : ∀ q ∈ items, ReadsPart c.rounds d close part f g q)
    (hs : Stands c.rounds d s (commas (items.map (·.1)) ++ punct close :: rest)) :
    Ends (do
      let as ← bracketed (Grammar.parts (c.raised n) (.punct close) part)
      let _ ← expect (.punct close)
      return as) s fun as s' =>
        as.map f = items.map (fun q => g q.2) ∧ Goes c.rounds d s' rest := by
  have hrounds : items.length < c.rounds := by
    have hlength := hs.length_lt
    have hcommas := length_le_commas (items.map (·.1))
    simp only [List.length_append, List.length_cons, List.length_map] at hlength hcommas
    omega
  rw [ends_bind, Grammar.parts, Context.raised_rounds, ends_bracketed]
  refine (ends_partsFrom hcomma items hitems hrounds (hs.setNesting _)).mono ?_
  rintro as s₁ ⟨has, hs₁⟩
  have hs₂ := hs₁.setNesting (s₁.nesting - 1)
  rw [ends_expect_of_sees hs₂.sees_head, ends_pure]
  exact ⟨has, hs₂.advance⟩

theorem Stands.kind_of_starts {f : Form} (h : Stands rounds d s (ts ++ rest))
    (hts : f.starts (headKind ts) = true) : s.current.kind = headKind ts := by
  rw [h.kind_eq, headKind_append (Form.ne_eof_of_starts hts)]

/-- A token that starts nothing in a form is not the first of what is written in it. -/
theorem Stands.sees_of_starts {f : Form} {k' : Kind} (h : Stands rounds d s (ts ++ rest))
    (hts : f.starts (headKind ts) = true) (hk' : f.starts k' = false) : s.sees k' = false := by
  rw [State.sees, h.kind_of_starts hts]
  refine decide_eq_false fun heq => ?_
  rw [heq, hk'] at hts
  cases hts

theorem readsPart_element {close : Punct} (hclose : close = .closeBracket ∨ close = .closeParen)
    {q : List Lexed × Expr} (hstarts : Form.whole.starts (headKind q.1) = true)
    (hq : ReadsWhole c k q.1 q.2) (hn : levels ≤ n + d + 1) (hd : d + k ≤ maxDepth) :
    ReadsPart c.rounds d close (.more <$> elementOrSpread (c.raised (n + 1))) Expr.unplaced
      Expr.unplaced q := by
  refine ⟨fun heq => ?_, Form.ne_eof_of_starts hstarts, fun s ts hts hs => ?_⟩
  · rw [heq] at hstarts
    rcases hclose with rfl | rfl
    · cases hstarts
    · cases hstarts
  · have hends : (headKind ts).endsWhole = true := by
      rcases hts with hts | hts <;> rw [hts]
      · rfl
      · rcases hclose with rfl | rfl <;> rfl
    rw [ends_map, elementOrSpread, ends_token,
      ends_ifAccept_of_not_sees (hs.sees_of_starts hstarts rfl)]
    refine (hq hn hd hends hs).mono ?_
    rintro e' s' ⟨he', hs'⟩
    exact ⟨e', rfl, he', hs'⟩

theorem ends_elements {close : Punct} (hclose : close = .closeBracket ∨ close = .closeParen)
    (hparts : ∀ q ∈ parts, Form.whole.starts (headKind q.1) = true ∧ ReadsWhole c k q.1 q.2)
    (hn : levels ≤ n + d + 1) (hd : d + k ≤ maxDepth)
    (hs : Stands c.rounds d s (commas (parts.map (·.1)) ++ punct close :: rest)) :
    Ends (elements (c.raised (n + 1)) close) s fun es s' =>
      Unplaced.exprs es = Unplaced.exprs (parts.map (·.2)) ∧ Goes c.rounds d s' rest := by
  have hcomma : close ≠ .comma := by rcases hclose with rfl | rfl <;> decide
  refine (ends_listed hcomma parts (fun q hq =>
    readsPart_element hclose (hparts q hq).1 (hparts q hq).2 hn hd) hs).mono ?_
  rintro es s₁ ⟨hes, hs₁⟩
  rw [Unplaced.exprs_eq_map, Unplaced.exprs_eq_map, hes, List.map_map]
  exact ⟨rfl, hs₁⟩

/-! ## 4. Operands -/

theorem readsOperand_name {t : Text} : ReadsOperand c k [.name t] (.identifier p t) := by
  intro n d s rest _ _ hs
  have hkind : s.current.kind = .identifier := hs.kind_eq
  have htext : s.current.text = t := hs.text_eq
  rw [primary, ends_token, hkind]
  dsimp only
  rw [ends_take, ends_pure]
  refine ⟨?_, hs.advance⟩
  rw [identifierOf, htext, Expr.unplaced, Expr.unplaced]

theorem readsOperand_boolean (b : Bool) :
    ReadsOperand c k [.fixed (.keyword (if b then .true else .false))] (.boolean p b) := by
  intro n d s rest _ _ hs
  have hkind : s.current.kind = .keyword (if b then .true else .false) := hs.kind_eq
  rw [primary, ends_token, hkind]
  cases b with
  | false | true =>
    simp only [Bool.false_eq_true, if_false, if_true]
    rw [ends_advance, ends_pure]
    exact ⟨by rw [Expr.unplaced, Expr.unplaced], hs.advance⟩

theorem readsOperand_null : ReadsOperand c k [.fixed (.keyword .null)] (.null p) := by
  intro n d s rest _ _ hs
  have hkind : s.current.kind = .keyword .null := hs.kind_eq
  rw [primary, ends_token, hkind]
  dsimp only
  rw [ends_advance, ends_pure]
  exact ⟨by rw [Expr.unplaced, Expr.unplaced], hs.advance⟩

theorem readsOperand_array
    (hparts : ∀ q ∈ parts, Form.whole.starts (headKind q.1) = true ∧ ReadsWhole c k q.1 q.2) :
    ReadsOperand c k (punct .openBracket :: (commas (parts.map (·.1)) ++ [punct .closeBracket]))
      (.array p (parts.map (·.2))) := by
  intro n d s rest hn hd hs
  obtain ⟨n, rfl⟩ := exists_level hn hd
  rw [List.cons_append, List.append_assoc, List.singleton_append] at hs
  have hkind : s.current.kind = .punct .openBracket := hs.kind_eq
  rw [primary, ends_token, hkind]
  dsimp only
  rw [arrayLiteral, ends_take, ends_bind]
  refine (ends_elements (.inl rfl) hparts (by omega) hd hs.advance.toStands).mono ?_
  rintro es s₁ ⟨hes, hs₁⟩
  rw [ends_pure, Expr.unplaced, Expr.unplaced, hes]
  exact ⟨rfl, hs₁⟩

theorem readsOperand_parens (h : ReadsWhole c k ts e) :
    ReadsOperand c k (punct .openParen :: (ts ++ [punct .closeParen])) e := by
  intro n d s rest hn hd hs
  obtain ⟨n, rfl⟩ := exists_level hn hd
  rw [List.cons_append, List.append_assoc, List.singleton_append] at hs
  have hkind : s.current.kind = .punct .openParen := hs.kind_eq
  rw [primary, ends_token, hkind]
  dsimp only
  rw [parenthesized, ends_advance, ends_bind, ends_bracketed]
  have hs₁ := hs.advance.toStands.setNesting (s.advance.nesting + 1)
  refine (h (by omega) hd rfl hs₁).mono ?_
  rintro e' s₂ ⟨he', hs₂⟩
  have hs₃ := hs₂.setNesting (s₂.nesting - 1)
  rw [ends_expect_of_sees hs₃.sees_head, ends_pure]
  exact ⟨he', hs₃.advance⟩

/-! ## 5. Chains -/

theorem readsLinks_ofOperand (hbad : e.isBad = false) (h : ReadsOperand c k ts e) :
    ReadsLinks c false k ts e := by
  intro n d s rest Q hn hd hs hnext
  refine (h hn hd hs).mono ?_
  rintro e' s' ⟨he', hs'⟩
  have hbad' : e'.isBad = false := (Expr.isBad_of_unplaced_eq he').trans hbad
  exact ⟨hbad', hs'.depth_eq, hnext n d e' s' hn (Nat.le_add_right d k) he' hs'⟩

/-- The loop over the links goes on, one level deeper. -/
theorem ends_chainOn {optional : Bool} {e : Expr} {rest : List Lexed} {Q : Expr → State → Prop}
    (hbad : e.isBad = false) (hn : levels ≤ n + d) (hd : d < maxDepth)
    (hs : Goes c.rounds d s rest)
    (hnext : ∀ n' s', levels ≤ n' + (d + 1) → Goes c.rounds (d + 1) s' rest →
      Ends (chainRest (c.raised n') optional e) s' Q) :
    Ends (chainOn (c.raised n) optional e) s Q := by
  obtain ⟨n, rfl⟩ := exists_level (k := 1) hn hd
  rw [chainOn, hbad, if_neg Bool.false_ne_true, ends_deeper (hs.deepened_tooDeep hd),
    hs.deepened_eq hd]
  exact hnext n _ (by omega) (hs.setDepth (d + 1))

/-- The loop over the links goes on one level deeper, if it goes on behind the longer chain. -/
theorem ends_chainOn_of_next {e e' : Expr} {j : Nat} (hbad : e'.isBad = false)
    (he : e'.unplaced = e.unplaced) (hn : levels ≤ n + d) (hj : d < j) (hd : j ≤ maxDepth)
    (hs : Goes c.rounds d s rest)
    (hnext : ∀ n' d' e' s', levels ≤ n' + d' → d' ≤ j → e'.unplaced = e.unplaced →
      Goes c.rounds d' s' rest → Ends (chainRest (c.raised n') optional e') s' Q) :
    Ends (chainOn (c.raised n) optional e') s Q :=
  ends_chainOn hbad hn (Nat.lt_of_lt_of_le hj hd) hs fun n' s' hn' hs' =>
    hnext n' (d + 1) e' s' hn' hj he hs'

/-- The loop over the links, before an optional link. -/
theorem ends_chainRest_optional (hs : Goes rounds d s (punct .optional :: ts)) :
    Ends (chainRest c optional e) s Q ↔ Ends (optionalLink c e) s.advance fun e' s' =>
      Ends (chainOn c true e') s' Q := by
  have hdot : s.sees (.punct .dot) = false := hs.not_sees rfl
  rw [chainRest, ends_ifAccept_of_not_sees hdot, ends_ifAccept_of_sees hs.sees_head, ends_bind]

/-- The loop over the links, before what is no member and no optional link. -/
theorem ends_chainRest_plain (hdot : decide (headKind ts = .punct .dot) = false)
    (hoptional : decide (headKind ts = .punct .optional) = false) (hs : Goes rounds d s ts) :
    Ends (chainRest c optional e) s Q ↔ Ends (linkOn c optional e (headKind ts)) s Q := by
  rw [chainRest, ends_ifAccept_of_not_sees (hs.not_sees hdot),
    ends_ifAccept_of_not_sees (hs.not_sees hoptional), ends_token, hs.lineStart_eq,
    if_neg Bool.false_ne_true, hs.kind_eq]

/-- The loop over the links ends before what is no link. -/
theorem ends_chainRest_of_startsLink (hrest : (headKind rest).startsLink = false)
    (hs : Goes c.rounds d s rest) (hQ : Q e s) : Ends (chainRest (c.raised n) optional e) s Q := by
  have hne : ∀ k : Kind, k.startsLink = true → headKind rest ≠ k := by
    intro k hk heq
    rw [heq, hk] at hrest
    cases hrest
  rw [ends_chainRest_plain (decide_eq_false (hne _ rfl)) (decide_eq_false (hne _ rfl)) hs]
  unfold linkOn
  split
  case h_4 => exact ends_pure.mpr hQ
  all_goals
    rename_i heq
    exact absurd heq (hne _ rfl)

/-- A routine that leaves the depth to its caller. -/
theorem Ends.restoringDepth {P : Expr → Prop} {x : Reading Expr} (hdepth : s.depth = d)
    (h : Ends x s fun e' s' => P e' ∧ ∃ d', Goes c.rounds d' s' rest) :
    Ends (Grammar.restoringDepth x) s fun e' s' => P e' ∧ Goes c.rounds d s' rest := by
  rw [ends_restoringDepth]
  refine h.mono ?_
  rintro e' s' ⟨he', d', hs'⟩
  have hs'' := hs'.setDepth s.depth
  rw [hdepth] at hs'' ⊢
  exact ⟨he', hs''⟩

/-- A chain is read up to what is no link. -/
theorem ends_chain (h : ReadsChain c k ts e) (hn : levels ≤ n + d) (hd : d + k ≤ maxDepth)
    (hrest : (headKind rest).startsLink = false) (hs : Stands c.rounds d s (ts ++ rest)) :
    Ends (chain (c.raised n)) s fun e' s' =>
      e'.unplaced = e.unplaced ∧ Goes c.rounds d s' rest := by
  obtain ⟨optional, h⟩ := h
  rw [chain, ends_bind]
  refine (h (Q := fun e' s' => e'.unplaced = e.unplaced ∧ ∃ d', Goes c.rounds d' s' rest) hn hd hs
    fun n' d' e' s' _ _ he' hs' => ?_).mono ?_
  · exact ends_chainRest_of_startsLink hrest hs' ⟨he', d', hs'⟩
  · rintro e₁ s₁ ⟨hbad, hdepth, hends⟩
    rw [hbad, if_neg Bool.false_ne_true]
    exact hends.restoringDepth hdepth

theorem ends_memberName {o : Expr} {t : Text} (hs : Stands rounds d s (.name t :: rest)) :
    Ends (memberName o optional) s fun e' s' =>
      (∃ p, e' = .member o.pos o (.identifier p t) false optional) ∧ Goes rounds d s' rest := by
  have hkind : s.current.kind = .identifier := hs.kind_eq
  have htext : s.current.text = t := hs.text_eq
  have hproperty : Kind.identifier.isPropertyName = true := rfl
  rw [memberName, ends_token, hkind, if_pos hproperty, ends_take, ends_pure, identifierOf, htext]
  exact ⟨⟨_, rfl⟩, hs.advance⟩

theorem readsLinks_member {q : Position} {o : Expr} {t : Text} (optional : Bool)
    (h : ReadsLinks c before k ts o) :
    ReadsLinks c (before || optional) (k + 1) (ts ++ [dot optional, .name t])
      (.member p o (.identifier q t) false optional) := by
  intro n d s rest Q hn hd hs hnext
  rw [List.append_assoc] at hs
  refine h hn (by omega) hs fun n' d' o' s' hn' hd' ho' hs' => ?_
  have hlink : Ends (memberName o' optional) s'.advance fun e s₁ =>
      Ends (chainOn (c.raised n') (before || optional) e) s₁ Q := by
    refine (ends_memberName hs'.advance.toStands).mono ?_
    rintro _ s₁ ⟨⟨p', rfl⟩, hs₁⟩
    refine ends_chainOn_of_next rfl ?_ hn' (by omega) hd hs₁ hnext
    rw [Expr.unplaced, Expr.unplaced, Expr.unplaced, Expr.unplaced, ho']
  cases optional with
  | false =>
    have hdot : s'.sees (.punct .dot) = true := hs'.sees_head
    rw [Bool.or_false] at hlink
    rw [chainRest, ends_ifAccept_of_sees hdot, ends_bind]
    exact hlink
  | true =>
    have hparen : s'.advance.sees (.punct .openParen) = false := hs'.advance.not_sees rfl
    have hbracket : s'.advance.sees (.punct .openBracket) = false := hs'.advance.not_sees rfl
    rw [ends_chainRest_optional hs', optionalLink, ends_sees, hparen,
      if_neg Bool.false_ne_true, ends_ifAccept_of_not_sees hbracket]
    rw [Bool.or_true] at hlink
    exact hlink

theorem readsLinks_index {j : Nat} {o i : Expr} (optional : Bool)
    (ho : ReadsLinks c before k ts o) (hstarts : Form.whole.starts (headKind us) = true)
    (hi : ReadsWhole c j us i) :
    ReadsLinks c (before || optional) (k + j + 1)
      (ts ++ (link optional .openBracket ++ (us ++ [punct .closeBracket])))
      (.member p o i true optional) := by
  intro n d s rest Q hn hd hs hnext
  rw [List.append_assoc] at hs
  refine ho hn (by omega) hs fun n' d' o' s' hn' hd' ho' hs' => ?_
  obtain ⟨n', rfl⟩ := exists_level (k := j) hn' (by omega)
  have hlink : ∀ (i' : Expr) (s₂ : State), i'.unplaced = i.unplaced → Goes c.rounds d' s₂ rest →
      Ends (chainOn (c.raised (n' + 1)) (before || optional) (.member o'.pos o' i' true optional))
        s₂ Q := by
    intro i' s₂ hi' hs₂
    refine ends_chainOn_of_next rfl ?_ hn' (by omega) hd hs₂ hnext
    rw [Expr.unplaced, Expr.unplaced, ho', hi']
  cases optional with
  | false =>
    rw [Bool.or_false] at hlink
    have hs₀ : Goes c.rounds d' s' (punct .openBracket :: (us ++ punct .closeBracket :: rest)) := by
      simpa [link] using hs'
    have hs₁ := hs₀.advance.toStands.setNesting (s'.advance.nesting + 1)
    rw [ends_chainRest_plain rfl rfl hs₀]
    dsimp only [headKind, punct, fixed, linkOn]
    rw [ends_bind, indexOrSlice, ends_advance, ends_bind, ends_bracketed,
      indexOrSliceInside, ends_ifAccept_of_not_sees (hs₁.sees_of_starts hstarts rfl), ends_bind]
    refine (hi (by omega) (by omega) rfl hs₁).mono ?_
    rintro i' s₂ ⟨hi', hs₂⟩
    have hellipsis : s₂.sees (.punct .ellipsis) = false := hs₂.not_sees rfl
    have hs₃ := hs₂.setNesting (s₂.nesting - 1)
    rw [ends_ifAccept_of_not_sees hellipsis, ends_pure, ends_expect_of_sees hs₃.sees_head,
      ends_pure]
    exact hlink i' _ hi' hs₃.advance
  | true =>
    rw [Bool.or_true] at hlink
    have hs₀ : Goes c.rounds d' s'
        (punct .optional :: punct .openBracket :: (us ++ punct .closeBracket :: rest)) := by
      simpa [link] using hs'
    have hparen : s'.advance.sees (.punct .openParen) = false := hs₀.advance.not_sees rfl
    have hs₁ := hs₀.advance.advance.toStands.setNesting (s'.advance.advance.nesting + 1)
    rw [ends_chainRest_optional hs₀, optionalLink, ends_sees, hparen,
      if_neg Bool.false_ne_true, ends_ifAccept_of_sees hs₀.advance.sees_head, ends_bind,
      ends_bracketed]
    refine (hi (by omega) (by omega) rfl hs₁).mono ?_
    rintro i' s₂ ⟨hi', hs₂⟩
    have hs₃ := hs₂.setNesting (s₂.nesting - 1)
    rw [ends_expect_of_sees hs₃.sees_head, ends_pure]
    exact hlink i' _ hi' hs₃.advance

theorem readsLinks_call {j : Nat} {f : Expr} (optional : Bool) (hf : ReadsLinks c before k ts f)
    (hparts : ∀ q ∈ parts, Form.whole.starts (headKind q.1) = true ∧ ReadsWhole c j q.1 q.2) :
    ReadsLinks c (before || optional) (k + j + 1)
      (ts ++ (link optional .openParen ++ (commas (parts.map (·.1)) ++ [punct .closeParen])))
      (.call p f (parts.map (·.2)) optional) := by
  intro n d s rest Q hn hd hs hnext
  rw [List.append_assoc] at hs
  refine hf hn (by omega) hs fun n' d' f' s' hn' hd' hf' hs' => ?_
  obtain ⟨n', rfl⟩ := exists_level (k := j) hn' (by omega)
  have hcall : ∀ s₁ : State,
      Goes c.rounds d' s₁ (punct .openParen :: (commas (parts.map (·.1)) ++
        punct .closeParen :: rest)) →
      Ends (call (c.raised (n' + 1)) f' optional) s₁ fun e s₂ =>
        Ends (chainOn (c.raised (n' + 1)) (before || optional) e) s₂ Q := by
    intro s₁ hs₁
    rw [call, ends_advance, ends_bind]
    refine (ends_elements (.inr rfl) hparts (by omega) (by omega) hs₁.advance.toStands).mono ?_
    rintro args s₂ ⟨hargs, hs₂⟩
    rw [ends_pure]
    refine ends_chainOn_of_next rfl ?_ hn' (by omega) hd hs₂ hnext
    rw [Expr.unplaced, Expr.unplaced, hf', hargs]
  cases optional with
  | false =>
    rw [Bool.or_false] at hcall
    have hs₀ : Goes c.rounds d' s' (punct .openParen :: (commas (parts.map (·.1)) ++
        punct .closeParen :: rest)) := by
      simpa [link] using hs'
    rw [ends_chainRest_plain rfl rfl hs₀]
    exact ends_bind.mpr (hcall s' hs₀)
  | true =>
    rw [Bool.or_true] at hcall
    have hs₀ : Goes c.rounds d' s' (punct .optional :: punct .openParen ::
        (commas (parts.map (·.1)) ++ punct .closeParen :: rest)) := by
      simpa [link] using hs'
    have hparen : s'.advance.sees (.punct .openParen) = true := hs₀.advance.sees_head
    rw [ends_chainRest_optional hs₀, optionalLink, ends_sees, hparen, if_pos rfl]
    exact hcall s'.advance hs₀.advance

/-! ## 6. Operators -/

theorem ends_unary_of_startsOperand (h : s.current.kind.startsOperand = true) :
    Ends (unary c) s Q ↔ Ends (postfixed c) s Q := by
  obtain ⟨hunary, hupdate⟩ := UpdateOp.ofKind?_of_startsOperand h
  rw [unary, ends_token, hunary, hupdate]

theorem readsUnary_ofChain (hstarts : Form.chain.starts (headKind ts) = true)
    (h : ReadsChain c k ts e) : ReadsUnary c k ts e := by
  intro n d s rest hn hd hrest hs
  have hkind := hs.kind_of_starts hstarts
  rw [ends_unary_of_startsOperand (hkind ▸ hstarts), postfixed, ends_bind]
  refine (ends_chain h hn hd (Kind.startsLink_of_endsChain hrest) hs).mono ?_
  rintro e' s' ⟨he', hs'⟩
  have hnone : UpdateOp.ofKind? s'.current.kind = none := by
    rw [hs'.kind_eq]
    exact UpdateOp.ofKind?_of_endsChain hrest
  rw [ends_token, hnone]
  exact ends_pure.mpr ⟨he', hs'⟩

/-- An operand behind a token that goes a level deeper. -/
theorem ends_signed {f : Expr → Expr} {t : Lexed}
    (hf : ∀ e', e'.unplaced = e.unplaced → (f e').unplaced = (f e).unplaced)
    (h : ReadsUnary c k ts e) (hn : levels ≤ n + 1 + d) (hd : d + (k + 1) ≤ maxDepth)
    (hrest : (headKind rest).endsChain = true) (hs : Stands c.rounds d s (t :: ts ++ rest)) :
    Ends (nested badHere do
      advance
      return f (← (c.raised (n + 1)).inner.unary)) s fun e' s' =>
        e'.unplaced = (f e).unplaced ∧ Goes c.rounds d s' rest := by
  have hlt : d < maxDepth := by omega
  have hs₁ := (hs.setDepth (d + 1)).advance.toStands
  rw [ends_nested (hs.deepened_tooDeep hlt), hs.deepened_eq hlt, ends_advance, ends_bind]
  refine (h (by omega) (by omega) hrest hs₁).mono ?_
  rintro e' s₂ ⟨he', hs₂⟩
  have hs₃ := hs₂.setDepth s.depth
  rw [ends_pure]
  rw [hs.depth_eq] at hs₃ ⊢
  exact ⟨hf e' he', hs₃⟩

theorem readsUnary_signed (op : UnaryOp) (h : ReadsUnary c k ts e) :
    ReadsUnary c (k + 1) (.fixed op.token :: ts) (.unary p op e) := by
  intro n d s rest hn hd hrest hs
  obtain ⟨n, rfl⟩ := exists_level hn hd
  have hkind : s.current.kind = op.token := hs.kind_eq
  rw [unary, ends_token, hkind, UnaryOp.ofKind?_token]
  refine ends_signed (fun e' he' => ?_) h hn hd hrest hs
  rw [Expr.unplaced, Expr.unplaced, he']

/-- An operator that is strong enough goes on. -/
theorem Goes.operator?_eq {least : Nat} {op : BinaryOp}
    (hs : Goes rounds d s (.fixed op.token :: ts)) (hleast : least ≤ op.strength) :
    s.operator? least = some op := by
  have hkind : s.current.kind = op.token := hs.kind_eq
  simp [State.operator?, hkind, BinaryOp.ofKind?_token, hleast, hs.canContinue_eq, hs.lineStart_eq]

theorem Stands.operator?_eq_none (hs : Stands rounds d s ts) (hts : (headKind ts).stops m = true) :
    s.operator? m = none := by
  rw [State.operator?, hs.kind_eq]
  rcases Kind.follows_cases hts with hend | hquestion | ⟨op, htoken, hlt⟩
  · rw [(Kind.ofKind?_of_endsWhole hend).1]
  · rw [hquestion]
    rfl
  · have hweak : ¬ m ≤ op.strength := Nat.not_le_of_lt (of_decide_eq_true hlt)
    rw [htoken, BinaryOp.ofKind?_token]
    simp [hweak]

/-- A ladder of operators is read up to an operator that is too weak. -/
theorem ends_binary (h : ReadsBinary c m k ts e) (hn : levels ≤ n + d) (hd : d + k ≤ maxDepth)
    (hrest : (headKind rest).stops m = true) (hs : Stands c.rounds d s (ts ++ rest)) :
    Ends (binary (c.raised n) m) s fun e' s' =>
      e'.unplaced = e.unplaced ∧ Goes c.rounds d s' rest := by
  have hfollow : (headKind rest).canFollow m = true := by
    refine Kind.follows_mono hrest fun op hop => decide_eq_true ?_
    have hlt : op.strength < m := of_decide_eq_true hop
    unfold BinaryOp.leftStrength
    split <;> omega
  rw [binary, ends_bind]
  refine (h (Q := fun e' s' => e'.unplaced = e.unplaced ∧ ∃ d', Goes c.rounds d' s' rest) hn hd
    (Nat.le_refl m) hfollow hs fun n' d' e' s' _ _ he' hs' => ?_).mono ?_
  · rw [binaryRest, ends_get, hs'.operator?_eq_none hrest]
    exact ends_pure.mpr ⟨he', d', hs'⟩
  · rintro e₁ s₁ ⟨hdepth, hends⟩
    exact hends.restoringDepth hdepth

theorem readsBinary_ofUnary (h : ReadsUnary c k ts e) : ReadsBinary c m k ts e := by
  intro n d least s rest Q hn hd _ hrest hs hnext
  refine (h hn hd (Kind.endsChain_of_follows hrest) hs).mono ?_
  rintro e' s' ⟨he', hs'⟩
  exact ⟨hs'.depth_eq, hnext n d e' s' hn (Nat.le_add_right d k) he' hs'⟩

theorem readsBinary_binary {j : Nat} {l r : Expr} {op : BinaryOp} (hop : m ≤ op.strength)
    (hl : ReadsBinary c op.leftStrength k ts l) (hr : ReadsBinary c op.rightStrength j us r) :
    ReadsBinary c m (k + j + 1) (ts ++ .fixed op.token :: us) (.binary p op l r) := by
  intro n d least s rest Q hn hd hleast hrest hs hnext
  rw [List.append_assoc, List.cons_append] at hs
  have hstrong : least ≤ op.strength := Nat.le_trans hleast hop
  have hfollow : (headKind (.fixed op.token :: (us ++ rest))).canFollow op.leftStrength = true := by
    simp [headKind, fixed, Kind.canFollow, Kind.follows, BinaryOp.ofKind?_token]
  have hstops : (headKind rest).stops op.rightStrength = true := by
    refine Kind.follows_mono hrest fun op' hop' => decide_eq_true ?_
    exact BinaryOp.strength_lt_of_leftStrength_le (Nat.le_trans (of_decide_eq_true hop') hop)
  refine hl hn (by omega) (Nat.le_trans hstrong op.strength_le_leftStrength) hfollow hs
    fun n' d' l' s' hn' hd' hl' hs' => ?_
  obtain ⟨n', rfl⟩ := exists_level (k := j + 1) hn' (by omega)
  have hlt : d' < maxDepth := by omega
  have hs₁ := (hs'.toStands.setDepth (d' + 1)).advance.toStands
  rw [binaryRest, ends_get, hs'.operator?_eq hstrong]
  dsimp only
  rw [ends_deeper (hs'.deepened_tooDeep hlt), hs'.deepened_eq hlt, ends_advance, ends_bind]
  refine (ends_binary hr (by omega) (by omega) hstops hs₁).mono ?_
  rintro r' s₂ ⟨hr', hs₂⟩
  refine hnext n' (d' + 1) _ s₂ (by omega) (by omega) ?_ hs₂
  rw [Expr.unplaced, Expr.unplaced, hl', hr']

/-! ## 7. Whole expressions -/

/-- Where no lookahead finds anything, an expression is read without a pattern or a function at its
    start. -/
theorem ends_assignment_of_opens {ts : List Lexed} {Q : Expr → State → Prop}
    (hs : Stands c.rounds d s ts) (hd : d < maxDepth) (hopens : Opens ts)
    (h : Ends (plainAssignment (c.raised n)) { s with depth := d + 1 } fun e' s' =>
      Q e' { s' with depth := d }) : Ends (assignment (c.raised n)) s Q := by
  obtain ⟨hdestructuring, harrow⟩ := (hs.setDepth (d + 1)).sees_nothing hopens
  rw [assignment, ends_nested (hs.deepened_tooDeep hd), hs.deepened_eq hd, ends_get,
    hdestructuring, if_neg Bool.false_ne_true, harrow, if_neg Bool.false_ne_true, hs.depth_eq]
  exact h

/-- No assignment sign follows a whole expression. -/
theorem ends_assignment_of_conditional {P : Expr → Prop} {us : List Lexed}
    (hs : Stands c.rounds d s us) (hd : d < maxDepth) (hopens : Opens us)
    (hrest : (headKind rest).endsWhole = true)
    (h : Ends (conditional (c.raised n)) { s with depth := d + 1 } fun e' s' =>
      P e' ∧ Goes c.rounds (d + 1) s' rest) :
    Ends (assignment (c.raised n)) s fun e' s' => P e' ∧ Goes c.rounds d s' rest := by
  refine ends_assignment_of_opens hs hd hopens ?_
  rw [plainAssignment, ends_bind]
  refine h.mono ?_
  rintro e' s' ⟨he', hs'⟩
  have hnone : AssignSign.ofKind? s'.current.kind = none := by
    rw [hs'.kind_eq]
    exact (Kind.ofKind?_of_endsWhole hrest).2.1
  rw [ends_token, hnone]
  exact ends_pure.mpr ⟨he', hs'.setDepth d⟩

theorem readsWhole_ofBinary (hopens : Opens ts) (h : ReadsBinary c 1 k ts e) :
    ReadsWhole c (k + 1) ts e := by
  intro n d s rest hn hd hrest hs
  have hs₁ := hs.setDepth (d + 1)
  have htame : Opens (ts ++ rest) := hopens.append (Kind.isTame_of_endsWhole hrest)
  refine ends_assignment_of_conditional hs (by omega) htame hrest ?_
  rw [conditional, ends_bind]
  refine (ends_binary h (by omega) (by omega) (Kind.follows_of_endsWhole hrest _) hs₁).mono ?_
  rintro e' s₂ ⟨he', hs₂⟩
  have hquestion : s₂.sees (.punct .question) = false :=
    hs₂.not_sees (decide_eq_false (Kind.ofKind?_of_endsWhole hrest).2.2)
  simp only [ends_sees, ends_canContinue, hquestion, Bool.false_and,
    Bool.false_eq_true, if_false, ends_pure]
  exact ⟨he', hs₂⟩

theorem readsWhole_conditional {vs : List Lexed} {test yes no : Expr} (hopens : Opens ts)
    (htest : ReadsBinary c 1 k ts test) (hyes : ReadsWhole c k us yes)
    (hno : ReadsWhole c k vs no) :
    ReadsWhole c (k + 1) (ts ++ punct .question :: (us ++ punct .colon :: vs))
      (.conditional p test yes no) := by
  intro n d s rest hn hd hrest hs
  have htokens : ts ++ punct .question :: (us ++ punct .colon :: vs) ++ rest =
      ts ++ punct .question :: (us ++ punct .colon :: (vs ++ rest)) := by
    simp only [List.append_assoc, List.cons_append]
  rw [htokens] at hs
  have hs₁ := hs.setDepth (d + 1)
  obtain ⟨n, rfl⟩ := exists_level (k := 0) (d := d + 1) (by omega) (by omega)
  refine ends_assignment_of_conditional hs (by omega) (hopens.append rfl) hrest ?_
  rw [conditional, ends_bind]
  refine (ends_binary htest (by omega) (by omega) rfl hs₁).mono ?_
  rintro test' s₂ ⟨htest', hs₂⟩
  have hquestion : s₂.sees (.punct .question) = true := hs₂.sees_head
  simp only [ends_sees, ends_canContinue, hquestion, hs₂.canContinue_eq,
    Bool.and_self, if_true, ends_advance]
  rw [ends_bind]
  refine (hyes (by omega) (by omega) rfl hs₂.advance.toStands).mono ?_
  rintro yes' s₃ ⟨hyes', hs₃⟩
  rw [ends_expect_of_sees hs₃.sees_head, ends_bind]
  refine (hno (by omega) (by omega) hrest hs₃.advance.toStands).mono ?_
  rintro no' s₄ ⟨hno', hs₄⟩
  rw [ends_pure, Expr.unplaced, Expr.unplaced, htest', hyes', hno']
  exact ⟨rfl, hs₄⟩

/-! ## 8. Functions -/

theorem readsPart_param (q : Position × Text) :
    ReadsPart c.rounds d .closeParen (.more <$> param (c.raised (n + 1))) Unplaced.param
      (fun q => Unplaced.param (Param.ofName q)) ([.name q.2], q) := by
  have hkind : headKind [.name q.2] = .identifier := rfl
  refine ⟨by rw [hkind]; decide, by rw [hkind]; decide, fun s ts hts hs => ?_⟩
  have hellipsis : s.sees (.punct .ellipsis) = false := hs.not_sees rfl
  have hbracket : s.sees (.punct .openBracket) = false := hs.not_sees rfl
  have hbrace : s.sees (.punct .openBrace) = false := hs.not_sees rfl
  have hname : s.sees .identifier = true := by
    rw [hs.sees_eq]
    exact decide_eq_true rfl
  have hdeclare : s.advance.sees (.punct .declare) = false := by
    refine hs.advance.not_sees (decide_eq_false fun heq => ?_)
    have heq' : headKind ts = .punct .declare := heq
    rw [heq'] at hts
    rcases hts with hts | hts <;> cases hts
  have htext : s.current.text = q.2 := hs.text_eq
  have hpattern : ∀ Q : Bool → State → Prop, Ends seesPattern s Q ↔ Q false s := by
    intro Q
    simp only [seesPattern, ends_sees, hbracket, hbrace, Bool.or_self, ends_pure]
  rw [ends_map, param, ends_token, ends_ifAccept_of_not_sees hellipsis, ends_bind,
    hpattern, if_neg Bool.false_ne_true, ends_expectToken_of_sees hname, ends_bind,
    default?, ends_accept_of_not_sees hdeclare, readIf, if_neg Bool.false_ne_true,
    ends_pure, ends_pure]
  refine ⟨_, rfl, ?_, hs.advance⟩
  show Unplaced.param _ = Unplaced.param (.name q.1 q.2 none)
  rw [textOf, Option.map_some, Option.getD_some, htext, Unplaced.param, Unplaced.param]

/-- Names are parameters, none of which is a rest. -/
theorem restLast_of_names {ps : List Param}
    (h : ps.map Unplaced.param = names.map fun q => Unplaced.param (Param.ofName q)) :
    Check.restLast Check.restParam? ps = [] := by
  have hnone : ∀ p ∈ ps, Check.restParam? p = none := by
    intro p hp
    have hmem : Unplaced.param p ∈ names.map fun q => Unplaced.param (Param.ofName q) :=
      h ▸ List.mem_map_of_mem hp
    obtain ⟨q, -, hq⟩ := List.mem_map.mp hmem
    cases p with
    | name | pattern => rfl
    | rest p t =>
      rw [Param.ofName, Unplaced.param, Unplaced.param] at hq
      cases hq
  rw [Check.restLast, List.map_eq_nil_iff, List.filterMap_eq_nil_iff]
  exact fun p hp => hnone p (List.dropLast_subset ps hp)

theorem ends_params {names : List (Position × Text)} {rest : List Lexed}
    (hs : Stands c.rounds d s (punct .openParen ::
      (commas (names.map fun q => [.name q.2]) ++ punct .closeParen :: rest))) :
    Ends (params (c.raised (n + 1))) s fun ps s' =>
      ps.map Unplaced.param = names.map (fun q => Unplaced.param (Param.ofName q)) ∧
        Goes c.rounds d s' rest := by
  have hname : s.sees .identifier = false := hs.not_sees rfl
  have hopen : s.sees (.punct .openParen) = true := hs.sees_head
  have hitems : names.map (fun q => [Lexed.name q.2]) =
      (names.map fun q => ([Lexed.name q.2], q)).map (·.1) := by
    rw [List.map_map]
    rfl
  rw [hitems] at hs
  rw [params, ends_sees, hname, if_neg Bool.false_ne_true, ends_expect_of_sees hopen]
  refine (ends_listed (f := Unplaced.param) (g := fun q => Unplaced.param (Param.ofName q))
    (by decide) _ (fun q hq => ?_) hs.advance.toStands).mono ?_
  · obtain ⟨q, -, rfl⟩ := List.mem_map.mp hq
    exact readsPart_param q
  · rintro ps s₂ ⟨hps, hs₂⟩
    rw [List.map_map] at hps
    exact ⟨hps, hs₂⟩

/-- The body of a function that starts in the line of its arrow is an expression. -/
theorem ends_arrowBody {ps : List Param} {header : Nat} {body : Expr}
    (hstarts : Form.whole.starts (headKind ts) = true) (h : ReadsWhole c k ts body)
    (hn : levels ≤ n + d + 1) (hd : d + k ≤ maxDepth) (hrest : (headKind rest).endsWhole = true)
    (hs : Goes c.rounds d s (ts ++ rest)) :
    Ends (arrowBody (c.raised (n + 1)) p ps header) s fun e' s' =>
      (∃ body', e' = .arrow p ps body' ∧ body'.unplaced = body.unplaced) ∧
        Goes c.rounds d s' rest := by
  have hkind := hs.kind_of_starts hstarts
  have hbrace : headKind ts ≠ .punct .openBrace := by
    intro heq
    rw [heq] at hstarts
    cases hstarts
  have hline : ¬ (decide (headKind ts = .eof) || s.current.lineStart) = true := by
    rw [decide_eq_false (Form.ne_eof_of_starts hstarts), hs.lineStart_eq]
    exact Bool.false_ne_true
  rw [arrowBody, ends_token, hkind, if_neg hbrace, if_neg hline, ends_bind]
  refine (h hn hd hrest hs.toStands).mono ?_
  rintro body' s' ⟨hbody, hs'⟩
  exact ends_pure.mpr ⟨⟨body', rfl, hbody⟩, hs'⟩

theorem readsWhole_arrow {body : Expr} (hstarts : Form.whole.starts (headKind ts) = true)
    (h : ReadsWhole c k ts body) :
    ReadsWhole c (k + 1)
      (punct .openParen :: (commas (names.map fun q => [.name q.2]) ++
        punct .closeParen :: punct .arrow :: ts))
      (.arrow p (names.map Param.ofName) body) := by
  intro n d s rest hn hd hrest hs
  have hlt : d < maxDepth := by omega
  obtain ⟨n, rfl⟩ := exists_level (k := 0) (d := d + 1) (by omega) (by omega)
  rw [List.cons_append, List.append_assoc, List.cons_append, List.cons_append] at hs
  have hs₁ := hs.setDepth (d + 1)
  have hbalanced : Balanced (commas (names.map fun q => [Lexed.name q.2])) := by
    refine .commas fun us hus => ?_
    obtain ⟨q, -, rfl⟩ := List.mem_map.mp hus
    exact .token rfl .nil
  obtain ⟨hdestructuring, harrow⟩ := hs₁.sees_function hbalanced
  rw [assignment, ends_nested (hs.deepened_tooDeep hlt), hs.deepened_eq hlt, ends_get,
    hdestructuring, if_neg Bool.false_ne_true, harrow, if_pos rfl, arrow, ends_token, ends_bind]
  refine (ends_params hs₁).mono ?_
  rintro ps s₂ ⟨hps, hs₂⟩
  rw [ends_get, ends_expect_of_sees hs₂.sees_head, ends_bind]
  refine (ends_arrowBody hstarts h (by omega) (by omega) hrest hs₂.advance).mono ?_
  rintro e' s₃ ⟨⟨body', rfl, hbody⟩, hs₃⟩
  rw [restLast_of_names hps, ends_bind, reportAll, List.forM, ends_pure, ends_pure,
    Expr.unplaced, Expr.unplaced, Unplaced.params_eq_map, Unplaced.params_eq_map, hps, hbody,
    List.map_map, hs.depth_eq]
  exact ⟨rfl, hs₃.setDepth d⟩

/-! ## 9. All forms -/

theorem isBad_of_written {f : Form} (h : Written f k ts e) : e.isBad = false := by
  induction h with
  | parens _ ih | ofOperand _ ih | ofChain _ ih | ofUnary _ ih | ofBinary _ ih => exact ih
  | _ => rfl

/-- **Everything that is written in a form is read in it.** -/
theorem readsForm_of_written {f : Form} (h : Written f k ts e) : ReadsForm c f k ts e := by
  induction h with
  | name => exact readsOperand_name
  | boolean b => exact readsOperand_boolean b
  | null => exact readsOperand_null
  | array h ih => exact readsOperand_array fun q hq => ⟨(h q hq).starts, ih q hq⟩
  | parens _ ih => exact readsOperand_parens ih
  | ofOperand h ih => exact ⟨false, readsLinks_ofOperand (isBad_of_written h) ih⟩
  | member optional _ ih =>
    obtain ⟨before, ih⟩ := ih
    exact ⟨before || optional, readsLinks_member optional ih⟩
  | index optional _ hi iho ihi =>
    obtain ⟨before, iho⟩ := iho
    exact ⟨before || optional, readsLinks_index optional iho hi.starts ihi⟩
  | call optional _ h ihf ih =>
    obtain ⟨before, ihf⟩ := ihf
    exact ⟨before || optional,
      readsLinks_call optional ihf fun q hq => ⟨(h q hq).starts, ih q hq⟩⟩
  | ofChain h ih => exact readsUnary_ofChain h.starts ih
  | signed op _ ih => exact readsUnary_signed op ih
  | ofUnary _ ih => exact readsBinary_ofUnary ih
  | binary hop _ _ ihl ihr => exact readsBinary_binary hop ihl ihr
  | ofBinary h ih => exact readsWhole_ofBinary (h.opens rfl) ih
  | conditional htest _ _ iht ihy ihn =>
    exact readsWhole_conditional (htest.opens rfl) iht ihy ihn
  | arrow h ih => exact readsWhole_arrow h.starts ih

end

end Grammar

end ReactiveScript
