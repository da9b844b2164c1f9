import ReactiveScript.Proofs.Script.Findings
import ReactiveScript.Proofs.Syntax.Nodes

/-!
# What writing finds in a tree

Writing looks at every expression of a tree, so that nothing in a tree that was read escapes it, and
what it can object to shows in a piece of the tree and the piece right above it. So does a call of the
runtime. One walk over the pieces of a tree compares what is found in its script with what is to be
seen in the tree.
-/

namespace ReactiveScript

/-! ## 1. What is to be seen in a tree -/

namespace Piece

def isDeclaration : Piece → Bool
  | .expr (.declare _ _ _) => true
  | _ => false

def isExpressionStatement : Piece → Bool
  | .stmt (.expression _ _ _) => true
  | _ => false

/-- The modifier that a piece hands down to the statements right below it. -/
def blockModifier : Piece → Option Text
  | .stmt (.modifierBlock _ m _ _) => some m
  | _ => none

end Piece

namespace Stmt

/-- The modifier of an expression or return statement: its own, or else that of the block around
    it. -/
def modifier? (inherited : Option Text) : Stmt → Option Text
  | .expression _ own _ | .return _ own _ => own.or inherited
  | _ => none

/-- The value that a statement hands to the runtime if it has a modifier. -/
def value? : Stmt → Option Expr
  | .expression _ _ (.declare _ _ value) | .expression _ _ (.assign _ .plain _ value) => some value
  | .expression _ _ e => some e
  | .return _ _ argument => argument
  | _ => none

/-- Does the statement hand a value to the runtime, under the modifier of the block around it? -/
def CallsRuntime (inherited : Option Text) (s : Stmt) : Prop :=
  ∃ m v, s.modifier? inherited = some m ∧ s.value? = some v

end Stmt

/-- Does some statement in a piece hand a value to the runtime? -/
def Piece.CallsRuntime (q : Piece) : Prop :=
  ∃ t s, Within q t ∧ .stmt s ∈ t.parts ∧ s.CallsRuntime t.blockModifier

/-- Does a part of a piece hand a value to the runtime? -/
def Piece.CallsBelow (q r : Piece) : Prop :=
  (∃ s, r = .stmt s ∧ s.CallsRuntime q.blockModifier) ∨ r.CallsRuntime

theorem Piece.callsRuntime_iff {q : Piece} :
    q.CallsRuntime ↔ ∃ r ∈ q.parts, q.CallsBelow r := by
  constructor
  · rintro ⟨t, s, ht, hs, hcalls⟩
    cases ht with
    | refl => exact ⟨.stmt s, hs, .inl ⟨s, rfl, hcalls⟩⟩
    | step hr ht => exact ⟨_, hr, .inr ⟨t, s, ht, hs, hcalls⟩⟩
  · rintro ⟨r, hr, ⟨s, rfl, hcalls⟩ | ⟨t, s, ht, hs, hcalls⟩⟩
    · exact ⟨q, s, .refl q, hr, hcalls⟩
    · exact ⟨t, s, .step hr ht, hs, hcalls⟩

namespace Script

/-- What stands against a statement under the modifier of the block around it. -/
def objection? (inherited : Option Text) (s : Stmt) : Option Report :=
  (s.modifier? inherited).bind fun m => refusal? m s.pos s.value?

/-- The conditions on a piece and one of its parts. -/
def Fits (q r : Piece) : Prop :=
  (r.isDeclaration = true → q.isExpressionStatement = true) ∧
    ∀ s, r = .stmt s → objection? q.blockModifier s = none

/-- The conditions on all that lies in a piece. -/
def Sound (q : Piece) : Prop := ∀ t r, Within q t → r ∈ t.parts → Fits t r

theorem sound_iff {q : Piece} : Sound q ↔ ∀ r ∈ q.parts, Fits q r ∧ Sound r := by
  constructor
  · intro h r hr
    exact ⟨h q r (.refl q) hr, fun t u ht hu => h t u (.step hr ht) hu⟩
  · intro h t r ht hr
    cases ht with
    | refl => exact (h r hr).1
    | step hr' ht => exact (h _ hr').2 t r ht hr

end Script

/-- The report lies where one of the nodes does. -/
def Report.LiesAt (x : Report) (ns : List Node) : Prop := ∃ n ∈ ns, n.pos? = some x.pos

/-- One of the faults that can be found in a tree that was read, at a node of a piece. -/
def Report.IsOf (x : Report) (q : Piece) : Prop := x.isOfWriting = true ∧ x.LiesAt q.nodes

namespace Report
variable {x : Report}

theorem LiesAt.mono {ns ms : List Node} (h : x.LiesAt ns) (hsub : ns ⊆ ms) : x.LiesAt ms := by
  obtain ⟨n, hn, hpos⟩ := h
  exact ⟨n, hsub hn, hpos⟩

theorem liesAt_expr {e : Expr} (h : x.pos = e.pos) : x.LiesAt (Preorder.expr e) := by
  obtain ⟨n, hn, hpos⟩ := Option.bind_eq_some_iff.mp (Preorder.expr_head e)
  exact ⟨n, List.mem_of_head? hn, h ▸ hpos⟩

theorem liesAt_cons {n : Node} {ns : List Node} (h : n.pos? = some x.pos) : x.LiesAt (n :: ns) :=
  ⟨n, List.mem_cons_self, h⟩

end Report

namespace Script

/-! ## 2. What is found in a statement -/

/-- What is found in code is its own objection, or else that it calls the runtime, and what is found
    inside of it. Where there is an objection, something inside may not be written. -/
structure Finds (c : Code) (objection : Option Report) (calls : Prop) (inside : Finding → Prop) :
    Prop where
  accepted : objection = none → ∀ f, c.Shows f ↔ (f = .runtime ∧ calls) ∨ inside f
  refused : ∀ x, objection = some x →
    c.Shows (.fault x) ∧ ∀ y, c.Shows (.fault y) → y = x ∨ inside (.fault y)

/-- What is found in a part of a piece. The expression of a statement is not written as a whole, and
    the statements of a function are written one step further in. -/
def ShowsIn (o : Options) (d : Nat) (q : Piece) (f : Finding) : Piece → Prop
  | .expr e =>
    if q.isExpressionStatement then ∃ r ∈ e.parts, (codeBelow o d r).Shows f
    else (emit o d e).Shows f
  | .stmt s => (stmt o (match q with | .expr _ => d + 1 | _ => d) q.blockModifier s).Shows f
  | .program p => (stmts o d none p.body).Shows f

section
variable {o : Options} {d : Nat} {inherited : Option Text} {s : Stmt} {e v : Expr} {c : Code}

theorem value?_of_sides? (p : Position) (own : Option Text) {target value : Expr}
    (he : sides? e = some (target, value)) :
    (Stmt.expression p own e).value? = some value ∧ e.parts = Piece.ofExprs [target, value] := by
  unfold sides? at he
  split at he <;> cases he <;> exact ⟨rfl, rfl⟩

theorem value?_of_whole (p : Position) (own : Option Text) (he : sides? e = none) :
    (Stmt.expression p own e).value? = some e ∧ ownFaults e = [] := by
  cases e with
  | declare => cases he
  | assign q op t v =>
    cases op with
    | plain => cases he
    | compound op => exact ⟨rfl, rfl⟩
  | _ => exact ⟨rfl, rfl⟩

/-- The source of an import is a string, with nothing to be found in it. -/
theorem not_shows_of_isString {f : Finding} (h : e.isString = true) : ¬ (emit o d e).Shows f := by
  cases e with
  | string => simp [emit]
  | _ => cases h

/-- A statement with a value, which is handed to the runtime if there is a modifier. -/
theorem finds_of_modified {inside : Finding → Prop} (rest : Finding → Prop)
    (hvalue : s.value? = some v) (hcode : ∀ f, c.Shows f ↔
      (modified o (s.modifier? inherited) s.pos v (emit o d v)).Shows f ∨ rest f)
    (hinside : ∀ f, inside f ↔ (emit o d v).Shows f ∨ rest f) :
    Finds c (objection? inherited s) (s.CallsRuntime inherited) inside := by
  unfold objection? Stmt.CallsRuntime
  cases hm : s.modifier? inherited with
  | none =>
    refine ⟨fun _ f => ?_, by simp⟩
    rw [hcode, hinside, hm]
    simp [modified]
  | some m =>
    rw [hvalue]
    refine ⟨fun haccepted f => ?_, fun x hx => ?_⟩
    · rw [hcode, hinside, hm, modified, shows_runtimeCall haccepted]
      simp [or_assoc]
    · have hrefused : refusal? m s.pos (some v) = some x := hx
      have hshows (y : Report) : (runtimeCall o m s.pos v (emit o d v)).Shows (.fault y) ↔ y = x := by
        simp [Code.Shows, faults_runtimeCall, hrefused]
      simp only [hcode, hinside, hm, modified, hshows]
      exact ⟨.inl trivial, fun y hy => hy.imp_right .inr⟩

/-- A statement that has no use for a modifier. -/
theorem finds_of_shows {inside : Finding → Prop} (hm : s.modifier? inherited = none)
    (hcode : ∀ f, c.Shows f ↔ inside f) :
    Finds c (objection? inherited s) (s.CallsRuntime inherited) inside := by
  refine ⟨fun _ f => ?_, fun x hx => ?_⟩
  · rw [hcode]
    simp [Stmt.CallsRuntime, hm]
  · simp [objection?, hm] at hx

/-- **What is found in a statement** is its objection or its call, and what is found in its parts. -/
theorem finds_stmt (o : Options) (d : Nat) (inherited : Option Text)
    (hsensible : Sensible (.stmt s)) :
    Finds (stmt o d inherited s) (objection? inherited s) (s.CallsRuntime inherited)
      fun f => ∃ r ∈ s.parts, ShowsIn o d (.stmt s) f r := by
  have hwf : WellFormed.stmt s = true := hsensible.wellFormed
  cases s with
  | bad => cases hwf
  | expression p own e =>
    have he : Sensible (.expr e) := hsensible.part List.mem_cons_self
    cases hsides : sides? e with
    | none =>
      obtain ⟨hvalue, hown⟩ := value?_of_whole p own hsides
      refine finds_of_modified (o := o) (d := d) (fun _ => False) hvalue (fun f => ?_) fun f => ?_
      · rw [shows_expression hsides, or_false]
        rfl
      · rw [shows_emit he.wellFormed he.tidy, hown]
        simp [Stmt.parts, Piece.ofExprs, ShowsIn, Piece.isExpressionStatement]
    | some sides =>
      obtain ⟨target, value⟩ := sides
      obtain ⟨hvalue, hparts⟩ := value?_of_sides? p own hsides
      refine finds_of_modified _ hvalue (fun f => shows_binding hsides) fun f => ?_
      simp [Stmt.parts, Piece.ofExprs, ShowsIn, Piece.isExpressionStatement, hparts, codeBelow,
        or_comm]
  | «return» p own argument =>
    cases argument with
    | some e =>
      refine finds_of_modified (o := o) (d := d) (fun _ => False) rfl (fun f => ?_) fun f => ?_
      · rw [shows_return, or_false]
        rfl
      · simp [Stmt.parts, Piece.ofExprs, ShowsIn, Piece.isExpressionStatement]
    | none =>
      have hparts : (Stmt.return p own none).parts = [] := rfl
      rw [stmt_return_none]
      simp only [objection?, Stmt.modifier?, Stmt.value?, Stmt.CallsRuntime, hparts]
      cases own.or inherited with
      | none => exact ⟨by simp, by simp⟩
      | some m =>
        cases hm : Modifier.ofName? m <;> constructor <;> simp [refusal?, hm, Stmt.pos]
  | modifierBlock p m q body =>
    refine finds_of_shows rfl fun f => ?_
    rw [stmt, shows_stmts, Stmt.parts, exists_mem_ofStmts]
    rfl
  | exportDeclaration p q own e =>
    rw [WellFormed.stmt, Bool.and_eq_true] at hwf
    refine finds_of_shows rfl fun f => ?_
    rw [shows_exportDeclaration hwf.1]
    simp [Stmt.parts, Piece.ofStmts, ShowsIn, Piece.blockModifier]
  | exportDefault p e =>
    refine finds_of_shows rfl fun f => ?_
    simp [stmt, Stmt.parts, Piece.ofExprs, ShowsIn, Piece.isExpressionStatement]
  | exportNames p names =>
    refine finds_of_shows rfl fun f => ?_
    simp [stmt, Stmt.parts, specifier]
  | importNames p default names source =>
    rw [WellFormed.stmt, Bool.and_eq_true] at hwf
    refine finds_of_shows rfl fun f => ?_
    simp [stmt, Stmt.parts, Piece.ofExprs, ShowsIn, Piece.isExpressionStatement,
      not_shows_importNames, not_shows_of_isString hwf.1]
  | importNamespace p name source =>
    rw [WellFormed.stmt, Bool.and_eq_true] at hwf
    refine finds_of_shows rfl fun f => ?_
    simp [stmt, Stmt.parts, Piece.ofExprs, ShowsIn, Piece.isExpressionStatement,
      not_shows_of_isString hwf.1]

end

/-! ## 3. All pieces -/

/-- What is found against what is to be seen: there are no faults under the conditions alone, every
    fault is one of the piece, and without faults the runtime is used if it is called. -/
structure Verdict (found : Finding → Prop) (conditions calls : Prop) (q : Piece) : Prop where
  clean : (∀ x, ¬ found (.fault x)) ↔ conditions
  usual : ∀ x, found (.fault x) → x.IsOf q
  runtime : (∀ x, ¬ found (.fault x)) → (found .runtime ↔ calls)

/-- What writing finds in a piece, in whatever place, against the piece. Of an expression only the
    parts are judged, since its place decides on itself. -/
def Judged (o : Options) : Piece → Prop
  | .expr e => ∀ d, Verdict (fun f => ∃ r ∈ e.parts, (codeBelow o d r).Shows f) (Sound (.expr e))
      (Piece.expr e).CallsRuntime (.expr e)
  | .stmt s => ∀ d inherited, Verdict (stmt o d inherited s).Shows
      (objection? inherited s = none ∧ Sound (.stmt s))
      (s.CallsRuntime inherited ∨ (Piece.stmt s).CallsRuntime) (.stmt s)
  | .program p => ∀ d, Verdict (stmts o d none p.body).Shows (Sound (.program p))
      (Piece.program p).CallsRuntime (.program p)

section
variable {o : Options} {d : Nat} {q r : Piece}

/-- What is found in the parts of a piece, against the piece. -/
theorem verdict_parts {found : Piece → Finding → Prop} (hwf : WellFormed.piece q = true)
    (h : ∀ r ∈ q.parts, Verdict (found r) (Fits q r ∧ Sound r) (q.CallsBelow r) r) :
    Verdict (fun f => ∃ r ∈ q.parts, found r f) (Sound q) q.CallsRuntime q where
  clean := by
    rw [sound_iff]
    exact ⟨fun hx r hr => (h r hr).clean.mp fun x hfound => hx x ⟨r, hr, hfound⟩,
      fun hsound x ⟨r, hr, hfound⟩ => (h r hr).clean.mpr (hsound r hr) x hfound⟩
  usual := by
    rintro x ⟨r, hr, hx⟩
    obtain ⟨husual, hnode⟩ := (h r hr).usual x hx
    exact ⟨husual, hnode.mono (Piece.nodes_subset hwf hr)⟩
  runtime hclean := by
    rw [Piece.callsRuntime_iff]
    exact exists_congr fun r => and_congr_right fun hr =>
      (h r hr).runtime fun x hx => hclean x ⟨r, hr, hx⟩

/-- An expression that is written as a whole must not be a declaration. -/
theorem judged_emit {e : Expr} (hsensible : Sensible (.expr e)) (h : Judged o (.expr e)) :
    Verdict (emit o d e).Shows (ownFaults e = [] ∧ Sound (.expr e)) (Piece.expr e).CallsRuntime
      (.expr e) := by
  obtain ⟨hclean, husual, hruntime⟩ := h d
  have hshows (f : Finding) := shows_emit (o := o) (d := d) (f := f) hsensible.wellFormed
    hsensible.tidy
  have hboth : (∀ x, ¬ (emit o d e).Shows (.fault x)) ↔
      ownFaults e = [] ∧ ∀ x, ¬ ∃ r ∈ e.parts, (codeBelow o d r).Shows (.fault x) := by
    simp [hshows, not_or, forall_and, List.eq_nil_iff_forall_not_mem]
  refine ⟨by rw [hboth, hclean], fun x hx => ?_, fun hquiet => ?_⟩
  · rcases (hshows _).mp hx with ⟨y, hy, heq⟩ | hx
    · cases heq
      cases e with
      | declare p t v =>
        rw [List.mem_singleton.mp hy]
        exact ⟨rfl, Report.liesAt_cons rfl⟩
      | _ => cases hy
    · exact husual x hx
  · rw [hshows, ← hruntime (hboth.mp hquiet).2]
    simp

/-- A part in the place that a piece has for it. -/
theorem judged_part (hsensible : Sensible r) (h : Judged o r) :
    Verdict (fun f => ShowsIn o d q f r) (Fits q r ∧ Sound r) (q.CallsBelow r) r := by
  cases r with
  | expr e =>
    have hcalls : q.CallsBelow (.expr e) ↔ (Piece.expr e).CallsRuntime := by simp [Piece.CallsBelow]
    rw [hcalls]
    cases hq : q.isExpressionStatement with
    | true =>
      have hfits : Fits q (.expr e) := ⟨fun _ => hq, fun _ hr => by cases hr⟩
      simpa [ShowsIn, hq, hfits] using h d
    | false =>
      have hfits : Fits q (.expr e) ↔ ownFaults e = [] := by
        cases e <;> simp [Fits, Piece.isDeclaration, ownFaults, hq]
      simpa [ShowsIn, hq, hfits] using judged_emit hsensible h
  | stmt s =>
    have hfits : Fits q (.stmt s) ↔ objection? q.blockModifier s = none := by
      simp [Fits, Piece.isDeclaration]
    have hcalls : q.CallsBelow (.stmt s) ↔
        s.CallsRuntime q.blockModifier ∨ (Piece.stmt s).CallsRuntime := by simp [Piece.CallsBelow]
    rw [hfits, hcalls]
    exact h _ q.blockModifier
  | program p =>
    have hfits : Fits q (.program p) := by simp [Fits, Piece.isDeclaration]
    simpa [ShowsIn, Piece.CallsBelow, hfits] using h d

/-- The value of a statement lies in it. -/
theorem within_value? {s : Stmt} {v : Expr} (h : s.value? = some v) :
    Within (.stmt s) (.expr v) := by
  unfold Stmt.value? at h
  split at h
  · cases h
    exact .step List.mem_cons_self (.step (.tail _ (.head _)) (.refl _))
  · cases h
    exact .step List.mem_cons_self (.step (.tail _ (.head _)) (.refl _))
  · cases h
    exact .step List.mem_cons_self (.refl _)
  · subst h
    exact .step List.mem_cons_self (.refl _)
  · cases h

/-- What stands against a statement is reported where it lies, or where its value does. -/
theorem isOf_of_objection? {inherited : Option Text} {s : Stmt} {x : Report}
    (hwf : WellFormed.piece (.stmt s) = true) (h : objection? inherited s = some x) :
    x.IsOf (.stmt s) := by
  obtain ⟨m, hm, hx⟩ := Option.bind_eq_some_iff.mp h
  unfold refusal? at hx
  split at hx
  · cases hx
    refine ⟨rfl, ?_⟩
    cases s with
    | expression | «return» => exact Report.liesAt_cons rfl
    | _ => cases hm
  · rename_i v _ hv
    split at hx
    · cases hx
    · cases hx
      exact ⟨rfl, (Report.liesAt_expr rfl).mono (Piece.nodes_subset_of_within hwf (within_value? hv))⟩
  · cases hx

/-- **What is found in the script of a piece** is what is to be seen in the piece. -/
theorem judged (hsensible : Sensible q) : Judged o q := by
  induction q using Piece.parts_induction with
  | step q ih =>
    have hparts (d : Nat) : Verdict (fun f => ∃ r ∈ q.parts, ShowsIn o d q f r) (Sound q)
        q.CallsRuntime q :=
      verdict_parts hsensible.wellFormed fun r hr =>
        judged_part (hsensible.part hr) (ih r hr (hsensible.part hr))
    cases q with
    | expr e =>
      intro d
      have hbelow (f : Finding) (r : Piece) :
          ShowsIn o d (.expr e) f r = (codeBelow o d r).Shows f := by cases r <;> rfl
      have hverdict := hparts d
      simp only [hbelow] at hverdict
      exact hverdict
    | stmt s =>
      intro d inherited
      obtain ⟨hclean, husual, hruntime⟩ := hparts d
      obtain ⟨haccepted, hrefused⟩ := finds_stmt o d inherited hsensible
      cases hobjection : objection? inherited s with
      | none =>
        have hfault (x : Report) : (stmt o d inherited s).Shows (.fault x) ↔
            ∃ r ∈ s.parts, ShowsIn o d (.stmt s) (.fault x) r := by
          simpa using haccepted hobjection (.fault x)
        refine ⟨?_, fun x hx => husual x ((hfault x).mp hx), fun hquiet => ?_⟩
        · rw [← hclean]
          simp [hfault, Piece.parts]
        · have hquiet := hruntime fun x hx => hquiet x ((hfault x).mpr hx)
          rw [haccepted hobjection, ← hquiet]
          simp [Piece.parts]
      | some x =>
        obtain ⟨hx, hothers⟩ := hrefused x hobjection
        refine ⟨iff_of_false (fun h => h x hx) (by simp), fun y hy => ?_, fun h => absurd hx (h x)⟩
        rcases hothers y hy with rfl | hy
        · exact isOf_of_objection? hsensible.wellFormed hobjection
        · exact husual y hy
    | program p =>
      intro d
      have hbody (f : Finding) : (stmts o d none p.body).Shows f ↔
          ∃ r ∈ (Piece.program p).parts, ShowsIn o d (.program p) f r := by
        rw [shows_stmts, Piece.parts, exists_mem_ofStmts]
        rfl
      rw [show (stmts o d none p.body).Shows = _ from funext fun f => propext (hbody f)]
      exact hparts d

end

end Script

end ReactiveScript
