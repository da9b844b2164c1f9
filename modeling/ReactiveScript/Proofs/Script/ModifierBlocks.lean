import ReactiveScript.Script.Module

/-!
# Modifier blocks

A block under a modifier is written as its statements, each of them as if it carried the modifier
itself, unless it has one of its own. An exported declaration is the exception: it pays no heed to
the block around it, and is written as if it stood outside.
-/

namespace ReactiveScript

/-! ## 1. Statements that carry a modifier -/

/-- A statement that carries a modifier, unless it has one of its own. Exports of names or of a
    default, imports and blocks cannot carry one. -/
def Stmt.under (m : Text) : Stmt → Stmt
  | .expression p own e => .expression p (own.or (some m)) e
  | .return p own argument => .return p (own.or (some m)) argument
  | .exportDeclaration p declaration own e => .exportDeclaration p declaration (own.or (some m)) e
  | s => s

/-- An exported declaration without a modifier. -/
def Stmt.isBareExport : Stmt → Bool
  | .exportDeclaration _ _ none (.declare _ _ _) => true
  | .exportDeclaration _ _ none (.assign _ .plain _ _) => true
  | _ => false

/-- What the modifier of a block makes of a statement in it. -/
def Stmt.heeding (m : Text) (s : Stmt) : Stmt := if s.isBareExport then s else s.under m

/-- Two pieces with the same text, in which the same faults were found. -/
def Code.Alike (a b : Code) : Prop := a.text = b.text ∧ a.faults = b.faults

theorem Code.Alike.trans {a b c : Code} (h : a.Alike b) (h' : b.Alike c) : a.Alike c :=
  ⟨h.1.trans h'.1, h.2.trans h'.2⟩

theorem Code.Alike.symm {a b : Code} (h : a.Alike b) : b.Alike a := ⟨h.1.symm, h.2.symm⟩

namespace Script

variable {m : Text}

/-! ## 2. The modifier of a block -/

/-- The modifier that a statement inherits may as well be its own. -/
theorem stmt_heeding (o : Options) (d : Nat) (m : Text) (s : Stmt) :
    stmt o d none (s.heeding m) = stmt o d (some m) s := by
  cases s with
  | expression p own e => cases own <;> rfl
  | «return» p own argument => cases own <;> cases argument <;> rfl
  | exportDeclaration p declaration own e =>
    -- the modifier around an exported declaration is never looked at
    cases own with
    | some own => rfl
    | none =>
      cases e with
      | assign q op target value => cases op <;> rfl
      | _ => rfl
  | bad | modifierBlock | exportDefault | exportNames | importNames | importNamespace => rfl

theorem stmts_heeding (o : Options) (d : Nat) (m : Text) (body : List Stmt) :
    stmts o d none (body.map (Stmt.heeding m)) = stmts o d (some m) body := by
  induction body with
  | nil => rfl
  | cons s body ih => rw [List.map_cons, stmts, stmts, stmt_heeding, ih]

/-- A script depends on the text, the faults and the use of the runtime of its statements. -/
theorem ofProgram_alike {o : Options} {p q : Program}
    (htext : (stmts o 0 none p.body).text = (stmts o 0 none q.body).text)
    (hfaults : (stmts o 0 none p.body).faults = (stmts o 0 none q.body).faults)
    (hruntime : (stmts o 0 none p.body).usesRuntime = (stmts o 0 none q.body).usesRuntime) :
    (ofProgram o p).Alike (ofProgram o q) := by
  simp only [ofProgram, hruntime]
  split
  · exact ⟨by rw [Code.text_append, Code.text_append, htext],
      by rw [Code.faults_append, Code.faults_append, hfaults]⟩
  · exact ⟨htext, hfaults⟩

theorem modifierBlock_alike (o : Options) (q p block : Position) (m : Text) (body : List Stmt) :
    (ofProgram o ⟨q, [.modifierBlock p m block body]⟩).Alike
      (ofProgram o ⟨q, body.map (Stmt.heeding m)⟩) := by
  have hblock : stmts o 0 none [.modifierBlock p m block body] = stmts o 0 (some m) body ++ {} :=
    rfl
  refine ofProgram_alike ?_ ?_ ?_ <;> dsimp only <;> rw [hblock, stmts_heeding]
  · rw [Code.text_append]
    exact List.append_nil _
  · rw [Code.faults_append]
    exact List.append_nil _
  · rw [Code.usesRuntime_append]
    exact Bool.or_false _

/-! ## 3. Values that are handed to the runtime -/

theorem length_le_parenthesizedIf (needed : Bool) (c : Code) :
    c.text.length ≤ (c.parenthesizedIf needed).text.length := by
  unfold Code.parenthesizedIf
  split
  · simp only [Code.parenthesized, Code.text_append, List.length_append]
    omega
  · exact Nat.le_refl _

/-- A modifier that takes any value. -/
def TakesAny (m : Text) : Prop := ∃ k, Modifier.ofName? m = some k ∧ k.shape ≠ .function

/-- **A call of the runtime is longer than its value**, unless it is a fault to hand it over. -/
theorem length_lt_runtimeCall (o : Options) (p : Position) (value : Expr) (c : Code)
    (h : (runtimeCall o m p value c).faults = [] ∨ TakesAny m) :
    (modified o none p value c).text.length < (runtimeCall o m p value c).text.length ∧
      (runtimeCall o m p value c).usesRuntime = true := by
  have hdot : 0 < (txt ".").length := by decide
  have hbody := length_le_parenthesizedIf
    ((atLevel Level.assignment value c).rope.head? == some Byte.openBrace)
    (atLevel Level.assignment value c)
  have htext (used : Bool) (c : Code) : (c.withRuntime used).text = c.text := rfl
  rw [runtimeCall] at h ⊢
  cases hm : Modifier.ofName? m with
  | none =>
    rw [hm] at h
    rcases h with h | ⟨k, hk, -⟩
    · cases h
    · cases hm.symm.trans hk
  | some k =>
    have hneeds : k.needsRuntime = true := by cases k <;> rfl
    refine ⟨?_, by simp only [Code.withRuntime, hneeds, Bool.true_or]⟩
    rw [hm] at h
    rw [htext, modified]
    cases hshape : k.shape with
    | wrap =>
      simp only [Code.parenthesized, Code.text_append, Code.text_plain, List.length_append]
      omega
    | tracked =>
      simp only [functionBody, Code.noBraceFirst, Code.text_append, Code.text_plain,
        List.length_append]
      omega
    | function =>
      have harrow : value.isArrow = true := by
        rcases h with h | ⟨k', hk', hother⟩
        · refine Decidable.byContradiction fun hvalue => ?_
          simp [hshape, hvalue, Code.withRuntime, Code.fault] at h
        · cases hm.symm.trans hk'
          exact absurd hshape hother
      simp only [harrow, if_true, Code.parenthesized, Code.text_append, Code.text_plain,
        List.length_append]
      omega

/-- A statement that carries the modifier of its block, without a fault, is no shorter than one that
    heeds it, and a bare export is longer; nor does it use the runtime less. -/
theorem stmt_under_longer (o : Options) (d : Nat) (s : Stmt)
    (h : (stmt o d none (s.under m)).faults = [] ∨ TakesAny m) :
    (stmt o d none (s.heeding m)).text.length + (if s.isBareExport then 1 else 0) ≤
        (stmt o d none (s.under m)).text.length ∧
      ((stmt o d none (s.heeding m)).usesRuntime = true →
        (stmt o d none (s.under m)).usesRuntime = true) := by
  cases hbare : s.isBareExport with
  | false =>
    rw [Stmt.heeding, hbare, if_neg Bool.false_ne_true, if_neg Bool.false_ne_true]
    exact ⟨Nat.le_refl _, id⟩
  | true =>
    rw [Stmt.heeding, hbare, if_pos rfl, if_pos rfl]
    have hexport (p : Position) (target value : Expr) (t v : Code)
        (h : (line d (bound "export const " target t (modified o (some m) p value v) ++
          .lit ";")).faults = [] ∨ TakesAny m) :
        (line d (bound "export const " target t (modified o none p value v) ++
          .lit ";")).text.length + 1 ≤
        (line d (bound "export const " target t (modified o (some m) p value v) ++
          .lit ";")).text.length ∧
        (line d (bound "export const " target t (modified o (some m) p value v) ++
          .lit ";")).usesRuntime = true := by
      have hsome : modified o (some m) p value v = runtimeCall o m p value v := rfl
      simp only [line, bound, Code.faults_append, Code.faults_findings, List.append_eq_nil_iff,
        and_assoc, hsome] at h
      obtain ⟨hlt, huses⟩ := length_lt_runtimeCall o p value v (h.imp_left fun h => h.2.1)
      have hfindings : (runtimeCall o m p value v).findings.usesRuntime = true := huses
      simp only [line, bound, hsome, Code.text_append, Code.text_bare, Code.text_findings,
        List.length_append, Code.usesRuntime_append, hfindings, Bool.true_or, Bool.or_true, and_true]
      omega
    unfold Stmt.isBareExport at hbare
    split at hbare
    · exact (hexport _ _ _ _ _ h).imp_right fun huses _ => huses
    · exact (hexport _ _ _ _ _ h).imp_right fun huses _ => huses
    · cases hbare

theorem stmts_under_longer (o : Options) (d : Nat) (body : List Stmt)
    (h : (stmts o d none (body.map (Stmt.under m))).faults = [] ∨ TakesAny m) :
    (stmts o d none (body.map (Stmt.heeding m))).text.length + body.countP Stmt.isBareExport ≤
        (stmts o d none (body.map (Stmt.under m))).text.length ∧
      ((stmts o d none (body.map (Stmt.heeding m))).usesRuntime = true →
        (stmts o d none (body.map (Stmt.under m))).usesRuntime = true) := by
  induction body with
  | nil => exact ⟨Nat.le_refl _, id⟩
  | cons s body ih =>
    rw [List.map_cons, stmts, Code.faults_append, List.append_eq_nil_iff] at h
    obtain ⟨hlength, huses⟩ := stmt_under_longer o d s (h.imp_left And.left)
    obtain ⟨hrest, hmore⟩ := ih (h.imp_left And.right)
    rw [List.map_cons, List.map_cons, stmts, stmts, List.countP_cons]
    simp only [Code.text_append, Code.usesRuntime_append, List.length_append, Bool.or_eq_true]
    exact ⟨by omega, Or.imp huses hmore⟩

/-- The import of the runtime is no shorter either, so that bare exports show in the whole script. -/
theorem ofProgram_under_longer (o : Options) (q : Position) (body : List Stmt)
    (h : (ofProgram o ⟨q, body.map (Stmt.under m)⟩).faults = [] ∨ TakesAny m) :
    (ofProgram o ⟨q, body.map (Stmt.heeding m)⟩).text.length + body.countP Stmt.isBareExport ≤
      (ofProgram o ⟨q, body.map (Stmt.under m)⟩).text.length := by
  rw [faults_ofProgram] at h
  obtain ⟨hlength, huses⟩ := stmts_under_longer o 0 body h
  simp only [ofProgram]
  split
  · rename_i hruntime
    rw [if_pos (huses hruntime)]
    simp only [Code.text_append, List.length_append]
    omega
  · split
    · simp only [Code.text_append, List.length_append]
      omega
    · exact hlength

/-! ## 4. The law -/

/-- **A modifier block is written as its statements**, each with the modifier of the block unless it
    has its own; only bare exports stay as they are. So the modifier may be written in front of
    every statement if there is no bare export in the block. If the block is written without a
    fault, or its modifier takes any value, then only so. -/
theorem modifierBlock_distributes (o : Options) (q p block : Position) (m : Text)
    (body : List Stmt) :
    (ofProgram o ⟨q, [.modifierBlock p m block body]⟩).Alike
      (ofProgram o ⟨q, body.map (Stmt.heeding m)⟩) ∧
    ((∀ s ∈ body, s.isBareExport = false) →
      (ofProgram o ⟨q, [.modifierBlock p m block body]⟩).Alike
        (ofProgram o ⟨q, body.map (Stmt.under m)⟩)) ∧
    ((ofProgram o ⟨q, [.modifierBlock p m block body]⟩).faults = [] ∨ TakesAny m →
      (ofProgram o ⟨q, [.modifierBlock p m block body]⟩).Alike
        (ofProgram o ⟨q, body.map (Stmt.under m)⟩) → ∀ s ∈ body, s.isBareExport = false) := by
  have hheeding := modifierBlock_alike o q p block m body
  refine ⟨hheeding, fun hbare => ?_, fun h hunder s hs => ?_⟩
  · have hmap : body.map (Stmt.under m) = body.map (Stmt.heeding m) :=
      List.map_congr_left fun s hs => by rw [Stmt.heeding, hbare s hs, if_neg Bool.false_ne_true]
    rwa [hmap]
  · have htext := (hheeding.symm.trans hunder).1
    rw [hunder.2] at h
    have hlonger := ofProgram_under_longer o q body h
    have hcount : body.countP Stmt.isBareExport = 0 := by
      rw [htext] at hlonger
      omega
    simpa using List.countP_eq_zero.mp hcount s hs

namespace Sample

/-- `y = x`, under a modifier or not. -/
def declaration (own : Option Text) : Stmt :=
  .expression .start own (.declare .start (.identifier .start (txt "y")) (.identifier .start (txt "x")))

/-- The same declaration, exported. -/
def exported : Stmt :=
  .exportDeclaration .start .start none
    (.declare .start (.identifier .start (txt "y")) (.identifier .start (txt "x")))

def block (body : List Stmt) : Stmt := .modifierBlock .start (txt "state") .start body

/-- Statements with and without modifiers, one of them a block. -/
def mixed : List Stmt :=
  [declaration none, declaration (some (txt "computed")), .return .start none none,
    block [.return .start (some (txt "unheard")) none]]

end Sample

/-- A block of mixed statements is written as its statements; a block with a bare export is not. -/
theorem sample_blocks :
    (ofProgram {} ⟨.start, [Sample.block Sample.mixed]⟩).Alike
      (ofProgram {} ⟨.start, Sample.mixed.map (Stmt.under (txt "state"))⟩) ∧
    ¬ (ofProgram {} ⟨.start, [Sample.block [Sample.exported]]⟩).Alike
      (ofProgram {} ⟨.start, [Sample.exported].map (Stmt.under (txt "state"))⟩) := by
  have hbare : ∀ s ∈ Sample.mixed, s.isBareExport = false := by
    simp [Sample.mixed, Sample.declaration, Sample.block, Stmt.isBareExport]
  obtain ⟨-, hmixed, -⟩ :=
    modifierBlock_distributes {} .start .start .start (txt "state") Sample.mixed
  obtain ⟨-, -, hexported⟩ :=
    modifierBlock_distributes {} .start .start .start (txt "state") [Sample.exported]
  refine ⟨hmixed hbare, fun halike => ?_⟩
  have hfalse := hexported (.inr ⟨.state, by decide, by decide⟩) halike Sample.exported
    (List.mem_singleton.mpr rfl)
  exact absurd hfalse (by decide)

end Script

end ReactiveScript
