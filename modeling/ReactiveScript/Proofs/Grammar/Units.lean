import ReactiveScript.Grammar.Read
import ReactiveScript.Proofs.Grammar.Gathering

/-!
# Expressions that stand alone

A function or a template is not what a link of a chain or an operator gives. So where a clean run
gives one, it has read nothing else: a function by itself, or a single operand.
-/

namespace ReactiveScript

/-- A function or a template. -/
def Expr.isUnit : Expr → Bool
  | .arrow _ _ _ | .arrowBlock _ _ _ _ | .template _ _ _ => true
  | _ => false

namespace Grammar

variable {source : Text} {s : State}

/-! ## 1. Routines that give no unit -/

/-- A clean run gives no unit. -/
def Links (x : Reading Expr) : Prop := ∀ s, Cleanly x s fun a _ => a.isUnit = false

/-- A clean run gives a unit only if it is the expression itself, and then takes nothing, unless the
    reader is on its way out. -/
def Leaves (e : Expr) (x : Reading Expr) : Prop :=
  ∀ s, Cleanly x s fun a t => a.isUnit = true → a = e ∧ (s.tooDeep = false → t = s)

section
variable {α : Type} {x : Reading α} {g : α → Reading Expr} {y z : Reading Expr} {e : Expr}

theorem Links.pure (he : e.isUnit = false) : Links (Pure.pure e) := fun _ => .pure he

/-- What is read first does not count. -/
theorem Links.seq (h : ∀ a, Links (g a)) : Links (x >>= g) := by
  intro s a t hrun ht
  obtain ⟨b, u, _, hrun⟩ := bind_eq_ok hrun
  exact h b u hrun ht

theorem Links.ite {p : Prop} [Decidable p] (hy : Links y) (hz : Links z) :
    Links (if p then y else z) := fun s => .ite (fun _ => hy s) fun _ => hz s

/-- One level deeper, or turned back there. -/
theorem Links.nested (hy : Links y) (hz : Links z) : Links (nested y z) := by
  refine fun s => .restoringDepth fun a t hrun ht => ?_
  have hdeepened : Grammar.deeper y z s =
      (if s.deepened.tooDeep then y else z) s.deepened := rfl
  exact Links.ite hy hz s.deepened (hdeepened ▸ hrun) ht

theorem Links.unit (h : Links y) (P : Expr → State → Prop) :
    Cleanly y s fun a t => a.isUnit = true → P a t :=
  Cleanly.mono (h s) fun a _ ha hunit => by simp [ha] at hunit

/-- What goes on with an expression that is no unit gives none. -/
theorem Leaves.links (h : Leaves e y) (he : e.isUnit = false) : Links y := by
  intro s
  refine Cleanly.mono (h s) fun a t ha => ?_
  cases hunit : a.isUnit with
  | false => rfl
  | true =>
    obtain ⟨rfl, _⟩ := ha hunit
    exact hunit.symm.trans he

/-- Going deeper, with an expression to fall back on. -/
theorem Leaves.deeper (hy : Links y) : Leaves e (deeper (Pure.pure e) y) := by
  intro s a t hrun ht hunit
  have hdeepened : Grammar.deeper (Pure.pure e) y s =
      (if s.deepened.tooDeep then Pure.pure e else y) s.deepened := rfl
  rw [hdeepened] at hrun
  split at hrun
  · rename_i hout
    cases hrun
    refine ⟨rfl, fun hdeep => ?_⟩
    rw [State.deepened, State.checkDepth] at hout ht
    split at ht
    · exact absurd ht (List.cons_ne_nil _ _)
    · rename_i hdepth
      rw [if_neg hdepth] at hout
      have hout : s.tooDeep = true := hout
      simp [hdeep] at hout
  · exact absurd (hy _ hrun ht) (by simp [hunit])

theorem Leaves.pure : Leaves e (Pure.pure e) := fun _ => .pure fun _ => ⟨rfl, fun _ => rfl⟩

theorem Links.leaves (h : Links y) : Leaves e y := fun _ => h.unit _

theorem Leaves.ite {p : Prop} [Decidable p] (hy : Leaves e y) (hz : Leaves e z) :
    Leaves e (if p then y else z) := fun s => .ite (fun _ => hy s) fun _ => hz s

theorem Leaves.restoringDepth (hy : Leaves e y) : Leaves e (restoringDepth y) := by
  refine fun s => .restoringDepth (Cleanly.mono (hy s) fun a t h hunit => ?_)
  refine ⟨(h hunit).1, fun hdeep => ?_⟩
  rw [(h hunit).2 hdeep]

end

/-! ## 2. Links and operators -/

theorem links_badHere : Links badHere := .seq fun _ => .pure rfl

theorem links_memberName (e : Expr) (optional : Bool) : Links (memberName e optional) :=
  .seq fun _ => .ite (.seq fun _ => .pure rfl) (.seq fun _ => links_badHere)

section
variable (c : Context) (e : Expr)

theorem links_call (optional : Bool) : Links (call c e optional) :=
  .seq fun _ => .seq fun _ => .pure rfl

theorem links_optionalLink : Links (optionalLink c e) := by
  refine .seq fun _ => .ite (links_call c e true) (.seq fun _ => .ite ?_ (links_memberName e true))
  exact .seq fun _ => .seq fun _ => .pure rfl

theorem links_indexOrSliceInside : Links (indexOrSliceInside c e) := by
  refine .seq fun _ => .ite ?_ (.seq fun _ => .seq fun _ => .ite ?_ (.pure rfl))
  · exact .seq fun _ => .seq fun _ => .pure rfl
  · exact .seq fun _ => .seq fun _ => .pure rfl

theorem links_indexOrSlice : Links (indexOrSlice c e) := by
  have hinside : Links (bracketed (indexOrSliceInside c e)) :=
    fun _ => .bracketed (links_indexOrSliceInside c e _)
  refine fun s => .advance (.bind (hinside _) fun e t he => ?_)
  have hclose : Links (do let _ ← expect (.punct .closeBracket); return e) := .seq fun _ => .pure he
  exact hclose t

theorem links_taggedTemplate : Links (taggedTemplate c e) :=
  .seq fun _ => .seq fun _ => .pure rfl

theorem links_fragment (inChildren : Bool) (p : Position) : Links (fragment c inChildren p) := by
  refine .seq fun slots => ?_
  split
  · exact .pure rfl
  · refine .seq fun _ => .seq fun _ => .ite (.seq fun _ => .pure rfl) (.seq fun _ => .pure rfl)

theorem links_elementRest (inChildren : Bool) (p : Position) (name : Text) (as : List Attribute) :
    Links (elementRest c inChildren p name as) := by
  refine .seq fun _ => .ite (.seq fun _ => .pure rfl) (.seq fun slots => ?_)
  split
  · exact .pure rfl
  · exact .seq fun _ => .ite (.seq fun _ => .pure rfl) (.pure rfl)

theorem links_jsx (inChildren : Bool) : Links (jsx c inChildren) := by
  refine .nested links_badHere (.seq fun _ => .seq fun _ => .ite ?_ (.seq fun name => ?_))
  · exact links_fragment c inChildren _
  · split
    · exact .pure rfl
    · refine .seq fun attributes => ?_
      split
      · exact .pure rfl
      · exact links_elementRest c inChildren _ _ _

end

/-- The routines of the level below that go on with an expression leave a unit alone. -/
structure Context.Leaves (c : Context) : Prop where
  binaryRest : ∀ least e, Grammar.Leaves e (c.inner.binaryRest least e)
  chainRest : ∀ optional e, Grammar.Leaves e (c.inner.chainRest optional e)

section
variable {c : Context} [c.Adds] (hc : c.Leaves)
include hc

/-- A link and what follows it. -/
theorem links_chain {x : Reading Expr} (optional : Bool) (hx : Links x) :
    Links (do chainOn c optional (← x)) := by
  refine fun s => .bind (hx s) fun a t ha => .ite (fun _ => .pure ha) fun _ => ?_
  exact (Leaves.deeper ((hc.chainRest optional a).links ha)).links ha t

theorem leaves_chainRest (optional : Bool) (e : Expr) : Leaves e (chainRest c optional e) := by
  refine fun s => .ifAccept (fun _ => ?_) fun _ => .ifAccept (fun _ => ?_) fun _ => .token ?_
  · exact (links_chain hc optional (links_memberName e false)).unit _
  · exact (links_chain hc true (links_optionalLink c e)).unit _
  · refine Leaves.ite .pure ?_ s
    unfold linkOn
    split
    · exact (links_chain hc optional (links_indexOrSlice c e)).leaves
    · exact (links_chain hc optional (links_call c e false)).leaves
    · refine .ite (Links.seq fun _ => links_badHere).leaves ?_
      exact (links_chain hc optional (links_taggedTemplate c e)).leaves
    · exact .pure

omit [c.Adds] in
theorem leaves_binaryRest (least : Nat) (e : Expr) : Leaves e (binaryRest c least e) := by
  refine fun s => .get ?_
  split
  · exact Leaves.pure s
  · refine Leaves.deeper ?_ s
    exact .seq fun _ => .seq fun right => (hc.binaryRest least _).links rfl

end

theorem Context.leaves_ground (source : Text) (rounds : Nat) :
    (Context.ground source rounds).Leaves where
  binaryRest _ _ := .pure
  chainRest _ _ := .pure

theorem Context.leaves_raised {c : Context} [c.Adds] (hc : c.Leaves) (n : Nat) :
    (c.raised n).Leaves := by
  induction n with
  | zero => exact hc
  | succ n ih => exact ⟨leaves_binaryRest ih, leaves_chainRest ih⟩

/-! ## 3. Where a unit comes from -/

/-- What goes on with an expression keeps what is known of a unit. -/
theorem Gathers.unit {x : Reading Expr} {g : Expr → Reading Expr} {P : Expr → State → Prop}
    (hx : Gathers source x Preorder.expr) (hs : s.spot.Sound source)
    (hunit : Cleanly x s fun a t => a.isUnit = true → P a t) (hg : ∀ e, Leaves e (g e))
    (hadds : ∀ e, Adds (g e) := by
      intro; repeat' first | infer_instance | refine .seq inferInstance fun _ => ?_ | split) :
    Cleanly (x >>= g) s fun a t => a.isUnit = true → P a t := by
  intro a t hrun ht ha
  obtain ⟨e, u, hu, hrun⟩ := bind_eq_ok hrun
  have hclean := (hadds e).reports_nil hrun ht
  obtain ⟨rfl, htu⟩ := hg e u hrun ht ha
  obtain rfl := htu (hx hs hu hclean).tooDeep_eq
  exact hunit hu hclean ha

theorem not_isUnit_of_assignment {sign : AssignSign} {signPos : Position} {target value e : Expr}
    (he : Check.assignment? sign signPos target value = .ok e) : e.isUnit = false := by
  unfold Check.assignment? at he
  split at he <;> cases he <;> rfl

theorem links_assigned (c : Context) (sign : AssignSign) (target : Expr) :
    Links (assigned c sign target) := by
  refine .seq fun t => .seq fun value => ?_
  split
  · exact .pure (not_isUnit_of_assignment ‹_›)
  · exact .seq fun _ => .pure rfl

section
variable {c : Context} (hc : c.Leaves) [hgathers : c.Gathers source] (hs : s.spot.Sound source)
include hc hgathers hs

theorem cleanly_chain_unit :
    Cleanly (chain c) s fun a t => a.isUnit = true → primary c s = .ok (a, t) := by
  refine gathers_primary.unit hs (fun _ _ hrun _ _ => hrun) fun e => ?_
  exact .ite .pure (leaves_chainRest hc false e).restoringDepth

theorem cleanly_postfixed_unit :
    Cleanly (postfixed c) s fun a t => a.isUnit = true → primary c s = .ok (a, t) := by
  refine gathers_chain.unit hs (cleanly_chain_unit hc hs) fun e s => .token ?_
  split
  · exact Leaves.ite .pure (Links.seq fun _ => .pure rfl).leaves s
  · exact Leaves.pure s

theorem cleanly_unary_unit :
    Cleanly (unary c) s fun a t => a.isUnit = true → primary c s = .ok (a, t) := by
  refine .token ?_
  split
  · exact (Links.nested links_badHere (.seq fun _ => .seq fun _ => .pure rfl)).unit _
  · exact (Links.nested links_badHere (.seq fun _ => .seq fun _ => .pure rfl)).unit _
  · exact cleanly_postfixed_unit hc hs

theorem cleanly_binary_unit (least : Nat) :
    Cleanly (binary c least) s fun a t => a.isUnit = true → primary c s = .ok (a, t) :=
  gathers_unary.unit hs (cleanly_unary_unit hc hs) fun e =>
    (leaves_binaryRest hc least e).restoringDepth

theorem cleanly_conditional_unit :
    Cleanly (conditional c) s fun a t => a.isUnit = true → primary c s = .ok (a, t) := by
  refine (gathers_binary 1).unit hs (cleanly_binary_unit hc hs 1) fun e s => ?_
  refine .sees (.canContinue (Leaves.ite (Links.leaves ?_) .pure s))
  exact .seq fun _ => .seq fun _ => .seq fun _ => .seq fun _ => .pure rfl

theorem cleanly_plainAssignment_unit :
    Cleanly (plainAssignment c) s fun a t => a.isUnit = true → primary c s = .ok (a, t) := by
  refine gathers_conditional.unit hs (cleanly_conditional_unit hc hs) fun e s => .token ?_
  split
  · exact .canContinue (Leaves.ite (links_assigned c _ e).leaves .pure s)
  · exact Leaves.pure s

/-- **A unit is a function by itself, or a single operand.** -/
theorem cleanly_assignment_unit :
    Cleanly (assignment c) s fun a t => a.isUnit = true →
      s.seesArrow = true ∨ ∃ u, primary c { s with depth := s.depth + 1 } = .ok (a, u) ∧
        t = { u with depth := s.depth } := by
  refine .nested hs.tooDeep (.get (.ite (fun hsees => ?_) fun _ => .ite ?_ fun _ => ?_))
  · have hkind : s.current.kind ≠ .identifier := fun hkind => by
      simp [State.seesDestructuring, State.sees, hkind] at hsees
    refine .bind (r := .token fun target t => by split <;> infer_instance)
      (hgathers.pattern hs hkind) fun target t ht => .token ?_
    split
    · exact (links_assigned c _ target).unit _
    · exact .faulty ht.tooDeep_eq
  · exact fun hsees _ _ _ _ _ => .inl hsees
  · refine Cleanly.mono (cleanly_plainAssignment_unit hc hs) fun a t ha hunit => ?_
    exact .inr ⟨t, ha hunit, rfl⟩

end

/-- An operand that is a unit stands in parentheses or is a template. -/
theorem cleanly_primary_unit (c : Context) (s : State) :
    Cleanly (primary c) s fun a _ => a.isUnit = true →
      s.current.kind = .punct .openParen ∨ ∃ quasis es, a = .template s.current.pos quasis es := by
  refine .token ?_
  split
  · exact Links.unit (.seq fun _ => .pure rfl) _
  · exact Links.unit (.seq fun _ => .pure rfl) _
  · exact Links.unit (.seq fun _ => .pure rfl) _
  · intro a t hrun _ _
    obtain ⟨_, _, _, hrun⟩ := bind_eq_ok hrun
    obtain ⟨r, _, _, hrun⟩ := bind_eq_ok hrun
    cases hrun
    exact .inr ⟨r.1, r.2, rfl⟩
  · exact Links.unit (.seq fun _ => .pure rfl) _
  · exact Links.unit (.seq fun _ => .pure rfl) _
  · exact Links.unit (.seq fun _ => .pure rfl) _
  · exact Links.unit (.seq fun _ => .seq fun _ => .pure rfl) _
  · exact Links.unit (.seq fun _ => .seq fun _ => .seq fun _ => .seq fun _ => .pure rfl) _
  · exact fun _ _ _ _ _ => .inl ‹_›
  · exact (links_jsx c false).unit _
  · exact Links.unit (.seq fun _ => links_badHere) _

end Grammar

end ReactiveScript
