import ReactiveScript.Proofs.Grammar.States

/-!
# The contract of a routine

What every routine of the grammar does with the state, said once for all of them, and the rules
by which routines that meet the contract are put together.
-/

namespace ReactiveScript.Grammar

/-! ## 1. Contracts -/

/-- From a ready state, a routine leads onward to a state with `P`. -/
class Leads (source : Text) (d : Nat) (P : State → Prop) {α : Type} (x : Reading α) : Prop where
  leads : ∀ {s : State}, Ready source d s → Runs x s fun _ s' => P s' ∧ Onward s s'

/-- The contract of a routine that restores the depth. -/
abbrev Reads (source : Text) (d : Nat) {α : Type} (x : Reading α) : Prop :=
  Leads source d (Ready source d) x

/-- The contract of a routine whose caller restores the depth. -/
abbrev Drifts (source : Text) (d : Nat) {α : Type} (x : Reading α) : Prop :=
  Leads source d (Settled source) x

/-- The reader has moved on, unless it was at the end, had given up or reports something. -/
def Moved (s s' : State) : Prop :=
  s.atEnd = false → s.tooDeep = false → s'.reports = s.reports →
    s.current.offset < s'.current.offset

/-- The contract of a routine that takes at least one token. -/
class Strides (source : Text) (d : Nat) {α : Type} (x : Reading α) : Prop where
  reads : Reads source d x
  moves : ∀ {s : State}, Ready source d s → Runs x s fun _ s' => Moved s s'

/-- The contract of a routine that takes a token even if it has given up. -/
class Takes (source : Text) (d : Nat) {α : Type} (x : Reading α) : Prop where
  reads : Reads source d x
  takes : ∀ {s : State}, Ready source d s → s.atEnd = false →
    Runs x s fun _ s' => s.current.offset < s'.current.offset

/-- A routine that asks something about the state and leaves it as it is. -/
class Asks {α : Type} (x : Reading α) : Prop where
  asks : ∀ s, ∃ a, x s = .ok (a, s)

/-! ## 2. Putting routines together -/

section
variable {source : Text} {d : Nat} {α β : Type} {P : State → Prop} {x y : Reading α}
  {f : α → Reading β}

instance (priority := low) [hx : Strides source d x] : Reads source d x := hx.reads

instance (priority := low) [hx : Takes source d x] : Reads source d x := hx.reads

instance (priority := low) [hx : Asks x] : Reads source d x where
  leads {s} hs := by
    obtain ⟨a, ha⟩ := hx.asks s
    rw [runs_of_eq ha]
    exact ⟨hs, .refl s⟩

instance (priority := low) [hx : Reads source d x] : Drifts source d x :=
  ⟨fun hs => (hx.leads hs).mono fun _ _ hout => ⟨hout.1.toSettled, hout.2⟩⟩

instance {a : α} : Asks (pure a : Reading α) := ⟨fun _ => ⟨a, rfl⟩⟩

theorem Leads.bind (hx : Reads source d x) (hf : ∀ a, Leads source d P (f a)) :
    Leads source d P (x >>= f) where
  leads {s} hs := by
    rw [runs_bind]
    refine (hx.leads hs).mono ?_
    rintro a s₁ ⟨hs₁, hon₁⟩
    refine ((hf a).leads hs₁).mono ?_
    rintro b s₂ ⟨hP, hon₂⟩
    exact ⟨hP, hon₁.trans hon₂⟩

instance [hx : Reads source d x] [hf : ∀ a, Leads source d P (f a)] :
    Leads source d P (x >>= f) := .bind hx hf

instance {f : α → β} [hx : Reads source d x] : Reads source d (f <$> x) :=
  ⟨fun hs => by rw [runs_map]; exact hx.leads hs⟩

instance {b : Prop} [Decidable b] [Leads source d P x] [Leads source d P y] :
    Leads source d P (if b then x else y) := by
  split <;> infer_instance

/-- A routine that moves on, and then another. -/
theorem Strides.bind (hx : Strides source d x) (hf : ∀ a, Reads source d (f a)) :
    Strides source d (x >>= f) where
  reads := inferInstance
  moves {s} hs := by
    rw [runs_bind]
    refine ((hx.reads.leads hs).and (hx.moves hs)).mono ?_
    rintro a s₁ ⟨⟨hs₁, hon₁⟩, hmoved⟩
    refine ((hf a).leads hs₁).mono ?_
    rintro b s₂ ⟨_, hon₂⟩ hend hdeep hreports
    obtain ⟨h₁, _⟩ := reports_eq_of_suffix hon₁.reports hon₂.reports hreports
    exact Nat.lt_of_lt_of_le (hmoved hend hdeep h₁) hon₂.offset_le

instance [hx : Strides source d x] [hf : ∀ a, Reads source d (f a)] :
    Strides source d (x >>= f) := .bind hx hf

/-- A question, and then a routine that moves on. -/
theorem Strides.ask [hx : Asks x] (hf : ∀ a, Strides source d (f a)) :
    Strides source d (x >>= f) where
  reads := inferInstance
  moves {s} hs := by
    obtain ⟨a, ha⟩ := hx.asks s
    rw [runs_bind, runs_of_eq ha]
    exact (hf a).moves hs

instance [Asks x] [hf : ∀ a, Strides source d (f a)] : Strides source d (x >>= f) := .ask hf

instance {b : Prop} [Decidable b] [Strides source d x] [Strides source d y] :
    Strides source d (if b then x else y) := by
  split <;> infer_instance

instance (priority := low) [hx : Takes source d x] : Strides source d x where
  reads := hx.reads
  moves {s} hs := by
    by_cases hend : s.atEnd = false
    · exact (hx.takes hs hend).mono fun _ _ hlt _ _ _ => hlt
    · exact (hx.reads.leads hs).mono fun _ _ _ hfalse => absurd hfalse hend

instance [hx : Takes source d x] [hf : ∀ a, Reads source d (f a)] : Takes source d (x >>= f) where
  reads := inferInstance
  takes {s} hs hend := by
    rw [runs_bind]
    refine ((hx.reads.leads hs).and (hx.takes hs hend)).mono ?_
    rintro a s₁ ⟨⟨hs₁, _⟩, hlt⟩
    refine ((hf a).leads hs₁).mono ?_
    rintro b s₂ ⟨_, hon₂⟩
    exact Nat.lt_of_lt_of_le hlt hon₂.offset_le

instance [hx : Asks x] [hf : ∀ a, Takes source d (f a)] : Takes source d (x >>= f) where
  reads := inferInstance
  takes {s} hs hend := by
    obtain ⟨a, ha⟩ := hx.asks s
    rw [runs_bind, runs_of_eq ha]
    exact (hf a).takes hs hend

end

/-! ## 3. Operations on the state -/

section
variable {source : Text} {d : Nat} {k : Kind}

instance : Asks (get : Reading State) := ⟨fun _ => ⟨_, rfl⟩⟩
instance : Asks token := ⟨fun _ => ⟨_, rfl⟩⟩
instance : Asks (sees k) := ⟨fun _ => ⟨_, rfl⟩⟩
instance : Asks atEnd := ⟨fun _ => ⟨_, rfl⟩⟩
instance {w : Text} : Asks (seesWord w) := ⟨fun _ => ⟨_, rfl⟩⟩
instance : Asks canContinue := ⟨fun _ => ⟨_, rfl⟩⟩
instance : Asks badHere := ⟨fun _ => ⟨_, rfl⟩⟩
instance : Asks emptyBlock := ⟨fun _ => ⟨_, rfl⟩⟩

instance : Takes source d advance where
  reads := ⟨fun hs => ⟨hs.advance, hs.onward_advance⟩⟩
  takes hs hend := hs.lt_advance hend

instance : Takes source d take := by unfold take; infer_instance

theorem State.atEnd_of_sees {s : State} (h : s.sees k = true) (hk : k ≠ .eof) : s.atEnd = false := by
  have h : s.current.kind = k := by simpa [State.sees] using h
  simpa [State.atEnd, h] using hk

instance : Reads source d (accept k) := by unfold accept; infer_instance

instance {r : Report} : Reads source d (report r) := ⟨fun {s} hs => ⟨hs.report r, .report s r⟩⟩

instance {rs : List Report} : Reads source d (reportAll rs) := by
  induction rs with
  | nil => exact inferInstanceAs (Reads source d (pure ()))
  | cons r rs ih => exact .bind inferInstance fun _ => ih

instance {f : ParseFault} {p : Position} : Strides source d (faultAt f p) where
  reads := ⟨fun {s} hs => ⟨hs.fault f p, .fault s f p⟩⟩
  moves {s} _ _ hdeep hreports := absurd hreports (s.fault_reports_ne_self hdeep f p)

instance {f : ParseFault} : Strides source d (fault f) := by unfold fault; infer_instance

instance {w : Wanted} : Strides source d (expected w) := by unfold expected; infer_instance

/-- A missing token is a fault, and a token that is there is taken. -/
instance : Strides source d (expect k) where
  reads := by unfold expect; infer_instance
  moves {s} hs := by
    rw [runs_expect]
    split
    · exact fun hend _ _ => hs.lt_advance hend
    · exact fun _ hdeep hreports => absurd hreports (s.fault_reports_ne_self hdeep _ _)

instance : Reads source d (expectToken k) := by unfold expectToken; infer_instance

instance {w : Text} : Reads source d (expectWord w) := by unfold expectWord; infer_instance

instance {α : Type} {wanted : Bool} {x : Reading α} [Reads source d x] :
    Reads source d (readIf wanted x) := by
  unfold readIf; infer_instance

end

/-! ## 4. Brackets, blocks and depth -/

section
variable {source : Text} {d : Nat} {α : Type} {s : State} {x givenUp body : Reading α}

/-- The counters of brackets and blocks do not bear on whether a state is ready. -/
theorem Ready.recount (h : Ready source d s) (nesting braceBlocks : Nat) :
    Ready source d { s with nesting := nesting, braceBlocks := braceBlocks } :=
  ⟨⟨⟨h.rest_eq, h.stop_le, h.text_ne, h.inside, h.ended, h.deep⟩, h.kind_ne⟩, h.depth_eq, h.depth_le⟩

/-- So they may be changed before a routine, and restored after it. -/
theorem Leads.recounted [hx : Reads source d x] (hs : Ready source d s) (n b : Nat) :
    Runs x { s with nesting := n, braceBlocks := b } fun _ s' => ∀ n' b',
      Ready source d { s' with nesting := n', braceBlocks := b' } ∧
        Onward s { s' with nesting := n', braceBlocks := b' } :=
  (hx.leads (hs.recount n b)).mono fun _ _ hout n' b' =>
    ⟨hout.1.recount n' b', hout.2.offset_le, hout.2.reports, hout.2.tooDeep⟩

instance [Reads source d x] : Reads source d (bracketed x) where
  leads hs := by
    simp only [bracketed, runs_bind, runs_modify, runs_pure]
    exact (Leads.recounted hs _ _).mono fun _ _ hout => hout _ _

instance [Reads source d x] : Reads source d (outsideBrackets x) where
  leads hs := by
    simp only [outsideBrackets, runs_bind, runs_get, runs_modify, runs_pure]
    exact (Leads.recounted hs _ _).mono fun _ _ hout => hout _ _

instance [Reads source d x] : Reads source d (insideBraces x) where
  leads hs := by
    simp only [insideBraces, runs_bind, runs_modify, runs_pure]
    exact (Leads.recounted hs _ _).mono fun _ _ hout => hout _ _

instance [hx : Drifts source d x] : Reads source d (restoringDepth x) where
  leads hs := by
    simp only [restoringDepth, runs_bind, runs_get, runs_modify, runs_pure]
    refine (hx.leads hs).mono ?_
    rintro a s' ⟨hs', hon⟩
    exact ⟨⟨hs'.setDepth _, hs.depth_eq, hs.depth_le⟩, hon.setDepth _⟩

/-- The state one level deeper, once the depth has been checked. -/
def State.deepened (s : State) : State := State.checkDepth { s with depth := s.depth + 1 }

theorem State.deepened_current (s : State) : s.deepened.current = s.current := by
  unfold State.deepened State.checkDepth
  split <;> rfl

theorem runs_deeper {Q : α → State → Prop} :
    Runs (deeper givenUp body) s Q ↔
      if s.deepened.tooDeep then Runs givenUp s.deepened Q else Runs body s.deepened Q := by
  simp only [deeper, deepen, tooDeep, runs_bind, runs_modify, runs_get, runs_pure, runs_ite]
  exact Iff.rfl

theorem Ready.deepened (h : Ready source d s) :
    Settled source s.deepened ∧ Onward s s.deepened ∧
      (s.deepened.tooDeep = false → Ready source (d + 1) s.deepened) ∧
      (s.deepened.tooDeep = true → s.tooDeep = false → s.deepened.reports ≠ s.reports) := by
  have hsettled := h.toSettled.setDepth (s.depth + 1)
  have honward := (Onward.refl s).setDepth (s.depth + 1)
  unfold State.deepened State.checkDepth
  split
  · exact ⟨hsettled.giveUp _, honward.trans (.giveUp _ _),
      fun hdeep => absurd hdeep.symm Bool.false_ne_true, fun _ _ => List.cons_ne_self _ _⟩
  · rename_i hcheck
    refine ⟨hsettled, honward, fun hdeep => ⟨hsettled, ?_, ?_⟩, ?_⟩
    · rw [← h.depth_eq]
    · have hdepth := h.depth_eq
      simp only [Bool.and_eq_true, Bool.not_eq_true', decide_eq_true_eq] at hcheck
      have hle : ¬ maxDepth < s.depth + 1 := fun hlt => hcheck ⟨hdeep, hlt⟩
      omega
    · intro hdeep hfalse
      exact absurd hdeep (by simp [hfalse])

instance [hgive : Asks givenUp] [hbody : Drifts source (d + 1) body] :
    Drifts source d (deeper givenUp body) where
  leads {s} hs := by
    obtain ⟨hsettled, hon, hready, _⟩ := hs.deepened
    rw [runs_deeper]
    split
    · obtain ⟨a, ha⟩ := hgive.asks s.deepened
      rw [runs_of_eq ha]
      exact ⟨hsettled, hon⟩
    · rename_i hdeep
      refine (hbody.leads (hready (by simpa using hdeep))).mono ?_
      rintro a s' ⟨hs', hon'⟩
      exact ⟨hs', hon.trans hon'⟩

theorem runs_nested {Q : α → State → Prop} :
    Runs (nested givenUp body) s Q ↔
      Runs (if s.deepened.tooDeep then givenUp else body) s.deepened
        fun a s' => Q a { s' with depth := s.depth } := by
  simp only [nested, restoringDepth, runs_bind, runs_get, runs_modify, runs_pure, runs_deeper,
    runs_ite]

instance [Asks givenUp] [Reads source (d + 1) body] : Reads source d (nested givenUp body) := by
  unfold nested; infer_instance

instance [hgive : Asks givenUp] [hbody : Strides source (d + 1) body] :
    Strides source d (nested givenUp body) where
  reads := inferInstance
  moves {s} hs := by
    obtain ⟨_, hon, hready, hnew⟩ := hs.deepened
    rw [runs_nested]
    split
    · rename_i hdeep
      obtain ⟨a, ha⟩ := hgive.asks s.deepened
      rw [runs_of_eq ha]
      exact fun _ hfalse hreports => absurd hreports (hnew hdeep hfalse)
    · rename_i hdeep
      have hs₁ := hready (by simpa using hdeep)
      refine ((hbody.reads.leads hs₁).and (hbody.moves hs₁)).mono ?_
      rintro a s' ⟨⟨_, hon'⟩, hmoved⟩ hend _ hreports
      obtain ⟨-, h₂⟩ := reports_eq_of_suffix hon.reports hon'.reports hreports
      have hcurrent := s.deepened_current
      unfold Moved State.atEnd at hmoved
      rw [hcurrent] at hmoved
      exact hmoved hend (by simpa using hdeep) h₂

/-! ## 5. Lists of parts -/

/-- A loop goes on from a token that it has left behind, with one round less. -/
theorem Ready.advance_rounds (h : Ready source d s) (hend : s.atEnd = false) {rounds offset : Nat}
    (hoffset : offset ≤ s.current.offset) (hrounds : source.length - offset < rounds + 1) :
    source.length - s.advance.current.offset < rounds := by
  have hlt := h.lt_advance hend
  have hin := h.offset_lt hend
  omega

/-- **Every comma is a step forward**, so that a loop over parts ends within the bytes left. -/
theorem runs_partsFrom {close : Kind} {part : Reading (Part α)} [hpart : Reads source d part]
    {rounds : Nat} {done : List α} (hs : Ready source d s)
    (hrounds : source.length - s.current.offset < rounds) :
    Runs (partsFrom close part done rounds) s fun _ s' => Ready source d s' ∧ Onward s s' := by
  induction rounds generalizing done s with
  | zero => exact absurd hrounds (Nat.not_lt_zero _)
  | succ rounds ih =>
    simp only [partsFrom, runs_bind, runs_sees, runs_atEnd, runs_ite, runs_pure]
    split
    · exact ⟨hs, .refl s⟩
    · refine (hpart.leads hs).mono ?_
      rintro p s₁ ⟨hs₁, hon₁⟩
      cases p with
      | none | last => exact ⟨hs₁, hon₁⟩
      | more a =>
        simp only [runs_bind, runs_accept, runs_ite, runs_pure]
        split
        · rename_i hcomma
          have hend := State.atEnd_of_sees hcomma (by decide)
          refine (ih hs₁.advance (hs₁.advance_rounds hend hon₁.offset_le hrounds)).mono ?_
          rintro l s₂ ⟨hs₂, hon₂⟩
          exact ⟨hs₂, hon₁.trans (hs₁.onward_advance.trans hon₂)⟩
        · exact ⟨hs₁, hon₁⟩

end

/-! ## 6. The level below -/

/-- The contract of an element that is a child: unless it is bad, it has moved on, and the text
    after it is the current token. -/
def ReadsChild (source : Text) (d : Nat) (x : Reading Expr) : Prop :=
  ∀ {s : State}, Ready source d s → Runs x s fun e s' =>
    Steady source s' ∧ s'.depth = d ∧ Onward s s' ∧
      (s'.current.kind = .jsxText ↔ e.isBad = false) ∧
      (e.isBad = false → s.atEnd = false → s.current.offset < s'.current.offset)

/-- What is wanted of the routines that go one level deeper themselves, when they are called at a
    depth. -/
structure Routines.Serve (source : Text) (d : Nat) (r : Routines) : Prop where
  assignment : Strides source d r.assignment
  pattern : Strides source d r.pattern
  jsx : ReadsChild source d (r.jsx true)
  block (header : Nat) : Reads source d (r.block header)
  /-- An expression is given up at once by a reader on its way out. -/
  givesUp {s : State} (h : s.tooDeep = true) : r.assignment s = .ok (.bad s.current.pos, s)

/-- What is wanted of the routines that are called one level deeper. -/
structure Routines.ServeDeeper (source : Text) (d : Nat) (r : Routines) : Prop where
  unary : Strides source d r.unary
  binary (least : Nat) : Strides source d (r.binary least)
  binaryRest (least : Nat) (left : Expr) : Drifts source d (r.binaryRest least left)
  chainRest (optional : Bool) (e : Expr) : Drifts source d (r.chainRest optional e)

/-- The context of a source can be relied on from a depth on. -/
class Context.Serves (source : Text) (d : Nat) (c : Context) : Prop where
  source_eq : c.source = source
  rounds_le : source.length + 2 ≤ c.rounds
  here (e : Nat) (he : d ≤ e) : c.inner.Serve source e
  below (e : Nat) (he : d < e) : c.inner.ServeDeeper source e

section
variable {source : Text} {d : Nat} {c : Context}

theorem Context.Serves.mono {d' : Nat} (h : c.Serves source d) (hd : d ≤ d') : c.Serves source d' :=
  ⟨h.source_eq, h.rounds_le, fun e he => h.here e (Nat.le_trans hd he),
    fun e he => h.below e (Nat.lt_of_le_of_lt hd he)⟩

variable [h : c.Serves source d]

include h in
theorem Context.Serves.rounds_lt : source.length < c.rounds := by
  have := h.rounds_le
  omega

instance : c.Serves source (d + 1) := h.mono (Nat.le_succ d)

instance : Strides source d c.inner.assignment := (h.here d (Nat.le_refl d)).assignment

instance : Strides source d c.inner.pattern := (h.here d (Nat.le_refl d)).pattern

instance {header : Nat} : Reads source d (c.inner.block header) :=
  (h.here d (Nat.le_refl d)).block header

instance : Strides source (d + 1) c.inner.unary := (h.below (d + 1) (Nat.lt_succ_self d)).unary

instance {least : Nat} : Strides source (d + 1) (c.inner.binary least) :=
  (h.below (d + 1) (Nat.lt_succ_self d)).binary least

instance {least : Nat} {left : Expr} : Drifts source (d + 1) (c.inner.binaryRest least left) :=
  (h.below (d + 1) (Nat.lt_succ_self d)).binaryRest least left

instance {optional : Bool} {e : Expr} : Drifts source (d + 1) (c.inner.chainRest optional e) :=
  (h.below (d + 1) (Nat.lt_succ_self d)).chainRest optional e

instance {α : Type} {close : Kind} {part : Reading (Part α)} [Reads source d part] :
    Reads source d (parts c close part) := by
  have hrounds := h.rounds_lt
  exact ⟨fun hs => runs_partsFrom hs (by omega)⟩

end

end ReactiveScript.Grammar
