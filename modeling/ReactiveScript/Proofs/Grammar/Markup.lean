import ReactiveScript.Grammar.Markup
import ReactiveScript.Proofs.Grammar.Contract

/-!
# Elements and fragments meet the contract

Between tags the current token is a run of text, which no other routine of the grammar may meet
(`AtText`). Text is entered by going back into a token and left by the loop over the slots, so that
an element that is not a child ends at an ordinary token again.
-/

namespace ReactiveScript.Grammar

-- The instance of a routine is as large as the routine.
set_option synthInstance.maxSize 1000

/-! ## 1. Going back into a token -/

/-- The current token is the text between tags. -/
structure AtText (source : Text) (d : Nat) (s : State) : Prop extends Steady source s where
  kind_eq : s.current.kind = .jsxText
  depth_eq : s.depth = d
  depth_le : d ≤ maxDepth

/-- A routine reads something only by taking a token. -/
class Finds (source : Text) (d : Nat) {α : Type} (x : Reading (Option α)) : Prop where
  reads : Reads source d x
  moves : ∀ {s : State}, Ready source d s →
    Runs x s fun o s' => o.isSome = true → s.current.offset < s'.current.offset

instance (priority := low) {source : Text} {d : Nat} {α : Type} {x : Reading (Option α)}
    [hx : Finds source d x] : Reads source d x := hx.reads

instance : Asks seesTagEnd := ⟨fun _ => ⟨_, rfl⟩⟩

theorem State.atEnd_of_isPropertyName {s : State} (hk : s.current.kind.isPropertyName = true) :
    s.atEnd = false := by
  simp only [State.atEnd, decide_eq_false_iff_not]
  intro heof
  rw [heof] at hk
  cases hk

section
variable {source : Text} {d : Nat} {c : Context} [h : c.Serves source d] {s s₁ : State}
  {inChildren : Bool} {p : Position} {name : Text}

include h

theorem runs_advanceText (hs : Ready source d s) (width : Nat) :
    Runs (advanceText c width) s fun _ s' => AtText source d s' ∧ Onward s s' := by
  have hrest : (Cursor.inside c.source s.current width).rest =
      source.drop (Cursor.inside c.source s.current width).pos.offset := by rw [h.source_eq]; rfl
  have hfits := Cursor.jsxText_fits hrest
  refine ⟨⟨?_, rfl, hs.depth_eq, hs.depth_le⟩,
    Nat.le_trans (Nat.le_add_right _ _) hfits.offset_le, List.suffix_refl _, fun _ => rfl⟩
  exact ⟨hfits.rest_eq, Nat.le_of_eq hfits.stop_eq, hfits.text_ne, hfits.inside, hfits.ended, hs.deep⟩

/-- The last tag of an element leaves the reader at text exactly if the element is a child. -/
theorem runs_leaveTag (hs : Ready source d s) (width : Nat) :
    Runs (leaveTag c width inChildren) s fun _ s' => Steady source s' ∧ s'.depth = d ∧ Onward s s' ∧
      (s'.current.kind = .jsxText ↔ inChildren = true) := by
  rw [leaveTag, runs_ite]
  split
  · rename_i hchild
    refine (runs_advanceText hs width).mono ?_
    rintro _ s' ⟨hs', hon⟩
    exact ⟨hs'.toSteady, hs'.depth_eq, hon, fun _ => hchild, fun _ => hs'.kind_eq⟩
  · rename_i hchild
    simp only [runs_bind, runs_modify, runs_advance]
    have hrest : (s.reenter c.source width).cursor.rest =
        source.drop (s.reenter c.source width).cursor.pos.offset := by rw [← h.source_eq]; rfl
    have hfits := Cursor.next_fits hrest
    have hnext : Settled source (s.reenter c.source width).advance := settled_advance hrest hs.deep
    refine ⟨hnext.toSteady, by rw [State.advance_depth]; exact hs.depth_eq, ⟨?_, ?_, ?_⟩,
      fun hk => absurd hk hnext.kind_ne, fun hk => absurd hk hchild⟩
    · rw [State.advance_current]
      exact Nat.le_trans (Nat.le_add_right _ _) hfits.offset_le
    · rw [State.advance_reports]
      exact List.suffix_append _ _
    · rw [State.advance_tooDeep]
      exact fun _ => rfl

/-! ## 2. Names and attributes -/

omit h in
theorem runs_jsxNameRest {rounds : Nat} (hs : Ready source d s)
    (hrounds : source.length - s.current.offset < rounds) :
    Runs (jsxNameRest name rounds) s fun _ s' => Ready source d s' ∧ Onward s s' := by
  induction rounds generalizing name s with
  | zero => exact absurd hrounds (Nat.not_lt_zero _)
  | succ rounds ih =>
    simp only [jsxNameRest, runs_bind, runs_get, runs_ite, runs_pure, runs_take, runs_expected]
    split
    · rename_i hsep
      have hend : s.atEnd = false := by
        simp only [Bool.and_eq_true, Bool.or_eq_true] at hsep
        rcases hsep.1 with hdot | hminus
        · exact State.atEnd_of_sees hdot (by decide)
        · exact State.atEnd_of_sees hminus (by decide)
      have hon := hs.onward_advance
      have hrounds₁ := hs.advance_rounds hend (Nat.le_refl _) hrounds
      split
      · have hon₁ := hs.advance.onward_advance
        have hle := hon₁.offset_le
        refine (ih hs.advance.advance (by omega)).mono ?_
        rintro o s' ⟨hs', hon'⟩
        exact ⟨hs', hon.trans (hon₁.trans hon')⟩
      · exact ⟨hs.advance.fault _ _, hon.trans (.fault _ _ _)⟩
    · exact ⟨hs, .refl s⟩

instance : Reads source d (jsxNameRest name c.rounds) := by
  have hrounds := h.rounds_lt
  exact ⟨fun hs => runs_jsxNameRest hs (by omega)⟩

instance : Finds source d (jsxName c) where
  reads := by unfold jsxName; infer_instance
  moves {s} hs := by
    have hrounds := h.rounds_lt
    simp only [jsxName, runs_bind, runs_token, runs_ite, runs_take, runs_expected, runs_pure]
    split
    · rename_i hkind
      refine (runs_jsxNameRest hs.advance (by omega)).mono ?_
      rintro o s' ⟨_, hon⟩ _
      exact Nat.lt_of_lt_of_le (hs.lt_advance (State.atEnd_of_isPropertyName hkind)) hon.offset_le
    · exact nofun

instance : Reads source d (bracedValue c) := by unfold bracedValue; infer_instance

instance reads_spreadAttribute : Reads source d (spreadAttribute c p) := by
  unfold spreadAttribute; infer_instance

instance reads_attributeValue : Reads source d (attributeValue c p name) := by
  unfold attributeValue; infer_instance

instance : Finds source d (namedAttribute c p) where
  reads := .bind inferInstance fun o => by cases o <;> infer_instance
  moves {s} hs := by
    have hname : Finds source d (jsxName c) := inferInstance
    rw [namedAttribute, runs_bind]
    refine ((hname.reads.leads hs).and (hname.moves hs)).mono ?_
    rintro o s₁ ⟨⟨hs₁, _⟩, hlt⟩
    cases o with
    | none => exact nofun
    | some name =>
      refine (reads_attributeValue.leads hs₁).mono ?_
      rintro o s' ⟨_, hon⟩ _
      exact Nat.lt_of_lt_of_le (hlt rfl) hon.offset_le

instance finds_tagAttribute : Finds source d (tagAttribute c) where
  reads := by unfold tagAttribute; infer_instance
  moves {s} hs := by
    simp only [tagAttribute, runs_bind, runs_token, runs_accept, runs_ite, if_true,
      Bool.false_eq_true, if_false]
    split
    · rename_i hbrace
      refine (reads_spreadAttribute.leads hs.advance).mono ?_
      rintro o s' ⟨_, hon⟩ _
      have hlt := hs.lt_advance (State.atEnd_of_sees hbrace (by decide))
      exact Nat.lt_of_lt_of_le hlt hon.offset_le
    · exact Finds.moves hs

theorem runs_attributesFrom {rounds : Nat} {done : List Attribute} (hs : Ready source d s)
    (hrounds : source.length - s.current.offset < rounds) :
    Runs (attributesFrom c done rounds) s fun _ s' => Ready source d s' ∧ Onward s s' := by
  induction rounds generalizing done s with
  | zero => exact absurd hrounds (Nat.not_lt_zero _)
  | succ rounds ih =>
    simp only [attributesFrom, runs_bind, runs_atEnd, runs_ite, runs_expected, runs_pure, runs_sees]
    split
    · exact ⟨hs.fault _ _, .fault s _ _⟩
    rename_i hend
    have hoffset := hs.offset_lt (by simpa using hend)
    simp only [seesTagEnd, runs_bind, runs_token, runs_pure]
    split
    · exact ⟨hs, .refl s⟩
    refine ((finds_tagAttribute.reads.leads hs).and (finds_tagAttribute.moves hs)).mono ?_
    rintro o s₁ ⟨⟨hs₁, hon₁⟩, hlt⟩
    cases o with
    | none => exact ⟨hs₁, hon₁⟩
    | some a =>
      have hlt := hlt rfl
      refine (ih hs₁ (by omega)).mono ?_
      rintro o' s₂ ⟨hs₂, hon₂⟩
      exact ⟨hs₂, hon₁.trans hon₂⟩

instance reads_attributes : Reads source d (attributesFrom c [] c.rounds) := by
  have hrounds := h.rounds_lt
  exact ⟨fun hs => runs_attributesFrom hs (by omega)⟩

/-! ## 3. Children -/

omit h in
/-- Where a child leaves the reader: at the text after it, further on, unless there is none. -/
def ChildRead (source : Text) (d : Nat) (s : State) (o : Option Slot) (s' : State) : Prop :=
  Onward s s' ∧
    match o with
    | none => Ready source d s'
    | some _ => AtText source d s' ∧ s.current.offset < s'.current.offset

theorem runs_elementChild (hs : Ready source d s) (hend : s.atEnd = false) :
    Runs (elementChild c) s (ChildRead source d s) := by
  simp only [elementChild, runs_bind, runs_token, runs_ite, runs_pure]
  refine ((h.here d (Nat.le_refl d)).jsx hs).mono ?_
  rintro e s' ⟨hsteady, hdepth, hon, hkind, hlt⟩
  cases hbad : e.isBad with
  | true =>
    have hne : s'.current.kind ≠ .jsxText := fun hk => by simp [hkind.mp hk] at hbad
    exact ⟨hon, ⟨hsteady, hne⟩, hdepth, hs.depth_le⟩
  | false => exact ⟨hon, ⟨hsteady, hkind.mpr hbad, hdepth, hs.depth_le⟩, hlt hbad hend⟩

/-- The text after the brace of a child. -/
theorem runs_childEnd (hs₁ : Ready source d s₁) (hon : Onward s s₁)
    (hlt : s.current.offset < s₁.current.offset) {slot : Slot} :
    Runs (do
      advanceText c 1
      return some slot) s₁ (ChildRead source d s) := by
  simp only [runs_bind, runs_pure]
  refine (runs_advanceText hs₁ 1).mono ?_
  rintro _ s₂ ⟨hs₂, hon₂⟩
  exact ⟨hon.trans hon₂, hs₂, Nat.lt_of_lt_of_le hlt hon₂.offset_le⟩

theorem runs_bracedChild (hs : Ready source d s) (hend : s.atEnd = false) :
    Runs (bracedChild c) s (ChildRead source d s) := by
  have hvalue : Reads source d (bracketed c.inner.assignment) := inferInstance
  have hon := hs.onward_advance
  have hlt := hs.lt_advance hend
  rw [bracedChild, runs_bind, runs_take, runs_bind, runs_token, runs_ite]
  split
  · exact runs_childEnd hs.advance hon hlt
  · rw [runs_bind]
    refine (hvalue.leads hs.advance).mono ?_
    rintro e s₂ ⟨hs₂, hon₂⟩
    rw [runs_bind, runs_token, runs_ite]
    split
    · exact runs_childEnd hs₂ (hon.trans hon₂) (Nat.lt_of_lt_of_le hlt hon₂.offset_le)
    · simp only [runs_bind, runs_expected, runs_pure]
      exact ⟨(hon.trans hon₂).trans (.fault _ _ _), hs₂.fault _ _⟩

/-- **Every slot is a step forward**: the tag or the brace with which it starts is left behind. -/
theorem runs_slotsFrom {rounds : Nat} {done : List Slot} (hs : AtText source d s)
    (hrounds : source.length - s.current.offset < rounds) :
    Runs (slotsFrom c done rounds) s fun _ s' => Ready source d s' ∧ Onward s s' := by
  induction rounds generalizing done s with
  | zero => exact absurd hrounds (Nat.not_lt_zero _)
  | succ rounds ih =>
    have hs₁ : Ready source d s.advance :=
      ⟨hs.toSteady.advance, by rw [State.advance_depth]; exact hs.depth_eq, hs.depth_le⟩
    have hon₁ := hs.onward_advance
    have hle₁ := hon₁.offset_le
    -- what follows after a child
    have hrest {x : Reading (Option Slot)} (hend : s.advance.atEnd = false)
        (hx : Runs x s.advance (ChildRead source d s.advance)) :
        Runs (x >>= slotsOn c (textSlot s.current ++ done) rounds) s.advance
          fun _ s' => Ready source d s' ∧ Onward s s' := by
      have hoffset := hs₁.offset_lt hend
      rw [runs_bind]
      refine hx.mono ?_
      rintro o s₂ ⟨hon₂, ho⟩
      cases o with
      | none => exact ⟨ho, hon₁.trans hon₂⟩
      | some slot =>
        obtain ⟨hs₂, hlt⟩ := ho
        refine (ih hs₂ (by omega)).mono ?_
        rintro o' s₃ ⟨hs₃, hon₃⟩
        exact ⟨hs₃, hon₁.trans (hon₂.trans hon₃)⟩
    simp only [slotsFrom, runs_bind, runs_take, runs_token]
    split
    · exact ⟨hs₁, hon₁⟩
    · rename_i hkind
      have hend : s.advance.atEnd = false := by rw [State.atEnd, hkind]; rfl
      exact hrest hend (runs_elementChild hs₁ hend)
    · rename_i hkind
      have hend : s.advance.atEnd = false := by rw [State.atEnd, hkind]; rfl
      exact hrest hend (runs_bracedChild hs₁ hend)
    · simp only [runs_bind, runs_expected, runs_pure]
      exact ⟨hs₁.fault _ _, hon₁.trans (.fault _ _ _)⟩

instance reads_slots : Reads source d (slots c) where
  leads hs := by
    have hrounds := h.rounds_lt
    rw [slots, runs_bind]
    refine (runs_advanceText hs 1).mono ?_
    rintro _ s₁ ⟨hs₁, hon₁⟩
    refine (runs_slotsFrom hs₁ (by omega)).mono ?_
    rintro o s₂ ⟨hs₂, hon₂⟩
    exact ⟨hs₂, hon₁.trans hon₂⟩

/-! ## 4. Elements and fragments -/

omit h in
/-- Where an element leaves the reader: at text exactly if it is a child and not bad. -/
structure ElementRead (source : Text) (d : Nat) (inChildren : Bool) (s : State) (e : Expr)
    (s' : State) : Prop where
  steady : Steady source s'
  depth : s'.depth = d
  onward : Onward s s'
  atText : s'.current.kind = .jsxText ↔ inChildren = true ∧ e.isBad = false

omit h in
theorem ElementRead.bad {s' : State} (hs' : Ready source d s') (hon : Onward s s') :
    ElementRead source d inChildren s (.bad p) s' :=
  ⟨hs'.toSteady, hs'.depth_eq, hon, fun hk => absurd hk hs'.kind_ne,
    fun hgood => absurd hgood.2.symm Bool.false_ne_true⟩

omit h in
/-- A routine and what follows it, up to the end of an element. -/
theorem runs_toElement {α : Type} {x : Reading α} [hx : Reads source d x] {f : α → Reading Expr}
    (hs₁ : Ready source d s₁) (hon : Onward s s₁)
    (hf : ∀ a s₂, Ready source d s₂ → Onward s s₂ →
      Runs (f a) s₂ (ElementRead source d inChildren s)) :
    Runs (x >>= f) s₁ (ElementRead source d inChildren s) := by
  rw [runs_bind]
  exact (hx.leads hs₁).mono fun a s₂ hout => hf a s₂ hout.1 (hon.trans hout.2)

/-- The last tag of an element that is not bad. -/
theorem runs_elementEnd {width : Nat} {e : Expr} (hbad : e.isBad = false)
    (hs₁ : Ready source d s₁) (hon : Onward s s₁) :
    Runs (do
      leaveTag c width inChildren
      return e) s₁ (ElementRead source d inChildren s) := by
  simp only [runs_bind, runs_pure]
  refine (runs_leaveTag hs₁ width).mono ?_
  rintro _ s₂ ⟨hsteady, hdepth, hon₂, hkind⟩
  exact ⟨hsteady, hdepth, hon.trans hon₂, by simp [hkind, hbad]⟩

theorem runs_fragment (hs₁ : Ready source d s₁) (hon : Onward s s₁) :
    Runs (fragment c inChildren p) s₁ (ElementRead source d inChildren s) := by
  refine runs_toElement hs₁ hon fun o s₂ hs₂ hon => ?_
  cases o with
  | none => exact .bad hs₂ hon
  | some ss =>
    refine runs_toElement hs₂ hon fun _ s₃ hs₃ hon => runs_toElement hs₃ hon fun _ s₄ hs₄ hon => ?_
    split
    · exact runs_elementEnd rfl hs₄ hon
    · exact runs_toElement hs₄ hon fun _ _ => .bad

instance : Reads source d (closingTag c name) :=
  .bind inferInstance fun _ => .bind inferInstance fun _ => .bind inferInstance fun o => by
    cases o <;> infer_instance

theorem runs_elementRest {attributes : List Attribute} (hs₁ : Ready source d s₁)
    (hon : Onward s s₁) :
    Runs (elementRest c inChildren p name attributes) s₁ (ElementRead source d inChildren s) := by
  refine runs_toElement hs₁ hon fun _ s₂ hs₂ hon => ?_
  split
  · exact runs_elementEnd rfl hs₂ hon
  refine runs_toElement hs₂ hon fun o s₃ hs₃ hon => ?_
  cases o with
  | none => exact .bad hs₃ hon
  | some ss =>
    refine runs_toElement hs₃ hon fun _ s₄ hs₄ hon => ?_
    split
    · exact runs_elementEnd rfl hs₄ hon
    · exact .bad hs₄ hon

theorem runs_element (hs₁ : Ready source d s₁) (hon : Onward s s₁) :
    Runs (element c inChildren p) s₁ (ElementRead source d inChildren s) := by
  refine runs_toElement hs₁ hon fun o s₂ hs₂ hon => ?_
  cases o with
  | none => exact .bad hs₂ hon
  | some name =>
    refine runs_toElement hs₂ hon fun o s₃ hs₃ hon => ?_
    cases o with
    | none => exact .bad hs₃ hon
    | some attributes => exact runs_elementRest hs₃ hon

end

section
variable {source : Text} {d : Nat} {c : Context} [c.Serves source (d + 1)]

/-- **Elements and fragments** take their `<`, unless they are too deep. -/
theorem runs_jsx {inChildren : Bool} {s : State} (hs : Ready source d s) :
    Runs (jsx c inChildren) s fun e s' => ElementRead source d inChildren s e s' ∧ Moved s s' ∧
      (e.isBad = false → s.atEnd = false → s.current.offset < s'.current.offset) := by
  obtain ⟨hsettled, hon, hready, hnew⟩ := hs.deepened
  have hcurrent := s.deepened_current
  rw [jsx, runs_nested]
  split
  · -- the element is given up
    rename_i hdeep
    have hgone : Ready source d { s.deepened with depth := s.depth } :=
      ⟨hsettled.setDepth _, hs.depth_eq, hs.depth_le⟩
    exact ⟨.bad hgone (hon.setDepth _),
      fun _ hfalse hreports => absurd hreports (hnew hdeep hfalse),
      fun hgood => absurd hgood.symm Bool.false_ne_true⟩
  · rename_i hdeep
    have hs₁ := hready (by simpa using hdeep)
    have hlt : s.atEnd = false → s.current.offset < s.deepened.advance.current.offset := by
      intro hend
      have := hs₁.lt_advance (by rw [State.atEnd, hcurrent]; exact hend)
      rwa [hcurrent] at this
    have hon₂ := hon.trans hs₁.onward_advance
    -- both kinds end as `ElementRead` says, one level deeper
    have hend {x : Reading Expr} (hx : Runs x s.deepened.advance
        (ElementRead source (d + 1) inChildren s.deepened.advance)) :
        Runs x s.deepened.advance fun e s' =>
          ElementRead source d inChildren s e { s' with depth := s.depth } ∧
            Moved s { s' with depth := s.depth } ∧
            (e.isBad = false → s.atEnd = false → s.current.offset < s'.current.offset) := by
      refine hx.mono fun e s' he => ?_
      have hlt' (hend : s.atEnd = false) := Nat.lt_of_lt_of_le (hlt hend) he.onward.offset_le
      exact ⟨⟨he.steady.setDepth _, hs.depth_eq, (hon₂.trans he.onward).setDepth _, he.atText⟩,
        fun hend _ _ => hlt' hend, fun _ => hlt'⟩
    simp only [markup, runs_bind, runs_take, seesTagEnd, runs_token, runs_pure, runs_ite]
    split
    · exact hend (runs_fragment hs₁.advance (.refl _))
    · exact hend (runs_element hs₁.advance (.refl _))

theorem readsChild_jsx : ReadsChild source d (jsx c true) := by
  intro s hs
  refine (runs_jsx hs).mono ?_
  rintro e s' ⟨he, _, hlt⟩
  exact ⟨he.steady, he.depth, he.onward, by simpa using he.atText, hlt⟩

instance : Strides source d (jsx c false) where
  reads := ⟨fun hs => by
    refine (runs_jsx hs).mono ?_
    rintro e s' ⟨he, _, _⟩
    have hne : s'.current.kind ≠ .jsxText := fun hk => by simpa using he.atText.mp hk
    exact ⟨⟨⟨he.steady, hne⟩, he.depth, hs.depth_le⟩, he.onward⟩⟩
  moves hs := (runs_jsx hs).mono fun _ _ hout => hout.2.1

end

end ReactiveScript.Grammar
