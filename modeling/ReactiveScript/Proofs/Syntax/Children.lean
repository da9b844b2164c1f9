import Mathlib.Data.FinEnum
import Mathlib.Data.List.Chain
import Mathlib.Data.List.DropRight
import ReactiveScript.Proofs.Syntax.WellFormed
import ReactiveScript.Proofs.Text.Reading
import ReactiveScript.Proofs.Token.Scanning

/-!
# What the children of an element are

What stands between two tags can be read as one flow of bytes and nodes. Two lists of children have
the same flow if they have the same nodes in the same order, with the same text in every stretch
between them. The slots between two tags have a flow of their own, said without a list of children:
each text is trimmed and decoded, a node is itself, empty braces are nothing, and a blank stands for
a gap on one line between two slots that are kept.
-/

namespace ReactiveScript

/-! ## 1. Flows of bytes and nodes -/

/-- Bytes of text with nodes between them. -/
abbrev Flow := List (UInt8 ⊕ Expr)

/-- Is this a run of text between tags? -/
def Expr.isText : Expr → Bool
  | .jsxText _ _ => true
  | _ => false

theorem Expr.exists_eq_jsxText {e : Expr} (h : e.isText = true) : ∃ p v, e = .jsxText p v := by
  cases e with
  | jsxText p v => exact ⟨p, v, rfl⟩
  | _ => cases h

namespace Flow

/-- A text alone. -/
def ofText (t : Text) : Flow := t.map .inl

/-- The flow of one child. -/
def ofChild : Expr → Flow
  | .jsxText _ v => ofText v
  | e => [.inr e]

/-- The flow of some children. -/
def ofChildren (children : List Expr) : Flow := children.flatMap ofChild

theorem ofText_append (t u : Text) : ofText (t ++ u) = ofText t ++ ofText u := List.map_append

theorem ofChild_of_isText {e : Expr} (h : e.isText = false) : ofChild e = [.inr e] := by
  cases e with
  | jsxText p v => cases h
  | _ => rfl

theorem ofChildren_append (as bs : List Expr) :
    ofChildren (as ++ bs) = ofChildren as ++ ofChildren bs := List.flatMap_append

theorem ofChildren_singleton (e : Expr) : ofChildren [e] = ofChild e :=
  List.flatMap_singleton _ _

end Flow

/-! ## 2. The flow of some slots -/

/-- A text without the white space at its ends. -/
def Text.trimmed (t : Text) : Text := (t.dropWhile Byte.isBlank).rdropWhile Byte.isBlank

/-- What is kept of a slot: where it lies, and its flow. -/
structure Remnant where
  span : Span
  flow : Flow

/-- A text is kept without the white space around it, unless there is nothing else. -/
def Slot.remnant? (source : Text) : Slot → Option Remnant
  | .text s =>
    let start := s.start + ((s.slice source).takeWhile Byte.isBlank).length
    let text := Text.trimmed (s.slice source)
    if text = [] then none
    else some ⟨⟨start, start + text.length⟩, Flow.ofText (Entity.decode text)⟩
  | .node s e => some ⟨s, [.inr e]⟩
  | .comment s => some ⟨s, []⟩

namespace Flow

/-- The blank that a gap leaves: white space, at least a byte of it, and none that ends a line. -/
def ofGap (source : Text) (gap : Span) : Flow :=
  if gap.start < gap.stop ∧ (∀ b ∈ gap.slice source, Byte.isBlank b) ∧
      Byte.newline ∉ gap.slice source
  then ofText [Byte.space] else []

/-- The flows of what is kept, with the blanks of the gaps between neighbours. -/
def ofRemnants (source : Text) : List Remnant → Flow
  | [] => []
  | [k] => k.flow
  | k :: l :: ks => k.flow ++ ofGap source ⟨k.span.stop, l.span.start⟩ ++ ofRemnants source (l :: ks)

/-- The flow of some slots. -/
def ofSlots (source : Text) (ss : List Slot) : Flow :=
  ofRemnants source (ss.filterMap (·.remnant? source))

/-- The gap after what was kept last, if anything was. -/
def ofGapAfter (source : Text) (before : Option Span) (span : Span) : Flow :=
  match before with
  | none => []
  | some b => ofGap source ⟨b.stop, span.start⟩

/-- The flow of what is kept after some other piece, with the gap between. -/
def ofRemnantsAfter (source : Text) (before : Option Span) : List Remnant → Flow
  | [] => []
  | k :: ks => ofGapAfter source before k.span ++ ofRemnants source (k :: ks)

theorem ofRemnantsAfter_none (source : Text) (ks : List Remnant) :
    ofRemnantsAfter source none ks = ofRemnants source ks := by
  cases ks <;> rfl

theorem ofRemnantsAfter_cons (source : Text) (before : Option Span) (k : Remnant) (ks : List Remnant) :
    ofRemnantsAfter source before (k :: ks) =
      ofGapAfter source before k.span ++ k.flow ++ ofRemnantsAfter source (some k.span) ks := by
  cases ks with
  | nil => simp [ofRemnantsAfter, ofRemnants]
  | cons l ks => simp [ofRemnantsAfter, ofRemnants, ofGapAfter]

end Flow

/-! ## 3. Texts that are trimmed and decoded -/

namespace Text

theorem trimmed_eq_nil_iff {t : Text} : trimmed t = [] ↔ t.isBlank = true := by
  rw [trimmed, List.rdropWhile_eq_nil_iff, isBlank, List.all_eq_true]
  constructor
  · intro h b hb
    rw [← List.takeWhile_append_dropWhile (p := Byte.isBlank) (l := t)] at hb
    rcases List.mem_append.mp hb with hb | hb
    · exact List.mem_takeWhile_imp hb
    · exact h b hb
  · intro h b hb
    exact h b ((List.dropWhile_sublist _).mem hb)

/-- Blanks at the end of a text end before its blank start, if it is not blank. -/
theorem leadingBlanks_reverse {t : Text} (h : ¬t.isBlank = true) :
    Text.leadingBlanks t.reverse =
      ((t.dropWhile Byte.isBlank).rtakeWhile Byte.isBlank).length := by
  have hsplit : t.reverse =
      (t.dropWhile Byte.isBlank).reverse ++ (t.takeWhile Byte.isBlank).reverse := by
    rw [← List.reverse_append, List.takeWhile_append_dropWhile]
  have hneg : ¬((t.dropWhile Byte.isBlank).reverse.takeWhile Byte.isBlank).length =
      (t.dropWhile Byte.isBlank).reverse.length := by
    intro hlength
    have heq := (List.takeWhile_prefix _).eq_of_length hlength
    refine h (trimmed_eq_nil_iff.mp (List.rdropWhile_eq_nil_iff.mpr fun b hb => ?_))
    rw [← List.mem_reverse, ← heq] at hb
    exact List.mem_takeWhile_imp hb
  rw [leadingBlanks, hsplit, List.takeWhile_append, if_neg hneg, List.rtakeWhile,
    List.length_reverse]

/-- The bounds of a text that is trimmed are those of the text without its blank ends. -/
theorem trimBounds_eq (t : Text) :
    t.trimBounds = if trimmed t = [] then none else
      some ((t.takeWhile Byte.isBlank).length,
        (t.takeWhile Byte.isBlank).length + (trimmed t).length) := by
  unfold trimBounds
  by_cases hblank : t.isBlank = true
  · rw [if_pos hblank, if_pos (trimmed_eq_nil_iff.mpr hblank)]
  rw [if_neg hblank, if_neg (mt trimmed_eq_nil_iff.mp hblank), leadingBlanks_reverse hblank]
  have hwhole : (t.takeWhile Byte.isBlank).length + (t.dropWhile Byte.isBlank).length = t.length := by
    rw [← List.length_append, List.takeWhile_append_dropWhile]
  have hrest : (trimmed t).length + ((t.dropWhile Byte.isBlank).rtakeWhile Byte.isBlank).length =
      (t.dropWhile Byte.isBlank).length := by
    rw [trimmed, ← List.length_append, List.rdropWhile_append_rtakeWhile]
  rw [leadingBlanks]
  congr 2
  omega

theorem trimmed_eq_take (t : Text) :
    trimmed t = (t.drop (t.takeWhile Byte.isBlank).length).take (trimmed t).length := by
  rw [drop_length_takeWhile]
  exact List.prefix_iff_eq_take.mp (List.rdropWhile_prefix _ _)

end Text

/-- The trimmed part of a slice is a slice itself. -/
theorem Span.slice_trimmed (s : Span) (source : Text) :
    (⟨s.start + ((s.slice source).takeWhile Byte.isBlank).length,
      s.start + (((s.slice source).takeWhile Byte.isBlank).length +
        (Text.trimmed (s.slice source)).length)⟩ : Span).slice source =
      Text.trimmed (s.slice source) := by
  have htake := Text.trimmed_eq_take (s.slice source)
  generalize ((s.slice source).takeWhile Byte.isBlank).length = lead at htake ⊢
  generalize hwidth : (Text.trimmed (s.slice source)).length = width at htake ⊢
  have hsize : (⟨s.start + lead, s.start + (lead + width)⟩ : Span).size = width := by
    rw [Span.size, if_pos (by simp only; omega)]
    simp only
    omega
  have hle : width ≤ s.size - lead := by
    have hlength := congrArg List.length htake
    rw [hwidth, Span.slice, List.length_take, List.length_drop, List.length_take] at hlength
    omega
  rw [htake, Span.slice, Span.slice, hsize, List.drop_take, List.drop_drop, List.take_take,
    Nat.min_eq_left hle]

/-! ## 4. Children with the flow of their slots -/

namespace Flow

/-- The nodes of a flow. -/
def nodes (flow : Flow) : List Expr := flow.filterMap Sum.getRight?

theorem nodes_append (flow flow' : Flow) : nodes (flow ++ flow') = nodes flow ++ nodes flow' :=
  List.filterMap_append

theorem nodes_ofText (t : Text) : nodes (ofText t) = [] := by
  rw [nodes, List.filterMap_eq_nil_iff]
  intro x hx
  obtain ⟨b, -, rfl⟩ := List.mem_map.mp hx
  rfl

theorem nodes_ofChildren (children : List Expr) :
    nodes (ofChildren children) = children.filter (!·.isText) := by
  induction children with
  | nil => rfl
  | cons e es ih =>
    rw [ofChildren, List.flatMap_cons, nodes_append, ← ofChildren, ih]
    cases e with
    | jsxText p v => exact congrArg (· ++ _) (nodes_ofText v)
    | _ => rfl

theorem nodes_ofGap (source : Text) (gap : Span) : nodes (ofGap source gap) = [] := by
  unfold ofGap
  split
  · exact nodes_ofText _
  · rfl

theorem nodes_ofRemnants (source : Text) (ks : List Remnant) :
    nodes (ofRemnants source ks) = ks.flatMap (nodes ·.flow) := by
  induction ks with
  | nil => rfl
  | cons k ks ih =>
    cases ks with
    | nil => simp [ofRemnants]
    | cons l ks =>
      rw [ofRemnants, nodes_append, nodes_append, nodes_ofGap, ih, List.append_nil]
      rfl

/-- The flow of some slots has the nodes of the slots, and no others. -/
theorem nodes_ofSlots (source : Text) (ss : List Slot) :
    nodes (ofSlots source ss) = ss.flatMap Slot.nodes := by
  rw [ofSlots, nodes_ofRemnants]
  induction ss with
  | nil => rfl
  | cons s ss ih =>
    rw [List.flatMap_cons, ← ih]
    cases s with
    | text span =>
      by_cases hblank : Text.trimmed (span.slice source) = []
      · simp [Slot.remnant?, hblank, Slot.nodes]
      · simp [Slot.remnant?, hblank, Slot.nodes, nodes_ofText]
    | node span e => simp [Slot.remnant?, Slot.nodes, nodes]
    | comment span => simp [Slot.remnant?, Slot.nodes, nodes]

end Flow

namespace Children
variable (lines : LineMap) (source : Text) {children : List Expr}

/-- What a piece is, with its flow. -/
def Entry.remnant (e : Entry) : Remnant := ⟨e.span, Flow.ofChildren e.node.toList⟩

theorem piece?_text (s : Span) :
    piece? lines source (.text s) =
      if Text.trimmed (s.slice source) = [] then none
      else
        let start := s.start + ((s.slice source).takeWhile Byte.isBlank).length
        let text := Text.trimmed (s.slice source)
        some ⟨⟨start, start + text.length⟩,
          some (.jsxText (lines.position start) (Entity.decode text))⟩ := by
  rw [piece?, Text.trimBounds_eq]
  split
  · rfl
  · simp only [Option.map_some, Span.slice_trimmed, Nat.add_assoc]

/-- A slot is kept as the rule says. -/
theorem remnant_piece {s : Slot} (hs : ∀ e ∈ s.nodes, e.isText = false) :
    (piece? lines source s).map Entry.remnant = s.remnant? source := by
  cases s with
  | text span =>
    rw [piece?_text, Slot.remnant?]
    by_cases hblank : Text.trimmed (span.slice source) = []
    · simp [hblank]
    · simp [hblank, Entry.remnant, Flow.ofChildren, Flow.ofChild]
  | node span e =>
    have he : Flow.ofChild e = [.inr e] := Flow.ofChild_of_isText (hs e List.mem_cons_self)
    simp [piece?, Slot.remnant?, Entry.remnant, Flow.ofChildren, he]
  | comment span => rfl

theorem map_remnant_entries {ss : List Slot} (hss : ∀ s ∈ ss, ∀ e ∈ s.nodes, e.isText = false) :
    (entries lines source ss).map Entry.remnant = ss.filterMap (·.remnant? source) := by
  rw [entries, List.map_filterMap]
  exact List.filterMap_congr fun s hs => remnant_piece lines source (hss s hs)

theorem leavesBlank_iff {gap : Span} : leavesBlank source gap = true ↔
    gap.start < gap.stop ∧ (∀ b ∈ gap.slice source, Byte.isBlank b) ∧
      Byte.newline ∉ gap.slice source := by
  simp [leavesBlank, Span.isEmpty, Text.isBlank, and_assoc]

/-- The blank after a piece is that of the gap. -/
theorem ofChildren_blank (before : Option Entry) (e : Entry) :
    Flow.ofChildren (blank? lines source before e).toList =
      Flow.ofGapAfter source (before.map Entry.span) e.span := by
  cases before with
  | none => rfl
  | some b =>
    rw [blank?, Option.map_some, Flow.ofGapAfter, Flow.ofGap]
    by_cases hblank : leavesBlank source ⟨b.span.stop, e.span.start⟩ = true
    · rw [if_pos hblank, if_pos ((leavesBlank_iff source).mp hblank)]
      simp [Flow.ofChildren, Flow.ofChild]
    · rw [if_neg hblank, if_neg (mt (leavesBlank_iff source).mpr hblank)]
      rfl

/-- A child that is added comes last, also where its text joins another. -/
theorem ofChildren_push (children : List Expr) (node : Expr) :
    Flow.ofChildren (push children node).reverse =
      Flow.ofChildren children.reverse ++ Flow.ofChild node := by
  unfold push
  split
  · simp [Flow.ofChildren, Flow.ofChild, Flow.ofText_append]
  · rw [List.reverse_cons, Flow.ofChildren_append, Flow.ofChildren_singleton]

theorem ofChildren_foldl_push (nodes children : List Expr) :
    Flow.ofChildren (nodes.foldl push children).reverse =
      Flow.ofChildren children.reverse ++ Flow.ofChildren nodes := by
  induction nodes generalizing children with
  | nil => simp [Flow.ofChildren]
  | cons node nodes ih =>
    rw [List.foldl_cons, ih, ofChildren_push, List.append_assoc]
    rfl

/-- **The flow of the children that pieces leave is the flow of the pieces.** -/
theorem ofChildren_join (before : Option Entry) (children : List Expr) (es : List Entry) :
    Flow.ofChildren (join lines source before children es) =
      Flow.ofChildren children.reverse ++
        Flow.ofRemnantsAfter source (before.map Entry.span) (es.map Entry.remnant) := by
  induction es generalizing before children with
  | nil => simp [join, Flow.ofRemnantsAfter]
  | cons e es ih =>
    rw [join, ih, ofChildren_foldl_push, Flow.ofChildren_append, ofChildren_blank, List.map_cons,
      Flow.ofRemnantsAfter_cons]
    simp [Entry.remnant]

/-! ## 5. Texts that stand alone -/

/-- Two children that are not both text. -/
def Apart (e e' : Expr) : Prop := e.isText = false ∨ e'.isText = false

/-- A text that is not empty, or no text at all. -/
def Filled (e : Expr) : Prop := ∀ p v, e = .jsxText p v → v ≠ []

/-- No text is empty, and none follows another. -/
structure Tidy (children : List Expr) : Prop where
  apart : children.IsChain Apart
  filled : ∀ e ∈ children, Filled e

theorem Apart.symm {e e' : Expr} (h : Apart e e') : Apart e' e := Or.symm h

theorem tidy_nil : Tidy [] := ⟨.nil, nofun⟩

theorem Tidy.reverse (h : Tidy children) : Tidy children.reverse := by
  refine ⟨?_, fun e he => h.filled e (List.mem_reverse.mp he)⟩
  rw [List.isChain_reverse]
  exact h.apart.imp fun _ _ => Apart.symm

/-- A child keeps children tidy: a text joins the text before it. -/
theorem Tidy.push {node : Expr} (h : Tidy children) (hnode : Filled node) :
    Tidy (push children node) := by
  obtain ⟨hapart, hfilled⟩ := h
  unfold Children.push
  split
  · rename_i q v p u rest
    rw [List.forall_mem_cons] at hfilled
    refine ⟨?_, List.forall_mem_cons.mpr ⟨fun _ _ heq => ?_, hfilled.2⟩⟩
    · -- the longer text is text as the one it was
      cases hapart with
      | singleton => exact .singleton _
      | cons_cons hnext hrest => exact .cons_cons hnext hrest
    · cases heq
      exact List.append_ne_nil_of_right_ne_nil _ (hnode q v rfl)
  · rename_i hmeet
    refine ⟨?_, List.forall_mem_cons.mpr ⟨hnode, hfilled⟩⟩
    cases children with
    | nil => exact .singleton _
    | cons e rest =>
      refine .cons_cons ?_ hapart
      by_contra hboth
      rw [Apart, not_or, Bool.not_eq_false, Bool.not_eq_false] at hboth
      obtain ⟨q, v, rfl⟩ := Expr.exists_eq_jsxText hboth.1
      obtain ⟨p, u, rfl⟩ := Expr.exists_eq_jsxText hboth.2
      exact hmeet q v p u rest rfl rfl

theorem Tidy.foldl_push {nodes : List Expr} (h : Tidy children) (hnodes : ∀ e ∈ nodes, Filled e) :
    Tidy (nodes.foldl Children.push children) := by
  induction nodes generalizing children with
  | nil => exact h
  | cons node nodes ih =>
    rw [List.forall_mem_cons] at hnodes
    exact ih (h.push hnodes.1) hnodes.2

theorem filled_blank {before : Option Entry} {e : Entry} :
    ∀ node ∈ (blank? lines source before e).toList, Filled node := by
  intro node hnode p v hv
  subst hv
  cases before with
  | none => cases hnode
  | some b =>
    rw [blank?] at hnode
    dsimp only at hnode
    split at hnode
    · cases List.mem_singleton.mp hnode
      exact List.cons_ne_nil _ _
    · cases hnode

theorem tidy_join {before : Option Entry} {es : List Entry} (h : Tidy children)
    (hes : ∀ entry ∈ es, ∀ e ∈ entry.node.toList, Filled e) :
    Tidy (join lines source before children es) := by
  induction es generalizing before children with
  | nil => exact h.reverse
  | cons entry es ih =>
    rw [List.forall_mem_cons] at hes
    refine ih (h.foldl_push fun e he => ?_) hes.2
    rcases List.mem_append.mp he with he | he
    · exact filled_blank lines source e he
    · exact hes.1 e he

/-- A slot leaves no empty text. -/
theorem filled_piece {s : Slot} (hs : ∀ e ∈ s.nodes, e.isText = false) {entry : Entry}
    (h : piece? lines source s = some entry) : ∀ e ∈ entry.node.toList, Filled e := by
  intro e he p v hv
  subst hv
  cases s with
  | text span =>
    rw [piece?_text] at h
    split at h
    · cases h
    · rename_i htext
      cases h
      cases List.mem_singleton.mp he
      exact Entity.decode_ne_nil htext
  | node span node =>
    cases h
    cases List.mem_singleton.mp he
    cases hs _ List.mem_cons_self
  | comment span =>
    cases h
    cases he

/-! ## 6. The children that slots leave -/

/-- The children of an element as they should be, against the slots between its tags. -/
structure Normal (source : Text) (ss : List Slot) (children : List Expr) : Prop where
  /-- The children that are no text are the nodes in the slots, each once and in their order. -/
  nodes_eq : children.filter (!·.isText) = ss.flatMap Slot.nodes
  /-- No text is empty, and none follows another. -/
  tidy : Tidy children
  /-- Before, between and behind the nodes stands the text that the slots give. -/
  flow_eq : Flow.ofChildren children = Flow.ofSlots source ss

/-- **The children that slots leave are as they should be**, if no slot holds text as a node. -/
theorem normal_ofSlots {ss : List Slot} (hss : ∀ s ∈ ss, ∀ e ∈ s.nodes, e.isText = false) :
    Normal source ss (ofSlots lines source ss) := by
  have hflow : Flow.ofChildren (ofSlots lines source ss) = Flow.ofSlots source ss := by
    rw [ofSlots, ofChildren_join, map_remnant_entries lines source hss]
    exact Flow.ofRemnantsAfter_none source _
  refine ⟨?_, ?_, hflow⟩
  · rw [← Flow.nodes_ofChildren, hflow, Flow.nodes_ofSlots]
  · refine tidy_join lines source tidy_nil fun entry hentry => ?_
    obtain ⟨s, hs, hpiece⟩ := List.mem_filterMap.mp hentry
    exact filled_piece lines source (hss s hs) hpiece

end Children

end ReactiveScript
