import ReactiveScript.Proofs.Syntax.Located

/-!
# Nodes in the order of the source

What is said of a list of nodes that was read from a stretch of the source: their offsets do not
decrease, and grow behind each identifier, they lie in the stretch, and the names among them are the
names that stand there.
-/

namespace ReactiveScript

open ReactiveScript.Preorder

/-! ## 1. Offsets and names -/

namespace Node

/-- The offset at which a node lies. -/
def offset? (n : Node) : Option Nat := n.pos?.map (·.offset)

/-- Is it the node of an identifier, which is that of a single word? -/
def isWord : Node → Bool
  | .expr .identifier _ _ => true
  | _ => false

/-- Where a node lies, and where at the earliest the next one does: a word takes a byte at least. -/
def place? (n : Node) : Option (Nat × Nat) :=
  n.offset?.map fun o => (o, if n.isWord then o + 1 else o)

theorem le_of_place? {n : Node} {a : Nat × Nat} (h : n.place? = some a) : a.1 ≤ a.2 := by
  obtain ⟨o, -, rfl⟩ := Option.map_eq_some_iff.mp h
  dsimp only
  split <;> omega

/-- The name that a node stands for: that of an identifier, unless it is reserved, or that of a
    parameter which is no pattern. -/
def name? : Node → Option Text
  | .expr .identifier _ (.text name) => if (Keyword.ofText? name).isSome then none else some name
  | .param _ name => if name.isEmpty then none else some name
  | _ => none

/-- Are the names of such a node those of its tokens? -/
def isPlain (n : Node) : Bool := !n.isBad && !n.hidesNames

end Node

/-- The names among the nodes, in order. -/
def namesOf (ns : List Node) : List Text := ns.filterMap Node.name?

/-- All nodes are plain. -/
def AllPlain (ns : List Node) : Prop := ∀ n ∈ ns, n.isPlain = true

@[simp] theorem namesOf_append (ns ms : List Node) :
    namesOf (ns ++ ms) = namesOf ns ++ namesOf ms := List.filterMap_append

theorem allPlain_append {ns ms : List Node} : AllPlain (ns ++ ms) ↔ AllPlain ns ∧ AllPlain ms :=
  List.forall_mem_append

/-- The offsets of the nodes, in order. -/
def offsetsOf (ns : List Node) : List Nat := ns.filterMap Node.offset?

/-- The places of the nodes, in order. -/
def placesOf (ns : List Node) : List (Nat × Nat) := ns.filterMap Node.place?

@[simp] theorem placesOf_append (ns ms : List Node) :
    placesOf (ns ++ ms) = placesOf ns ++ placesOf ms := List.filterMap_append

theorem Node.place?_eq {n : Node} {o : Nat} (hn : n.offset? = some o) (hword : n.isWord = false) :
    n.place? = some (o, o) := by
  simp [place?, hn, hword]

/-- The nodes lie between two offsets in order. What follows a name lies behind it. -/
structure InOrder (lo hi : Nat) (ns : List Node) : Prop where
  le : lo ≤ hi
  before : (placesOf ns).Pairwise fun a b => a.2 ≤ b.1
  lo_le : ∀ a ∈ placesOf ns, lo ≤ a.1
  le_hi : ∀ a ∈ placesOf ns, a.2 ≤ hi

namespace InOrder
variable {lo mid hi : Nat} {ns ms : List Node}

theorem nil (h : lo ≤ hi) : InOrder lo hi [] :=
  ⟨h, .nil, fun _ ha => (by cases ha), fun _ ha => (by cases ha)⟩

theorem append (hns : InOrder lo mid ns) (hms : InOrder mid hi ms) : InOrder lo hi (ns ++ ms) where
  le := Nat.le_trans hns.le hms.le
  before := by
    rw [placesOf_append, List.pairwise_append]
    exact ⟨hns.before, hms.before, fun a ha b hb => Nat.le_trans (hns.le_hi a ha) (hms.lo_le b hb)⟩
  lo_le a ha := by
    rw [placesOf_append, List.mem_append] at ha
    rcases ha with ha | ha
    · exact hns.lo_le a ha
    · exact Nat.le_trans hns.le (hms.lo_le a ha)
  le_hi a ha := by
    rw [placesOf_append, List.mem_append] at ha
    rcases ha with ha | ha
    · exact Nat.le_trans (hns.le_hi a ha) hms.le
    · exact hms.le_hi a ha

theorem mono {lo' hi' : Nat} (h : InOrder lo hi ns) (hlo : lo' ≤ lo) (hhi : hi ≤ hi') :
    InOrder lo' hi' ns :=
  ⟨Nat.le_trans hlo (Nat.le_trans h.le hhi), h.before, fun a ha => Nat.le_trans hlo (h.lo_le a ha),
    fun a ha => Nat.le_trans (h.le_hi a ha) hhi⟩

/-- What is left when nodes are dropped, or exchanged for others at the same places. -/
theorem sublist (h : InOrder lo hi ns) (hms : (placesOf ms).Sublist (placesOf ns)) :
    InOrder lo hi ms :=
  ⟨h.le, h.before.sublist hms, fun a ha => h.lo_le a (hms.subset ha),
    fun a ha => h.le_hi a (hms.subset ha)⟩

theorem singleton {n : Node} {o : Nat} (hn : n.offset? = some o) (hword : n.isWord = false) :
    InOrder o o [n] := by
  have hplaces : placesOf [n] = [(o, o)] := by simp [placesOf, Node.place?_eq hn hword]
  refine ⟨Nat.le_refl o, ?_, ?_, ?_⟩ <;> rw [hplaces] <;> simp

/-- A name takes a byte at least. -/
theorem word {n : Node} {o : Nat} (hn : n.offset? = some o) (hlt : o < hi) : InOrder o hi [n] := by
  obtain ⟨k, hk, hplaces⟩ : ∃ k, k ≤ hi ∧ placesOf [n] = [(o, k)] := by
    refine ⟨if n.isWord then o + 1 else o, by split <;> omega, ?_⟩
    simp [placesOf, Node.place?, hn]
  refine ⟨Nat.le_of_lt hlt, ?_, ?_, ?_⟩ <;> rw [hplaces] <;> simp [hk]

/-- One more node where the next one lies. -/
theorem insert {n : Node} {o k : Nat} {ps : List (Nat × Nat)} (hn : n.offset? = some o)
    (hword : n.isWord = false) (hms : placesOf ms = (o, k) :: ps) (hle : o ≤ k)
    (h : InOrder lo hi (ns ++ ms)) : InOrder lo hi (ns ++ n :: ms) := by
  have hfirst : placesOf (n :: ms) = (o, o) :: placesOf ms := by
    simp [placesOf, Node.place?_eq hn hword]
  have hmem : (o, k) ∈ placesOf (ns ++ ms) := by simp [hms]
  have hstart := h.lo_le _ hmem
  have hend := h.le_hi _ hmem
  have hbefore := h.before
  rw [placesOf_append, List.pairwise_append] at hbefore
  obtain ⟨hleft, hright, hcross⟩ := hbefore
  have hfollow : ∀ b ∈ placesOf ms, o ≤ b.1 := by
    rw [hms] at hright ⊢
    exact List.forall_mem_cons.mpr
      ⟨Nat.le_refl o, fun b hb => Nat.le_trans hle ((List.pairwise_cons.mp hright).1 b hb)⟩
  have hcases {a : Nat × Nat} (ha : a ∈ placesOf (ns ++ n :: ms)) :
      a = (o, o) ∨ a ∈ placesOf (ns ++ ms) := by
    rwa [placesOf_append, hfirst, List.mem_append, List.mem_cons, or_left_comm, ← List.mem_append,
      ← placesOf_append] at ha
  refine ⟨h.le, ?_, fun a ha => ?_, fun a ha => ?_⟩
  · rw [placesOf_append, List.pairwise_append, hfirst]
    refine ⟨hleft, List.pairwise_cons.mpr ⟨hfollow, hright⟩, fun a ha => List.forall_mem_cons.mpr ?_⟩
    exact ⟨hcross a ha (o, k) (by simp [hms]), hcross a ha⟩
  · rcases hcases ha with rfl | ha
    · exact hstart
    · exact h.lo_le a ha
  · rcases hcases ha with rfl | ha
    · exact Nat.le_trans hle hend
    · exact h.le_hi a ha

/-- The offsets of nodes in order do not decrease. -/
theorem sorted (h : InOrder lo hi ns) : (offsetsOf ns).Pairwise (· ≤ ·) := by
  have hoffsets : offsetsOf ns = (placesOf ns).map Prod.fst := by
    simp [offsetsOf, placesOf, List.map_filterMap, Node.place?, Function.comp_def]
  have hle : ∀ a ∈ placesOf ns, a.1 ≤ a.2 := by
    intro a ha
    obtain ⟨n, -, hn⟩ := List.mem_filterMap.mp ha
    exact Node.le_of_place? hn
  rw [hoffsets, List.pairwise_map]
  exact h.before.imp_of_mem fun ha _ hab => Nat.le_trans (hle _ ha) hab

end InOrder

/-- The first place of an expression is that of its position. -/
theorem placesOf_expr (e : Expr) :
    ∃ k ps, e.pos.offset ≤ k ∧ placesOf (expr e) = (e.pos.offset, k) :: ps := by
  obtain ⟨n, hn, hpos⟩ := Option.bind_eq_some_iff.mp (expr_head e)
  cases hnodes : expr e with
  | nil =>
    rw [hnodes] at hn
    cases hn
  | cons m ms =>
    rw [hnodes] at hn
    cases hn
    refine ⟨if n.isWord then e.pos.offset + 1 else e.pos.offset, placesOf ms, ?_, ?_⟩
    · split <;> omega
    · simp [placesOf, Node.place?, Node.offset?, hpos]

/-! ## 2. Children -/

namespace Children

/-- The node of a slot lies in it. -/
def HoldsNode (s : Slot) : Prop :=
  ∀ span e, s = .node span e → InOrder span.start span.stop (expr e)

/-- The slots lie between two offsets, one after the other, each with its node in it. -/
abbrev SlotsIn : Nat → Nat → List Slot → Prop := SpansIn Slot.span HoldsNode

/-- The pieces lie between two offsets, one after the other, each with its node in it. -/
abbrev EntriesIn : Nat → Nat → List Entry → Prop :=
  SpansIn Entry.span fun e => InOrder e.span.start e.span.stop (expr? e.node)

section
variable {source : Text} {lo : Nat}

/-- The text node at an offset of the source. -/
theorem inOrder_jsxText (source : Text) (o : Nat) (ho : o ≤ source.length) (value : Text) :
    InOrder o o (expr (.jsxText ((LineMap.ofText source).position o) value)) := by
  refine InOrder.singleton ?_ rfl
  have hoffset : ((LineMap.ofText source).position o).offset = o := by
    rw [LineMap.position_eq_advance ho, Position.advance_offset, List.length_take,
      Nat.min_eq_left ho]
    exact Nat.zero_add o
  simp [Node.offset?, Node.pos?, hoffset]

/-- The piece that a slot leaves lies in the slot. -/
theorem inOrder_piece {s : Slot} {e : Entry} (hs : HoldsNode s) (hle : s.span.start ≤ s.span.stop)
    (hstop : s.span.stop ≤ source.length)
    (he : piece? (LineMap.ofText source) source s = some e) :
    InOrder e.span.start e.span.stop (expr? e.node) ∧
      s.span.start ≤ e.span.start ∧ e.span.stop ≤ s.span.stop := by
  cases s with
  | text span =>
    obtain ⟨⟨first, last⟩, hbounds, rfl⟩ := Option.map_eq_some_iff.mp he
    obtain ⟨hfirst, hlast⟩ := trimBounds_le hbounds
    dsimp only [Slot.span] at hle hstop ⊢
    have hlength : (span.slice source).length ≤ span.stop - span.start := by
      rw [Span.slice, List.length_take, Span.size, if_pos hle]
      exact Nat.min_le_left _ _
    have hnode := inOrder_jsxText source (span.start + first) (by omega)
      (Entity.decode ((Span.mk (span.start + first) (span.start + last)).slice source))
    exact ⟨hnode.mono (Nat.le_refl _) (by omega), Nat.le_add_right _ _, by omega⟩
  | node span e' =>
    cases he
    exact ⟨hs span e' rfl, Nat.le_refl _, Nat.le_refl _⟩
  | comment span =>
    cases he
    exact ⟨.nil hle, Nat.le_refl _, Nat.le_refl _⟩

theorem entriesIn {hi : Nat} {ss : List Slot} (hss : SlotsIn lo hi ss) (hhi : hi ≤ source.length) :
    EntriesIn lo hi (entries (LineMap.ofText source) source ss) := by
  induction ss generalizing lo with
  | nil => exact hss
  | cons s ss ih =>
    obtain ⟨hlo, hle, hs, hrest⟩ := hss
    have hothers := ih hrest
    unfold entries at hothers ⊢
    cases hpiece : piece? (LineMap.ofText source) source s with
    | none =>
      rw [List.filterMap_cons_none hpiece]
      exact hothers.mono (Nat.le_trans hlo hle) (Nat.le_refl _)
    | some e =>
      rw [List.filterMap_cons_some hpiece]
      obtain ⟨he, hstart, hstop⟩ := inOrder_piece hs hle (Nat.le_trans hrest.le hhi) hpiece
      exact ⟨Nat.le_trans hlo hstart, he.le, he, hothers.mono hstop (Nat.le_refl _)⟩

/-- Joining texts drops the position of the second one. -/
theorem placesOf_push (children : List Expr) (node : Expr) :
    (placesOf (exprs (push children node).reverse)).Sublist
      (placesOf (exprs (node :: children).reverse)) := by
  unfold push
  split
  · rename_i p v q u rest
    simp only [exprs_eq_flatMap, List.reverse_cons, List.flatMap_append,
      List.append_assoc, placesOf_append]
    refine List.Sublist.append (List.Sublist.refl _) ?_
    simp [placesOf, expr, Node.place?, Node.offset?, Node.pos?, Node.isWord]
  · exact List.Sublist.refl _

theorem placesOf_foldl_push (children nodes : List Expr) :
    (placesOf (exprs (nodes.foldl push children).reverse)).Sublist
      (placesOf (exprs (children.reverse ++ nodes))) := by
  induction nodes generalizing children with
  | nil => simp
  | cons node nodes ih =>
    refine (ih (push children node)).trans ?_
    have hone := placesOf_push children node
    simp only [exprs_eq_flatMap, List.flatMap_append, placesOf_append, List.reverse_cons,
      List.flatMap_cons, List.flatMap_nil, List.append_nil, ← List.append_assoc] at hone ⊢
    exact hone.append (List.Sublist.refl _)

/-- What a gap and a piece leave lies between the piece before and the end of the piece. -/
theorem inOrder_nodes (source : Text) {before : Option Entry} {e : Entry}
    (hbefore : ∀ b ∈ before, lo = b.span.stop) (hlo : lo ≤ e.span.start)
    (he : InOrder e.span.start e.span.stop (expr? e.node)) (hlength : lo ≤ source.length) :
    InOrder lo e.span.stop (exprs
      ((blank? (LineMap.ofText source) source before e).toList ++ e.node.toList)) := by
  have hnode : InOrder e.span.start e.span.stop (exprs e.node.toList) := by
    rw [exprs_eq_flatMap, ← expr?_eq_flatMap]
    exact he
  rw [exprs_eq_flatMap, List.flatMap_append, ← exprs_eq_flatMap,
    ← exprs_eq_flatMap]
  refine InOrder.append ?_ hnode
  cases before with
  | none => exact .nil hlo
  | some b =>
    have hstop := hbefore b rfl
    rw [blank?]
    dsimp only
    split
    · have htext := inOrder_jsxText source lo hlength [Byte.space]
      rw [hstop] at htext ⊢
      have htext' := htext.mono (Nat.le_refl _) (hstop ▸ hlo)
      simpa [exprs] using htext'
    · exact .nil hlo

theorem inOrder_join {mid hi : Nat} {before : Option Entry} {children : List Expr}
    {es : List Entry} (hbefore : ∀ b ∈ before, mid = b.span.stop)
    (hchildren : InOrder lo mid (exprs children.reverse)) (hes : EntriesIn mid hi es)
    (hhi : hi ≤ source.length) :
    InOrder lo hi (exprs (join (LineMap.ofText source) source before children es)) := by
  induction es generalizing before children mid with
  | nil => exact hchildren.mono (Nat.le_refl lo) hes
  | cons e es ih =>
    have hmid := Nat.le_trans (SpansIn.le hes) hhi
    obtain ⟨hstart, -, he, hrest⟩ := hes
    have hnodes := inOrder_nodes source hbefore hstart he hmid
    rw [join]
    refine ih (fun b hb => by cases hb; rfl) (InOrder.sublist ?_ (placesOf_foldl_push _ _)) hrest
    rw [exprs_eq_flatMap, List.flatMap_append, ← exprs_eq_flatMap,
      ← exprs_eq_flatMap]
    exact hchildren.append hnodes

/-- **The children that slots leave lie in order where the slots do.** -/
theorem inOrder_ofSlots {hi : Nat} {ss : List Slot} (hss : SlotsIn lo hi ss)
    (hhi : hi ≤ source.length) :
    InOrder lo hi (exprs (ofSlots (LineMap.ofText source) source ss)) :=
  inOrder_join (fun b hb => by cases hb) (.nil (Nat.le_refl lo)) (entriesIn hss hhi) hhi

end

end Children

end ReactiveScript
