import ReactiveScript.Proofs.Grammar.Cleanly
import ReactiveScript.Proofs.Grammar.Located
import ReactiveScript.Proofs.Syntax.Order
import ReactiveScript.Proofs.Token.Names

/-!
# What lies between two places of a reader

A clean run moves from one place of the source to another, and what it builds has nodes that lie
between the two, in order. If all of them are plain, the names among them are those that the run
has passed.
-/

namespace ReactiveScript.Grammar

/-! ## 1. Spots -/

/-- Where a reader stands: its token and the place after it, and whether it is on its way out. -/
structure Spot where
  current : Token
  cursor : Cursor
  tooDeep : Bool

def State.spot (s : State) : Spot := ⟨s.current, s.cursor, s.tooDeep⟩

namespace Spot

/-- The names from a spot on. -/
def names (p : Spot) : List Text := p.current.names ++ p.cursor.names

/-- A spot of the source, not on the way out. Behind its end there are no names. -/
structure Sound (source : Text) (p : Spot) : Prop where
  cursor : p.cursor.IsIn source
  current : p.current.IsIn source
  stop_le : p.current.stop ≤ p.cursor.pos.offset
  named : p.current.Named
  names_of_eof : p.current.kind = .eof → p.cursor.names = []
  tooDeep : p.tooDeep = false

end Spot

section
variable {source : Text} {s : State}

/-- The spot after the next token, wherever the cursor is. -/
theorem sound_advance (hcursor : s.cursor.IsIn source) (hdeep : s.tooDeep = false) :
    s.advance.spot.Sound source where
  cursor := by
    rw [State.spot, State.advance_cursor]
    exact hcursor.next.cursor
  current := by
    rw [State.spot, State.advance_current]
    exact hcursor.next.token
  stop_le := by
    simp only [State.spot, State.advance_current, State.advance_cursor]
    exact Nat.le_of_eq s.cursor.next_offset.2.symm
  named := by
    rw [State.spot, State.advance_current]
    exact s.cursor.next_named
  names_of_eof hend := by
    simp only [State.spot, State.advance_current, State.advance_cursor] at hend ⊢
    exact Cursor.names_after_eof hend
  tooDeep := s.advance_tooDeep.trans hdeep

/-- The spot after the text that follows the first bytes of the current token. -/
theorem sound_jsxText {n : Nat} (hs : s.spot.Sound source) (hn : s.Passes n) :
    ((s.reenter source n).accept (s.reenter source n).cursor.jsxText).spot.Sound source := by
  obtain ⟨w, rfl, hw, hline⟩ := hn
  have hinside := hs.current.inside hw hline
  refine ⟨hinside.jsxText.cursor, hinside.jsxText.token, Nat.le_of_eq ?_, nofun, nofun, hs.tooDeep⟩
  simp [State.spot, State.accept, State.reenter, Cursor.jsxText, Token.stop,
    Position.advance_offset]

theorem Spot.Sound.advance (h : s.spot.Sound source) : s.advance.spot.Sound source :=
  sound_advance h.cursor h.tooDeep

/-- The next token lies behind the current one. -/
theorem Spot.Sound.stop_le_advance (h : s.spot.Sound source) :
    s.current.stop ≤ s.advance.current.offset := by
  rw [State.advance_current]
  exact Nat.le_trans h.stop_le s.cursor.next_offset.1

theorem Spot.Sound.offset_le_advance (h : s.spot.Sound source) :
    s.current.offset ≤ s.advance.current.offset :=
  Nat.le_trans (Nat.le_add_right _ _) h.stop_le_advance

theorem State.names_advance (s : State) : s.spot.names = s.current.names ++ s.advance.spot.names := by
  rw [Spot.names, Spot.names, State.spot, State.spot, s.cursor.names_eq, State.advance_current,
    State.advance_cursor]

end

/-! ## 2. Words -/

section
variable {t : Token}

theorem Token.Named.ofText?_eq (h : t.Named) (hkind : t.kind = .identifier) :
    Keyword.ofText? t.text = none ∧ t.text ≠ [] := by
  obtain ⟨hword, hne⟩ := h (by rw [hkind]; rfl)
  refine ⟨?_, hne⟩
  rw [hkind, Kind.ofWord] at hword
  split at hword
  · cases hword
  · assumption

/-- The node of a word has its name, unless the word is reserved. -/
theorem name?_word (h : t.Named) (hkind : t.kind.isPropertyName = true) (p : Position) :
    (Node.expr .identifier p (.text t.text)).name?.toList = t.names := by
  obtain ⟨hword, _⟩ := h hkind
  unfold Token.names
  rw [hword, Kind.ofWord, Node.name?]
  cases Keyword.ofText? t.text <;> simp

/-- The node of a parameter has the name of its token. -/
theorem name?_param (h : t.Named) (hkind : t.kind = .identifier) (p : Position) :
    (Node.param p t.text).name?.toList = t.names := by
  obtain ⟨_, hne⟩ := Token.Named.ofText?_eq h hkind
  simp [Token.names, hkind, Node.name?, hne]

end

/-! ## 3. Nodes between two spots -/

/-- The nodes that were read between two spots: they lie there in order, and if they are plain,
    then their names are those that were passed. -/
structure Covers (source : Text) (p q : Spot) (ns : List Node) : Prop where
  sound : q.Sound source
  inOrder : InOrder p.current.offset q.current.offset ns
  names : AllPlain ns → p.names = namesOf ns ++ q.names

namespace Covers
variable {source : Text} {p q r : Spot} {ns ms : List Node} {n : Node} {s : State}

theorem refl (h : p.Sound source) : Covers source p p [] :=
  ⟨h, .nil (Nat.le_refl _), fun _ => rfl⟩

theorem tooDeep_eq (h : Covers source p s.spot ns) : s.tooDeep = false := h.sound.tooDeep

theorem append (h : Covers source p q ns) (h' : Covers source q r ms) :
    Covers source p r (ns ++ ms) where
  sound := h'.sound
  inOrder := h.inOrder.append h'.inOrder
  names hplain := by
    obtain ⟨hns, hms⟩ := allPlain_append.mp hplain
    rw [h.names hns, h'.names hms, namesOf_append, List.append_assoc]

/-- A node without a name at the current token. -/
theorem note (h : Covers source p q ns) (hoffset : n.offset? = some q.current.offset)
    (hname : n.name? = none) (hword : n.isWord = false) :
    Covers source p q (ns ++ [n]) where
  sound := h.sound
  inOrder := h.inOrder.append (.singleton hoffset hword)
  names hplain := by
    rw [h.names (allPlain_append.mp hplain).1, namesOf_append]
    simp [namesOf, hname]

/-- Past a token that is no name. -/
theorem skip {k : Kind} (h : Covers source p s.spot ns) (hkind : s.current.kind = k)
    (hk : k ≠ .identifier) : Covers source p s.advance.spot ns where
  sound := h.sound.advance
  inOrder := h.inOrder.mono (Nat.le_refl _) h.sound.offset_le_advance
  names hplain := by
    rw [h.names hplain, s.names_advance, Token.names_of_ne (hkind ▸ hk), List.nil_append]

/-- Past a token, with a node that stands for it where the order allows one. -/
theorem passBy (h : Covers source p s.spot ns) (hname : n.name?.toList = s.current.names)
    (hn : InOrder s.current.offset s.advance.current.offset [n]) :
    Covers source p s.advance.spot (ns ++ [n]) where
  sound := h.sound.advance
  inOrder := h.inOrder.append hn
  names hplain := by
    rw [h.names (allPlain_append.mp hplain).1, s.names_advance, namesOf_append, ← hname,
      List.append_assoc]
    cases hn : n.name? <;> simp [namesOf, hn]

/-- Past a token, with the node that stands for it. -/
theorem pass (h : Covers source p s.spot ns) (hoffset : n.offset? = some s.current.offset)
    (hname : n.name?.toList = s.current.names) (hword : n.isWord = false) :
    Covers source p s.advance.spot (ns ++ [n]) :=
  h.passBy hname ((InOrder.singleton hoffset hword).mono (Nat.le_refl _) h.sound.offset_le_advance)

/-- Past a word, with the node that has its name. -/
theorem passWord (h : Covers source p s.spot ns) (hkind : s.current.kind.isPropertyName = true) :
    Covers source p s.advance.spot
      (ns ++ [.expr .identifier s.current.pos (.text s.current.text)]) := by
  refine h.passBy (name?_word h.sound.named hkind _) (.word rfl ?_)
  have hlength : 0 < s.current.text.length := List.length_pos_iff.mpr (h.sound.named hkind).2
  have hstop := h.sound.stop_le_advance
  change s.current.offset + s.current.text.length ≤ s.advance.current.offset at hstop
  omega

/-- Past a name that belongs to the last node. -/
theorem christen {n' : Node} (h : Covers source p s.spot (ns ++ [n]))
    (hoffset : n'.offset? = n.offset?) (hname : n.name? = none) (hplain : n.isPlain = true)
    (hname' : n'.name?.toList = s.current.names) (hword : n'.isWord = n.isWord) :
    Covers source p s.advance.spot (ns ++ [n']) where
  sound := h.sound.advance
  inOrder := by
    have hplaces : placesOf (ns ++ [n']) = placesOf (ns ++ [n]) := by
      simp [placesOf, Node.place?, List.filterMap_cons, hoffset, hword]
    exact (h.inOrder.sublist (hplaces ▸ List.Sublist.refl _)).mono (Nat.le_refl _)
      h.sound.offset_le_advance
  names hall := by
    have hns : AllPlain (ns ++ [n]) :=
      allPlain_append.mpr ⟨(allPlain_append.mp hall).1, fun m hm => List.mem_singleton.mp hm ▸ hplain⟩
    rw [h.names hns, s.names_advance, ← hname']
    cases hn' : n'.name? <;> simp [namesOf, hname, hn']

/-- Another node where an expression starts that was read first. -/
theorem wrap {e : Expr} (h : Covers source p q (Preorder.expr e ++ ms)) (hpos : n.pos? = some e.pos)
    (hname : n.name? = none) (hword : n.isWord = false) :
    Covers source p q (n :: (Preorder.expr e ++ ms)) where
  sound := h.sound
  inOrder := by
    obtain ⟨k, ps, hle, hps⟩ := placesOf_expr e
    have hfirst : placesOf (Preorder.expr e ++ ms) = (e.pos.offset, k) :: (ps ++ placesOf ms) := by
      rw [placesOf_append, hps, List.cons_append]
    have hoffset : n.offset? = some e.pos.offset := by rw [Node.offset?, hpos, Option.map_some]
    have hinsert : InOrder p.current.offset q.current.offset
        ([] ++ n :: (Preorder.expr e ++ ms)) := InOrder.insert hoffset hword hfirst hle h.inOrder
    exact hinsert
  names hplain := by
    rw [h.names (List.forall_mem_cons.mp hplain).2]
    simp [namesOf, hname]

/-- Other nodes with the same names, where some of the nodes lay. -/
theorem settle (h : Covers source p q ns) (hplaces : (placesOf ms).Sublist (placesOf ns))
    (hnames : AllPlain ms → AllPlain ns ∧ namesOf ms = namesOf ns) : Covers source p q ms where
  sound := h.sound
  inOrder := h.inOrder.sublist hplaces
  names hplain := by
    obtain ⟨hns, heq⟩ := hnames hplain
    rw [h.names hns, heq]

/-- Another node in the place of one without a name. -/
theorem retag {n' : Node} (h : Covers source p q (ns ++ n :: ms)) (hoffset : n'.offset? = n.offset?)
    (hname : n.name? = none) (hname' : n'.name? = none)
    (hplain : n'.isPlain = true → n.isPlain = true) (hword : n'.isWord = n.isWord) :
    Covers source p q (ns ++ n' :: ms) := by
  refine h.settle ?_ fun hall => ⟨?_, ?_⟩
  · simp [placesOf, Node.place?, List.filterMap_cons, hoffset, hword]
  · obtain ⟨hns, hms⟩ := allPlain_append.mp hall
    obtain ⟨hn', hrest⟩ := List.forall_mem_cons.mp hms
    exact allPlain_append.mpr ⟨hns, List.forall_mem_cons.mpr ⟨hplain hn', hrest⟩⟩
  · simp [namesOf, hname, hname']

/-- Where not all nodes are plain, only the order of the nodes counts. -/
theorem leapTo (h : Covers source p q ns) (hplain : ¬ AllPlain (ns ++ ms)) (hr : r.Sound source)
    (hms : InOrder q.current.offset r.current.offset ms) : Covers source p r (ns ++ ms) where
  sound := hr
  inOrder := h.inOrder.append hms
  names hall := absurd hall hplain

theorem leap (h : Covers source p q ns) (hplain : ¬ AllPlain ns) (hr : r.Sound source)
    (hle : q.current.offset ≤ r.current.offset) : Covers source p r ns := by
  have hms : InOrder q.current.offset r.current.offset [] := .nil hle
  rw [← List.append_nil ns] at hplain ⊢
  exact h.leapTo hplain hr hms

/-- Past any token, where not all nodes are plain. -/
theorem leapOn (h : Covers source p s.spot ns) (hplain : ¬ AllPlain ns) :
    Covers source p s.advance.spot ns :=
  h.leap hplain h.sound.advance h.sound.offset_le_advance

end Covers

theorem not_allPlain_of_mem {n : Node} {ns : List Node} (hn : n ∈ ns) (h : n.isPlain = false) :
    ¬ AllPlain ns := fun hplain => by
  rw [hplain n hn] at h
  cases h

theorem not_allPlain_cons {n : Node} {ns : List Node} (h : n.isPlain = false) :
    ¬ AllPlain (n :: ns) := not_allPlain_of_mem List.mem_cons_self h

end ReactiveScript.Grammar
