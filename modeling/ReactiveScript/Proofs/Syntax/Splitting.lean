import ReactiveScript.Proofs.Syntax.Holes
import ReactiveScript.Proofs.Token.Scanning

/-!
# How a template is split

The splitter reads a text byte by byte. What it has found before a byte is described by `Found`: the
parts fill the text up to there (`Laid`), each hole at the position that belongs to its offset. If the
text is a template to the scanner of tokens, then both go over it in step (`Synced`), so that no hole
runs into the end of the body.
-/

namespace ReactiveScript

open Byte

/-! ## 1. One after the other -/

/-- Things of a kind lie between two offsets, each behind the one before. -/
def SpansIn {α : Type} (span : α → Span) (P : α → Prop) (lo hi : Nat) : List α → Prop
  | [] => lo ≤ hi
  | a :: as => lo ≤ (span a).start ∧ (span a).start ≤ (span a).stop ∧ P a ∧
    SpansIn span P (span a).stop hi as

namespace SpansIn
variable {α : Type} {span : α → Span} {P : α → Prop} {lo mid hi : Nat} {a : α} {as : List α}

theorem le (h : SpansIn span P lo hi as) : lo ≤ hi := by
  induction as generalizing lo with
  | nil => exact h
  | cons a as ih => exact Nat.le_trans h.1 (Nat.le_trans h.2.1 (ih h.2.2.2))

theorem snoc (h : SpansIn span P lo mid as) (hstart : mid ≤ (span a).start)
    (hspan : (span a).start ≤ (span a).stop) (ha : P a) (hstop : (span a).stop ≤ hi) :
    SpansIn span P lo hi (as ++ [a]) := by
  induction as generalizing lo with
  | nil => exact ⟨Nat.le_trans h hstart, hspan, ha, hstop⟩
  | cons b bs ih => exact ⟨h.1, h.2.1, h.2.2.1, ih h.2.2.2⟩

theorem mono {lo' hi' : Nat} (h : SpansIn span P lo hi as) (hlo : lo' ≤ lo) (hhi : hi ≤ hi') :
    SpansIn span P lo' hi' as := by
  induction as generalizing lo lo' with
  | nil => exact Nat.le_trans hlo (Nat.le_trans h hhi)
  | cons a as ih =>
    exact ⟨Nat.le_trans hlo h.1, h.2.1, h.2.2.1, ih h.2.2.2 (Nat.le_refl _)⟩

theorem of_mem (h : SpansIn span P lo hi as) (ha : a ∈ as) : P a ∧ (span a).stop ≤ hi := by
  induction as generalizing lo with
  | nil => cases ha
  | cons b bs ih =>
    rcases List.mem_cons.mp ha with rfl | ha
    · exact ⟨h.2.2.1, h.2.2.2.le⟩
    · exact ih h.2.2.2 ha

end SpansIn

namespace Template

variable {t rest : Text} {k : Nat}

open Nesting

/-- One byte more of a text. -/
theorem take_succ_of_drop {i : Nat} {b : UInt8} (h : t.drop i = b :: rest) :
    i < t.length ∧ t.take (i + 1) = t.take i ++ [b] := by
  have hlt : i < t.length := by
    refine Nat.lt_of_not_le fun hle => ?_
    rw [List.drop_eq_nil_iff.mpr hle] at h
    cases h
  have hget : t[i]? = some b := by
    rw [← List.head?_drop, h]
    rfl
  rw [List.take_add_one, hget]
  exact ⟨hlt, rfl⟩

theorem step_offset (p : Position) (b : UInt8) : (p.step b).offset = p.offset + 1 :=
  p.advance_offset [b]

/-! ## 2. What the splitter leaves behind -/

/-- A literal part at an offset of the text, and a hole behind it that is in its place. -/
structure Pair (t : Text) (p : Position) (k : Nat) (q : Text) (h : Hole) (rest : Text) : Prop where
  text : t.drop k = q ++ dollar :: openBrace :: (h.inner ++ rest)
  pos : h.pos = p.advance (t.take (k + q.length + 2))

/-- Literal parts and holes, the last first, fill the text from its second byte up to an offset,
    each hole with its brackets and in its place. The scanner of tokens closes the holes, too. -/
inductive Laid (t : Text) (p : Position) : Nat → List Text → List Hole → Prop
  | none : Laid t p 1 [] []
  | more {k : Nat} {q rest : Text} {quasis : List Text} {h : Hole} {holes : List Hole}
      (before : Laid t p k quasis holes) (pair : Pair t p k q h (closeBrace :: rest))
      (closes : closeFrom [.code 1] 0 (h.inner ++ closeBrace :: rest) =
        (h.inner.length + 1, true)) :
      Laid t p (k + q.length + h.inner.length + 3) (q :: quasis) (h :: holes)

/-- The last of the holes is open: it goes up to the end of the body. -/
inductive Open (t : Text) (p : Position) (stop : Nat) : List Text → List Hole → Prop
  | last {k : Nat} {q : Text} {quasis : List Text} {h : Hole} {holes : List Hole}
      (before : Laid t p k quasis holes) (pair : Pair t p k q h (t.drop stop))
      (end_eq : k + q.length + 2 + h.inner.length = stop) : Open t p stop (q :: quasis) (h :: holes)

/-- The parts of a template fill its body. In a template that is complete no hole is open. -/
inductive Divided (t : Text) (p : Position) (stop : Nat) (complete : Bool) : Parts → Prop
  | closed {k : Nat} {quasis : List Text} {holes : List Hole} (laid : Laid t p k quasis holes)
      (le : k ≤ stop) :
      Divided t p stop complete ⟨((t.take stop).drop k :: quasis).reverse, holes.reverse⟩
  | cut {quasis : List Text} {holes : List Hole} (opened : Open t p stop quasis holes)
      (incomplete : complete = false) :
      Divided t p stop complete ⟨([] :: quasis).reverse, holes.reverse⟩

/-- What the splitter has found before an offset. The bytes of a hole are known before they are
    passed over. -/
def Found (t : Text) (p : Position) (stop : Nat) (complete : Bool) (i : Nat) (part : Text)
    (quasis : List Text) (holes : List Hole) : Pending → Prop
  | .hole n => part = [] ∧ (i + n ≤ stop ∧ Laid t p (i + n) quasis holes ∨
      i + n = stop + 1 ∧ Open t p stop quasis holes ∧ complete = false)
  | .nothing | .escape => ∃ k, k ≤ i ∧ Laid t p k quasis holes ∧ part.reverse = (t.take i).drop k

/-- The scanner of tokens, at the same byte, finds the end of the template right behind its body. -/
def Synced (stop i : Nat) (t : Text) : Pending → Prop
  | .nothing => closeFrom [.body] i t = (stop + 1, true)
  | .escape => closeFrom [.body] (i + 1) (t.drop 1) = (stop + 1, true)
  | .hole n => i + n ≤ stop ∧ closeFrom [.body] (i + n) (t.drop n) = (stop + 1, true)

section
variable {t : Text} {p : Position} {stop : Nat} {complete : Bool} {i : Nat} {part : Text}
  {quasis : List Text} {holes : List Hole} {pending : Pending} {b : UInt8} {rest : Text}

/-- Outside of holes and escapes. -/
theorem Pending.plain (hhole : ∀ n, pending = .hole (n + 1) → False)
    (hescape : pending = .escape → False) : pending = .nothing ∨ pending = .hole 0 := by
  rcases pending with _ | _ | _ | n
  · exact .inl rfl
  · exact (hescape rfl).elim
  · exact .inr rfl
  · exact (hhole n rfl).elim

theorem Found.plain (h : Found t p stop complete i part quasis holes pending) (hi : i ≤ stop)
    (hplain : pending = .nothing ∨ pending = .hole 0) :
    ∃ k, k ≤ i ∧ Laid t p k quasis holes ∧ part.reverse = (t.take i).drop k := by
  rcases hplain with rfl | rfl
  · exact h
  · obtain ⟨rfl, ⟨-, hlaid⟩ | ⟨hend, -⟩⟩ := h
    · refine ⟨i, Nat.le_refl i, hlaid, ?_⟩
      rw [List.drop_eq_nil_iff.mpr (List.length_take_le i t)]
      rfl
    · omega

theorem Synced.plain (h : Synced stop i t pending)
    (hplain : pending = .nothing ∨ pending = .hole 0) :
    closeFrom [.body] i t = (stop + 1, true) := by
  rcases hplain with rfl | rfl
  · exact h
  · exact h.2

/-- At the end of the body. -/
theorem Found.divided (h : Found t p stop complete stop part quasis holes pending) :
    Divided t p stop complete ⟨(part.reverse :: quasis).reverse, holes.reverse⟩ := by
  cases pending with
  | nothing | escape =>
    obtain ⟨k, hk, hlaid, hpart⟩ := h
    rw [hpart]
    exact .closed hlaid hk
  | hole n =>
    obtain ⟨rfl, ⟨hend, hlaid⟩ | ⟨-, hopen, hcomplete⟩⟩ := h
    · obtain rfl : n = 0 := by omega
      have hlast : ([] : Text) = (t.take stop).drop stop :=
        (List.drop_eq_nil_iff.mpr (List.length_take_le stop t)).symm
      rw [List.reverse_nil, hlast]
      exact .closed hlaid (Nat.le_refl stop)
    · exact .cut hopen hcomplete

/-- A byte more in the part. -/
theorem Laid.push {k : Nat} (hk : k ≤ i) (hrest : t.drop i = b :: rest)
    (hlaid : Laid t p k quasis holes) (hpart : part.reverse = (t.take i).drop k) :
    ∃ k, k ≤ i + 1 ∧ Laid t p k quasis holes ∧ (b :: part).reverse = (t.take (i + 1)).drop k := by
  obtain ⟨hlt, htake⟩ := take_succ_of_drop hrest
  refine ⟨k, Nat.le_succ_of_le hk, hlaid, ?_⟩
  rw [htake, List.drop_append_of_le_length (by rw [List.length_take]; omega), List.reverse_cons,
    hpart]

/-- A hole more. -/
theorem Laid.hole {k : Nat} {inner : Text} {h : Hole} (hk : k ≤ i) (hi : i + 2 ≤ stop)
    (hstop : stop ≤ t.length) (hrest : t.drop i = dollar :: openBrace :: inner)
    (hlaid : Laid t p k quasis holes) (hpart : part.reverse = (t.take i).drop k)
    (hpos : h.pos = p.advance (t.take (i + 2)))
    (hinner : h.inner = inner.take (min (holeLength inner) (stop - (i + 2))))
    (hcomplete : complete = true → i + 3 + holeLength inner ≤ stop) :
    Found t p stop complete (i + 1) [] (part.reverse :: quasis) (h :: holes)
      (.hole (min (holeLength inner) (stop - (i + 2)) + 2)) := by
  have hlength : part.reverse.length = i - k := by
    rw [hpart, List.length_drop, List.length_take]
    omega
  have hbytes : t.drop (i + 2) = inner := by
    rw [← List.drop_drop, hrest]
    rfl
  have hwidth : inner.length = t.length - (i + 2) := by rw [← hbytes, List.length_drop]
  have hpos : h.pos = p.advance (t.take (k + part.reverse.length + 2)) := by
    rw [hpos, hlength, show k + (i - k) + 2 = i + 2 by omega]
  have hpair {more : Text} (hmore : inner = h.inner ++ more) : Pair t p k part.reverse h more := by
    refine ⟨?_, hpos⟩
    rw [← hmore, hpart, ← hrest, ← List.drop_append_of_le_length (by rw [List.length_take]; omega),
      List.take_append_drop]
  refine ⟨rfl, ?_⟩
  by_cases hclosed : holeLength inner < stop - (i + 2)
  · rw [Nat.min_eq_left (Nat.le_of_lt hclosed)] at hinner ⊢
    obtain ⟨hbrace, hcloses⟩ := hole_of_lt (show holeLength inner < inner.length by omega)
    have hwidth : h.inner.length = holeLength inner := by
      rw [hinner, List.length_take]
      omega
    rw [← hinner] at hbrace
    have hmore := hlaid.more (hpair hbrace) (by rw [← hbrace, hwidth, hcloses])
    rw [hlength, hwidth,
      show k + (i - k) + holeLength inner + 3 = i + 1 + (holeLength inner + 2) by omega] at hmore
    exact .inl ⟨by omega, hmore⟩
  · rw [Nat.min_eq_right (Nat.le_of_not_lt hclosed)] at hinner ⊢
    have hcut : inner = h.inner ++ t.drop stop := by
      rw [hinner, show stop = i + 2 + (stop - (i + 2)) by omega, ← List.drop_drop, hbytes,
        Nat.add_sub_cancel_left, List.take_append_drop]
    have hend : k + part.reverse.length + 2 + h.inner.length = stop := by
      rw [hlength, hinner, List.length_take]
      omega
    have hincomplete : complete = false := by
      cases complete with
      | false => rfl
      | true =>
        have := hcomplete rfl
        omega
    exact .inr ⟨by omega, .last hlaid (hpair hcut) hend, hincomplete⟩

/-! ## 3. The splitter follows the scanner of tokens -/

/-- A byte that is neither escaped nor the start of a hole. -/
theorem synced_step (h : closeFrom [.body] i (b :: rest) = (stop + 1, true)) (hi : i < stop)
    (hb : b ≠ backslash) (hhole : ¬ (b = dollar ∧ rest.head? = some openBrace)) :
    closeFrom [.body] (i + 1) rest = (stop + 1, true) := by
  rw [closeFrom.eq_def] at h
  dsimp only at h
  by_cases hend : b = backtick
  · rw [if_pos hend, if_pos List.isEmpty_nil] at h
    have hwidth : i + 1 = stop + 1 := congrArg Prod.fst h
    omega
  · rwa [if_neg hend, if_neg hb, if_neg hhole] at h

theorem synced_escape (h : closeFrom [.body] i (backslash :: rest) = (stop + 1, true)) :
    closeFrom [.body] (i + 2) (rest.drop 1) = (stop + 1, true) := by
  rw [closeFrom.eq_def] at h
  dsimp only at h
  rw [if_neg (by decide), if_pos rfl] at h
  cases rest with
  | nil => cases h
  | cons c rest => exact h

/-- A hole is closed first, and then the template around it. -/
theorem closeFrom_opening (i : Nat) (inner : Text) :
    closeFrom [.body] i (dollar :: openBrace :: inner) =
      if (closeFrom [.code 1] 0 inner).2 then
        closeFrom [.body] (i + 2 + (closeFrom [.code 1] 0 inner).1)
          (inner.drop (closeFrom [.code 1] 0 inner).1)
      else (i + 2 + (closeFrom [.code 1] 0 inner).1, false) := by
  have hopen : closeFrom [.body] i (dollar :: openBrace :: inner) =
      closeFrom ([.code 1] ++ [.body]) (i + 2) inner := by
    rw [closeFrom.eq_def]
    dsimp only
    rw [if_neg (by decide), if_neg (by decide), if_pos ⟨rfl, rfl⟩, closeFrom.eq_def]
    dsimp only
    rw [if_pos rfl]
    rfl
  rw [hopen, closeFrom_nested _ _ _ _ rfl (List.cons_ne_nil _ _), closeFrom_add _ (i + 2) 0]
  cases (closeFrom [.code 1] 0 inner).2 <;> simp

/-- A hole is closed in the body, and the template goes on behind it. -/
theorem synced_hole {inner : Text}
    (h : closeFrom [.body] i (dollar :: openBrace :: inner) = (stop + 1, true)) :
    ∃ n, closeFrom [.code 1] 0 inner = (n + 1, true) ∧ i + 3 + n ≤ stop ∧
      closeFrom [.body] (i + 3 + n) (inner.drop (n + 1)) = (stop + 1, true) := by
  rw [closeFrom_opening] at h
  have hpos := lt_closeFrom [.code 1] 0 inner rfl
  rcases hr : closeFrom [.code 1] 0 inner with ⟨m, closed⟩
  rw [hr] at h hpos
  cases closed with
  | false =>
    rw [if_neg Bool.false_ne_true] at h
    exact absurd (congrArg Prod.snd h) Bool.false_ne_true
  | true =>
    obtain ⟨n, rfl⟩ : ∃ n, m = n + 1 := ⟨m - 1, by have := hpos rfl; omega⟩
    rw [if_pos rfl, show i + 2 + (n + 1) = i + 3 + n by omega] at h
    have hlt := lt_closeFrom [.body] _ _ rfl (congrArg Prod.snd h)
    rw [h] at hlt
    exact ⟨n, rfl, Nat.le_of_lt_succ hlt, h⟩

/-- The splitter, which does not see what stands behind the token, finds the same end. -/
theorem synced_holeLength {inner more : Text}
    (h : closeFrom [.body] i (dollar :: openBrace :: (inner ++ more)) = (stop + 1, true))
    (hstop : stop ≤ i + 2 + inner.length) : i + 3 + holeLength inner ≤ stop ∧
      closeFrom [.body] (i + 3 + holeLength inner) ((inner ++ more).drop (holeLength inner + 1)) =
        (stop + 1, true) := by
  obtain ⟨n, hcode, hle, hbehind⟩ := synced_hole h
  have hn : holeLength inner = n := by
    rw [holeLength_eq, interpolationLength,
      closeFrom_of_append [.code 1] 0 (n + 1) inner more rfl hcode (by omega)]
    rfl
  rw [hn]
  exact ⟨hle, hbehind⟩

/-- A dollar sign that starts no hole to the splitter starts none to the scanner either. -/
theorem no_hole {more : Text} (h : closeFrom [.body] i (b :: (rest ++ more)) = (stop + 1, true))
    (hrest : rest ≠ [])
    (hb : ¬ (b = dollar ∧ i + 1 < stop ∧ rest.head? = some openBrace)) :
    ¬ (b = dollar ∧ (rest ++ more).head? = some openBrace) := by
  rintro ⟨rfl, hhead⟩
  obtain ⟨c, rest, rfl⟩ := List.exists_cons_of_ne_nil hrest
  cases hhead
  obtain ⟨n, -, hle, -⟩ := synced_hole h
  exact hb ⟨rfl, by omega, rfl⟩

end

/-- **The splitter divides a template**, and cuts no hole short in one that the scanner of tokens has
    found complete. -/
theorem divided_splitFrom {more : Text} {p : Position} {stop : Nat} {complete : Bool}
    (hstop : stop ≤ t.length) (hlast : complete = true → t.length = stop + 1) (pending : Pending)
    (i : Nat) (q : Position) (part : Text) (quasis : List Text) (holes : List Hole) (rest : Text)
    (hi : i ≤ stop) (hrest : t.drop i = rest) (hq : q = p.advance (t.take i))
    (hfound : Found t p stop complete i part quasis holes pending)
    (hsynced : complete = true → Synced stop i (rest ++ more) pending) :
    Divided t p stop complete (splitFrom stop pending i q part quasis holes rest) := by
  have hdrop {i : Nat} {b : UInt8} {rest : Text} (h : t.drop i = b :: rest) :
      t.drop (i + 1) = rest := by
    rw [← List.drop_drop, h]
    rfl
  have hstep {i : Nat} {q : Position} {b : UInt8} {rest : Text} (h : t.drop i = b :: rest)
      (hq : q = p.advance (t.take i)) : q.step b = p.advance (t.take (i + 1)) := by
    rw [(take_succ_of_drop h).2, Position.advance_append, hq]
    rfl
  fun_induction splitFrom stop pending i q part quasis holes rest with
  | case1 pending i q part quasis holes =>
    have hend := List.drop_eq_nil_iff.mp hrest
    obtain rfl : i = stop := by omega
    exact hfound.divided
  | case2 pending i q part quasis holes b rest hend =>
    obtain rfl : i = stop := by omega
    exact hfound.divided
  | case3 i q part quasis holes b rest hend n ih =>
    obtain ⟨hpart, hlaid⟩ := hfound
    refine ih (by omega) (hdrop hrest) (hstep hrest hq) ⟨hpart, ?_⟩ fun hcomplete => ?_
    · rwa [show i + 1 + n = i + (n + 1) by omega]
    · obtain ⟨hle, hclose⟩ := hsynced hcomplete
      rw [Synced, show i + 1 + n = i + (n + 1) by omega]
      exact ⟨hle, hclose⟩
  | case4 i q part quasis holes b rest hend ih =>
    obtain ⟨k, hk, hlaid, hpart⟩ := hfound
    exact ih (by omega) (hdrop hrest) (hstep hrest hq) (hlaid.push hk hrest hpart) hsynced
  | case5 pending i q part quasis holes rest hend hhole hescape ih =>
    have hplain := Pending.plain hhole hescape
    obtain ⟨k, hk, hlaid, hpart⟩ := hfound.plain hi hplain
    refine ih (by omega) (hdrop hrest) (hstep hrest hq) (hlaid.push hk hrest hpart) fun hcomplete => ?_
    exact synced_escape ((hsynced hcomplete).plain hplain)
  | case6 pending i q part quasis holes b rest hend hb hmark length hole hhole hescape ih =>
    obtain ⟨rfl, hlt, hbrace⟩ := hmark
    obtain ⟨inner, rfl⟩ := List.head?_eq_some_iff.mp hbrace
    have hplain := Pending.plain hhole hescape
    obtain ⟨k, hk, hlaid, hpart⟩ := hfound.plain hi hplain
    have hclosed (hcomplete : complete = true) := by
      have hlength := congrArg List.length hrest
      simp only [List.length_drop, hlast hcomplete, List.length_cons] at hlength
      exact synced_holeLength ((hsynced hcomplete).plain hplain) (by omega)
    refine ih (by omega) (hdrop hrest) (hstep hrest hq)
      (hlaid.hole hk hlt hstop hrest hpart (hstep (hdrop hrest) (hstep hrest hq)) rfl fun hcomplete =>
        (hclosed hcomplete).1) fun hcomplete => ?_
    obtain ⟨hle, hbehind⟩ := hclosed hcomplete
    have hlength : length = holeLength inner :=
      Nat.min_eq_left (show holeLength inner ≤ stop - (i + 2) by omega)
    rw [hlength, Synced, show i + 1 + (holeLength inner + 2) = i + 3 + holeLength inner by omega]
    exact ⟨hle, hbehind⟩
  | case7 pending i q part quasis holes b rest hend hb hno hhole hescape ih =>
    have hplain := Pending.plain hhole hescape
    obtain ⟨k, hk, hlaid, hpart⟩ := hfound.plain hi hplain
    refine ih (by omega) (hdrop hrest) (hstep hrest hq) (hlaid.push hk hrest hpart) fun hcomplete => ?_
    have hsync := (hsynced hcomplete).plain hplain
    have hmore : rest ≠ [] := by
      have hlength := congrArg List.length hrest
      rw [List.length_drop, hlast hcomplete, List.length_cons] at hlength
      exact List.ne_nil_of_length_pos (by omega)
    exact synced_step hsync (by omega) hb (no_hole hsync hmore hno)

theorem bodyEnd_le (t : Text) : bodyEnd t ≤ t.length := by
  unfold bodyEnd
  split <;> omega

/-- The parts of any text divide it; without a cut if the scanner of tokens has found its end. -/
theorem divided_split (p : Position) {t : Text} (ht : t ≠ []) (more : Text) (complete : Bool)
    (hcomplete : complete = true → t.length = bodyEnd t + 1 ∧
      closeFrom [.body] 1 (t.drop 1 ++ more) = (bodyEnd t + 1, true)) :
    Divided t p (bodyEnd t) complete (split p t) := by
  have hpos : 1 ≤ bodyEnd t := by
    have hlength := List.length_pos_iff.mpr ht
    unfold bodyEnd
    split <;> omega
  have hnone : ([] : Text).reverse = (t.take 1).drop 1 :=
    (List.drop_eq_nil_iff.mpr (List.length_take_le 1 t)).symm
  exact divided_splitFrom (bodyEnd_le t) (fun h => (hcomplete h).1) .nothing 1 _ [] [] [] (t.drop 1) hpos rfl
    rfl ⟨1, Nat.le_refl 1, .none, hnone⟩ fun h => (hcomplete h).2

/-! ## 4. Literal parts -/

/-- No hole starts in a text: its dollar signs before braces are escaped. -/
def isLiteral : Text → Bool
  | [] => true
  | b :: rest =>
    if b = backslash then
      match rest with
      | [] => true
      | _ :: rest => isLiteral rest
    else !(b = dollar && rest.head? = some openBrace) && isLiteral rest

theorem isLiteral_backslash (t : Text) : isLiteral (backslash :: t) = isLiteral (t.drop 1) := by
  cases t <;> rfl

theorem isLiteral_cons {b : UInt8} (hb : b ≠ backslash)
    (hhole : ¬ (b = dollar ∧ t.head? = some openBrace)) :
    isLiteral (b :: t) = isLiteral t := by
  rw [isLiteral.eq_def]
  simpa [hb] using fun _ => Decidable.not_and_iff_or_not.mp hhole

/-- What has been read of a part stays in it, and the parts before it stay. No hole starts in what is
    read after that: a brace behind a dollar sign is left for the splitter to see. -/
theorem splitFrom_quasis (stop : Nat) (pending : Pending) (i : Nat) (p : Position) (part : Text)
    (quasis : List Text) (holes : List Hole) (t : Text) :
    ∃ q more, (splitFrom stop pending i p part quasis holes t).quasis =
        quasis.reverse ++ (part.reverse ++ q) :: more ∧
      isLiteral (if pending = .escape then q.drop 1 else q) = true ∧
      (∀ r ∈ more, isLiteral r = true) ∧
      (pending = .nothing → q.head? = some openBrace →
        i < stop ∧ t.head? = some openBrace) := by
  fun_induction splitFrom stop pending i p part quasis holes t with
  | case1 pending i p part quasis holes => exact ⟨[], [], by simp, by simp [isLiteral], nofun, nofun⟩
  | case2 pending i p part quasis holes b rest hend =>
    exact ⟨[], [], by simp, by simp [isLiteral], nofun, nofun⟩
  | case3 i p part quasis holes b rest hend n ih =>
    obtain ⟨q, more, hq, hliteral, hmore, -⟩ := ih
    exact ⟨q, more, hq, hliteral, hmore, nofun⟩
  | case4 i p part quasis holes b rest hend ih =>
    obtain ⟨q, more, hq, hliteral, hmore, -⟩ := ih
    exact ⟨b :: q, more, by simp [hq], hliteral, hmore, nofun⟩
  | case5 pending i p part quasis holes rest hend hhole hescape ih =>
    obtain ⟨q, more, hq, hliteral, hmore, -⟩ := ih
    refine ⟨backslash :: q, more, by simp [hq], ?_, hmore, nofun⟩
    rw [if_neg hescape, isLiteral_backslash]
    exact hliteral
  | case6 pending i p part quasis holes b rest hend hb hmark length hole hhole hescape ih =>
    obtain ⟨q, more, hq, hliteral, hmore, -⟩ := ih
    exact ⟨[], q :: more, by simp [hq], by simp [isLiteral],
      List.forall_mem_cons.mpr ⟨hliteral, hmore⟩, nofun⟩
  | case7 pending i p part quasis holes b rest hend hb hno hhole hescape ih =>
    obtain ⟨q, more, hq, hliteral, hmore, hbrace⟩ := ih
    refine ⟨b :: q, more, by simp [hq], ?_, hmore, fun _ h => ⟨by omega, h⟩⟩
    rw [if_neg hescape, isLiteral_cons hb fun hstarts => ?_]
    · exact hliteral
    · exact hno ⟨hstarts.1, hbrace rfl hstarts.2⟩

/-- **No hole starts in a literal part.** -/
theorem isLiteral_of_mem_quasis {p : Position} {q : Text} (hq : q ∈ (split p t).quasis) :
    isLiteral q = true := by
  obtain ⟨first, more, hquasis, hfirst, hmore, -⟩ :=
    splitFrom_quasis (bodyEnd t) .nothing 1 (p.advance (t.take 1)) [] [] [] (t.drop 1)
  rw [split, hquasis] at hq
  rcases List.mem_cons.mp hq with rfl | hq
  · exact hfirst
  · exact hmore q hq

/-! ## 5. The parts of any text -/

section
variable {p : Position} {q : Text} {h : Hole} {quasis : List Text} {holes : List Hole}

theorem Pair.offset_eq (hpair : Pair t p k q h rest) :
    h.pos.offset = p.offset + (k + q.length + 2) := by
  have hlength := congrArg List.length hpair.text
  simp only [List.length_drop, List.length_append, List.length_cons] at hlength
  rw [hpair.pos, Position.advance_offset, List.length_take, Nat.min_eq_left (by omega)]

/-- A hole is in its place in a text that stands at a position. -/
def InPlace (t : Text) (p : Position) (h : Hole) : Prop :=
  ∃ k, h.pos = p.advance (t.take k) ∧ h.inner <+: t.drop k

/-- The holes lie between two offsets, one after the other, each in its place. -/
abbrev HolesIn (t : Text) (p : Position) : Nat → Nat → List Hole → Prop :=
  SpansIn Hole.span (InPlace t p)

/-- A hole more. -/
theorem Pair.holesIn (hpair : Pair t p k q h rest)
    (hholes : HolesIn t p p.offset (p.offset + k) holes.reverse) :
    HolesIn t p p.offset (p.offset + (k + q.length + 2 + h.inner.length)) (h :: holes).reverse := by
  have hoffset := hpair.offset_eq
  have hplace : h.inner <+: t.drop (k + q.length + 2) := by
    rw [← List.drop_drop, ← List.drop_drop, hpair.text, List.drop_left]
    exact List.prefix_append _ _
  rw [List.reverse_cons]
  refine hholes.snoc ?_ (Nat.le_add_right _ _) ⟨_, hpair.pos, hplace⟩ ?_ <;>
    rw [Hole.span] <;> dsimp only <;> omega

theorem Laid.length_eq (hlaid : Laid t p k quasis holes) : quasis.length = holes.length := by
  induction hlaid with
  | none => rfl
  | more _ _ _ ih => exact congrArg (· + 1) ih

theorem Laid.holesIn (hlaid : Laid t p k quasis holes) :
    HolesIn t p p.offset (p.offset + k) holes.reverse := by
  induction hlaid with
  | none => exact Nat.le_add_right _ _
  | more _ hpair _ ih => exact (hpair.holesIn ih).mono (Nat.le_refl _) (by omega)

/-- A hole at its place in a text, as the scanner of tokens passes over it: from there on it closes
    the hole right behind what is in it. -/
def Hole.IsPassed (t : Text) (p : Position) (h : Hole) : Prop :=
  ∃ k rest, h.pos = p.advance (t.take k) ∧ t.drop k = h.inner ++ closeBrace :: rest ∧
    closeFrom [.code 1] 0 (t.drop k) = (h.inner.length + 1, true)

theorem Laid.isPassed (hlaid : Laid t p k quasis holes) : ∀ h ∈ holes, h.IsPassed t p := by
  induction hlaid with
  | none => nofun
  | @more k q rest _ h _ _ pair closes ih =>
    have hplace : t.drop (k + q.length + 2) = h.inner ++ closeBrace :: rest := by
      rw [← List.drop_drop, ← List.drop_drop, pair.text, List.drop_left]
      rfl
    exact List.forall_mem_cons.mpr ⟨⟨_, _, pair.pos, hplace, hplace ▸ closes⟩, ih⟩

end

/-- **The parts of any text**: there is one more of the literal parts, and the holes lie in the body
    one after the other, each in its place. -/
theorem parts_split (p : Position) (t : Text) :
    (split p t).quasis.length = (split p t).holes.length + 1 ∧
      HolesIn t p p.offset (p.offset + bodyEnd t) (split p t).holes := by
  by_cases ht : t = []
  · subst ht
    exact ⟨rfl, Nat.le_add_right _ _⟩
  · have hdivided := divided_split p ht [] false nofun
    generalize split p t = r at hdivided ⊢
    cases hdivided with
    | closed laid le =>
      exact ⟨by simp [laid.length_eq], laid.holesIn.mono (Nat.le_refl _) (by omega)⟩
    | cut opened _ =>
      obtain ⟨before, hpair, hend⟩ := opened
      exact ⟨by simp [before.length_eq], hend ▸ hpair.holesIn before.holesIn⟩

end Template

end ReactiveScript
