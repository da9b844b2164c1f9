import ReactiveScript.Proofs.Syntax.Alike
import ReactiveScript.Proofs.Token.Locality

/-!
# Templates and their parts

The literal parts and holes of a template token, put together again with the brackets of the holes,
are the token. Of a text that is no complete template, or no template at all, the parts still lie in
the text one after the other; only the last hole may lack its brace.
-/

namespace ReactiveScript.Template

variable {t rest : Text} {k : Nat}

open Nesting

/-! ## 1. The parts in the text -/

/-- Members of two lists by turns. -/
def alternate {α : Type} : List α → List α → List α
  | a :: as, b :: bs => a :: b :: alternate as bs
  | as, [] => as
  | [], bs => bs

theorem alternate_append {α : Type} {as bs : List α} (h : as.length = bs.length)
    (as' bs' : List α) :
    alternate (as ++ as') (bs ++ bs') = alternate as bs ++ alternate as' bs' := by
  induction as generalizing bs with
  | nil =>
    obtain rfl := List.length_eq_zero_iff.mp h.symm
    rfl
  | cons a as ih =>
    cases bs with
    | nil => cases h
    | cons b bs =>
      have hrest := ih (Nat.succ.inj h)
      simp only [List.cons_append, alternate, hrest]

/-- Literal parts with the insides of holes between them, each in its brackets. -/
def weave : List Text → List Text → Text
  | q :: quasis, s :: inners => q ++ txt "$\x7b" ++ s ++ txt "\x7d" ++ weave quasis inners
  | quasis, _ => quasis.flatten

theorem weave_append {quasis inners : List Text} (h : quasis.length = inners.length)
    (quasis' inners' : List Text) :
    weave (quasis ++ quasis') (inners ++ inners') = weave quasis inners ++ weave quasis' inners' := by
  induction quasis generalizing inners with
  | nil =>
    obtain rfl := List.length_eq_zero_iff.mp h.symm
    rfl
  | cons q quasis ih =>
    cases inners with
    | nil => cases h
    | cons s inners =>
      have hrest := ih (Nat.succ.inj h)
      simp only [List.cons_append, weave, hrest, List.append_assoc]

/-- The spans of the literal parts and of the holes of a template. -/
structure Spans (t : Text) (base limit : Nat) (quasis : List Text) (holes : List Hole)
    (as bs : List Span) : Prop where
  /-- The holes are where they say. -/
  places : holes.map Hole.span = bs.map (Span.shifted base)
  /-- In the spans stand the parts, by turns. -/
  texts : (alternate as bs).map (·.slice t) = alternate quasis (holes.map (·.inner))
  /-- No span is turned around or goes over the end. -/
  inRange : ∀ s ∈ alternate as bs, s.start ≤ s.stop ∧ s.stop ≤ limit
  /-- The spans follow each other without overlap. -/
  ordered : (alternate as bs).Pairwise fun a b => a.stop ≤ b.start

theorem slice_eq {w : Text} (h : t.drop k = w ++ rest) :
    (Span.mk k (k + w.length)).slice t = w := by
  rw [Span.slice, Span.size, if_pos (Nat.le_add_right _ _), Nat.add_sub_cancel_left, h,
    List.take_left]

theorem drop_of_drop {w : Text} (h : t.drop k = w ++ rest) : t.drop (k + w.length) = rest := by
  rw [← List.drop_drop, h, List.drop_left]

/-- A literal part and a hole behind it. -/
theorem Pair.spans {p : Position} {q : Text} {h : Hole} (hpair : Pair t p k q h rest) :
    Spans t p.offset (k + q.length + 2 + h.inner.length) [q] [h] [⟨k, k + q.length⟩]
      [⟨k + q.length + 2, k + q.length + 2 + h.inner.length⟩] := by
  have hinner : t.drop (k + q.length + 2) = h.inner ++ rest := by
    rw [← List.drop_drop, drop_of_drop hpair.text]
    rfl
  refine ⟨?_, ?_, ?_, ?_⟩
  · simp [Hole.span, Span.shifted, hpair.offset_eq, Nat.add_assoc]
  · simp only [alternate, List.map_cons, List.map_nil, slice_eq hpair.text, slice_eq hinner]
  · simp only [alternate, List.mem_cons, List.not_mem_nil, or_false]
    rintro s (rfl | rfl) <;> exact ⟨by dsimp only; omega, by dsimp only; omega⟩
  · simp only [alternate, List.pairwise_cons, List.mem_singleton, forall_eq, List.not_mem_nil,
      false_imp_iff, implies_true, List.Pairwise.nil, and_true]
    omega

/-- A literal part at the end. -/
theorem spans_last {q : Text} (base : Nat) (htext : t.drop k = q ++ rest) :
    Spans t base (k + q.length) [q] [] [⟨k, k + q.length⟩] [] := by
  refine ⟨rfl, ?_, ?_, List.pairwise_singleton _ _⟩
  · simp only [alternate, List.map_cons, List.map_nil, slice_eq htext]
  · simp only [alternate, List.mem_singleton, forall_eq]
    exact ⟨Nat.le_add_right _ _, Nat.le_refl _⟩

section
variable {t : Text} {base limit limit' : Nat} {quasis quasis' : List Text} {holes holes' : List Hole}
  {as as' bs bs' : List Span}

theorem Spans.mono (h : Spans t base limit quasis holes as bs) (hle : limit ≤ limit') :
    Spans t base limit' quasis holes as bs :=
  ⟨h.places, h.texts, fun s hs => ⟨(h.inRange s hs).1, Nat.le_trans (h.inRange s hs).2 hle⟩,
    h.ordered⟩

/-- More parts behind others. -/
theorem Spans.append (h : Spans t base limit quasis holes as bs) (hspans : as.length = bs.length)
    (hparts : quasis.length = holes.length) (h' : Spans t base limit' quasis' holes' as' bs')
    (hle : limit ≤ limit') (hstart : ∀ s ∈ alternate as' bs', limit ≤ s.start) :
    Spans t base limit' (quasis ++ quasis') (holes ++ holes') (as ++ as') (bs ++ bs') := by
  have hinners : quasis.length = (holes.map (·.inner)).length := by rw [List.length_map, hparts]
  refine ⟨?_, ?_, ?_, ?_⟩
  · rw [List.map_append, List.map_append, h.places, h'.places]
  · rw [alternate_append hspans, List.map_append, List.map_append, alternate_append hinners, h.texts,
      h'.texts]
  · rw [alternate_append hspans]
    intro s hs
    rcases List.mem_append.mp hs with hs | hs
    · exact ⟨(h.inRange s hs).1, Nat.le_trans (h.inRange s hs).2 hle⟩
    · exact h'.inRange s hs
  · rw [alternate_append hspans, List.pairwise_append]
    exact ⟨h.ordered, h'.ordered, fun a ha b hb => Nat.le_trans (h.inRange a ha).2 (hstart b hb)⟩

end

section
variable {t : Text} {p : Position} {k : Nat} {quasis : List Text} {holes : List Hole}

theorem Laid.weave (h : Laid t p k quasis holes) :
    t.take k = t.take 1 ++ weave quasis.reverse (holes.reverse.map (·.inner)) := by
  induction h with
  | none => exact (List.append_nil _).symm
  | @more k q rest quasis h holes before pair _ ih =>
    have hlength : quasis.reverse.length = (holes.reverse.map (·.inner)).length := by
      rw [List.length_map, List.length_reverse, List.length_reverse, before.length_eq]
    have hopening : txt "$\x7b" = [Byte.dollar, Byte.openBrace] := rfl
    have hclosing : txt "\x7d" = [Byte.closeBrace] := rfl
    have hpiece : (t.drop k).take (q.length + (h.inner.length + 1 + 1 + 1)) =
        Template.weave [q] [h.inner] := by
      rw [pair.text, List.take_length_add_append, List.take_succ_cons, List.take_succ_cons,
        List.take_length_add_append]
      simp [Template.weave, hopening, hclosing]
    rw [List.reverse_cons, List.reverse_cons, List.map_append, List.map_singleton,
      weave_append hlength, ← List.append_assoc, ← ih, ← hpiece, ← List.take_add]
    congr 1
    omega

theorem Laid.length_reverse (h : Laid t p k quasis holes) :
    quasis.reverse.length = holes.reverse.length := by
  rw [List.length_reverse, List.length_reverse, h.length_eq]

/-- The parts up to an offset lie one after the other. -/
def Spanned (t : Text) (p : Position) (k : Nat) (quasis : List Text) (holes : List Hole) : Prop :=
  ∃ as bs : List Span, as.length = bs.length ∧
    Spans t p.offset k quasis.reverse holes.reverse as bs

/-- A literal part and a hole behind those that are laid out. -/
theorem Spanned.pair {q rest : Text} {h : Hole} (hspanned : Spanned t p k quasis holes)
    (laid : Laid t p k quasis holes) (hpair : Pair t p k q h rest) :
    Spanned t p (k + q.length + 2 + h.inner.length) (q :: quasis) (h :: holes) := by
  obtain ⟨as, bs, hlength, hspans⟩ := hspanned
  have hboth := hspans.append hlength laid.length_reverse hpair.spans (by omega) (by
    simp only [alternate, List.mem_cons, List.not_mem_nil, or_false]
    rintro s (rfl | rfl) <;> dsimp only <;> omega)
  rw [← List.reverse_cons, ← List.reverse_cons] at hboth
  exact ⟨_, _, by rw [List.length_append, List.length_append, hlength]; rfl, hboth⟩

/-- A literal part at the end, behind as many parts as holes. -/
theorem Spanned.last {q rest : Text} (hspanned : Spanned t p k quasis holes)
    (hparts : quasis.length = holes.length) (htext : t.drop k = q ++ rest) :
    (q :: quasis).reverse.length = holes.reverse.length + 1 ∧
      ∃ as bs : List Span, as.length = bs.length + 1 ∧
        Spans t p.offset (k + q.length) (q :: quasis).reverse holes.reverse as bs := by
  obtain ⟨as, bs, hlength, hspans⟩ := hspanned
  have hall := hspans.append hlength (by simp [hparts]) (spans_last p.offset htext) (by omega) (by
    simp [alternate])
  rw [← List.reverse_cons, List.append_nil, List.append_nil] at hall
  exact ⟨by simp [hparts], _, _, by rw [List.length_append, hlength]; rfl, hall⟩

/-- **The parts that are laid out lie one after the other.** -/
theorem Laid.spanned (h : Laid t p k quasis holes) : Spanned t p k quasis holes := by
  induction h with
  | none => exact ⟨[], [], rfl, rfl, rfl, nofun, .nil⟩
  | more before pair _ ih =>
    obtain ⟨as, bs, hlength, hspans⟩ := ih.pair before pair
    exact ⟨as, bs, hlength, hspans.mono (by omega)⟩

variable {stop : Nat} {complete : Bool} {r : Parts}

/-- **The parts of any template lie in it one after the other**, and there is one more of the literal
    parts. -/
theorem Divided.spans (h : Divided t p stop complete r) (hstop : stop ≤ t.length) :
    r.quasis.length = r.holes.length + 1 ∧
      ∃ as bs : List Span, as.length = bs.length + 1 ∧
        Spans t p.offset stop r.quasis r.holes as bs := by
  cases h with
  | @closed k quasis holes laid le =>
    have htext : t.drop k = (t.take stop).drop k ++ t.drop stop := by
      rw [← List.drop_append_of_le_length (by rw [List.length_take]; omega), List.take_append_drop]
    have hend : k + ((t.take stop).drop k).length = stop := by
      rw [List.length_drop, List.length_take]
      omega
    have hall := laid.spanned.last laid.length_eq htext
    rwa [hend] at hall
  | cut opened incomplete =>
    obtain ⟨before, hpair, hend⟩ := opened
    have hspanned := before.spanned.pair before hpair
    rw [hend] at hspanned
    exact hspanned.last (congrArg (· + 1) before.length_eq) (List.nil_append _).symm

/-- The parts of a complete template make up its body. -/
theorem Divided.weave (h : Divided t p stop true r) :
    t.take stop = t.take 1 ++ weave r.quasis (r.holes.map (·.inner)) := by
  cases h with
  | @closed k quasis holes laid le =>
    have hinners : quasis.reverse.length = (holes.reverse.map (·.inner)).length := by
      rw [List.length_map, laid.length_reverse]
    have hlast := weave_append hinners [(t.take stop).drop k] []
    rw [List.append_nil] at hlast
    rw [List.reverse_cons, hlast, ← List.append_assoc, ← laid.weave]
    simp only [Template.weave, List.flatten_cons, List.flatten_nil, List.append_nil]
    conv => lhs; rw [← List.take_append_drop k (t.take stop), List.take_take, Nat.min_eq_left le]
  | cut _ incomplete => cases incomplete

end

/-! ## 2. Template tokens -/

/-- The parts of a text that the scanner of tokens takes for a template make up the text, and it
    passes over the holes. -/
theorem weave_split (p : Position) {body more : Text}
    (h : closeFrom [.body] 1 (body ++ Byte.backtick :: more) = (body.length + 2, true)) :
    body = weave (split p (Byte.backtick :: (body ++ [Byte.backtick]))).quasis
        ((split p (Byte.backtick :: (body ++ [Byte.backtick]))).holes.map (·.inner)) ∧
      ∀ hole ∈ (split p (Byte.backtick :: (body ++ [Byte.backtick]))).holes,
        hole.IsPassed (Byte.backtick :: (body ++ [Byte.backtick])) p := by
  generalize ht : Byte.backtick :: (body ++ [Byte.backtick]) = t
  have hlength : t.length = body.length + 2 := by simp [← ht]
  have hbody : bodyEnd t = body.length + 1 := by
    have hlast : t.getLast? = some Byte.backtick := by
      rw [← ht, ← List.cons_append]
      exact List.getLast?_concat
    rw [bodyEnd, if_pos ⟨by omega, hlast⟩, hlength]
    rfl
  have hrest : t.drop 1 ++ more = body ++ Byte.backtick :: more := by
    rw [← ht, List.drop_succ_cons, List.drop_zero, List.append_assoc]
    rfl
  have hdivided := divided_split p (t := t) (ht ▸ List.cons_ne_nil _ _) more true fun _ =>
    ⟨by rw [hbody, hlength], by rw [hbody, hrest, h]⟩
  constructor
  · have hweave := hdivided.weave
    rw [hbody, ← ht, List.take_succ_cons, List.take_left, List.take_succ_cons,
      List.take_zero] at hweave
    rw [← ht]
    exact List.tail_eq_of_cons_eq hweave
  · generalize split p t = r at hdivided ⊢
    cases hdivided with
    | closed laid _ => exact fun hole hmem => laid.isPassed hole (List.mem_reverse.mp hmem)
    | cut _ incomplete => cases incomplete

/-- **The scanner of tokens and the splitter agree.** The parts of a template token make up the token,
    no hole starts in a literal part, and the holes are those that the scanner has passed over. The
    parts of any text whatsoever lie in it one after the other. The bounds are those within which no
    index of 32 bits wraps around: in a token it comes no further than the end of the source, in any
    other text no further than two bytes past its end. -/
theorem template_divided (c : Cursor) (p : Position) (t : Text) :
    (c.pos.offset + c.rest.length < Span.wordCount → c.next.token.kind = .template →
      (∀ x ∈ c.next.reports, x.fault ≠ .lex .openTemplate) →
      let r := split c.next.token.pos c.next.token.text
      c.next.token.text = txt "`" ++ weave r.quasis (r.holes.map (·.inner)) ++ txt "`" ∧
      (∀ q ∈ r.quasis, isLiteral q = true) ∧
      ∀ h ∈ r.holes, h.IsPassed c.next.token.text c.next.token.pos ∧
        h.span.stop < Span.wordCount) ∧
    (t ≠ [] → p.offset + t.length + 2 < Span.wordCount →
      let r := split p t
      r.quasis.length = r.holes.length + 1 ∧
      (∀ q ∈ r.quasis, isLiteral q = true) ∧
      (∀ h ∈ r.holes, h.span.stop < Span.wordCount) ∧
      ∃ as bs : List Span, as.length = bs.length + 1 ∧
        Spans t p.offset t.length r.quasis r.holes as bs) := by
  have hholes (p : Position) (t : Text) {h : Hole} (hh : h ∈ (split p t).holes) :
      h.span.stop ≤ p.offset + t.length :=
    Nat.le_trans ((parts_split p t).2.of_mem hh).2 (Nat.add_le_add_left (bodyEnd_le t) _)
  refine ⟨fun hsize hkind hclosed => ?_, fun ht hsize => ?_⟩
  · have hstop := c.next_token_stop_le
    rw [Token.stop] at hstop
    refine ⟨?_, fun _ => isLiteral_of_mem_quasis, fun h hh => ⟨?_, ?_⟩⟩
    · obtain ⟨body, more, htext, hclose⟩ := Cursor.closed_template hkind hclosed
      rw [htext, ← (weave_split _ hclose).1]
      rfl
    · obtain ⟨body, more, htext, hclose⟩ := Cursor.closed_template hkind hclosed
      rw [htext] at hh ⊢
      exact (weave_split _ hclose).2 h hh
    · have := hholes _ _ hh
      omega
  · have hle := bodyEnd_le t
    have hdivided := divided_split p ht [] false (absurd · Bool.false_ne_true)
    obtain ⟨hlength, as, bs, hspans, h⟩ := hdivided.spans hle
    refine ⟨hlength, fun _ => isLiteral_of_mem_quasis, fun h hh => ?_, as, bs, hspans, h.mono hle⟩
    have := hholes _ _ hh
    omega

/-- A template in an object in a hole, and in that template a brace in a string. -/
def nestedSource : Text := txt "`a$\x7bf(\x7bb: `$\x7b'\x7d'\x7d`\x7d)\x7dc`.length"

/-- The hole of the outer template goes up to the last brace; a hole that is left open goes up to the
    end. -/
theorem nested_template_divided :
    (split .start (Cursor.ofText nestedSource).next.token.text =
        ⟨[txt "a", txt "c"], [⟨⟨4, 1, 5⟩, txt "f(\x7bb: `$\x7b'\x7d'\x7d`\x7d)"⟩]⟩ ∧
      (Cursor.ofText nestedSource).next.token.text =
        txt "`" ++ weave [txt "a", txt "c"] [txt "f(\x7bb: `$\x7b'\x7d'\x7d`\x7d)"] ++ txt "`" ∧
      Hole.IsPassed (Cursor.ofText nestedSource).next.token.text .start
        ⟨⟨4, 1, 5⟩, txt "f(\x7bb: `$\x7b'\x7d'\x7d`\x7d)"⟩) ∧
    split ⟨7, 1, 8⟩ (txt "`a$\x7b'b") = ⟨[txt "a", []], [⟨⟨11, 1, 12⟩, txt "'b"⟩]⟩ ∧
    ∃ as bs : List Span, as.length = bs.length + 1 ∧
      Spans (txt "`a$\x7b'b") 7 6 [txt "a", []] [⟨⟨11, 1, 12⟩, txt "'b"⟩] as bs := by
  have hpos : (Cursor.ofText nestedSource).next.token.pos = .start := by decide +kernel
  have hsplit : split .start (Cursor.ofText nestedSource).next.token.text =
      ⟨[txt "a", txt "c"], [⟨⟨4, 1, 5⟩, txt "f(\x7bb: `$\x7b'\x7d'\x7d`\x7d)"⟩]⟩ := by
    decide +kernel
  have hopen : split ⟨7, 1, 8⟩ (txt "`a$\x7b'b") = ⟨[txt "a", []], [⟨⟨11, 1, 12⟩, txt "'b"⟩]⟩ := by
    decide +kernel
  obtain ⟨htoken, htext⟩ :=
    template_divided (Cursor.ofText nestedSource) ⟨7, 1, 8⟩ (txt "`a$\x7b'b")
  obtain ⟨hweave, -, hpassed⟩ := htoken (by decide +kernel) (by decide) (by decide)
  obtain ⟨-, -, -, hspans⟩ := htext (by decide) (by decide +kernel)
  rw [hpos, hsplit] at hweave hpassed
  rw [hopen] at hspans
  exact ⟨⟨hsplit, hweave, (hpassed _ (List.mem_singleton_self _)).1⟩, hopen, hspans⟩

end ReactiveScript.Template
