import ReactiveScript.Proofs.Token.Closing
import ReactiveScript.Syntax.Template

/-!
# Where holes end

Two scanners look for the end of a hole in a template. The one finds the end of the token, holes
included, and goes over the bytes once with the constructs that are open on a stack; the other looks
for the end of one hole in the text of the token, and calls itself for templates in it. They agree
on every text.
-/

namespace ReactiveScript.Template

variable {stop : Nat} {b : UInt8} {rest : Text}

open Nesting

/-! ## 1. What is left of a text -/

theorem behindString_suffix (quote : UInt8) (t : Text) : behindString quote t <:+ t := by
  fun_induction behindString quote t with
  | case1 => exact List.suffix_refl _
  | case2 b rest => exact List.suffix_cons b rest
  | case3 => exact List.nil_suffix
  | case4 b rest _ ih => exact ih.trans ((List.suffix_cons _ _).trans (List.suffix_cons _ _))
  | case5 b rest _ _ ih => exact ih.trans (List.suffix_cons b rest)

/-- What the scanners leave is the end of the text. -/
theorem suffixes (rounds : Nat) :
    (∀ depth t, fromBrace rounds depth t <:+ t) ∧ ∀ t, behindTemplate rounds t <:+ t := by
  induction rounds with
  | zero =>
    refine ⟨fun depth t => ?_, fun t => ?_⟩
    · rw [fromBrace]
      exact List.nil_suffix
    · rw [behindTemplate]
      exact List.nil_suffix
  | succ rounds ih =>
    obtain ⟨hbrace, htemplate⟩ := ih
    refine ⟨fun depth t => ?_, fun t => ?_⟩
    · cases t with
      | nil => exact List.suffix_refl _
      | cons b rest =>
        have hrest := List.suffix_cons b rest
        rw [fromBrace]
        split
        · exact (hbrace _ _).trans hrest
        split
        · split
          · exact List.suffix_refl _
          · exact (hbrace _ _).trans hrest
        split
        · exact (hbrace _ _).trans ((htemplate _).trans hrest)
        split
        · exact (hbrace _ _).trans ((behindString_suffix _ _).trans hrest)
        · exact (hbrace _ _).trans hrest
    · cases t with
      | nil => exact List.suffix_refl _
      | cons b rest =>
        have hrest := List.suffix_cons b rest
        rw [behindTemplate]
        split
        · exact (htemplate _).trans ((List.drop_suffix 1 rest).trans hrest)
        split
        · exact hrest
        split
        · exact (htemplate _).trans ((List.drop_suffix 1 _).trans
            ((hbrace _ _).trans ((List.drop_suffix 1 rest).trans hrest)))
        · exact (htemplate _).trans hrest

/-! ## 2. The two scanners side by side -/

/-- The scanner of tokens, at a text that ends at an offset. -/
def closeBefore (nest : List Inside) (stop : Nat) (t : Text) : Nat × Bool :=
  closeFrom nest (stop - t.length) t

theorem sub_succ (h : (b :: rest).length ≤ stop) :
    stop - (b :: rest).length + 1 = stop - rest.length := by
  rw [List.length_cons] at h ⊢
  omega

/-- One byte more. -/
theorem closeFrom_succ (nest : List Inside) (h : (b :: rest).length ≤ stop) :
    closeFrom nest (stop - (b :: rest).length + 1) rest = closeBefore nest stop rest := by
  rw [sub_succ h, closeBefore]

/-- Two bytes more, the second of them escaped. -/
theorem closeFrom_two (nest : List Inside) {c : UInt8} (h : (b :: c :: rest).length ≤ stop) :
    closeFrom nest (stop - (b :: c :: rest).length + 2) rest = closeBefore nest stop rest := by
  simp only [List.length_cons] at h ⊢
  rw [closeBefore, show stop - (rest.length + 1 + 1) + 2 = stop - rest.length by omega]

/-- Nothing is closed by the end of the text. -/
theorem closeBefore_nil (nest : List Inside) (stop : Nat) : closeBefore nest stop [] = (stop, false) := by
  rw [closeBefore, closeFrom, List.length_nil, Nat.sub_zero]

/-- Behind a string the scanner of tokens goes on with what is around it. -/
theorem closeBefore_string (quote : UInt8) (outer : List Inside) (t : Text) (h : t.length ≤ stop) :
    closeBefore (.string quote :: outer) stop t =
      closeBefore outer stop (behindString quote t) := by
  fun_induction behindString quote t with
  | case1 => rw [closeBefore_nil, closeBefore_nil]
  | case2 b rest hb =>
    rw [closeBefore, closeFrom.eq_def]
    dsimp only
    rw [if_pos hb, closeFrom_succ _ h]
  | case3 hb =>
    rw [closeBefore_nil, closeBefore, closeFrom.eq_def]
    dsimp only
    rw [if_neg hb, if_pos rfl]
    exact congrArg (·, false) (Nat.sub_add_cancel h)
  | case4 b rest hb ih =>
    rw [closeBefore, closeFrom.eq_def]
    dsimp only
    rw [if_neg hb, if_pos rfl, closeFrom_two _ h]
    exact ih (Nat.le_of_succ_le (Nat.le_of_succ_le h))
  | case5 b rest hb hescape ih =>
    rw [closeBefore, closeFrom.eq_def]
    dsimp only
    rw [if_neg hb, if_neg hescape, closeFrom_succ _ h]
    exact ih (Nat.le_of_succ_le h)

/-- Does the scanner of tokens go on with the outer constructs from there, or is it at the end? -/
def closedBefore (outer : List Inside) (stop : Nat) : Text → Nat × Bool
  | [] => (stop, false)
  | _ :: rest => if outer.isEmpty then (stop - rest.length, true) else closeBefore outer stop rest

/-- Where the one scanner finds the end of a hole or of a template in it, with so many rounds, the
    other goes on with what is around it. -/
def Agree (rounds stop : Nat) (t : Text) : Prop :=
  (∀ depth outer, closeBefore (.code depth :: outer) stop t =
    closedBefore outer stop (fromBrace rounds depth t)) ∧
  ∀ outer, outer ≠ [] → closeBefore (.body :: outer) stop t =
    closeBefore outer stop (behindTemplate rounds t)

theorem agree_nil (rounds stop : Nat) : Agree rounds stop [] := by
  obtain ⟨hbrace, htemplate⟩ := suffixes rounds
  refine ⟨fun depth outer => ?_, fun outer _ => ?_⟩
  · rw [closeBefore_nil, List.suffix_nil.mp (hbrace depth []), closedBefore]
  · rw [closeBefore_nil, List.suffix_nil.mp (htemplate []), closeBefore_nil]

section
variable {rounds stop : Nat} {b : UInt8} {rest : Text} (h : ∀ t, t <:+ rest → Agree rounds stop t)
  (hstop : (b :: rest).length ≤ stop)
include h hstop

/-- A byte of a hole. -/
theorem agree_code (depth : Nat) (outer : List Inside) :
    closeBefore (.code depth :: outer) stop (b :: rest) =
      closedBefore outer stop (fromBrace (rounds + 1) depth (b :: rest)) := by
  have hrest := h rest (List.suffix_refl rest)
  rw [closeBefore, closeFrom.eq_def, fromBrace]
  simp only [closeFrom_succ _ hstop]
  split
  · exact hrest.1 _ _
  split
  · split
    · exact ite_congr rfl (fun _ => congrArg (·, true) (sub_succ hstop)) fun _ => rfl
    · exact hrest.1 _ _
  split
  · rw [hrest.2 _ (List.cons_ne_nil _ _)]
    exact (h _ ((suffixes rounds).2 rest)).1 _ _
  split
  · rw [closeBefore_string _ _ _ (Nat.le_of_succ_le hstop)]
    exact (h _ (behindString_suffix b rest)).1 _ _
  · exact hrest.1 _ _

/-- A byte of a template in a hole. -/
theorem agree_body {outer : List Inside} (houter : outer ≠ []) :
    closeBefore (.body :: outer) stop (b :: rest) =
      closeBefore outer stop (behindTemplate (rounds + 1) (b :: rest)) := by
  rw [closeBefore, closeFrom.eq_def, behindTemplate]
  simp only [closeFrom_succ _ hstop]
  by_cases hescape : b = Byte.backslash
  · rw [if_neg (by rw [hescape]; decide), if_pos hescape, if_pos hescape,
      ← (h _ (List.drop_suffix 1 rest)).2 _ houter]
    cases rest with
    | nil =>
      rw [List.drop_nil, closeBefore_nil]
      exact congrArg (·, false) (Nat.sub_add_cancel hstop)
    | cons c rest => exact closeFrom_two _ hstop
  rw [if_neg hescape, if_neg hescape]
  split
  · rw [if_neg (by rwa [List.isEmpty_iff])]
  split
  · -- A hole in the template is closed first.
    rename_i hhole
    obtain ⟨inner, rfl⟩ := List.head?_eq_some_iff.mp hhole.2
    have hinner := List.suffix_cons Byte.openBrace inner
    have hopen : closeBefore (.code 0 :: .body :: outer) stop (Byte.openBrace :: inner) =
        closeBefore (.code 1 :: .body :: outer) stop inner := by
      rw [closeBefore, closeFrom.eq_def]
      dsimp only
      rw [if_pos rfl, closeFrom_succ _ (Nat.le_of_succ_le hstop)]
    have hleft := ((suffixes rounds).1 1 inner).trans hinner
    rw [hopen, (h inner hinner).1, List.drop_succ_cons, List.drop_zero]
    cases hr : fromBrace rounds 1 inner with
    | nil =>
      rw [List.drop_nil, ← (agree_nil rounds stop).2 _ houter, closeBefore_nil]
      rfl
    | cons c r => exact (h r ((List.suffix_cons c r).trans (hr ▸ hleft))).2 _ houter
  · exact (h rest (List.suffix_refl rest)).2 _ houter

end

/-- **The two scanners agree** if there are rounds enough. -/
theorem agree {rounds : Nat} {t : Text} (hrounds : t.length < rounds) (hstop : t.length ≤ stop) :
    Agree rounds stop t := by
  induction rounds generalizing t with
  | zero => cases hrounds
  | succ rounds ih =>
    cases t with
    | nil => exact agree_nil _ _
    | cons b rest =>
      have hsuffix (r : Text) (hr : r <:+ rest) : Agree rounds stop r := by
        have hlength := hr.length_le
        rw [List.length_cons] at hrounds hstop
        exact ih (by omega) (by omega)
      exact ⟨agree_code hsuffix hstop, fun _ => agree_body hsuffix hstop⟩

/-! ## 3. The length of a hole -/

/-- The scanner of tokens closes a hole at the brace that the other finds. -/
theorem closeFrom_hole (t : Text) :
    closeFrom [.code 1] 0 t = closedBefore [] t.length (fromBrace (t.length + 1) 1 t) := by
  have hclose := (agree (Nat.lt_succ_self t.length) (Nat.le_refl t.length)).1 1 []
  rwa [closeBefore, Nat.sub_self] at hclose

/-- A hole is as long to the one scanner as to the other. -/
theorem holeLength_eq (t : Text) : holeLength t = interpolationLength t := by
  have hle := ((suffixes (t.length + 1)).1 1 t).length_le
  rw [holeLength, interpolationLength, closeFrom_hole]
  cases hr : fromBrace (t.length + 1) 1 t with
  | nil => rfl
  | cons c r =>
    rw [hr, List.length_cons] at hle
    simp only [closedBefore, List.isEmpty_nil, if_true, List.length_cons]
    omega

/-- Only a brace closes a hole. -/
theorem fromBrace_head {rounds depth : Nat} {t : Text} (h : fromBrace rounds depth t = b :: rest) :
    b = Byte.closeBrace := by
  induction rounds generalizing depth t with
  | zero =>
    rw [fromBrace] at h
    cases h
  | succ rounds ih =>
    cases t with
    | nil => cases h
    | cons c t =>
      rw [fromBrace] at h
      split at h
      · exact ih h
      split at h
      · split at h
        · cases h
          assumption
        · exact ih h
      split at h
      · exact ih h
      split at h
      · exact ih h
      · exact ih h

/-- A hole that is closed before the end of the text is closed by a brace, to both scanners. -/
theorem hole_of_lt {t : Text} (h : holeLength t < t.length) :
    t = t.take (holeLength t) ++ Byte.closeBrace :: t.drop (holeLength t + 1) ∧
      closeFrom [.code 1] 0 t = (holeLength t + 1, true) := by
  have hdrop : fromBrace (t.length + 1) 1 t = t.drop (holeLength t) :=
    List.suffix_iff_eq_drop.mp ((suffixes _).1 1 t)
  cases hr : t.drop (holeLength t) with
  | nil =>
    have hle := List.drop_eq_nil_iff.mp hr
    omega
  | cons b rest =>
    have hrest : t.drop (holeLength t + 1) = rest := by
      rw [← List.drop_drop, hr]
      rfl
    have hlength := congrArg List.length hr
    rw [List.length_drop, List.length_cons] at hlength
    constructor
    · rw [hrest, ← fromBrace_head (hdrop.trans hr), ← hr, List.take_append_drop]
    · rw [closeFrom_hole, hdrop, hr, closedBefore, if_pos List.isEmpty_nil]
      exact congrArg (·, true) (by omega)

end ReactiveScript.Template
