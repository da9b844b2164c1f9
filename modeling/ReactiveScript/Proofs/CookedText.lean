import Mathlib.Algebra.Group.Nat.Defs
import ReactiveScript.Proofs.Text.Reading
import ReactiveScript.Proofs.Text.Utf8

/-!
# Reading escapes keeps a text valid

An escape may denote a code point by its number, and one of the halves of a surrogate pair is a code
point, though no character. Where it stands alone, it is written as it is; a pair of halves is written
as the character that it stands for. All other escapes, and those that are malformed, leave a valid
text valid, even before a character of several bytes.
-/

namespace ReactiveScript.Escape

open Byte

/-! ## 1. Escapes that denote a code point -/

/-- So many hexadecimal digits at the start of a text spell a number. -/
def Spells (n : Nat) (t : Text) (c : Nat) (rest : Text) : Prop :=
  ∃ digits, digits.length = n ∧ number? 16 digits = some c ∧ t = digits ++ rest

/-- **The code point that an escape denotes**; the text starts behind the backslash. The two halves
    of a surrogate pair, with four digits each and the one right behind the other, denote one code
    point. -/
inductive Denotes : Text → Nat → Prop
  | byte {t rest c} (hc : Spells 2 t c rest) : Denotes (0x78 :: t) c
  | braced {digits c} (hc : number? 16 digits = some c) (hlast : c ≤ Utf8.lastCodePoint)
      (rest : Text) : Denotes (0x75 :: openBrace :: (digits ++ closeBrace :: rest)) c
  | pair {t u rest high low} (hhigh : Spells 4 t high (backslash :: 0x75 :: u))
      (hlow : Spells 4 u low rest) (hpair : Utf8.isHighSurrogate high ∧ Utf8.isLowSurrogate low) :
      Denotes (0x75 :: t) (Utf8.pair high low)
  | single {t rest c} (hc : Spells 4 t c rest)
      (hsingle : ∀ u low rest', rest = backslash :: 0x75 :: u → Spells 4 u low rest' →
        ¬ (Utf8.isHighSurrogate c ∧ Utf8.isLowSurrogate low)) : Denotes (0x75 :: t) c

/-- **The code points that the escapes of a text denote.** Reading goes on behind each escape. -/
inductive Names : Text → Nat → Prop
  | here {t c} (h : Denotes t c) : Names (backslash :: t) c
  | behind {t c} (h : Names (t.drop (escape t).width) c) : Names (backslash :: t) c
  | later {b t c} (hb : b ≠ backslash) (h : Names t c) : Names (b :: t) c

variable {t rest : Text} {c n : Nat} {e : UInt8}

theorem names_backslash :
    Names (backslash :: t) c ↔ Denotes t c ∨ Names (t.drop (escape t).width) c := by
  constructor
  · rintro (h | h | ⟨hb, -⟩)
    · exact .inl h
    · exact .inr h
    · exact absurd rfl hb
  · rintro (h | h)
    · exact .here h
    · exact .behind h

theorem names_append {w : Text} (hw : backslash ∉ w) : Names (w ++ t) c ↔ Names t c := by
  induction w with
  | nil => rfl
  | cons b w ih =>
    rw [List.mem_cons, not_or] at hw
    rw [← ih hw.2]
    constructor
    · rintro (h | h | ⟨-, h⟩)
      · exact absurd rfl hw.1
      · exact absurd rfl hw.1
      · exact h
    · exact .later (Ne.symm hw.1)

/-! ## 2. Numbers -/

/-- A number has digits only, and their count bounds it. -/
theorem number?_eq_some {base : Nat} {digits : Text} (h : number? base digits = some c) :
    (∀ b ∈ digits, (digitValue? b).isSome) ∧ c < base ^ digits.length := by
  unfold number? at h
  extract_lets step at h
  have hnone (t : Text) : t.foldl step none = none := by
    induction t with
    | nil => rfl
    | cons b t ih => exact ih
  suffices ∀ n, digits.foldl step (some n) = some c →
      (∀ b ∈ digits, (digitValue? b).isSome) ∧ c < (n + 1) * base ^ digits.length by
    split at h
    · cases h
    · simpa using this 0 h
  clear h
  induction digits with
  | nil =>
    rintro n ⟨⟩
    simp
  | cons b digits ih =>
    intro n h
    rw [List.foldl_cons] at h
    cases hstep : step (some n) b with
    | none =>
      rw [hstep, hnone] at h
      cases h
    | some m =>
      rw [hstep] at h
      obtain ⟨hdigits, hc⟩ := ih m h
      obtain ⟨d, hd, hlt, rfl⟩ : ∃ d, digitValue? b = some d ∧ d < base ∧ n * base + d = m := by
        grind
      refine ⟨List.forall_mem_cons.mpr ⟨by rw [hd]; rfl, hdigits⟩, Nat.lt_of_lt_of_le hc ?_⟩
      calc (n * base + d + 1) * base ^ digits.length
          ≤ ((n + 1) * base) * base ^ digits.length := by
            refine Nat.mul_le_mul_right _ ?_
            rw [Nat.add_mul, Nat.one_mul]
            omega
        _ = (n + 1) * base ^ (b :: digits).length := by
          rw [List.length_cons, Nat.pow_succ', Nat.mul_assoc]

theorem spells_iff : Spells n t c rest ↔ fixedHex? n t = some c ∧ t.drop n = rest := by
  unfold Spells fixedHex?
  constructor
  · rintro ⟨digits, rfl, hc, rfl⟩
    simp [hc]
  · rintro ⟨hc, rfl⟩
    dsimp only at hc
    split at hc
    · exact ⟨t.take n, ‹_›, hc, (List.take_append_drop n t).symm⟩
    · cases hc

theorem lowHalf?_eq_some {low : Nat} : lowHalf? t = some low ↔
    ∃ u rest, t = backslash :: 0x75 :: u ∧ Spells 4 u low rest ∧ Utf8.isLowSurrogate low := by
  constructor
  · intro h
    unfold lowHalf? at h
    split at h
    · split at h
      · rename_i u hstart
        obtain ⟨rfl, rfl⟩ := hstart
        split at h
        · rename_i c hc
          split at h <;> cases h
          exact ⟨u, u.drop 4, rfl, spells_iff.mpr ⟨hc, rfl⟩, ‹_›⟩
        · cases h
      · cases h
    · cases h
  · rintro ⟨u, rest, rfl, hc, hlow⟩
    simp [lowHalf?, (spells_iff.mp hc).1, hlow]

/-! ## 3. One escape -/

/-- Bytes that are characters by themselves. -/
def Ascii (t : Text) : Prop := ∀ b ∈ t, b.toNat ≤ 0x7F

theorem Ascii.valid_append {w : Text} (hw : Ascii w) (t : Text) :
    Utf8.valid (w ++ t) = Utf8.valid t := by
  induction w with
  | nil => rfl
  | cons b w ih =>
    obtain ⟨hb, hw⟩ := List.forall_mem_cons.mp hw
    rw [List.cons_append, Utf8.valid_ascii hb, ih hw]

theorem digit_ascii {b : UInt8} (h : (digitValue? b).isSome) :
    b.toNat ≤ 0x7F ∧ b ≠ openBrace ∧ b ≠ closeBrace := by
  refine ⟨?_, ?_, ?_⟩
  · simp only [digitValue?, isDigit, isLower, isUpper, Bool.and_eq_true,
      decide_eq_true_eq, UInt8.le_iff_toNat_le, UInt8.reduceToNat] at h
    repeat' split at h
    all_goals first | omega | cases h
  · rintro rfl
    cases h
  · rintro rfl
    cases h

theorem ascii_of_number? {base : Nat} {digits : Text} (h : number? base digits = some c) :
    Ascii digits :=
  fun b hb => (digit_ascii ((number?_eq_some h).1 b hb)).1

theorem Spells.ascii (h : Spells n t c rest) : Ascii (t.take n) := by
  obtain ⟨digits, rfl, hc, rfl⟩ := h
  rw [List.take_left]
  exact ascii_of_number? hc

theorem Spells.head?_ne (h : Spells (n + 1) t c rest) : t.head? ≠ some openBrace := by
  obtain ⟨digits, hlength, hc, rfl⟩ := h
  cases digits with
  | nil => cases hlength
  | cons b digits =>
    intro hb
    cases hb
    exact (digit_ascii ((number?_eq_some hc).1 _ List.mem_cons_self)).2.1 rfl

theorem Spells.lt (h : Spells n t c rest) : c < 16 ^ n := by
  obtain ⟨digits, rfl, hc, -⟩ := h
  exact (number?_eq_some hc).2

theorem pair_le_lastCodePoint {high low : Nat} (hhigh : Utf8.isHighSurrogate high = true)
    (hlow : Utf8.isLowSurrogate low = true) : Utf8.pair high low ≤ Utf8.lastCodePoint := by
  simp only [Utf8.isHighSurrogate, Utf8.isLowSurrogate, Bool.and_eq_true, decide_eq_true_eq]
    at hhigh hlow
  have hpair : 0x10000 + (high - 0xD800) * 0x400 + (low - 0xDC00) ≤ 0x10FFFF := by omega
  exact hpair

theorem escape_byte (t : Text) : escape (0x78 :: t) = byteEscape t := rfl

theorem escape_unicode (t : Text) : escape (0x75 :: t) = unicodeEscape t := rfl

/-- What an escape denotes is what it stands for. -/
theorem Denotes.escape_text (h : Denotes t c) :
    (escape t).text = Utf8.encode c ∧ c ≤ Utf8.lastCodePoint := by
  cases h with
  | @byte t rest c hc =>
    rw [escape_byte, byteEscape, (spells_iff.mp hc).1]
    exact ⟨rfl, Nat.le_of_lt (Nat.lt_trans hc.lt (by decide))⟩
  | @braced digits c hc hlast rest =>
    have hclose : Text.indexOf? closeBrace
        (openBrace :: (digits ++ closeBrace :: rest)) = some (digits.length + 1) := by
      rw [← List.cons_append]
      refine Text.indexOf?_append (fun hmem => ?_) rest
      rcases List.mem_cons.mp hmem with hbrace | hmem
      · cases hbrace
      · exact (digit_ascii ((number?_eq_some hc).1 _ hmem)).2.2 rfl
    have hdigits : ((openBrace :: (digits ++ closeBrace :: rest)).take
        (digits.length + 1)).drop 1 = digits := by simp
    rw [escape_unicode, unicodeEscape, if_pos List.head?_cons, hclose]
    dsimp only
    rw [hdigits, hc]
    dsimp only
    rw [if_pos hlast]
    exact ⟨rfl, hlast⟩
  | @pair t u rest high low hhigh hlow hpair =>
    obtain ⟨hfour, hdrop⟩ := spells_iff.mp hhigh
    have hhalf : lowHalf? (t.drop 4) = some low :=
      lowHalf?_eq_some.mpr ⟨u, rest, hdrop, hlow, hpair.2⟩
    refine ⟨?_, pair_le_lastCodePoint hpair.1 hpair.2⟩
    rw [escape_unicode, unicodeEscape, if_neg hhigh.head?_ne, hfour, hhalf]
    dsimp only
    rw [if_pos hpair.1]
  | @single t rest c hc hsingle =>
    obtain ⟨hfour, hdrop⟩ := spells_iff.mp hc
    refine ⟨?_, Nat.le_of_lt (Nat.lt_trans hc.lt (by decide))⟩
    rw [escape_unicode, unicodeEscape, if_neg hc.head?_ne, hfour]
    dsimp only
    split
    · rename_i low hlow
      obtain ⟨u, rest', hrest, hlow, hislow⟩ := lowHalf?_eq_some.mp hlow
      rw [if_neg fun hhigh => hsingle u low rest' (hdrop.symm.trans hrest) hlow ⟨hhigh, hislow⟩]
    · rfl

theorem byteEscape_cases (rest : Text) :
    (∃ c, Denotes (0x78 :: rest) c) ∧ Ascii (rest.take 2) ∧ (byteEscape rest).width = 3 ∨
      byteEscape rest = ⟨[0x78], 1⟩ := by
  unfold byteEscape
  split
  · rename_i c hc
    have hspells : Spells 2 rest c (rest.drop 2) := spells_iff.mpr ⟨hc, rfl⟩
    exact .inl ⟨⟨c, .byte hspells⟩, hspells.ascii, rfl⟩
  · exact .inr rfl

theorem unicodeEscape_cases (rest : Text) :
    (∃ c w, Denotes (0x75 :: rest) c ∧ Ascii (rest.take w) ∧ (unicodeEscape rest).width = w + 1) ∨
      unicodeEscape rest = ⟨[0x75], 1⟩ := by
  unfold unicodeEscape
  split
  · rename_i hbrace
    obtain ⟨r, rfl⟩ := List.head?_eq_some_iff.mp hbrace
    split
    · rename_i close hclose
      obtain ⟨_ | ⟨_, digits⟩, v, heq, rfl⟩ := Text.exists_append_of_indexOf? hclose
      · cases heq
      rw [List.cons_append] at heq
      obtain ⟨rfl, rfl⟩ := List.cons.inj heq
      have hdigits : ((openBrace :: (digits ++ closeBrace :: v)).take
          (openBrace :: digits).length).drop 1 = digits := by simp
      rw [hdigits]
      split
      · rename_i c hc
        split
        · rename_i hlast
          refine .inl ⟨c, digits.length + 2, .braced hc hlast v, ?_, rfl⟩
          have htake : (openBrace :: (digits ++ closeBrace :: v)).take
              (digits.length + 2) = openBrace :: (digits ++ [closeBrace]) := by
            rw [List.take_succ_cons, List.take_length_add_append]
            rfl
          rw [htake]
          refine List.forall_mem_cons.mpr ⟨by decide, List.forall_mem_append.mpr ⟨?_, ?_⟩⟩
          · exact ascii_of_number? hc
          · exact List.forall_mem_singleton.mpr (by decide)
        · exact .inr rfl
      · exact .inr rfl
    · exact .inr rfl
  · split
    · rename_i c hc
      have hspells : Spells 4 rest c (rest.drop 4) := spells_iff.mpr ⟨hc, rfl⟩
      have hsingle (h : ∀ low, lowHalf? (rest.drop 4) = some low → ¬ Utf8.isHighSurrogate c) :
          Denotes (0x75 :: rest) c := by
        refine .single hspells fun u low rest' hrest hlow ⟨hhigh, hislow⟩ => ?_
        exact h low (lowHalf?_eq_some.mpr ⟨u, rest', hrest, hlow, hislow⟩) hhigh
      split
      · rename_i low hlow
        obtain ⟨u, rest', hrest, hlow', hislow⟩ := lowHalf?_eq_some.mp hlow
        split
        · rename_i hhigh
          refine .inl ⟨_, 4 + 6, .pair (hrest ▸ hspells) hlow' ⟨hhigh, hislow⟩, ?_, rfl⟩
          rw [List.take_add, hrest]
          exact List.forall_mem_append.mpr ⟨hspells.ascii, List.forall_mem_cons.mpr ⟨by decide,
            List.forall_mem_cons.mpr ⟨by decide, hlow'.ascii⟩⟩⟩
        · rename_i hhigh
          exact .inl ⟨c, 4, hsingle fun _ _ => hhigh, hspells.ascii, rfl⟩
      · rename_i hnone
        exact .inl ⟨c, 4, hsingle fun _ hlow => by simp [hnone] at hlow, hspells.ascii, rfl⟩
    · exact .inr rfl

/-- An escape takes only bytes that are characters by themselves, and it denotes a code point or
    stands for such bytes again. -/
theorem escape_cases (he : e.toNat ≤ 0x7F) (rest : Text) :
    Ascii ((e :: rest).take (escape (e :: rest)).width) ∧
      ((∃ c, Denotes (e :: rest) c) ∨ Ascii (escape (e :: rest)).text) := by
  have hone : Ascii [e] := List.forall_mem_cons.mpr ⟨he, nofun⟩
  rw [escape, decode]
  split
  · rename_i b hb
    refine ⟨hone, .inr (List.forall_mem_cons.mpr ⟨?_, nofun⟩)⟩
    unfold letter? at hb
    repeat' split at hb
    all_goals cases hb
    all_goals decide
  split
  · refine ⟨?_, .inr nofun⟩
    split
    · rename_i hnewline
      obtain ⟨rest, rfl⟩ := List.head?_eq_some_iff.mp hnewline
      exact List.forall_mem_cons.mpr ⟨he, List.forall_mem_cons.mpr ⟨by decide, nofun⟩⟩
    · exact hone
  split
  · exact ⟨hone, .inr nofun⟩
  split
  · subst e
    rcases byteEscape_cases rest with ⟨hc, hascii, hwidth⟩ | h
    · rw [hwidth]
      exact ⟨List.forall_mem_cons.mpr ⟨he, hascii⟩, .inl hc⟩
    · rw [h]
      exact ⟨hone, .inr hone⟩
  split
  · subst e
    rcases unicodeEscape_cases rest with ⟨c, w, hc, hascii, hwidth⟩ | h
    · rw [hwidth]
      exact ⟨List.forall_mem_cons.mpr ⟨he, hascii⟩, .inl ⟨c, hc⟩⟩
    · rw [h]
      exact ⟨hone, .inr hone⟩
  · exact ⟨hone, .inr hone⟩

theorem Denotes.valid_text_append (h : Denotes t c) (v : Text) :
    Utf8.valid ((escape t).text ++ v) = true ↔
      Utf8.isSurrogate c = false ∧ Utf8.valid v = true := by
  obtain ⟨htext, hc⟩ := h.escape_text
  rw [htext, Utf8.valid_encode_append hc]

/-- **What an escape stands for is valid unless it denotes half of a pair.** -/
theorem valid_escape (he : e.toNat ≤ 0x7F) (rest v : Text) :
    Utf8.valid ((escape (e :: rest)).text ++ v) = true ↔
      (∀ c, Denotes (e :: rest) c → Utf8.isSurrogate c = false) ∧ Utf8.valid v = true := by
  constructor
  · intro h
    refine ⟨fun c hc => ((hc.valid_text_append v).mp h).1, ?_⟩
    rcases (escape_cases he rest).2 with ⟨c, hc⟩ | hascii
    · exact ((hc.valid_text_append v).mp h).2
    · rwa [hascii.valid_append] at h
  · rintro ⟨hsurrogate, hv⟩
    rcases (escape_cases he rest).2 with ⟨c, hc⟩ | hascii
    · exact (hc.valid_text_append v).mpr ⟨hsurrogate c hc, hv⟩
    · rwa [hascii.valid_append]

/-! ## 4. All escapes of a text -/

/-- A backslash before a character of several bytes stands for nothing. -/
theorem escape_of_not_ascii (he : 0x7F < e.toNat) (rest : Text) :
    escape (e :: rest) = ⟨[e], 1⟩ ∧ ∀ c, ¬ Denotes (e :: rest) c := by
  have hne (b : UInt8) (hb : b.toNat ≤ 0x7F) : ¬ e = b := by
    rintro rfl
    omega
  constructor
  · simp (disch := decide) only [escape, decode, letter?, hne, if_false]
  · intro c h
    cases h <;> exact hne _ (by decide) rfl

/-- Nothing changes if it is left out. -/
theorem cook_backslash_of_not_ascii (he : 0x7F < e.toNat) (rest : Text) :
    cook (backslash :: e :: rest) = cook (e :: rest) ∧
      ∀ c, Names (backslash :: e :: rest) c ↔ Names (e :: rest) c := by
  obtain ⟨hescape, hdenotes⟩ := escape_of_not_ascii he rest
  have hne : e ≠ backslash := by
    rintro rfl
    exact absurd he (by decide)
  constructor
  · rw [cook_backslash, hescape, cook_cons hne]
    rfl
  · intro c
    have hlater : Names (e :: rest) c ↔ Names rest c :=
      names_append (w := [e]) (by simpa using hne.symm)
    rw [names_backslash, hescape, or_iff_right (hdenotes c), hlater]
    rfl

theorem backslash_not_mem_encode (hc : c ≤ Utf8.lastCodePoint) (hne : c ≠ backslash.toNat) :
    backslash ∉ Utf8.encode c :=
  fun h => hne (Utf8.eq_toNat_of_mem_encode hc h (by decide))

end ReactiveScript.Escape

namespace ReactiveScript

open Escape

/-- **Reading escapes keeps a text valid**, but for halves of pairs that stand alone. -/
theorem cooked_text_valid_iff (raw : Text) (hraw : Utf8.valid raw = true) :
    Utf8.valid (cook raw) = true ↔ ∀ c, Names raw c → Utf8.isSurrogate c = false := by
  refine Utf8.valid_induction (P := fun raw => Utf8.valid (cook raw) = true ↔
    ∀ c, Names raw c → Utf8.isSurrogate c = false) ⟨fun _ _ => nofun, fun _ => rfl⟩ ?_ hraw
  intro c u hc hsurrogate hu ih
  by_cases hbackslash : c = Byte.backslash.toNat
  · subst hbackslash
    have hencode : Utf8.encode Byte.backslash.toNat ++ u = Byte.backslash :: u := rfl
    rw [hencode]
    match u with
    | [] =>
      refine ⟨fun _ c h => ?_, fun _ => rfl⟩
      rcases names_backslash.mp h with h | h <;> cases h
    | e :: rest =>
      by_cases he : e.toNat ≤ 0x7F
      · have hdrop : Utf8.valid ((e :: rest).drop (escape (e :: rest)).width) = true := by
          rwa [← (escape_cases he rest).1.valid_append, List.take_append_drop]
        rw [cook_backslash, valid_escape he, ih _ (List.drop_sublist _ _).length_le hdrop]
        simp only [names_backslash, or_imp, forall_and]
      · obtain ⟨hcook, hnames⟩ := cook_backslash_of_not_ascii (Nat.lt_of_not_le he) rest
        simp only [hcook, hnames]
        exact ih _ (Nat.le_refl _) hu
  · have hmem := backslash_not_mem_encode hc hbackslash
    rw [cook_append hmem, Utf8.valid_encode_append hc, and_iff_right hsurrogate,
      ih u (Nat.le_refl _) hu]
    simp only [names_append hmem]

/-- Two halves that pair, before an escaped letter of two bytes; and two that do not, since the second
    one is in braces. -/
theorem surrogate_halves_cooked :
    (∀ c, Names (txt "\\uD83D\\uDE00\\\u00E9") c → Utf8.isSurrogate c = false) ∧
      Utf8.valid (cook (txt "\\uD83D\\u\x7bDE00\x7d")) = false := by
  constructor
  · exact (cooked_text_valid_iff (txt "\\uD83D\\uDE00\\\u00E9") (by decide +kernel)).mp (by decide +kernel)
  · refine Bool.eq_false_iff.mpr fun hvalid => ?_
    have hnames : Names (txt "\\uD83D\\u\x7bDE00\x7d") 0xD83D := by
      refine .here (.single (spells_iff.mpr ⟨by decide, rfl⟩) fun u low rest hrest hlow => ?_)
      cases hrest
      have hfixed := (spells_iff.mp hlow).1
      cases hfixed
    exact absurd ((cooked_text_valid_iff _ (by decide +kernel)).mp hvalid _ hnames) (by decide)

end ReactiveScript
