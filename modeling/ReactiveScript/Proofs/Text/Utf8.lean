import ReactiveScript.Text.Utf8

/-!
# Characters in UTF-8

`Utf8.valid` reads a text byte by byte and knows no characters. It accepts the texts that are a
character after the other: a code point up to the last one that is not half of a surrogate pair.
-/

namespace ReactiveScript.Utf8

variable {c : Nat} {b : UInt8} {t : Text}

/-- Half of a surrogate pair, which is no character. -/
def isSurrogate (c : Nat) : Bool := isHighSurrogate c || isLowSurrogate c

theorem isSurrogate_eq_false : isSurrogate c = false ↔ c < 0xD800 ∨ 0xDFFF < c := by
  simp [isSurrogate, isHighSurrogate, isLowSurrogate]
  omega

theorem toNat_toUInt8 {n : Nat} (h : n < 0x100) : n.toUInt8.toNat = n := Nat.mod_eq_of_lt h

/-! ## 1. The bytes of a character -/

theorem valid_ascii (hb : b.toNat ≤ 0x7F) (t : Text) : valid (b :: t) = valid t := by
  have hafter : Owed.after? b = some .nothing := if_pos (UInt8.le_iff_toNat_le.mpr hb)
  rw [valid, valid, validFrom]
  simp only [Owed.nothing, hafter]

theorem validFrom_cons (n : Nat) (low high x : UInt8) (t : Text) :
    validFrom { count := n + 1, low := low, high := high } (x :: t) = true ↔
      (low.toNat ≤ x.toNat ∧ x.toNat ≤ high.toNat) ∧ validFrom { count := n } t = true := by
  simp only [validFrom, UInt8.le_iff_toNat_le, Bool.and_eq_true, decide_eq_true_eq]

theorem exists_cons_of_validFrom {n : Nat} (h : validFrom { count := n + 1 } t = true) :
    ∃ x u, t = x :: u ∧ (0x80 ≤ x.toNat ∧ x.toNat ≤ 0xBF) ∧ validFrom { count := n } u = true := by
  cases t with
  | nil => cases h
  | cons x u => exact ⟨x, u, rfl, (validFrom_cons n _ _ x u).mp h⟩

/-- How many bytes follow the second byte of a character that starts with `b`. -/
def following (b : UInt8) : Nat :=
  if b.toNat ≤ 0xDF then 0 else if b.toNat ≤ 0xEF then 1 else 2

/-- The debt after the first of several bytes. -/
theorem Owed.after?_eq (hb : 0x7F < b.toNat) :
    after? b =
      if 0xC2 ≤ b.toNat ∧ b.toNat ≤ 0xF4 then
        some {
          count := following b + 1
          low := if b.toNat = 0xE0 then 0xA0 else if b.toNat = 0xF0 then 0x90 else 0x80
          high := if b.toNat = 0xED then 0x9F else if b.toNat = 0xF4 then 0x8F else 0xBF }
      else none := by
  unfold after? following
  simp only [UInt8.le_iff_toNat_le, ← UInt8.toNat_inj, beq_iff_eq, Bool.and_eq_true,
    decide_eq_true_eq, UInt8.reduceToNat]
  repeat' split
  all_goals first | omega | rfl

/-- The first two bytes of a character that has several. The bounds of the second one keep out what
    has a shorter form, the surrogates and what lies above the last code point. -/
def Leads (b x : UInt8) : Prop :=
  (0xC2 ≤ b.toNat ∧ b.toNat ≤ 0xF4) ∧ (0x80 ≤ x.toNat ∧ x.toNat ≤ 0xBF) ∧
    (b.toNat = 0xE0 → 0xA0 ≤ x.toNat) ∧ (b.toNat = 0xED → x.toNat ≤ 0x9F) ∧
    (b.toNat = 0xF0 → 0x90 ≤ x.toNat) ∧ (b.toNat = 0xF4 → x.toNat ≤ 0x8F)

theorem valid_cons_cons {x : UInt8} (hb : 0x7F < b.toNat) (t : Text) :
    valid (b :: x :: t) = true ↔ Leads b x ∧ validFrom { count := following b } t = true := by
  rw [valid, validFrom]
  simp only [Owed.nothing, Owed.after?_eq hb]
  by_cases hlead : 0xC2 ≤ b.toNat ∧ b.toNat ≤ 0xF4
  · simp only [if_pos hlead, validFrom_cons]
    refine and_congr_left fun _ => ?_
    rw [Leads]
    repeat' split
    all_goals simp only [UInt8.reduceToNat]; omega
  · simp [Leads, hlead]

theorem exists_cons_cons_of_valid (hb : 0x7F < b.toNat) (h : valid (b :: t) = true) :
    ∃ x u, t = x :: u ∧ Leads b x ∧ validFrom { count := following b } u = true := by
  cases t with
  | nil =>
    rw [valid, validFrom] at h
    simp only [Owed.nothing, Owed.after?_eq hb] at h
    split at h
    · rename_i heq
      split at heq <;> cases heq
      cases h
    · cases h
  | cons x u => exact ⟨x, u, rfl, (valid_cons_cons hb u).mp h⟩

/-! ## 2. Characters and texts -/

/-- **A valid text may start with any code point but half of a pair.** -/
theorem valid_encode_append (hc : c ≤ lastCodePoint) (t : Text) :
    valid (encode c ++ t) = true ↔ isSurrogate c = false ∧ valid t = true := by
  rw [lastCodePoint] at hc
  rw [isSurrogate_eq_false]
  have hlast : (0x80 + c % 0x40).toUInt8.toNat = 0x80 + c % 0x40 := toNat_toUInt8 (by omega)
  have hmiddle : (0x80 + c / 0x40 % 0x40).toUInt8.toNat = 0x80 + c / 0x40 % 0x40 :=
    toNat_toUInt8 (by omega)
  have hupper : (0x80 + c / 0x1000 % 0x40).toUInt8.toNat = 0x80 + c / 0x1000 % 0x40 :=
    toNat_toUInt8 (by omega)
  unfold encode
  split
  · rw [List.singleton_append, valid_ascii (by rw [toNat_toUInt8] <;> omega)]
    exact (and_iff_right (by omega)).symm
  split
  · have hb : (0xC0 + c / 0x40).toUInt8.toNat = 0xC0 + c / 0x40 := toNat_toUInt8 (by omega)
    simp only [List.cons_append, List.nil_append]
    rw [valid_cons_cons (by omega), Leads, hb, hlast, following, hb, if_pos (by omega)]
    exact and_congr_left fun _ => by omega
  split
  · have hb : (0xE0 + c / 0x1000).toUInt8.toNat = 0xE0 + c / 0x1000 := toNat_toUInt8 (by omega)
    simp only [List.cons_append, List.nil_append]
    rw [valid_cons_cons (by omega), Leads, hb, hmiddle, following, hb, if_neg (by omega),
      if_pos (by omega), validFrom_cons, hlast, ← and_assoc]
    exact and_congr_left fun _ => by simp only [UInt8.reduceToNat]; omega
  · have hb : (0xF0 + c / 0x40000).toUInt8.toNat = 0xF0 + c / 0x40000 := toNat_toUInt8 (by omega)
    simp only [List.cons_append, List.nil_append]
    rw [valid_cons_cons (by omega), Leads, hb, hupper, following, hb, if_neg (by omega),
      if_neg (by omega), validFrom_cons, validFrom_cons, hmiddle, hlast, ← and_assoc, ← and_assoc]
    exact and_congr_left fun _ => by simp only [UInt8.reduceToNat]; omega

/-- **A valid text starts with a character**, and what follows is valid. -/
theorem exists_encode_of_valid (h : valid (b :: t) = true) :
    ∃ c u, b :: t = encode c ++ u ∧ c ≤ lastCodePoint ∧ isSurrogate c = false ∧
      valid u = true := by
  simp only [isSurrogate_eq_false, lastCodePoint]
  by_cases hb : b.toNat ≤ 0x7F
  · refine ⟨b.toNat, t, ?_, by omega, by omega, by rwa [valid_ascii hb] at h⟩
    rw [encode, if_pos (by omega)]
    simp
  obtain ⟨x, u, rfl, hlead, h⟩ := exists_cons_cons_of_valid (by omega) h
  unfold following at h
  unfold Leads at hlead
  -- The code point is put together from the bits of its bytes.
  split at h
  · refine ⟨(b.toNat - 0xC0) * 0x40 + (x.toNat - 0x80), u, ?_, by omega, by omega, h⟩
    rw [encode, if_neg (by omega), if_pos (by omega)]
    simp [← UInt8.toNat_inj]
    omega
  split at h
  · obtain ⟨y, u, rfl, hy, h⟩ := exists_cons_of_validFrom h
    refine ⟨(b.toNat - 0xE0) * 0x1000 + (x.toNat - 0x80) * 0x40 + (y.toNat - 0x80), u, ?_,
      by omega, by omega, h⟩
    rw [encode, if_neg (by omega), if_neg (by omega), if_pos (by omega)]
    simp [← UInt8.toNat_inj]
    omega
  · obtain ⟨y, u, rfl, hy, h⟩ := exists_cons_of_validFrom h
    obtain ⟨z, u, rfl, hz, h⟩ := exists_cons_of_validFrom h
    refine ⟨(b.toNat - 0xF0) * 0x40000 + (x.toNat - 0x80) * 0x1000 + (y.toNat - 0x80) * 0x40 +
      (z.toNat - 0x80), u, ?_, by omega, by omega, h⟩
    rw [encode, if_neg (by omega), if_neg (by omega), if_neg (by omega)]
    simp [← UInt8.toNat_inj]
    omega

theorem encode_ne_nil (c : Nat) : encode c ≠ [] := by
  unfold encode
  repeat' split
  all_goals exact List.cons_ne_nil _ _

/-- The bytes of a character of several bytes are none by themselves. -/
theorem eq_toNat_of_mem_encode (hc : c ≤ lastCodePoint) (hb : b ∈ encode c)
    (hascii : b.toNat ≤ 0x7F) : c = b.toNat := by
  rw [lastCodePoint] at hc
  unfold encode at hb
  repeat' split at hb
  all_goals
    simp only [List.mem_cons, List.not_mem_nil, or_false, ← UInt8.toNat_inj, Nat.toUInt8_eq,
      UInt8.toNat_ofNat'] at hb
    omega

/-- **Induction on valid texts**, from all that are no longer to one with a character more. -/
theorem valid_induction {P : Text → Prop} (nil : P [])
    (cons : ∀ c u, c ≤ lastCodePoint → isSurrogate c = false → valid u = true →
      (∀ v : Text, v.length ≤ u.length → valid v = true → P v) → P (encode c ++ u))
    {t : Text} (h : valid t = true) : P t := by
  suffices ∀ n, ∀ v : Text, v.length < n → valid v = true → P v from
    this (t.length + 1) t (Nat.lt_succ_self _) h
  intro n
  induction n with
  | zero => exact fun v hv => absurd hv (Nat.not_lt_zero _)
  | succ n ih =>
    rintro (_ | ⟨b, v⟩) hlength hv
    · exact nil
    obtain ⟨c, u, heq, hc, hsurrogate, hu⟩ := exists_encode_of_valid hv
    rw [heq] at hlength ⊢
    have hpos := List.length_pos_iff.mpr (encode_ne_nil c)
    rw [List.length_append] at hlength
    exact cons c u hc hsurrogate hu fun w hw => ih w (by omega)

end ReactiveScript.Utf8
