import ReactiveScript.Proofs.Token.Locality

/-!
# What stands between quotes

The grammar of strings and templates, and that the scanners keep to it: a string or template in which
they find no fault is one of the grammar.

In a template the body, the code of an interpolation and the strings in that code contain one
another. The scanner holds the constructs that are open in a stack, so what it has still to read is
said of the whole stack: `Nesting.Closes nest t` is a text that closes all of them, one after the
other.
-/

namespace ReactiveScript

open Byte

/-! ## 1. The grammar -/

/-- Do two hexadecimal digits stand at the start of the text? -/
def Text.startsHexPair : Text → Bool
  | high :: low :: _ => isHex high && isHex low
  | _ => false

/-- The text between the quotes of a string. The quote and line feeds stand in it behind a backslash
    only; where escapes are checked, two hexadecimal digits follow `\x`. -/
inductive StringBody (quote : UInt8) (checked : Bool) : Text → Prop
  | nil : StringBody quote checked []
  | plain {b : UInt8} {t : Text} (hquote : b ≠ quote) (hnewline : b ≠ newline)
      (hbackslash : b ≠ backslash) (h : StringBody quote checked t) :
      StringBody quote checked (b :: t)
  | escape {e : UInt8} {t : Text} (hhex : checked = true → e = 0x78 → t.startsHexPair = true)
      (h : StringBody quote checked t) : StringBody quote checked (backslash :: e :: t)

/-- The bytes that open or close something in the code of an interpolation. -/
def Byte.isBracket (b : UInt8) : Bool :=
  b = openBrace || b = closeBrace || b = backtick || b = doubleQuote || b = singleQuote

mutual

/-- The text between the backticks of a template. A backtick stands in it behind a backslash or in an
    interpolation, and every interpolation is closed. -/
inductive TemplateBody : Text → Prop
  | nil : TemplateBody []
  | plain {b : UInt8} {t : Text} (hbacktick : b ≠ backtick) (hbackslash : b ≠ backslash)
      (hdollar : b = dollar → t.head? ≠ some openBrace) (h : TemplateBody t) :
      TemplateBody (b :: t)
  | escape {e : UInt8} {t : Text} (h : TemplateBody t) : TemplateBody (backslash :: e :: t)
  | interpolation {code t : Text} (hcode : TemplateCode code) (h : TemplateBody t) :
      TemplateBody (dollar :: openBrace :: (code ++ closeBrace :: t))

/-- The code of an interpolation, in which braces, templates and strings are closed. A string in it
    may also be ended by its line. -/
inductive TemplateCode : Text → Prop
  | nil : TemplateCode []
  | plain {b : UInt8} {t : Text} (hbracket : isBracket b = false) (h : TemplateCode t) :
      TemplateCode (b :: t)
  | braces {code t : Text} (hcode : TemplateCode code) (h : TemplateCode t) :
      TemplateCode (openBrace :: (code ++ closeBrace :: t))
  | template {body t : Text} (hbody : TemplateBody body) (h : TemplateCode t) :
      TemplateCode (backtick :: (body ++ backtick :: t))
  | string {quote stop : UInt8} {body t : Text}
      (hquote : quote = doubleQuote ∨ quote = singleQuote)
      (hstop : stop = quote ∨ stop = newline) (hbody : StringBody quote false body)
      (h : TemplateCode t) : TemplateCode (quote :: (body ++ stop :: t))

end

/-! ## 2. Strings -/

namespace Lexeme

variable {quote : UInt8}

/-- Two hexadecimal digits are missed unless they are there. -/
theorem startsHexPair_of_hexFault {n : Nat} {t : Text} (h : hexFault n t = []) :
    t.startsHexPair = true := by
  unfold hexFault digitCount at h
  match t with
  | [] => simp at h
  | [b] => cases hb : isHex b <;> simp [hb] at h
  | high :: low :: t =>
    cases hhigh : isHex high <;> cases hlow : isHex low <;> simp_all [Text.startsHexPair]

/-- The digits of an escape belong to the string, as its quote is no digit. -/
theorem startsHexPair_of_append {body rest : Text} (hquote : isHex quote = false)
    (h : Text.startsHexPair (body ++ quote :: rest) = true) : body.startsHexPair = true := by
  match body with
  | [] => cases rest <;> simp_all [Text.startsHexPair]
  | [b] => simp_all [Text.startsHexPair]
  | high :: low :: body => exact h

/-- Faults that were found stay. -/
theorem faults_eq_nil_of_stringFrom {n : Nat} {faults : List (Nat × LexFault)} {t : Text}
    (h : (stringFrom quote n faults t).faults = []) : faults = [] := by
  fun_induction stringFrom quote n faults t <;>
    grind [List.append_eq_nil_iff, List.reverse_eq_nil_iff]

/-- **A string in which no fault is found is closed, and its body is one of the grammar.** -/
theorem stringBody_of_faults_eq_nil (hquote : isHex quote = false) {n : Nat}
    {faults : List (Nat × LexFault)} {t : Text} (h : (stringFrom quote n faults t).faults = []) :
    ∃ body rest, t = body ++ quote :: rest ∧ StringBody quote true body ∧
      (stringFrom quote n faults t).width = n + body.length + 1 := by
  fun_induction stringFrom quote n faults t with
  | case1 => simp at h
  | case2 n faults rest => exact ⟨[], rest, rfl, .nil, rfl⟩
  | case3 => simp at h
  | case4 => simp at h
  | case5 n faults e rest found _ _ ih =>
    obtain ⟨body, more, rfl, hbody, hwidth⟩ := ih h
    have hfound : found = [] := (List.append_eq_nil_iff.mp (faults_eq_nil_of_stringFrom h)).1
    refine ⟨backslash :: e :: body, more, rfl, .escape (fun _ he => ?_) hbody, ?_⟩
    · have hhex : hexFault (n + 2) (body ++ quote :: more) = [] := (if_pos he).symm.trans hfound
      exact startsHexPair_of_append hquote (startsHexPair_of_hexFault hhex)
    · rw [hwidth]
      simp only [List.length_cons]
      omega
  | case6 n faults b rest hb hnewline hbackslash ih =>
    obtain ⟨body, more, rfl, hbody, hwidth⟩ := ih h
    refine ⟨b :: body, more, rfl, .plain hb hnewline hbackslash hbody, ?_⟩
    rw [hwidth, List.length_cons]
    omega

end Lexeme

/-! ## 3. Templates -/

namespace Nesting

/-- A text that closes so many braces, one after the other, and goes on with `rest`. -/
inductive ClosesBraces (rest : Text) : Nat → Text → Prop
  | none : ClosesBraces rest 0 rest
  | more {braces : Nat} {code t : Text} (hcode : TemplateCode code)
      (h : ClosesBraces rest braces t) :
      ClosesBraces rest (braces + 1) (code ++ closeBrace :: t)

/-- A text that closes all the constructs that are open. Of an interpolation without a brace, the
    next byte is known to be its brace; of any other text nothing is said then. -/
def Closes : List Inside → Text → Prop
  | [], t => t = []
  | .body :: outer, t =>
    ∃ body rest, t = body ++ backtick :: rest ∧ TemplateBody body ∧ Closes outer rest
  | .code 0 :: outer, t => t ≠ [] ∧ ∀ u, t = openBrace :: u →
    ∃ rest, ClosesBraces rest 1 u ∧ Closes outer rest
  | .code (braces + 1) :: outer, t => ∃ rest, ClosesBraces rest (braces + 1) t ∧ Closes outer rest
  | .string quote :: outer, t => ∃ body stop rest, t = body ++ stop :: rest ∧
    (stop = quote ∨ stop = newline) ∧ StringBody quote false body ∧ Closes outer rest

section
variable {nest inner outer : List Inside} {b : UInt8} {t : Text} {braces : Nat} {brace : Bool}

theorem Closes.ne_nil (h : Closes nest t) (hnest : nest ≠ []) : t ≠ [] := by
  match nest, h with
  | .body :: _, ⟨body, rest, ht, _⟩ => simp [ht]
  | .code 0 :: _, ⟨ht, _⟩ => exact ht
  | .code (_ + 1) :: _, ⟨_, hbraces, _⟩ => cases hbraces; simp
  | .string _ :: _, ⟨body, stop, rest, ht, _⟩ => simp [ht]

/-- What may stand before code may stand before the code of an interpolation. -/
theorem Closes.prepend {w : Text} (h : Closes (.code braces :: outer) t) (hb : b ≠ openBrace)
    (hcode : ∀ code, TemplateCode code → TemplateCode (b :: (w ++ code))) :
    Closes (.code braces :: outer) (b :: (w ++ t)) := by
  match braces, h with
  | 0, _ => exact ⟨List.cons_ne_nil _ _, fun u hu => absurd (List.cons.inj hu).1 hb⟩
  | _ + 1, ⟨rest, hbraces, houter⟩ =>
    cases hbraces with
    | more hc hu =>
      refine ⟨rest, ?_, houter⟩
      have h := ClosesBraces.more (hcode _ hc) hu
      rwa [List.cons_append, List.append_assoc] at h

/-- A brace that opens is closed before the braces around it. -/
theorem Closes.openBrace (h : Closes (.code (braces + 1) :: outer) t) :
    Closes (.code braces :: outer) (openBrace :: t) := by
  obtain ⟨rest, hbraces, houter⟩ := h
  cases hbraces with
  | more hinner hbraces =>
    cases hbraces with
    | none =>
      refine ⟨List.cons_ne_nil _ _, fun u hu => ?_⟩
      rw [← (List.cons.inj hu).2]
      exact ⟨rest, .more hinner .none, houter⟩
    | more hcode hrest =>
      refine ⟨rest, ?_, houter⟩
      have h := ClosesBraces.more (.braces hinner hcode) hrest
      rwa [List.cons_append, List.append_assoc] at h

/-- A brace that closes is the end of the code in front of the next one. -/
theorem Closes.closeBrace (h : Closes (.code (braces + 1) :: outer) t) :
    Closes (.code (braces + 2) :: outer) (closeBrace :: t) := by
  obtain ⟨rest, hbraces, houter⟩ := h
  exact ⟨rest, .more .nil hbraces, houter⟩

/-- An interpolation is closed within the body around it. -/
theorem Closes.interpolation (h : Closes (.code 0 :: .body :: outer) t)
    (hbrace : t.head? = some Byte.openBrace) : Closes (.body :: outer) (dollar :: t) := by
  obtain ⟨u, rfl⟩ := List.head?_eq_some_iff.mp hbrace
  obtain ⟨_, hbraces, body, rest, rfl, hbody, houter⟩ := h.2 u rfl
  cases hbraces with
  | more hcode hnone =>
    cases hnone
    refine ⟨_, rest, ?_, .interpolation hcode hbody, houter⟩
    simp

/-- In the body of a template. -/
theorem closes_of_stride_body (hstride : stride (.body :: outer) b brace = .go inner)
    (hbrace : t ≠ [] → brace = atBrace t) (h : Closes inner t) :
    Closes (.body :: outer) (b :: t) := by
  simp only [stride] at hstride
  split at hstride
  next hb =>
    split at hstride
    next => cases hstride
    next =>
      cases hstride
      exact ⟨[], t, by rw [hb]; rfl, .nil, h⟩
  next hb =>
    split at hstride
    next => cases hstride
    next hbackslash =>
      split at hstride
      next hdollar =>
        cases hstride
        rw [hdollar.2] at hbrace
        exact hdollar.1 ▸ h.interpolation (by simpa [atBrace] using hbrace h.1)
      next hdollar =>
        cases hstride
        rw [hbrace (h.ne_nil (List.cons_ne_nil _ _))] at hdollar
        obtain ⟨body, rest, rfl, hbody, houter⟩ := h
        refine ⟨b :: body, rest, rfl, .plain hb hbackslash (fun hb' hhead => ?_) hbody, houter⟩
        exact hdollar ⟨hb', by simp [atBrace, List.head?_append, hhead]⟩

/-- In the code of an interpolation. -/
theorem closes_of_stride_code (hstride : stride (.code braces :: outer) b brace = .go inner)
    (h : Closes inner t) : Closes (.code braces :: outer) (b :: t) := by
  simp only [stride] at hstride
  split at hstride
  next hb =>
    cases hstride
    exact hb ▸ h.openBrace
  next hb =>
    split at hstride
    next hclose =>
      subst hclose
      split at hstride
      next hle =>
        split at hstride
        next => cases hstride
        next =>
          cases hstride
          obtain rfl | rfl : braces = 0 ∨ braces = 1 := by omega
          · exact ⟨List.cons_ne_nil _ _, fun u hu => absurd (List.cons.inj hu).1 hb⟩
          · exact ⟨t, .more .nil .none, h⟩
      next hlt =>
        cases hstride
        obtain ⟨n, rfl⟩ := Nat.exists_eq_add_of_le' (Nat.lt_of_not_le hlt)
        exact h.closeBrace
    next =>
      split at hstride
      next hbacktick =>
        cases hstride
        obtain ⟨body, rest, rfl, hbody, h⟩ := h
        have h := h.prepend (w := body ++ [backtick]) hb fun code hcode => by
          rw [hbacktick, List.append_assoc]
          exact .template hbody hcode
        rwa [List.append_assoc] at h
      next =>
        split at hstride
        next hquote =>
          cases hstride
          obtain ⟨body, stop, rest, rfl, hstop, hbody, h⟩ := h
          have h := h.prepend (w := body ++ [stop]) hb fun code hcode => by
            rw [List.append_assoc]
            exact .string hquote hstop hbody hcode
          rwa [List.append_assoc] at h
        next hquote =>
          cases hstride
          have hplain : isBracket b = false := by simp only [isBracket]; grind
          exact h.prepend (w := []) hb fun code hcode => .plain hplain hcode

/-- In a string of an interpolation. -/
theorem closes_of_stride_string {quote : UInt8}
    (hstride : stride (.string quote :: outer) b brace = .go inner) (h : Closes inner t) :
    Closes (.string quote :: outer) (b :: t) := by
  simp only [stride] at hstride
  split at hstride
  next hstop =>
    cases hstride
    exact ⟨[], b, t, rfl, hstop, .nil, h⟩
  next hstop =>
    split at hstride
    next => cases hstride
    next hbackslash =>
      cases hstride
      obtain ⟨body, stop, rest, rfl, hs, hbody, houter⟩ := h
      obtain ⟨hquote, hnewline⟩ := not_or.mp hstop
      exact ⟨b :: body, stop, rest, rfl, hs, .plain hquote hnewline hbackslash hbody, houter⟩

/-- **What closes the constructs that are open behind a byte closes, with it, those that are open
    before it.** -/
theorem closes_of_stride (hstride : stride nest b brace = .go inner)
    (hbrace : t ≠ [] → brace = atBrace t) (h : Closes inner t) : Closes nest (b :: t) := by
  match nest with
  | [] => cases hstride
  | .body :: outer => exact closes_of_stride_body hstride hbrace h
  | .code braces :: outer => exact closes_of_stride_code hstride h
  | .string quote :: outer => exact closes_of_stride_string hstride h

/-- A backslash takes the byte behind it along. -/
theorem closes_of_escape (hstride : stride nest b brace = .escape) (e : UInt8) (h : Closes nest t) :
    Closes nest (b :: e :: t) := by
  match nest with
  | [] => cases hstride
  | .body :: outer =>
    have hb : b = backslash := by unfold stride at hstride; grind
    obtain ⟨body, rest, rfl, hbody, houter⟩ := h
    exact ⟨b :: e :: body, rest, rfl, hb ▸ .escape hbody, houter⟩
  | .code braces :: outer =>
    unfold stride at hstride
    grind
  | .string quote :: outer =>
    have hb : b = backslash := by unfold stride at hstride; grind
    obtain ⟨body, stop, rest, rfl, hstop, hbody, houter⟩ := h
    refine ⟨b :: e :: body, stop, rest, rfl, hstop, hb ▸ .escape ?_ hbody, houter⟩
    intro hchecked
    cases hchecked

/-- The byte that closes the outermost construct. -/
theorem closes_of_close {bytes : Nat} (hstride : stride nest b brace = .close bytes) :
    Closes nest ([b].take bytes) := by
  rcases stride_close hstride with ⟨rfl, rfl⟩ | ⟨rfl, ⟨rfl, rfl⟩ | ⟨braces, rfl, rfl⟩⟩
  · rfl
  · exact ⟨[], [], rfl, .nil, rfl⟩
  · match braces with
    | 0 => exact ⟨List.cons_ne_nil _ _, fun u hu => absurd (List.cons.inj hu).1 (by decide)⟩
    | 1 => exact ⟨[], .more .nil .none, rfl⟩
    | braces + 2 => simp [stride, closeBrace, openBrace] at hstride

end

/-- **The bytes up to the end of the outermost construct close all that is open.** -/
theorem closes_of_closeFrom (nest : List Inside) (n : Nat) (t : Text)
    (h : (closeFrom nest n t).2 = true) :
    ∃ u rest, t = u ++ rest ∧ (closeFrom nest n t).1 = n + u.length ∧ Closes nest u := by
  induction nest, n, t using closeFrom_induction with
  | nil nest n => cases h
  | close nest n b rest bytes hstride heq =>
    have hbytes := stride_close hstride
    refine ⟨[b].take bytes, [b].drop bytes ++ rest, ?_, ?_, closes_of_close hstride⟩
    · rw [← List.append_assoc, List.take_append_drop]
      rfl
    · rw [heq, List.length_take, List.length_singleton]
      omega
  | escapeEnd nest n b _ heq => rw [heq] at h; cases h
  | escape nest n b e rest hstride heq ih =>
    rw [heq] at h ⊢
    obtain ⟨u, more, rfl, hlength, hcloses⟩ := ih h
    refine ⟨b :: e :: u, more, rfl, ?_, closes_of_escape hstride e hcloses⟩
    rw [hlength]
    simp only [List.length_cons]
    omega
  | go nest n b rest inner hstride heq ih =>
    rw [heq] at h ⊢
    obtain ⟨u, more, rfl, hlength, hcloses⟩ := ih h
    refine ⟨b :: u, more, rfl, ?_, closes_of_stride hstride (fun hu => ?_) hcloses⟩
    · rw [hlength, List.length_cons]
      omega
    · obtain ⟨c, u, rfl⟩ := List.exists_cons_of_ne_nil hu
      rfl

/-- **A template that is closed has a body of the grammar.** -/
theorem templateBody_of_closeFrom {n : Nat} {t : Text} (h : (closeFrom [.body] n t).2 = true) :
    ∃ body rest, t = body ++ backtick :: rest ∧ TemplateBody body ∧
      (closeFrom [.body] n t).1 = n + body.length + 1 := by
  obtain ⟨_, rest, rfl, hlength, body, _, rfl, hbody, rfl⟩ := closes_of_closeFrom [.body] n t h
  refine ⟨body, rest, by simp, hbody, ?_⟩
  rw [hlength, List.length_append, List.length_singleton]
  omega

end Nesting

end ReactiveScript
