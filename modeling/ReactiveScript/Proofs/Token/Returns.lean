import ReactiveScript.Proofs.Token.Locality

/-!
# Line ends of two bytes

A line may end with a carriage return and a line feed. A token that does not reach beyond its line
is the same with either line end; a template is the same but for the added bytes in its text, unless
a string inside one of its interpolations has an escaped line end. A string that is cut off by its
line takes the carriage return along.
-/

namespace ReactiveScript

open Byte

/-- The text with a carriage return before every line feed. -/
def Text.withReturns : Text → Text
  | [] => []
  | b :: t =>
    if b = newline then carriageReturn :: newline :: withReturns t
    else b :: withReturns t

namespace Text

/-! ## 1. Texts with carriage returns -/

@[simp] theorem withReturns_nil : withReturns [] = [] := rfl

@[simp] theorem withReturns_newline (t : Text) :
    withReturns (newline :: t) = carriageReturn :: newline :: withReturns t := rfl

theorem withReturns_cons {b : UInt8} (hb : b ≠ newline) (t : Text) :
    withReturns (b :: t) = b :: withReturns t := if_neg hb

theorem withReturns_append (s t : Text) : withReturns (s ++ t) = withReturns s ++ withReturns t := by
  induction s with
  | nil => rfl
  | cons b s ih =>
    by_cases hb : b = newline
    · subst hb
      simp [ih]
    · simp [withReturns_cons hb, ih]

theorem withReturns_split (t : Text) (n : Nat) :
    t.withReturns = withReturns (t.take n) ++ withReturns (t.drop n) := by
  rw [← withReturns_append, List.take_append_drop]

/-- Within a line nothing is added. -/
theorem withReturns_of_notMem {t : Text} (h : newline ∉ t) : withReturns t = t := by
  induction t with
  | nil => rfl
  | cons b t ih =>
    rw [withReturns_cons (List.ne_of_not_mem_cons h).symm, ih (List.not_mem_of_not_mem_cons h)]

theorem withReturns_eq_nil {t : Text} : withReturns t = [] ↔ t = [] := by
  cases t with
  | nil => simp
  | cons b t =>
    by_cases hb : b = newline
    · simp [hb]
    · simp [withReturns_cons hb]

/-- **The first line of a text**, and what stands behind it with either line end. -/
theorem exists_line (t : Text) : ∃ line rest, t = line ++ rest ∧
    t.withReturns = line ++ rest.withReturns ∧ newline ∉ line ∧
      rest.startsBreak = true ∧ rest.withReturns.startsBreak = true := by
  induction t with
  | nil => exact ⟨[], [], rfl, rfl, List.not_mem_nil, rfl, rfl⟩
  | cons b t ih =>
    by_cases hb : b = newline
    · exact ⟨[], b :: t, rfl, rfl, List.not_mem_nil, by rw [hb]; rfl, by rw [hb]; rfl⟩
    · obtain ⟨line, rest, rfl, hreturns, hline, hrest⟩ := ih
      refine ⟨b :: line, rest, rfl, ?_, ?_, hrest⟩
      · rw [withReturns_cons hb, hreturns, List.cons_append]
      · exact List.not_mem_cons_of_ne_of_not_mem (Ne.symm hb) hline

theorem head?_withReturns {b : UInt8} (hline : b ≠ newline) (hreturn : b ≠ carriageReturn)
    (t : Text) : t.withReturns.head? = some b ↔ t.head? = some b := by
  obtain ⟨line, more, rfl, hreturns, -, hmore, hmore'⟩ := t.exists_line
  rw [hreturns, head?_append_ne hmore' hline hreturn, head?_append_ne hmore hline hreturn]

end Text

/-! ## 2. Tokens that end by themselves -/

namespace Lexeme

/-- **A token that ends by itself is the same with either line end**, and stands on one line. -/
theorem scan_withReturns {b : UInt8} (hb : b ≠ newline) {rest : Text}
    (hstring : (scan b rest).kind ≠ .string) (htemplate : (scan b rest).kind ≠ .template) :
    scan b rest.withReturns = scan b rest ∧
      newline ∉ (b :: rest).take (scan b rest).width := by
  obtain ⟨line, more, rfl, hreturns, hline, hmore, hmore'⟩ := rest.exists_line
  have hscan : scan b (line ++ more) = scan b line := by
    rcases scan_append hmore b line with h | ⟨⟨-, -, hkind⟩, heq, -⟩
    · exact h
    · rw [← heq] at hkind
      exact (hkind.elim hstring htemplate).elim
  rw [hscan] at hstring htemplate ⊢
  have hscan' : scan b (line ++ more.withReturns) = scan b line := by
    rcases scan_append hmore' b line with h | ⟨⟨-, -, hkind⟩, -⟩
    · exact h
    · exact (hkind.elim hstring htemplate).elim
  refine ⟨hreturns ▸ hscan', fun hmem => ?_⟩
  rw [← List.cons_append, List.take_append_of_le_length (scan_width_le b line)] at hmem
  exact List.not_mem_cons_of_ne_of_not_mem hb.symm hline (List.mem_of_mem_take hmem)

end Lexeme

/-! ## 3. Strings -/

namespace Lexeme

open Text

theorem hexFault_withReturns (n : Nat) (t : Text) : hexFault n t.withReturns = hexFault n t := by
  obtain ⟨line, more, rfl, hreturns, -, hmore, hmore'⟩ := t.exists_line
  rw [hreturns, hexFault_append hmore', hexFault_append hmore]

section
variable {quote : UInt8} {n : Nat} {faults : List (Nat × LexFault)} {rest : Text}

theorem stringFrom_newline (hquote : newline ≠ quote) :
    stringFrom quote n faults (newline :: rest) =
      { kind := .string, width := n, faults := ((n, .lineInString) :: faults).reverse } := by
  rw [stringFrom.eq_def]
  simp [hquote]

theorem stringFrom_escape (hquote : backslash ≠ quote) (e : UInt8) :
    stringFrom quote n faults (backslash :: e :: rest) =
      stringFrom quote (n + 2) ((if e = 0x78 then hexFault (n + 2) rest else []) ++ faults) rest := by
  rw [stringFrom.eq_def]
  simp [hquote, show backslash ≠ newline by decide]

theorem stringFrom_go {b : UInt8} (hquote : b ≠ quote) (hnewline : b ≠ newline)
    (hescape : b ≠ backslash) :
    stringFrom quote n faults (b :: rest) = stringFrom quote (n + 1) faults rest := by
  rw [stringFrom.eq_def]
  simp [hquote, hnewline, hescape]

end

/-- What becomes of a lexeme when lines end with two bytes, `n` bytes having been read before the
    text: it stays as it is or, cut off by its line, takes the carriage return along. -/
def Stays (n : Nat) (t : Text) (l l' : Lexeme) : Prop :=
  l' = l ∨ ((t.drop (l.width - n)).head? = some newline ∧ l.faults ≠ [] ∧ l'.kind = l.kind ∧
    l'.width = l.width + 1 ∧ l'.faults.length = l.faults.length)

theorem Stays.append {n : Nat} {t : Text} {l l' : Lexeme} (w : Text)
    (h : Stays (n + w.length) t l l') (hwidth : n + w.length ≤ l.width) :
    Stays n (w ++ t) l l' := by
  refine h.imp id fun hcut => ⟨?_, hcut.2⟩
  rw [← hcut.1, List.drop_append, List.drop_eq_nil_of_le (by omega), List.nil_append, Nat.sub_sub]

/-- The bytes that are read now and those that are read further on. -/
theorem mem_take_append {n m : Nat} (w : Text) {t : Text} {b : UInt8} (hm : n + w.length ≤ m) :
    b ∈ (w ++ t).take (m - n) ↔ b ∈ w ∨ b ∈ t.take (m - (n + w.length)) := by
  rw [List.take_append, List.take_of_length_le (by omega), List.mem_append, Nat.sub_sub]

/-- **A string without a line end in it** is the same with either line end, but for the carriage
    return of the line that cuts it off. -/
theorem stringFrom_withReturns {quote : UInt8} (hline : quote ≠ newline)
    (hreturn : quote ≠ carriageReturn) (n : Nat) (faults : List (Nat × LexFault)) (t : Text)
    (h : newline ∉ t.take ((stringFrom quote n faults t).width - n)) :
    Stays n t (stringFrom quote n faults t) (stringFrom quote n faults t.withReturns) := by
  fun_induction stringFrom quote n faults t with
  | case1 n faults => exact .inl rfl
  | case2 n faults rest =>
    rw [withReturns_cons hline, stringFrom.eq_def]
    exact .inl (if_pos rfl)
  | case3 n faults rest hquote =>
    rw [withReturns_newline, stringFrom_go hreturn.symm (by decide) (by decide),
      stringFrom_newline hquote]
    exact .inr ⟨by rw [Nat.sub_self]; rfl, by simp, rfl, rfl, by simp⟩
  | case4 n faults hquote hnewline =>
    rw [withReturns_cons hnewline, withReturns_nil, stringFrom.eq_def]
    exact .inl (by simp [hquote, hnewline])
  | case5 n faults e rest found hquote hnewline ih =>
    have hwidth := le_stringFrom_width quote (n + 2) (found ++ faults) rest
    obtain ⟨hfirst, hrest⟩ :=
      not_or.mp (mt (mem_take_append [backslash, e] hwidth).mpr h)
    have he : e ≠ newline := fun he => hfirst (by simp [he])
    rw [withReturns_cons hnewline, withReturns_cons he, stringFrom_escape hquote,
      hexFault_withReturns]
    exact Stays.append [backslash, e] (ih hrest) hwidth
  | case6 n faults b rest hquote hnewline hescape ih =>
    have hwidth := le_stringFrom_width quote (n + 1) faults rest
    obtain ⟨-, hrest⟩ := not_or.mp (mt (mem_take_append [b] hwidth).mpr h)
    rw [withReturns_cons hnewline, stringFrom_go hquote hnewline hescape]
    exact Stays.append [b] (ih hrest) hwidth

/-- **A string with a line end in it** is cut off where its line ends with two bytes. -/
theorem stringFrom_withReturns_faults {quote : UInt8} (hline : quote ≠ newline)
    (n : Nat) (faults : List (Nat × LexFault)) (t : Text)
    (h : newline ∈ t.take ((stringFrom quote n faults t).width - n)) :
    (stringFrom quote n faults t.withReturns).faults ≠ [] := by
  fun_induction stringFrom quote n faults t with
  | case1 n faults => simp at h
  | case2 n faults rest => simp [hline.symm] at h
  | case3 n faults rest hquote => simp at h
  | case4 n faults hquote hnewline => simp [Ne.symm hnewline] at h
  | case5 n faults e rest found hquote hnewline ih =>
    have hwidth := le_stringFrom_width quote (n + 2) (found ++ faults) rest
    rw [withReturns_cons hnewline]
    by_cases he : e = newline
    · -- The backslash escapes the carriage return, and the line feed stands by itself.
      subst he
      rw [withReturns_newline, stringFrom_escape hquote, stringFrom_newline hline.symm]
      simp
    · rw [withReturns_cons he, stringFrom_escape hquote, hexFault_withReturns]
      refine ih (((mem_take_append [backslash, e] hwidth).mp h).resolve_left ?_)
      simp [Ne.symm hnewline, Ne.symm he]
  | case6 n faults b rest hquote hnewline hescape ih =>
    have hwidth := le_stringFrom_width quote (n + 1) faults rest
    rw [withReturns_cons hnewline, stringFrom_go hquote hnewline hescape]
    refine ih (((mem_take_append [b] hwidth).mp h).resolve_left ?_)
    simp [Ne.symm hnewline]

end Lexeme

/-! ## 4. Templates -/

namespace Nesting

variable {nest inner : List Inside} {b : UInt8} {brace : Bool}

open Text

/-- The innermost construct is a string. -/
def inString : List Inside → Bool
  | .string _ :: _ => true
  | _ => false

/-- Is a line end escaped in a string inside an interpolation? -/
def continues (nest : List Inside) : Text → Bool
  | [] => false
  | b :: rest =>
    match stride nest b (atBrace rest) with
    | .close _ => false
    | .escape =>
      match rest with
      | [] => false
      | c :: rest => (inString nest && c == newline) || continues nest rest
    | .go inner => continues inner rest

/-- The strings that are open have one of the two quotes. -/
def Quoted (nest : List Inside) : Prop :=
  ∀ quote, .string quote ∈ nest → quote = doubleQuote ∨ quote = singleQuote

theorem Quoted.stride (h : Quoted nest) (hstride : stride nest b brace = .go inner) :
    Quoted inner := by
  unfold Nesting.stride at hstride
  unfold Quoted at *
  grind

theorem atBrace_withReturns (t : Text) : atBrace t.withReturns = atBrace t := by
  obtain ⟨line, more, rfl, hreturns, -, hmore, hmore'⟩ := t.exists_line
  rw [hreturns, atBrace_append hmore', atBrace_append hmore]

/-- A carriage return is a byte like others, wherever a line feed does not close anything. -/
theorem stride_carriageReturn (h : Quoted nest) (brace : Bool) :
    stride nest carriageReturn brace = if nest = [] then .close 0 else .go nest := by
  cases nest with
  | nil => rfl
  | cons i outer =>
    cases i with
    | body | code => rfl
    | string quote => rcases h quote List.mem_cons_self with rfl | rfl <;> rfl

theorem stride_newline (nest : List Inside) (brace : Bool) :
    stride nest newline brace =
      match nest with
      | [] => .close 0
      | .string _ :: outer => .go outer
      | _ => .go nest := by
  cases nest with
  | nil => rfl
  | cons i outer =>
    cases i with
    | body | code => rfl
    | string quote => simp [stride]

theorem eq_backslash_of_stride (h : stride nest b brace = .escape) : b = backslash := by
  unfold stride at h
  grind

theorem continues_escape {c : UInt8} {rest : Text}
    (h : stride nest b (atBrace (c :: rest)) = .escape) :
    continues nest (b :: c :: rest) =
      ((inString nest && c == newline) || continues nest rest) := by
  rw [continues.eq_def]
  dsimp only
  rw [h]

theorem continues_go {rest : Text} (h : stride nest b (atBrace rest) = .go inner) :
    continues nest (b :: rest) = continues inner rest := by
  rw [continues.eq_def]
  dsimp only
  rw [h]

/-- The two bytes of a line end do what its line feed did. -/
theorem closeFrom_return (hquoted : Quoted nest) (h : stride nest newline brace = .go inner)
    (n : Nat) (rest : Text) :
    closeFrom nest n (carriageReturn :: newline :: rest) =
      closeFrom inner (n + 2) rest := by
  have hopen : nest ≠ [] := by
    rintro rfl
    cases h
  rw [stride_newline] at h
  rw [closeFrom_cons, stride_carriageReturn hquoted, if_neg hopen]
  dsimp only
  rw [closeFrom_cons, stride_newline, h]

/-- Outside a string an escaped line end is skipped as before: its line feed is one byte more. -/
theorem closeFrom_escaped_return (h : stride nest backslash brace = .escape)
    (hstring : inString nest = false) (n : Nat) (rest : Text) :
    closeFrom nest n (backslash :: carriageReturn :: newline :: rest) =
      closeFrom nest (n + 3) rest := by
  match nest, hstring with
  | .body :: outer, _ =>
    rw [closeFrom_cons]
    change closeFrom (.body :: outer) (n + 2) (newline :: rest) = _
    rw [closeFrom_cons]
    rfl
  | .code _ :: _, _ => cases h
  | [], _ => cases h

/-- **A template is closed where it was**, if no string in it has an escaped line end. -/
theorem closeFrom_withReturns (nest : List Inside) (n : Nat) (t : Text) (hquoted : Quoted nest)
    (h : continues nest t = false) (m : Nat) :
    closeFrom nest m t.withReturns =
      (m + (withReturns (t.take ((closeFrom nest n t).1 - n))).length, (closeFrom nest n t).2) := by
  induction nest, n, t using closeFrom_induction generalizing m with
  | nil nest n => rw [closeFrom.eq_def, closeFrom.eq_def]; simp
  | close nest n b rest bytes hstride heq =>
    rw [heq, Nat.add_sub_cancel_left]
    rcases stride_close hstride with ⟨rfl, rfl⟩ | ⟨rfl, hcloser⟩
    · obtain ⟨c, u, hu⟩ : ∃ c u, withReturns (b :: rest) = c :: u :=
        List.exists_cons_of_ne_nil (by simp [withReturns_eq_nil])
      rw [hu, closeFrom_cons]
      rfl
    · have hb : b ≠ newline := by
        rcases hcloser with ⟨-, rfl⟩ | ⟨_, -, rfl⟩ <;> decide
      rw [withReturns_cons hb, closeFrom_cons, atBrace_withReturns, hstride]
      simp [withReturns_cons hb]
  | escapeEnd nest n b hstride heq =>
    obtain rfl := eq_backslash_of_stride hstride
    rw [heq, withReturns_of_notMem (by decide), closeFrom_cons, show atBrace [] = false from rfl,
      hstride, Nat.add_sub_cancel_left]
    rfl
  | escape nest n b c rest hstride heq ih =>
    obtain rfl := eq_backslash_of_stride hstride
    have hback : backslash ≠ newline := by decide
    rw [continues_escape hstride, Bool.or_eq_false_iff] at h
    obtain ⟨k, hk⟩ := Nat.exists_eq_add_of_le (le_closeFrom nest (n + 2) rest)
    specialize ih hquoted h.2
    rw [hk, Nat.add_sub_cancel_left] at ih
    rw [heq, hk, show n + 2 + k - n = k + 1 + 1 by omega, List.take_succ_cons,
      List.take_succ_cons, withReturns_cons hback, withReturns_cons hback]
    by_cases hc : c = newline
    · subst hc
      have hstring : inString nest = false := by simpa using h.1
      rw [withReturns_newline, withReturns_newline, closeFrom_escaped_return hstride hstring, ih]
      simp only [List.length_cons]
      congr 1
      omega
    · rw [withReturns_cons hc, withReturns_cons hc, closeFrom_cons,
        show atBrace (c :: withReturns rest) = atBrace (c :: rest) from rfl, hstride]
      dsimp only [List.isEmpty_cons, List.tail_cons]
      rw [if_neg Bool.false_ne_true, ih]
      simp only [List.length_cons]
      congr 1
      omega
  | go nest n b rest inner hstride heq ih =>
    rw [continues_go hstride] at h
    obtain ⟨k, hk⟩ := Nat.exists_eq_add_of_le (le_closeFrom inner (n + 1) rest)
    specialize ih (hquoted.stride hstride) h
    rw [hk, Nat.add_sub_cancel_left] at ih
    rw [heq, hk, show n + 1 + k - n = k + 1 by omega, List.take_succ_cons]
    by_cases hb : b = newline
    · subst hb
      rw [withReturns_newline, withReturns_newline, closeFrom_return hquoted hstride, ih]
      simp only [List.length_cons]
      congr 1
      omega
    · rw [withReturns_cons hb, withReturns_cons hb, closeFrom_cons, atBrace_withReturns, hstride]
      dsimp only
      rw [ih, List.length_cons]
      congr 1
      omega

/-- The text of a template, with carriage returns, is not that of one template any more. -/
def Torn (t : Text) : Prop :=
  closeFrom [.body] 1 (withReturns (t.drop 1)) ≠
    (t.withReturns.length, (closeFrom [.body] 1 (t.drop 1)).2)

instance : DecidablePred Torn := fun _ => inferInstanceAs (Decidable (_ ≠ _))

end Nesting

/-! ## 5. All tokens -/

namespace Lexeme

variable {b : UInt8}

open Text Nesting

/-- What becomes of a lexeme of a text when its lines end with two bytes: it grows by the carriage
    returns in it and, cut off by its line, by the one that stands behind it. -/
structure Returned (t : Text) (l l' : Lexeme) : Prop where
  kind : l'.kind = l.kind
  faults : l'.faults.length = l.faults.length
  width : l'.width = (withReturns (t.take l.width)).length ∨
    l.faults ≠ [] ∧ (t.drop l.width).head? = some newline ∧
      l'.width = (withReturns (t.take l.width)).length + 1

/-- A lexeme that stays on its line grows by nothing in it. -/
theorem Stays.returned {rest : Text} {l l' : Lexeme} (h : Stays 1 rest l l') (hpos : 0 < l.width)
    (hle : l.width ≤ rest.length + 1) (hline : newline ∉ (b :: rest).take l.width) :
    Returned (b :: rest) l l' := by
  have hlength : (withReturns ((b :: rest).take l.width)).length = l.width := by
    rw [withReturns_of_notMem hline, List.length_take, List.length_cons, Nat.min_eq_left hle]
  rcases h with rfl | ⟨hcut, hfaulty, hkind, hwidth, hfaults⟩
  · exact ⟨rfl, rfl, .inl hlength.symm⟩
  · refine ⟨hkind, hfaults, .inr ⟨hfaulty, ?_, by rw [hwidth, hlength]⟩⟩
    obtain ⟨k, hk⟩ := Nat.exists_eq_add_of_lt hpos
    rw [hk, Nat.zero_add] at hcut ⊢
    exact hcut

theorem scan_quote (hb : b = doubleQuote ∨ b = singleQuote) (rest : Text) :
    scan b rest = stringFrom b 1 [] rest := by
  rcases hb with rfl | rfl <;> rfl

/-- The bytes of a string behind its quote. -/
theorem mem_take_string (hb : b = doubleQuote ∨ b = singleQuote) (rest : Text) :
    newline ∈ (b :: rest).take (stringFrom b 1 [] rest).width ↔
      newline ∈ rest.take ((stringFrom b 1 [] rest).width - 1) := by
  obtain ⟨k, hk⟩ := Nat.exists_eq_add_of_le (le_stringFrom_width b 1 [] rest)
  have hline : newline ≠ b := by rcases hb with rfl | rfl <;> decide
  rw [hk, Nat.add_sub_cancel_left, Nat.add_comm, List.take_succ_cons, List.mem_cons]
  simp [hline]

/-- The text of a template by itself is read as it was. -/
theorem exists_template_text (rest : Text) : ∃ body more : Text, rest = body ++ more ∧
    (backtick :: rest).take (template rest).width = backtick :: body ∧
    closeFrom [.body] 1 rest = (body.length + 1, (closeFrom [.body] 1 body).2) ∧
    closeFrom [.body] 1 body = closeFrom [.body] 1 rest ∧
    ((closeFrom [.body] 1 body).2 = false → more = []) := by
  obtain ⟨k, hk⟩ := Nat.exists_eq_add_of_le' (le_closeFrom [.body] 1 rest)
  have hle := closeFrom_le [.body] 1 rest
  rw [hk, Nat.add_comm 1] at hle
  have hlength : (rest.take k).length = k := List.length_take_of_le (Nat.le_of_succ_le_succ hle)
  have hsplit := List.take_append_drop k rest
  have hbody : closeFrom [.body] 1 (rest.take k) = closeFrom [.body] 1 rest := by
    cases hclosed : (closeFrom [.body] 1 rest).2 with
    | true =>
      have hclose : closeFrom [.body] 1 (rest.take k ++ rest.drop k) = (k + 1, true) := by
        rw [hsplit, ← hk, ← hclosed]
      rw [closeFrom_of_append _ _ _ _ _ rfl hclose (by omega), ← hclose, hsplit]
    | false =>
      have hall := closeFrom_of_not_closed [.body] 1 rest hclosed
      rw [List.take_of_length_le (by omega)]
  refine ⟨rest.take k, rest.drop k, hsplit.symm, ?_, ?_, hbody, fun hopen => ?_⟩
  · rw [show (template rest).width = k + 1 from hk, List.take_succ_cons]
  · rw [hbody, hlength, ← hk]
  · rw [hbody] at hopen
    have hall := closeFrom_of_not_closed [.body] 1 rest hopen
    exact List.drop_eq_nil_of_le (by omega)

theorem torn_cons (body : Text) : Torn (backtick :: body) ↔
    closeFrom [.body] 1 body.withReturns ≠
      (body.withReturns.length + 1, (closeFrom [.body] 1 body).2) := by
  rw [Torn, withReturns_cons (by decide)]
  rfl

/-- A template is torn only if a line end is escaped in a string inside one of its interpolations. -/
theorem continues_of_torn {rest : Text}
    (h : Torn ((backtick :: rest).take (template rest).width)) :
    continues [.body] (((backtick :: rest).take (template rest).width).drop 1) = true := by
  obtain ⟨body, more, rfl, htext, hclose, hbody, -⟩ := exists_template_text rest
  rw [htext, torn_cons] at h
  rw [htext]
  refine Bool.of_not_eq_false fun hjoins => h ?_
  rw [closeFrom_withReturns [.body] 1 body (by simp [Quoted]) hjoins, hbody, hclose,
    Nat.add_sub_cancel, List.take_length, Nat.add_comm]

theorem template_returned (rest : Text)
    (h : ¬ Torn ((backtick :: rest).take (template rest).width)) :
    Returned (backtick :: rest) (template rest) (template rest.withReturns) := by
  obtain ⟨body, more, rfl, htext, hclose, hbody, hmore⟩ := exists_template_text rest
  rw [htext, torn_cons, not_not] at h
  have hreturns : closeFrom [.body] 1 (withReturns (body ++ more)) =
      (body.withReturns.length + 1, (closeFrom [.body] 1 body).2) := by
    rw [withReturns_append]
    rcases closeFrom_append [.body] 1 body.withReturns more.withReturns with
      ⟨-, hsame⟩ | ⟨hopen, -⟩
    · rw [hsame, h]
    · rw [h] at hopen
      rw [hmore hopen, withReturns_nil, List.append_nil, h]
  refine ⟨rfl, ?_, .inl ?_⟩
  · simp only [template, hreturns, ← hbody]
  · rw [htext, withReturns_cons (by decide), List.length_cons]
    simp only [template, hreturns]

/-- **A token with either line end**, if no line end is escaped in a string of it and it is not torn. -/
theorem scan_returned {b : UInt8} (hb : b ≠ newline) (rest : Text)
    (hstring : (scan b rest).kind = .string → newline ∉ (b :: rest).take (scan b rest).width)
    (htemplate : (scan b rest).kind = .template →
      ¬ Torn ((b :: rest).take (scan b rest).width)) :
    Returned (b :: rest) (scan b rest) (scan b rest.withReturns) := by
  have hpos := scan_width_pos b rest
  have hle := scan_width_le b rest
  by_cases hs : (scan b rest).kind = .string
  · have hquote := ((scan_readBy b rest).string hs).1
    have hreturn : b ≠ carriageReturn := by rcases hquote with rfl | rfl <;> decide
    have hline := hstring hs
    rw [scan_quote hquote] at hline hpos hle ⊢
    rw [scan_quote hquote]
    refine Stays.returned ?_ hpos hle hline
    exact stringFrom_withReturns hb hreturn 1 [] rest (mt (mem_take_string hquote rest).mpr hline)
  by_cases ht : (scan b rest).kind = .template
  · obtain ⟨rfl, hscan⟩ := (scan_readBy b rest).template ht
    have hinner := htemplate ht
    rw [hscan] at hinner ⊢
    exact template_returned rest hinner
  · obtain ⟨hscan, hline⟩ := scan_withReturns hb hs ht
    exact Stays.returned (.inl hscan) hpos hle hline

/-- **A string with a line end in it** is faulty where lines end with two bytes. -/
theorem scan_faults {rest : Text} (hkind : (scan b rest).kind = .string)
    (hline : newline ∈ (b :: rest).take (scan b rest).width) :
    (scan b rest.withReturns).faults ≠ [] := by
  have hquote := ((scan_readBy b rest).string hkind).1
  rw [scan_quote hquote] at hline ⊢
  exact stringFrom_withReturns_faults (by rcases hquote with rfl | rfl <;> decide) 1 [] rest
    ((mem_take_string hquote rest).mp hline)

end Lexeme

/-! ## 6. White space and comments -/

namespace Trivia

open Text

/-- The same but for the place where a comment starts. -/
inductive Within.Like : Within → Within → Prop
  | refl (w : Within) : Like w w
  | block (start start' : Nat) : Like (.blockComment start) (.blockComment start')

/-- Where a line feed leads. -/
def Within.afterLine : Within → Within
  | .lineComment => .space
  | w => w

section
variable {n : Nat} {breaks : Bool} {b : UInt8} {rest : Text}

theorem skipFrom_blank (h : b = space ∨ b = tab ∨ b = carriageReturn) :
    skipFrom .space n breaks (b :: rest) = skipFrom .space (n + 1) breaks rest := by
  rw [skipFrom.eq_def]
  exact if_pos h

theorem skipFrom_token (hblank : ¬ (b = space ∨ b = tab ∨ b = carriageReturn))
    (hline : b ≠ newline) (hslash : b ≠ slash) :
    skipFrom .space n breaks (b :: rest) = { width := n, breaks := breaks } := by
  rw [skipFrom.eq_def]
  simp only [if_neg hblank, if_neg hline, if_neg hslash]

theorem skipFrom_lineComment :
    skipFrom .space n breaks (slash :: slash :: rest) =
      skipFrom .lineComment (n + 2) breaks rest := by
  rw [skipFrom.eq_def]
  rfl

theorem skipFrom_blockComment :
    skipFrom .space n breaks (slash :: star :: rest) =
      skipFrom (.blockComment (n + 2)) (n + 2) breaks rest := by
  rw [skipFrom.eq_def]
  rfl

theorem skipFrom_slash (hline : b ≠ slash) (hblock : b ≠ star) :
    skipFrom .space n breaks (slash :: b :: rest) = { width := n, breaks := breaks } := by
  rw [skipFrom.eq_def]
  simp [hline, hblock, show slash ≠ space by decide, show slash ≠ tab by decide,
    show slash ≠ carriageReturn by decide, show slash ≠ newline by decide]

theorem skipFrom_inLine (hline : b ≠ newline) :
    skipFrom .lineComment n breaks (b :: rest) = skipFrom .lineComment (n + 1) breaks rest := by
  rw [skipFrom.eq_def]
  exact if_neg hline

theorem skipFrom_inBlock {start : Nat} (hline : b ≠ newline)
    (hclose : ¬ (b = star ∧ rest.head? = some slash)) :
    skipFrom (.blockComment start) n breaks (b :: rest) =
      skipFrom (.blockComment start) (n + 1) breaks rest := by
  rw [skipFrom.eq_def]
  simp only [if_neg hline, if_neg hclose]

end

theorem skipFrom_newline (w : Within) (n : Nat) (breaks : Bool) (rest : Text) :
    skipFrom w n breaks (newline :: rest) = skipFrom w.afterLine (n + 1) true rest := by
  have hblank : ¬ (newline = space ∨ newline = tab ∨
      newline = carriageReturn) := by decide
  cases w <;> rw [skipFrom.eq_def] <;> simp [hblank, Within.afterLine]

/-- The two bytes of a line end do what its line feed did. -/
theorem skipFrom_return (w : Within) (n : Nat) (breaks : Bool) (rest : Text) :
    skipFrom w n breaks (carriageReturn :: newline :: rest) =
      skipFrom w.afterLine (n + 2) true rest := by
  have hreturn : skipFrom w n breaks (carriageReturn :: newline :: rest) =
      skipFrom w (n + 1) breaks (newline :: rest) := by
    cases w with
    | space => exact skipFrom_blank (.inr (.inr rfl))
    | lineComment => exact skipFrom_inLine (by decide)
    | blockComment => exact skipFrom_inBlock (by decide) fun hstar => absurd hstar.1 (by decide)
  rw [hreturn, skipFrom_newline]

theorem Within.Like.afterLine {w w' : Within} (h : w.Like w') : w.afterLine.Like w'.afterLine := by
  cases h with
  | refl => exact .refl _
  | block => exact .block _ _

/-- The same trivia with either line end, `n` and `m` bytes having been read before the text. -/
structure Returned (n m : Nat) (t : Text) (r r' : Trivia) : Prop where
  width : r'.width = m + (withReturns (t.take (r.width - n))).length
  breaks : r'.breaks = r.breaks
  unclosed : r'.unclosed.isSome = r.unclosed.isSome

/-- Bytes that are read before the rest. -/
theorem Returned.append {n m : Nat} {t : Text} {r r' : Trivia} (p : Text)
    (h : Returned (n + p.length) (m + p.withReturns.length) t r r')
    (hle : n + p.length ≤ r.width) : Returned n m (p ++ t) r r' := by
  have htake : p.take (r.width - n) = p := List.take_of_length_le (by omega)
  refine ⟨?_, h.breaks, h.unclosed⟩
  rw [h.width, List.take_append, htake, withReturns_append, List.length_append, Nat.sub_sub,
    Nat.add_assoc]

/-- Where the trivia ends. -/
theorem Returned.stop (n m : Nat) (breaks : Bool) (t : Text) :
    Returned n m t { width := n, breaks := breaks } { width := m, breaks := breaks } :=
  ⟨by simp, rfl, rfl⟩

/-- **The same trivia with either line end.** -/
theorem skipFrom_withReturns (w w' : Within) (n m : Nat) (breaks : Bool) (t : Text)
    (h : w.Like w') :
    Returned n m t (skipFrom w n breaks t) (skipFrom w' m breaks t.withReturns) := by
  fun_induction skipFrom w n breaks t generalizing w' m with
  | case1 n breaks start => cases h <;> exact ⟨by simp [skipFrom], rfl, rfl⟩
  | case2 w n breaks hw =>
    cases h with
    | block start => exact absurd rfl (hw start)
    | refl =>
      rw [withReturns_nil, skipFrom.eq_def]
      simp only [Returned.stop]
  | case3 n breaks b rest hblank ih =>
    cases h
    have hb : b ≠ newline := by rcases hblank with rfl | rfl | rfl <;> decide
    rw [withReturns_cons hb, skipFrom_blank hblank]
    refine .append [b] ?_ (le_skipFrom_width ..)
    rw [withReturns_cons hb]
    exact ih _ _ (.refl _)
  | case4 n breaks rest hblank ih | case10 n breaks rest ih | case12 n breaks rest start ih =>
    rw [withReturns_newline, skipFrom_return]
    exact .append [newline] (ih _ _ h.afterLine) (le_skipFrom_width ..)
  | case5 n breaks hblank hline =>
    cases h
    exact .stop ..
  | case6 n breaks rest hblank hline ih =>
    cases h
    rw [withReturns_cons (by decide), withReturns_cons (by decide), skipFrom_lineComment]
    exact .append [slash, slash] (ih _ _ (.refl _)) (le_skipFrom_width ..)
  | case7 n breaks rest hblank hline hcomment ih =>
    cases h
    rw [withReturns_cons (by decide), withReturns_cons (by decide), skipFrom_blockComment]
    exact .append [slash, star] (ih _ _ (.block ..)) (le_skipFrom_width ..)
  | case8 n breaks c rest =>
    cases h
    have hcomment : c ≠ slash := by assumption
    have hblock : c ≠ star := by assumption
    rw [withReturns_cons (by decide)]
    by_cases hc : c = newline
    · rw [hc, withReturns_newline, skipFrom_slash (by decide) (by decide)]
      exact .stop ..
    · rw [withReturns_cons hc, skipFrom_slash hcomment hblock]
      exact .stop ..
  | case9 n breaks b rest hblank hline hslash =>
    cases h
    rw [withReturns_cons hline, skipFrom_token hblank hline hslash]
    exact .stop ..
  | case11 n breaks b rest hline ih =>
    cases h
    rw [withReturns_cons hline, skipFrom_inLine hline]
    refine .append [b] ?_ (le_skipFrom_width ..)
    rw [withReturns_cons hline]
    exact ih _ _ (.refl _)
  | case13 n breaks b start hline hclose => cases hclose.2
  | case14 n breaks b start hline c rest hclose ih =>
    obtain ⟨rfl, hslash⟩ := hclose
    cases hslash
    rw [withReturns_cons hline, withReturns_cons (by decide)]
    cases h <;> exact .append [star, slash] (ih _ _ (.refl _)) (le_skipFrom_width ..)
  | case15 n breaks b rest start hline hclose ih =>
    have hopen : ¬ (b = star ∧ (withReturns rest).head? = some slash) := by
      rwa [head?_withReturns (by decide) (by decide)]
    rw [withReturns_cons hline]
    cases h <;> rw [skipFrom_inBlock hline hopen]
    all_goals
      refine .append [b] ?_ (le_skipFrom_width ..)
      rw [withReturns_cons hline]
    · exact ih _ _ (.refl _)
    · exact ih _ _ (.block ..)

end Trivia

end ReactiveScript
