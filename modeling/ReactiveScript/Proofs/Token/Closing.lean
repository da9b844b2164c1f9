import ReactiveScript.Proofs.Token.Scanning

/-!
# Closing nested constructs

The scanner of nested constructs closes the inner ones first, then goes on with the outer ones, and
it needs no more of the text than it reads.
-/

namespace ReactiveScript.Nesting

/-- Is the outermost construct a template or an interpolation? -/
def isRooted : List Inside → Bool
  | [] => false
  | .string _ :: outer => isRooted outer
  | .body :: outer | .code _ :: outer => outer.isEmpty || isRooted outer

/-- A byte that closes counts, if there is anything to close. -/
theorem stride_close {nest : List Inside} {b : UInt8} {brace : Bool} {bytes : Nat}
    (h : stride nest b brace = .close bytes) : (nest = [] ∧ bytes = 0) ∨
      bytes = 1 ∧ ((nest = [.body] ∧ b = Byte.backtick) ∨
        ∃ braces, nest = [.code braces] ∧ b = Byte.closeBrace) := by
  unfold stride at h
  grind

theorem closeFrom_le (nest : List Inside) (n : Nat) (t : Text) :
    (closeFrom nest n t).1 ≤ n + t.length := by
  induction nest, n, t using closeFrom_induction with
  | nil nest n => exact Nat.le_refl n
  | close nest n b rest bytes hstride heq =>
    have hbytes := stride_close hstride
    rw [heq, List.length_cons]
    omega
  | escapeEnd nest n b _ heq => rw [heq]; exact Nat.le_refl _
  | escape nest n b c rest _ heq ih => rw [heq]; simp only [List.length_cons]; omega
  | go nest n b rest inner _ heq ih => rw [heq, List.length_cons]; omega

/-- The outermost construct stays what it is. -/
theorem getLast?_stride {nest inner : List Inside} {b : UInt8} {brace : Bool}
    (h : stride nest b brace = .go inner) (hnest : nest.getLast? = some .body) :
    inner.getLast? = some .body := by
  have hcons (a : Inside) (outer : List Inside) : (a :: outer).getLast? = some .body ↔
      outer.getLast? = some .body ∨ outer = [] ∧ a = .body := by
    cases outer <;> simp [List.getLast?_cons]
  unfold stride at h
  repeat' split at h
  all_goals cases h
  all_goals simp_all

/-- A template that is closed ends with a backtick. -/
theorem closeFrom_template (nest : List Inside) (n : Nat) (t : Text)
    (hnest : nest.getLast? = some .body) (h : (closeFrom nest n t).2 = true) :
    n < (closeFrom nest n t).1 ∧ t[(closeFrom nest n t).1 - n - 1]? = some Byte.backtick := by
  induction nest, n, t using closeFrom_induction with
  | nil nest n => cases h
  | close nest n b rest bytes hstride heq =>
    rw [heq]
    rcases stride_close hstride with ⟨rfl, -⟩ | ⟨rfl, ⟨-, rfl⟩ | ⟨braces, rfl, -⟩⟩
    · cases hnest
    · exact ⟨Nat.lt_succ_self n, by simp⟩
    · cases hnest
  | escapeEnd nest n b _ heq => rw [heq] at h; cases h
  | escape nest n b c rest _ heq ih =>
    rw [heq] at h ⊢
    obtain ⟨hlt, hget⟩ := ih hnest h
    refine ⟨by omega, ?_⟩
    rw [show (closeFrom nest (n + 2) rest).1 - n - 1 = (closeFrom nest (n + 2) rest).1 - (n + 2) - 1 + 2
      by omega]
    exact hget
  | go nest n b rest inner hstride heq ih =>
    rw [heq] at h ⊢
    obtain ⟨hlt, hget⟩ := ih (getLast?_stride hstride hnest) h
    refine ⟨by omega, ?_⟩
    rw [show (closeFrom inner (n + 1) rest).1 - n - 1 =
      (closeFrom inner (n + 1) rest).1 - (n + 1) - 1 + 1 by omega]
    exact hget

/-- The bytes read before add to the count. -/
theorem closeFrom_add (nest : List Inside) (k n : Nat) (t : Text) :
    closeFrom nest (k + n) t = (k + (closeFrom nest n t).1, (closeFrom nest n t).2) := by
  induction nest, n, t using closeFrom_induction with
  | nil nest n => rfl
  | close nest n b rest bytes hstride heq => rw [heq, closeFrom_cons, hstride, ← Nat.add_assoc]
  | escapeEnd nest n b hstride heq =>
    rw [heq, closeFrom_cons, show atBrace [] = false from rfl, hstride]
    rfl
  | escape nest n b c rest hstride heq ih =>
    rw [heq, ← ih, closeFrom_cons, hstride]
    rfl
  | go nest n b rest inner hstride heq ih => rw [heq, ← ih, closeFrom_cons, hstride, Nat.add_assoc]

/-- The outermost construct stays what it is, up to the number of its braces. -/
theorem isRooted_stride {nest inner : List Inside} {b : UInt8} {brace : Bool}
    (h : stride nest b brace = .go inner) (hnest : isRooted nest = true) : isRooted inner = true := by
  unfold stride at h
  grind [isRooted]

/-- A byte closes what is closed. -/
theorem lt_closeFrom (nest : List Inside) (n : Nat) (t : Text) (hnest : isRooted nest = true)
    (h : (closeFrom nest n t).2 = true) : n < (closeFrom nest n t).1 := by
  induction nest, n, t using closeFrom_induction with
  | nil nest n => cases h
  | close nest n b rest bytes hstride heq =>
    rw [heq]
    rcases stride_close hstride with ⟨rfl, -⟩ | ⟨rfl, -⟩
    · cases hnest
    · exact Nat.lt_succ_self n
  | escapeEnd nest n b _ heq => rw [heq] at h; cases h
  | escape nest n b c rest _ heq ih =>
    rw [heq] at h ⊢
    have hlt := ih hnest h
    omega
  | go nest n b rest inner hstride heq ih =>
    rw [heq] at h ⊢
    exact Nat.lt_of_succ_lt (ih (isRooted_stride hstride hnest) h)

theorem drop_sub_cons {b : UInt8} {rest : Text} {m n : Nat} (h : n < m) :
    (b :: rest).drop (m - n) = rest.drop (m - (n + 1)) := by
  rw [show m - n = m - (n + 1) + 1 by omega, List.drop_succ_cons]

/-- With constructs around them, inner ones are closed into the outer ones. -/
theorem stride_append {nest outer : List Inside} (hnest : isRooted nest = true) (houter : outer ≠ [])
    (b : UInt8) (brace : Bool) :
    stride (nest ++ outer) b brace = match stride nest b brace with
      | .close _ => .go outer
      | .escape => .escape
      | .go inner => .go (inner ++ outer) := by
  match nest with
  | .body :: nest | .code _ :: nest | .string _ :: nest =>
    simp only [List.cons_append, stride]
    grind [isRooted, List.append_eq_nil_iff]

/-- **Where the inner constructs are closed, the outer ones go on.** -/
theorem closeFrom_nested (nest outer : List Inside) (n : Nat) (t : Text)
    (hnest : isRooted nest = true) (houter : outer ≠ []) :
    closeFrom (nest ++ outer) n t =
      if (closeFrom nest n t).2 then
        closeFrom outer (closeFrom nest n t).1 (t.drop ((closeFrom nest n t).1 - n))
      else closeFrom nest n t := by
  induction nest, n, t using closeFrom_induction with
  | nil nest n => rw [closeFrom.eq_def]; rfl
  | close nest n b rest bytes hstride heq =>
    rw [heq, closeFrom_cons, stride_append hnest houter, hstride]
    rcases stride_close hstride with ⟨rfl, -⟩ | ⟨rfl, -⟩
    · cases hnest
    · rw [if_pos rfl, Nat.add_sub_cancel_left]
      rfl
  | escapeEnd nest n b hstride heq =>
    rw [heq, closeFrom_cons, stride_append hnest houter, show atBrace [] = false from rfl, hstride]
    rfl
  | escape nest n b c rest hstride heq ih =>
    have hle := le_closeFrom nest (n + 2) rest
    rw [heq, closeFrom_cons, stride_append hnest houter, hstride, drop_sub_cons (by omega),
      drop_sub_cons (by omega)]
    exact ih hnest
  | go nest n b rest inner hstride heq ih =>
    have hle := le_closeFrom inner (n + 1) rest
    rw [heq, closeFrom_cons, stride_append hnest houter, hstride, drop_sub_cons (by omega)]
    exact ih (isRooted_stride hstride hnest)

/-- A brace behind a byte makes a difference only where reading goes on. -/
theorem stride_brace (nest : List Inside) (b : UInt8) (brace brace' : Bool) :
    stride nest b brace = stride nest b brace' ∨
      ∃ inner inner', stride nest b brace = .go inner ∧ stride nest b brace' = .go inner' := by
  match nest with
  | .body :: _ => grind [stride]
  | [] | .code _ :: _ | .string _ :: _ => exact .inl rfl

/-- What is closed is closed at the same byte, whatever stands behind it, and what is not takes all
    bytes and goes on. -/
theorem closeFrom_append (nest : List Inside) (n : Nat) (t a : Text) :
    ((closeFrom nest n t).2 = true ∧ closeFrom nest n (t ++ a) = closeFrom nest n t) ∨
      (closeFrom nest n t).2 = false ∧ (closeFrom nest n t).1 = n + t.length ∧
      n + t.length ≤ (closeFrom nest n (t ++ a)).1 ∧
      (isRooted nest = true → (closeFrom nest n (t ++ a)).2 = true →
        n + t.length < (closeFrom nest n (t ++ a)).1) := by
  induction nest, n, t using closeFrom_induction with
  | nil nest n => exact .inr ⟨rfl, rfl, le_closeFrom _ _ _, lt_closeFrom _ _ _⟩
  | close nest n b rest bytes hstride heq =>
    refine .inl ⟨by rw [heq], ?_⟩
    rw [heq, List.cons_append, closeFrom_cons]
    rcases stride_brace nest b (atBrace rest) (atBrace (rest ++ a)) with hsame | ⟨inner, _, hgo, _⟩
    · rw [← hsame, hstride]
    · cases hstride.symm.trans hgo
  | escapeEnd nest n b hstride heq =>
    refine .inr ⟨by rw [heq], by rw [heq]; rfl, ?_⟩
    rw [List.singleton_append, closeFrom_cons]
    rcases stride_brace nest b false (atBrace a) with hsame | ⟨inner, _, hgo, _⟩
    · rw [← hsame, hstride]
      dsimp only
      split
      · exact ⟨Nat.le_refl _, nofun⟩
      · have hle := le_closeFrom nest (n + 2) a.tail
        exact ⟨Nat.le_of_succ_le hle, fun _ _ => hle⟩
    · cases hstride.symm.trans hgo
  | escape nest n b c rest hstride heq ih =>
    have hmore : closeFrom nest n (b :: c :: rest ++ a) = closeFrom nest (n + 2) (rest ++ a) := by
      rw [List.cons_append, closeFrom_cons,
        show atBrace (c :: rest ++ a) = atBrace (c :: rest) from rfl, hstride]
      rfl
    have hlength : n + (b :: c :: rest).length = n + 2 + rest.length := by grind
    rw [heq, hmore, hlength]
    exact ih
  | go nest n b rest inner hstride heq ih =>
    rw [heq, List.cons_append, closeFrom_cons]
    cases rest with
    | cons c rest =>
      have hlength : n + (b :: c :: rest).length = n + 1 + (c :: rest).length := by grind
      rw [show atBrace (c :: rest ++ a) = atBrace (c :: rest) from rfl, hstride, hlength]
      exact ih.imp_right fun h => ⟨h.1, h.2.1, h.2.2.1, fun hnest =>
        h.2.2.2 (isRooted_stride hstride hnest)⟩
    | nil =>
      -- A brace may enter an interpolation here, but the text is not closed either way.
      obtain ⟨inner', hgo⟩ : ∃ inner', stride nest b (atBrace ([] ++ a)) = .go inner' := by
        rcases stride_brace nest b (atBrace []) (atBrace ([] ++ a)) with hsame | ⟨_, inner', _, hgo⟩
        · exact ⟨inner, hsame.symm.trans hstride⟩
        · exact ⟨inner', hgo⟩
      rw [hgo]
      exact .inr ⟨rfl, rfl, le_closeFrom _ _ _, fun hnest =>
        lt_closeFrom _ _ _ (isRooted_stride hgo hnest)⟩

theorem closeFrom_of_not_closed (nest : List Inside) (n : Nat) (t : Text)
    (h : (closeFrom nest n t).2 = false) : (closeFrom nest n t).1 = n + t.length := by
  rcases closeFrom_append nest n t [] with ⟨hclosed, -⟩ | ⟨-, hall, -⟩
  · rw [h] at hclosed
    cases hclosed
  · exact hall

/-- What is closed is closed without what stands behind it. -/
theorem closeFrom_of_append (nest : List Inside) (n m : Nat) (t a : Text)
    (hnest : isRooted nest = true) (h : closeFrom nest n (t ++ a) = (m, true))
    (hle : m ≤ n + t.length) : closeFrom nest n t = (m, true) := by
  rcases closeFrom_append nest n t a with ⟨-, hsame⟩ | ⟨-, -, -, hbeyond⟩
  · exact hsame.symm.trans h
  · rw [h] at hbeyond
    exact absurd hle (Nat.not_le_of_lt (hbeyond hnest rfl))

end ReactiveScript.Nesting
