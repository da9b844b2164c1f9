import ReactiveScript.Proofs.RoundTrip.Chains
import ReactiveScript.Proofs.Script.Places
import ReactiveScript.Proofs.Script.Success

/-!
# Optional chains in parentheses

In `(a?.b).c` the parentheses end the optional chain, and a template may stand behind `(a?.b)` but
not behind `a?.b`. The tree keeps no trace of them: it is that of `a?.b.c`. The level of a chain is
high enough for every link, so the script puts no parentheses around it, and the chain goes on where
the source had ended it.
-/

namespace ReactiveScript

open Lexed
open Script (emit ofExpr stmts Options atLevel memberObject items)

/-! ## 1. Optional chains and links -/

/-- Is one of the links optional that an expression ends with? -/
def Expr.isOptionalChain : Expr → Bool
  | .member _ o _ _ optional => o.isOptionalChain || optional
  | .call _ callee _ optional => callee.isOptionalChain || optional
  | .slice _ o _ _ => o.isOptionalChain
  | .tagged _ tag _ _ _ => tag.isOptionalChain
  | _ => false

/-- What a chain goes on with: a name, an index, arguments or a template. -/
inductive Link where
  | name (optional : Bool) (t : Text)
  | index (optional : Bool) (i : Expr)
  | call (optional : Bool) (args : List Expr)
  | template (quasis : List Quasi) (es : List Expr)

namespace Link

/-- A chain with one more link, given the places of the whole and of the link. -/
def placed (p q : Position) (e : Expr) : Link → Expr
  | name optional t => .member p e (.identifier q t) false optional
  | index optional i => .member p e i true optional
  | call optional args => .call p e args optional
  | template quasis es => .tagged p e q quasis es

/-- A chain with one more link, wherever it stands. -/
def on (e : Expr) (link : Link) : Expr := link.placed .start .start e

/-- Is the link optional? -/
def isOptional : Link → Bool
  | name optional _ | index optional _ | call optional _ => optional
  | template _ _ => false

def isTemplate : Link → Bool
  | template _ _ => true
  | _ => false

/-- The script of a link. -/
def text (o : Options) (d : Nat) : Link → Text
  | name optional t => (if optional then Punct.optional else Punct.dot).spelling ++ t
  | index optional i =>
    (if optional then Punct.optional.spelling else []) ++ (Punct.openBracket.spelling ++
      ((atLevel Level.lowest i (emit o d i)).text ++ Punct.closeBracket.spelling))
  | call optional args =>
    (if optional then Punct.optional.spelling else []) ++ (Punct.openParen.spelling ++
      ((Code.join ", " (items o d args)).text ++ Punct.closeParen.spelling))
  | template quasis es => txt "`" ++ ((Script.template o d quasis es).text ++ txt "`")

end Link

/-! ## 2. How chains are written -/

theorem Expr.level_of_isOptionalChain {e : Expr} (h : e.isOptionalChain = true) :
    e.level = Level.call := by
  cases e <;> first | rfl | cases h

theorem Script.memberObject_of_number? {object : Expr} (h : object.number? = none) (computed : Bool)
    (c : Code) : memberObject object computed c = atLevel Level.call object c := by
  cases object <;> first | rfl | cases h

theorem Script.atLevel_of_le {least : Nat} {e : Expr} {c : Code} (h : least ≤ e.level) :
    atLevel least e c = c := by
  rw [atLevel, Code.parenthesizedIf, if_neg (by simpa using h)]

theorem Script.ofExpr_eq (o : Options) (e : Expr) :
    ofExpr o e = emit o 0 e := Script.atLevel_of_le (Nat.zero_le _)

section
variable {o : Options} {d : Nat} {p q : Position} {e : Expr} {before : Bool} {k : Nat}
  {ts : List Lexed}

/-- Behind an expression that is no number, a link is written without more ado. -/
theorem Link.text_placed (link : Link) (hnumber : e.number? = none) :
    (emit o d (link.placed p q e)).text =
      (atLevel Level.call e (emit o d e)).text ++ link.text o d := by
  have hobject := Script.memberObject_of_number? hnumber
  cases link with
  | name optional t =>
    rw [Link.placed, emit, Script.text_member optional (hobject false _), emit,
      Code.text_plain, Link.text]
  | index optional i =>
    rw [Link.placed, emit, Script.text_index optional (hobject true _), Link.text]
  | call optional args => rw [Link.placed, emit, Script.text_call, Link.text]
  | template quasis es =>
    rw [Link.placed, emit, Link.text]
    simp only [Code.text_append, Code.text_lit, List.append_assoc]

/-- Where an expression stands does not tell whether it is an optional chain. -/
theorem Expr.isOptionalChain_unplaced (e : Expr) :
    e.unplaced.isOptionalChain = e.isOptionalChain := by
  fun_induction Expr.isOptionalChain e with
  | case1 _ object _ _ optional ih => rw [Expr.unplaced, Expr.isOptionalChain, ih]
  | case2 _ callee _ optional ih => rw [Expr.unplaced, Expr.isOptionalChain, ih]
  | case3 _ object _ _ ih => rw [Expr.unplaced, Expr.isOptionalChain, ih]
  | case4 _ tag _ _ _ ih => rw [Expr.unplaced, Expr.isOptionalChain, ih]
  | case5 e hmember hcall hslice htagged =>
    cases e with
    | member => exact (hmember _ _ _ _ _ rfl).elim
    | call => exact (hcall _ _ _ _ rfl).elim
    | slice => exact (hslice _ _ _ _ rfl).elim
    | tagged => exact (htagged _ _ _ _ _ rfl).elim
    | _ => rfl

theorem Link.on_unplaced (link : Link) {e' : Expr} (h : e'.unplaced = e.unplaced) :
    (link.on e').unplaced = (link.on e).unplaced := by
  cases link <;> simp only [Link.on, Link.placed, Expr.unplaced, h]

/-- **No parentheses separate an optional chain from the link behind it.** -/
theorem Link.text_on (link : Link) (h : e.isOptionalChain = true) :
    (emit o d (link.on e)).text = (emit o d e).text ++ link.text o d := by
  have hlevel := Expr.level_of_isOptionalChain h
  have hnumber : e.number? = none := by cases e <;> first | rfl | cases h
  rw [Link.on, Link.text_placed link hnumber, Script.atLevel_of_le (Nat.le_of_eq hlevel.symm)]

/-! ## 3. Plain chains -/

/-- A link that the script spells as the source does. A template has no holes. -/
def Link.IsPlain : Link → Prop
  | .name _ t => t.isIdentifier = true
  | .index _ i => Plain i
  | .call _ args => ∀ a ∈ args, Plain a
  | .template quasis es => ∃ raw, Text.isQuasi raw = true ∧ quasis = [Template.quasi raw] ∧ es = []

/-- A plain template is its text in backticks. -/
theorem Link.exists_quasi (link : Link) (hlink : link.IsPlain) (htemplate : link.isTemplate = true) :
    ∃ raw, Text.isQuasi raw = true ∧ link = .template [Template.quasi raw] [] ∧
      link.text o d = raw.inBackticks := by
  cases link with
  | template quasis es =>
    obtain ⟨raw, hraw, rfl, rfl⟩ := hlink
    refine ⟨raw, hraw, rfl, ?_⟩
    rw [Link.text, Script.template, Code.text_plain, List.flatMap_singleton]
    rfl
  | _ => cases htemplate

/-- A plain link makes a longer chain of a chain. -/
theorem Link.chained (link : Link) (hlink : link.IsPlain) (htemplate : link.isTemplate = false)
    {w : Text} (h : Chained before k ts e) (hcuts : Cuts w ts) :
    ∃ k' us, k' + 2 * e.size < k + 2 * (link.placed p q e).size ∧
      (headKind us).startsLink = true ∧
      Chained (before || link.isOptional) k' (ts ++ us) (link.placed p q e) ∧
      Cuts (w ++ link.text o d) (ts ++ us) := by
  cases link with
  | name optional t =>
    obtain ⟨hword, hkind⟩ := (Bool.and_eq_true _ _).mp hlink
    refine ⟨_, _, ?_, ?_, .member optional h, ?_⟩
    · rw [Link.placed, Expr.size_member]
      omega
    · cases optional <;> rfl
    · refine hcuts.append ?_ (cuts_dot hword (of_decide_eq_true hkind) optional)
      cases optional <;> rfl
  | index optional i =>
    have hspells : Spells .whole i (atLevel Level.lowest i (emit o d i)) :=
      (emits_of_plain o d hlink).atWhole (Nat.zero_le _)
    obtain ⟨us, hus, hindex⟩ := hspells.cuts
    refine ⟨_, _, ?_, ?_, .index optional h hus, ?_⟩
    · rw [Link.placed, Expr.size_member]
      omega
    · cases optional <;> rfl
    · refine hcuts.append ?_ (hindex.link optional (.inl rfl) rfl)
      cases optional <;> rfl
  | call optional args =>
    obtain ⟨parts, rfl, hparts, hargs⟩ := cuts_items fun a ha =>
      (emits_of_plain o d (hlink a ha)).atWhole (hlink a ha).assignment_le_level
    refine ⟨_, _, ?_, ?_, .call optional h hparts, ?_⟩
    · rw [Link.placed, Expr.size_call]
      omega
    · cases optional <;> rfl
    · rw [Link.text, Script.items_eq_map]
      refine hcuts.append ?_ (hargs.link optional (.inr rfl) rfl)
      cases optional <;> rfl
  | template => cases htemplate

/-- The script of an expression, as it stands in front of a link, is read as a chain. -/
def WritesChain (o : Options) (d : Nat) (e : Expr) : Prop :=
  ∃ k ts, k ≤ 2 * e.size ∧ (e.form = .chain → k < 2 * e.size) ∧
    Chained e.isOptionalChain k ts e ∧
    Cuts (atLevel Level.call e (emit o d e)).text ts

/-- What is no chain is an operand or is put in parentheses. -/
theorem writesChain_of_form (h : Plain e) (hform : e.form ≠ .chain) : WritesChain o d e := by
  have hfits : Level.call ≤ e.level → e.form.fits .operand = true := by
    intro hlevel
    have hchain := h.fits_chain hlevel
    cases hf : e.form with
    | operand => rfl
    | chain => exact absurd hf hform
    | unary | binary | whole =>
      rw [hf] at hchain
      cases hchain
  have hspells := (emits_of_plain o d h).atLevel rfl hfits
  obtain ⟨ts, hts, hcuts⟩ := hspells.cuts
  have hnot : e.isOptionalChain = false := by
    cases h with
    | call | member | index => exact absurd rfl hform
    | _ => rfl
  refine ⟨_, ts, Nat.le_refl _, fun hf => absurd hf hform, ?_, hcuts⟩
  rw [hnot]
  exact .ofOperand hts

theorem WritesChain.link (link : Link) (hlink : link.IsPlain) (htemplate : link.isTemplate = false)
    (hplain : Plain e) (h : WritesChain o d e) : WritesChain o d (link.placed p q e) := by
  obtain ⟨k, ts, hk, -, hchained, hcuts⟩ := h
  obtain ⟨k', us, hk', -, hchained', hcuts'⟩ := link.chained (o := o) (d := d) (p := p) (q := q)
    hlink htemplate hchained hcuts
  have hnumber : e.number? = none := by cases hplain <;> rfl
  have hlevel : (link.placed p q e).level = Level.call := by cases link <;> rfl
  have hoptional : (link.placed p q e).isOptionalChain =
      (e.isOptionalChain || link.isOptional) := by
    cases link with
    | template => cases htemplate
    | _ => rfl
  refine ⟨k', ts ++ us, by omega, fun _ => by omega, ?_, ?_⟩
  · rw [hoptional]
    exact hchained'
  · rw [Script.atLevel_of_le (Nat.le_of_eq hlevel.symm), Link.text_placed link hnumber]
    exact hcuts'

/-- **The script of a plain expression is read as the chain that it is.** -/
theorem writesChain_of_plain (h : Plain e) : WritesChain o d e := by
  induction h with
  | @call p callee args optional hcallee h ihcallee =>
    exact ihcallee.link (q := .start) (.call optional args) h rfl hcallee
  | @member p q object name optional hobject hname ih =>
    exact ih.link (.name optional name) hname rfl hobject
  | @index p object property optional hobject hproperty ih =>
    exact ih.link (q := .start) (.index optional property) hproperty rfl hobject
  | identifier h => exact writesChain_of_form (.identifier h) nofun
  | boolean b => exact writesChain_of_form (.boolean b) nofun
  | null => exact writesChain_of_form .null nofun
  | array h => exact writesChain_of_form (.array h) nofun
  | unary op h => exact writesChain_of_form (.unary op h) nofun
  | binary hop hl hr => exact writesChain_of_form (.binary hop hl hr) nofun
  | conditional htest hyes hno => exact writesChain_of_form (.conditional htest hyes hno) nofun
  | arrow hnames h => exact writesChain_of_form (.arrow hnames h) nofun

/-- **The script of a plain optional chain is read as an optional chain.** -/
theorem exists_chained (h : Plain e) (hoptional : e.isOptionalChain = true) :
    ∃ k ts, k < 2 * e.size ∧ Chained true k ts e ∧ Cuts (emit o d e).text ts := by
  have hlevel := Expr.level_of_isOptionalChain hoptional
  have hform : e.form = .chain := by cases h <;> first | rfl | cases hoptional
  obtain ⟨k, ts, -, hk, hchained, hcuts⟩ := writesChain_of_plain (o := o) (d := d) h
  rw [hoptional] at hchained
  rw [Script.atLevel_of_le (Nat.le_of_eq hlevel.symm)] at hcuts
  exact ⟨k, ts, hk hform, hchained, hcuts⟩

/-! ## 4. Programs of one plain expression -/

variable {f : Finding}

/-- Nothing is found in a plain expression. -/
theorem Plain.not_shows (h : Plain e) : ¬ (emit o d e).Shows f := by
  induction h with
  | identifier | boolean | null => simp [emit]
  | array _ ih => simpa [emit, Script.exists_mem_items] using ih
  | call _ _ _ ihcallee ih =>
    simpa [emit, Script.exists_mem_items, ihcallee] using ih
  | member _ _ _ ih => simpa [emit] using ih
  | index _ _ _ ihobject ihproperty => simp [emit, ihobject, ihproperty]
  | unary _ _ ih => simpa [emit] using ih
  | binary _ _ _ ihl ihr => simp [emit, ihl, ihr]
  | conditional _ _ _ ihtest ihyes ihno => simp [emit, ihtest, ihyes, ihno]
  | @arrow p names body _ _ ih =>
    have hnames : (names.map Param.ofName).flatMap Param.parts = [] := by
      rw [List.flatMap_eq_nil_iff]
      intro q hq
      obtain ⟨n, -, rfl⟩ := List.mem_map.mp hq
      rfl
    simp only [emit, Code.shows_append, Code.not_shows_lit, Code.shows_join,
      Script.exists_mem_params, hnames]
    simpa using ih

theorem Link.not_shows (link : Link) (hlink : link.IsPlain) (h : Plain e) :
    ¬ (emit o d (link.on e)).Shows f := by
  have he := h.not_shows (o := o) (d := d) (f := f)
  cases link with
  | name optional t => simpa [Link.on, Link.placed, emit] using he
  | index optional i =>
    have hi := Plain.not_shows (o := o) (d := d) (f := f) hlink
    simp [Link.on, Link.placed, emit, he, hi]
  | call optional args =>
    have hargs : ∀ a ∈ args, ¬ (emit o d a).Shows f := fun a ha => (hlink a ha).not_shows
    simpa [Link.on, Link.placed, emit, Script.exists_mem_items, he] using hargs
  | template quasis es =>
    obtain ⟨raw, -, rfl, rfl⟩ := hlink
    simp [Link.on, Link.placed, emit, Script.template, he]

/-- The script of a program that is an expression in which nothing is found. -/
theorem compile_expression {source : Text} {e' : Expr}
    (hread : readProgram source = some (.ok ⟨p, [.expression q none e']⟩))
    (he' : e'.unplaced = e.unplaced)
    (hline : ∀ q, Script.stmt o 0 none (.expression q none e) =
      Script.line 0 ((emit o 0 e).noBraceFirst ++ .lit ";"))
    (hfound : ∀ f, ¬ (emit o 0 e).Shows f)
    (hopens : (emit o 0 e).text.opensExpr = true) :
    compile o source = some (.ok ((emit o 0 e).text ++ txt ";\n")) := by
  have hsame : (stmts o 0 none [.expression q none e']).unplaced =
      (stmts o 0 none [.expression q none e]).unplaced := by
    rw [← Script.stmts_unplaced, ← Script.stmts_unplaced]
    simp only [Unplaced.stmts, Unplaced.stmt, he']
  have hnone : ∀ f, ¬ (stmts o 0 none [.expression q none e]).Shows f := by
    intro f
    simpa [Script.shows_stmts, hline] using hfound f
  have hfaults : (stmts o 0 none [.expression q none e']).faults = [] := by
    rw [← Code.faults_unplaced_eq_nil, hsame, Code.faults_unplaced_eq_nil]
    exact List.eq_nil_iff_forall_not_mem.mpr fun x => hnone (.fault x)
  have hruntime : (stmts o 0 none [.expression q none e']).usesRuntime = false := by
    rw [← Code.usesRuntime_unplaced, hsame, Code.usesRuntime_unplaced]
    exact Bool.eq_false_iff.mpr (hnone .runtime)
  have htext : (stmts o 0 none [.expression q none e']).text =
      (emit o 0 e).text ++ txt ";\n" := by
    rw [← Code.text_unplaced, hsame, Code.text_unplaced, stmts, stmts,
      hline, Code.noBraceFirst_of_opensExpr hopens]
    simp only [Script.line, Code.text_append, Code.text_lit, Code.text_plain, List.append_assoc]
    rfl
  rw [compile_of_readProgram o hread, Script.ofProgram]
  dsimp only
  rw [hruntime, if_neg Bool.false_ne_true, Code.checked_of_nil hfaults, htext]

/-! ## 5. Chains in parentheses -/

theorem Link.size_lt (link : Link) (e : Expr) : e.size < (link.on e).size := by
  cases link with
  | name | index =>
    rw [Link.on, Link.placed, Expr.size_member]
    omega
  | call =>
    rw [Link.on, Link.placed, Expr.size_call]
    omega
  | template =>
    rw [Link.on, Link.placed, Expr.size, Expr.size, Preorder.expr, List.countP_cons_of_pos rfl,
      List.countP_append]
    omega

/-- A plain link behind a chain is read as such, unless it is a template and the chain is open. -/
theorem Link.readsWhole (link : Link) (hlink : link.IsPlain) {w : Text}
    (h : Chained before k ts e) (hcuts : Cuts w ts) (hk : k ≤ 2 * e.size)
    (hbefore : link.isTemplate = true → before = false) :
    ∃ k' us, k' ≤ 2 * (link.on e).size ∧ Form.whole.starts (headKind us) = true ∧
      (∀ c, Grammar.ReadsWhole c k' us (link.on e)) ∧ Cuts (w ++ link.text o d) us := by
  cases htemplate : link.isTemplate with
  | true =>
    obtain ⟨raw, hraw, rfl, htext⟩ := link.exists_quasi (o := o) (d := d) hlink htemplate
    obtain rfl := hbefore rfl
    have hsize : e.size < ((Link.template [Template.quasi raw] []).on e).size := Link.size_lt _ e
    refine ⟨k + 2, _, by omega, ?_, fun c => Grammar.readsWhole_tagged hraw h, ?_⟩
    · exact Form.starts_append (Form.starts_of_startsOperand h.written.starts) _
    · rw [htext]
      exact hcuts.append rfl (cuts_quasi hraw)
  | false =>
    obtain ⟨k', us, hk', -, hchained, hcuts'⟩ := link.chained (o := o) (d := d) (p := .start)
      (q := .start) hlink htemplate h hcuts
    have hwhole : Written .whole (k' + 1) (ts ++ us) (link.on e) :=
      .ofBinary (.ofUnary (.ofChain hchained.written))
    refine ⟨k' + 1, ts ++ us, ?_, hwhole.starts, fun c => Grammar.readsForm_of_written hwhole, hcuts'⟩
    show k' + 1 ≤ 2 * (link.placed .start .start e).size
    omega

/-- A chain in parentheses, which is an operand and not open any more. -/
theorem Chained.parens (h : Chained before k ts e) :
    Chained false (k + 1) (punct .openParen :: (ts ++ [punct .closeParen])) e :=
  .ofOperand (.parens (.ofBinary (.ofUnary (.ofChain h.written))))

/-- A plain link behind a spelling of an optional chain: what is read, and the script. -/
theorem Link.compiles (link : Link) (hlink : link.IsPlain) (hplain : Plain e)
    (hoptional : e.isOptionalChain = true) (hsize : (link.on e).size ≤ 500) {w : Text}
    (h : Chained before k ts e) (hcuts : Cuts w ts) (hk : k ≤ 2 * e.size)
    (hbefore : link.isTemplate = true → before = false) :
    (∃ e', readExpression (w ++ link.text o 0) = some (.ok e') ∧
      e'.unplaced = (link.on e).unplaced) ∧
    compile o (w ++ link.text o 0) =
      some (.ok ((emit o 0 e).text ++ (link.text o 0 ++ txt ";\n"))) := by
  obtain ⟨k', us, hk', hstarts, hreads, hcuts'⟩ := link.readsWhole (o := o) (d := 0) hlink h hcuts
    hk hbefore
  have hdepth : k' ≤ Grammar.maxDepth := Nat.le_trans hk' (Nat.mul_le_mul_left 2 hsize)
  have htext := link.text_on (o := o) (d := 0) hoptional
  obtain ⟨p, q, e', hprogram, he'⟩ :=
    Grammar.readProgram_of_readsWhole (Kind.startsExpression_of_starts hstarts) hreads hdepth
      hcuts'.lexes
  have hopens : (emit o 0 (link.on e)).text.opensExpr = true := by
    rw [htext]
    exact Text.opensExpr_append (emits_of_plain o 0 hplain).whole.opens
  refine ⟨Grammar.readExpression_of_readsWhole hreads hdepth hcuts'.lexes, ?_⟩
  rw [← List.append_assoc, ← htext]
  refine compile_expression hprogram he' (fun q => ?_) (fun f => link.not_shows hlink hplain) hopens
  cases link <;> rfl

end

/-- **Parentheses around an optional chain are lost.** Where an optional chain in parentheses goes on
    with a link, the script has the link right behind the chain, as if there had been no parentheses.
    For plain chains and links such a source is always accepted. So is the source without the
    parentheses, with the same script, unless the link is a template: then it is refused, and the
    script of the source with the parentheses is one that would not be read. -/
theorem optional_chain_loses_parentheses (o : Options) :
    (∀ (c l : Text) (e e' : Expr) (link : Link), readExpression c = some (.ok e) →
      e.isOptionalChain = true →
      readExpression (txt "(" ++ (c ++ (txt ")" ++ l))) = some (.ok e') →
      e'.unplaced = (link.on e).unplaced →
      (ofExpr o e').text = (ofExpr o e).text ++ link.text o 0 ∧
      ∀ e'', readExpression (c ++ l) = some (.ok e'') → e''.unplaced = (link.on e).unplaced →
        (ofExpr o e'').text = (ofExpr o e').text) ∧
    ∀ (e : Expr) (link : Link) (c l : Text), Plain e → e.isOptionalChain = true →
      link.IsPlain → (link.on e).size ≤ 500 → c = (ofExpr o e).text → l = link.text o 0 →
      ∃ e₀ e', readExpression c = some (.ok e₀) ∧ e₀.isOptionalChain = true ∧
        readExpression (txt "(" ++ (c ++ (txt ")" ++ l))) = some (.ok e') ∧
        e'.unplaced = (link.on e₀).unplaced ∧
        compile o (txt "(" ++ (c ++ (txt ")" ++ l))) = some (.ok (c ++ (l ++ txt ";\n"))) ∧
        if link.isTemplate then
          ∃ p, readExpression (c ++ l) = some (.error [⟨.parse .taggedOptional, p⟩])
        else
          (∃ e'', readExpression (c ++ l) = some (.ok e'') ∧
            e''.unplaced = (link.on e₀).unplaced) ∧
          compile o (c ++ l) = some (.ok (c ++ (l ++ txt ";\n"))) := by
  constructor
  · intro c l e e' link _ hoptional _ he'
    refine ⟨?_, fun e'' _ he'' => Script.text_ofExpr_of_unplaced_eq (he''.trans he'.symm)⟩
    rw [Script.text_ofExpr_of_unplaced_eq he', Script.ofExpr_eq, Script.ofExpr_eq,
      link.text_on hoptional]
  · rintro e link c l hplain hoptional hlink hsize rfl rfl
    rw [Script.ofExpr_eq]
    have hless : e.size < (link.on e).size := link.size_lt e
    obtain ⟨k, ts, hk, hchained, hcuts⟩ := exists_chained (o := o) (d := 0) hplain hoptional
    have hdepth : k < Grammar.maxDepth := by
      have hmax : Grammar.maxDepth = 1000 := rfl
      omega
    obtain ⟨e₀, hread, he₀⟩ := Grammar.readExpression_of_lexes
      (.ofBinary (.ofUnary (.ofChain hchained.written))) hdepth hcuts.lexes
    have hoptional₀ : e₀.isOptionalChain = true := by
      rw [← Expr.isOptionalChain_unplaced, he₀, Expr.isOptionalChain_unplaced, hoptional]
    have hon := link.on_unplaced he₀
    have hgrouped := link.compiles (o := o) hlink hplain hoptional hsize hchained.parens
      (hcuts.bracketed (p := .openParen) (q := .closeParen) rfl rfl) hk fun _ => rfl
    rw [List.append_assoc, List.append_assoc] at hgrouped
    obtain ⟨⟨e', hread', he'⟩, hcompile⟩ := hgrouped
    refine ⟨e₀, e', hread, hoptional₀, hread', he'.trans hon.symm, hcompile, ?_⟩
    cases htemplate : link.isTemplate with
    | false =>
      obtain ⟨⟨e'', hread'', he''⟩, hcompile'⟩ := link.compiles (o := o) hlink hplain hoptional
        hsize hchained hcuts (Nat.le_of_lt hk) fun h => absurd (htemplate.symm.trans h) nofun
      exact ⟨⟨e'', hread'', he''.trans hon.symm⟩, hcompile'⟩
    | true =>
      obtain ⟨raw, hraw, rfl, htext⟩ := link.exists_quasi (o := o) (d := 0) hlink htemplate
      rw [htext]
      exact Grammar.readExpression_refused hchained hdepth (hcuts.append rfl (cuts_quasi hraw)).lexes

/-- A template behind a chain in parentheses is accepted, and its script is not. -/
theorem tag_behind_grouped_chain :
    compile {} (txt "(a?.b)`x`") = some (.ok (txt "a?.b`x`;\n")) ∧
    (∃ p, readExpression (txt "a?.b`x`") = some (.error [⟨.parse .taggedOptional, p⟩])) ∧
    ∃ e e', readExpression (txt "a?.b") = some (.ok e) ∧
      readExpression (txt "(a?.b)`x`") = some (.ok e') ∧
      (ofExpr {} e').text = (ofExpr {} e).text ++ txt "`x`" := by
  have hplain : Plain (.member .start (.identifier .start (txt "a"))
      (.identifier .start (txt "b")) false true) := .member true (.identifier (by decide)) (by decide)
  obtain ⟨e, e', hread, hoptional, hread', he', hcompile, hrefused⟩ :=
    (optional_chain_loses_parentheses {}).2 _ (.template [Template.quasi (txt "x")] [])
      (txt "a?.b") (txt "`x`") hplain rfl ⟨txt "x", by decide, rfl, rfl⟩ (by decide) (by decide)
      (by decide)
  have htext := (optional_chain_loses_parentheses {}).1 _ _ e e' _ hread hoptional hread' he'
  exact ⟨hcompile, hrefused, e, e', hread, hread', htext.1⟩

end ReactiveScript
