import ReactiveScript.Compile
import ReactiveScript.Proofs.Grammar.Laying
import ReactiveScript.Proofs.Script.Verdicts

/-!
# When there is a script

What writing can object to in a tree that was read are three things only: declarations inside
expressions, modifiers that there are not, and values that should be functions. All three show in a
piece of the tree and the piece right above it.
-/

namespace ReactiveScript

/-! ## 1. The conditions -/

/-- What a program must be like if there is to be a script of it. -/
structure Writable (p : Program) : Prop where
  /-- Every declaration is the expression of a statement. -/
  declarations : ∀ q r, Within (.program p) q → r ∈ q.parts → r.isDeclaration = true →
    q.isExpressionStatement = true
  /-- Every modifier of a statement is one of the modifiers that there are. -/
  modifiers : ∀ q s m, Within (.program p) q → .stmt s ∈ q.parts →
    s.modifier? q.blockModifier = some m → (Modifier.ofName? m).isSome = true
  /-- A value under `@mutate` is a function. -/
  functions : ∀ q s m v, Within (.program p) q → .stmt s ∈ q.parts →
    s.modifier? q.blockModifier = some m → Modifier.ofName? m = some .mutate →
    s.value? = some v → v.isArrow = true

namespace Script

theorem objection?_eq_none {inherited : Option Text} {s : Stmt} :
    objection? inherited s = none ↔ ∀ m, s.modifier? inherited = some m →
      (Modifier.ofName? m).isSome = true ∧
        (Modifier.ofName? m = some .mutate → ∀ v, s.value? = some v → v.isArrow = true) := by
  simp only [objection?, Option.bind_eq_none_iff, refusal?_eq_none]

theorem writable_iff {p : Program} : Writable p ↔ Sound (.program p) := by
  simp only [Sound, Fits, objection?_eq_none]
  constructor
  · intro h q r hq hr
    refine ⟨h.declarations q r hq hr, fun s hs m hm => ?_⟩
    subst hs
    exact ⟨h.modifiers q s m hq hr hm, fun hmutate v => h.functions q s m v hq hr hm hmutate⟩
  · intro h
    exact ⟨fun q r hq hr => (h q r hq hr).1, fun q s m hq hr hm => ((h q _ hq hr).2 s rfl m hm).1,
      fun q s m v hq hr hm hmutate => ((h q _ hq hr).2 s rfl m hm).2 hmutate v⟩

/-- **What is found in the script of a program**: nothing if the program is `Writable`, and else
    faults at its nodes. -/
theorem judged_ofProgram (o : Options) {p : Program} (hsensible : Sensible (.program p)) :
    ((ofProgram o p).faults = [] ↔ Writable p) ∧
      ∀ x ∈ (ofProgram o p).faults, x.IsOf (.program p) := by
  obtain ⟨hclean, husual, -⟩ := judged (o := o) hsensible 0
  rw [faults_ofProgram, writable_iff, ← hclean, List.eq_nil_iff_forall_not_mem]
  exact ⟨Iff.rfl, husual⟩

end Script

/-! ## 2. Programs that were read -/

theorem sensible_of_readProgram {source : Text} {p : Program}
    (h : readProgram source = some (.ok p)) : Sensible (.program p) :=
  sensible_of_shallow (Grammar.built_of_readProgram h).wellFormed
    (Grammar.built_of_readProgram h).shallow

theorem compile_of_readProgram (o : Script.Options) {source : Text} {p : Program}
    (hread : readProgram source = some (.ok p)) :
    compile o source = some (Script.ofProgram o p).checked := by
  rw [compile, hread]
  rfl

theorem Code.checked_of_nil {c : Code} (h : c.faults = []) : c.checked = .ok c.text :=
  if_pos (List.isEmpty_iff.mpr h)

theorem Code.checked_of_ne_nil {c : Code} (h : c.faults ≠ []) :
    c.checked = .error (.writing c.faults) := if_neg (mt List.isEmpty_iff.mp h)

/-- The three faults, and what they say. -/
theorem Report.words_of_isOfWriting {x : Report} (h : x.isOfWriting = true) :
    x.fault.stage = .compile ∧
      (x.fault = .compile .nestedDeclaration ∧
          x.fault.message = txt "Declarations (=) are only allowed as statements; use := to assign" ∨
        (∃ m, x.fault = .compile (.unknownModifier m) ∧
          x.fault.message = txt "Unknown modifier: @" ++ m) ∨
        ∃ m, x.fault = .compile (.notFunction m) ∧
          x.fault.message = m ++ txt " modifier must be a function") := by
  obtain ⟨fault, pos⟩ := x
  cases fault with
  | lex | parse | build => cases h
  | compile f =>
    cases f with
    | nestedDeclaration => exact ⟨rfl, .inl ⟨rfl, rfl⟩⟩
    | unknownModifier m => exact ⟨rfl, .inr (.inl ⟨m, rfl, rfl⟩)⟩
    | notFunction m => exact ⟨rfl, .inr (.inr ⟨m, rfl, rfl⟩)⟩
    | _ => cases h

/-- **There is a script of a program that was read exactly if the program is `Writable`.** If there
    is none, then all reports are about one of the conditions. -/
theorem compile_succeeds_iff (o : Script.Options) {source : Text} {p : Program}
    (hread : readProgram source = some (.ok p)) :
    ((∃ script, compile o source = some (.ok script)) ↔ Writable p) ∧
    ∀ failure, compile o source = some (.error failure) →
      ∃ reports, failure = .writing reports ∧ reports ≠ [] ∧ ∀ x ∈ reports,
        x.fault.stage = .compile ∧
        (x.fault = .compile .nestedDeclaration ∧
            x.fault.message = txt "Declarations (=) are only allowed as statements; use := to assign" ∨
          (∃ m, x.fault = .compile (.unknownModifier m) ∧
            x.fault.message = txt "Unknown modifier: @" ++ m) ∨
          ∃ m, x.fault = .compile (.notFunction m) ∧
            x.fault.message = m ++ txt " modifier must be a function") := by
  obtain ⟨hclean, husual⟩ := Script.judged_ofProgram o (sensible_of_readProgram hread)
  rw [compile_of_readProgram o hread, ← hclean]
  by_cases hfaults : (Script.ofProgram o p).faults = []
  · rw [Code.checked_of_nil hfaults]
    refine ⟨⟨fun _ => hfaults, fun _ => ⟨_, rfl⟩⟩, fun failure hfailure => ?_⟩
    cases hfailure
  · rw [Code.checked_of_ne_nil hfaults]
    refine ⟨⟨fun ⟨script, hscript⟩ => ?_, fun h => absurd h hfaults⟩, fun failure hfailure => ?_⟩
    · cases hscript
    · cases hfailure
      exact ⟨_, rfl, hfaults, fun x hx => Report.words_of_isOfWriting (husual x hx).1⟩

/-- A program that can be written: a block, a function with statements in it, and an export. -/
def writableSource : Text :=
  txt "@computed:\n  double = count * 2\n  @mutate reset = () => count := 0\n" ++
  txt "export f = (x = 1) => \x7b\n  y = <p>\x7b x \x7d</p>\n  @react log(y)\n\x7d\n"

/-- A program that breaks all three conditions. -/
def unwritableSource : Text :=
  txt "f(a = 1)\n@unheard x = 2\n@mutate:\n  y = 3\n"

theorem sample_sources :
    (∃ p, readProgram writableSource = some (.ok p) ∧ Writable p ∧
      ∃ script, compile {} writableSource = some (.ok script)) ∧
    ∃ p, readProgram unwritableSource = some (.ok p) ∧ ¬ Writable p ∧
      ∃ reports, compile {} unwritableSource = some (.error (.writing reports)) ∧
        reports.length = 3 ∧ ∀ x ∈ reports, x.fault.stage = .compile := by
  constructor
  · obtain ⟨p, hread, hclean⟩ : ∃ p, readProgram writableSource = some (.ok p) ∧
        (Script.ofProgram {} p).faults.isEmpty = true :=
      Grammar.exists_of_givesAtOnce (by decide +kernel)
    have hscript : ∃ script, compile {} writableSource = some (.ok script) := by
      rw [compile_of_readProgram {} hread, Code.checked_of_nil (List.isEmpty_iff.mp hclean)]
      exact ⟨_, rfl⟩
    exact ⟨p, hread, (compile_succeeds_iff {} hread).1.mp hscript, hscript⟩
  · obtain ⟨p, hread, hthree⟩ : ∃ p, readProgram unwritableSource = some (.ok p) ∧
        decide ((Script.ofProgram {} p).faults.length = 3) = true :=
      Grammar.exists_of_givesAtOnce (by decide +kernel)
    have hlength := of_decide_eq_true hthree
    have hfails : compile {} unwritableSource =
        some (.error (.writing (Script.ofProgram {} p).faults)) := by
      rw [compile_of_readProgram {} hread, Code.checked_of_ne_nil]
      intro hnil
      rw [hnil] at hlength
      cases hlength
    obtain ⟨hiff, hreports⟩ := compile_succeeds_iff {} hread
    obtain ⟨reports, hwriting, -, hstage⟩ := hreports _ hfails
    cases hwriting
    refine ⟨p, hread, fun hwritable => ?_, _, hfails, hlength, fun x hx => (hstage x hx).1⟩
    obtain ⟨script, hscript⟩ := hiff.mpr hwritable
    rw [hfails] at hscript
    cases hscript

end ReactiveScript
