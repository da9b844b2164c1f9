import ReactiveScript.Proofs.Script.Success

/-!
# The import of the runtime

A script starts with the import of the runtime exactly if some statement of the program, however
deep it lies in functions or blocks, has a modifier and a value to hand to the runtime. This does
not depend on what was written before: a session that has written other scripts writes what a new
one would.
-/

namespace ReactiveScript

/-! ## 1. Sessions -/

namespace Script

/-- Two pieces with the same text, in which the same was found. -/
structure Agree (a b : Code) : Prop where
  text : a.text = b.text
  faults : a.faults = b.faults
  usesRuntime : a.usesRuntime = b.usesRuntime

/-- The script of a job. -/
def ofJob (o : Options) : Job → Code
  | .program p => ofProgram o p
  | .expression e => ofExpr o e

theorem text_stmts (o : Options) (d : Nat) (inherited : Option Text) (body : List Stmt) :
    (stmts o d inherited body).text = body.flatMap fun b => (stmt o d inherited b).text := by
  induction body with
  | nil => simp [stmts]
  | cons b body ih => rw [stmts, Code.text_append, ih, List.flatMap_cons]

namespace Session

/-- Statements are put behind what the buffer holds, at the indentation of the session. -/
theorem agree_putAll (s : Session) (body : List Stmt) :
    Agree (s.putAll body).out (s.out ++ stmts s.options s.indent none body) ∧
      (s.putAll body).options = s.options := by
  induction body generalizing s with
  | nil =>
    exact ⟨⟨by simp [putAll, stmts], by simp [putAll, stmts], by simp [putAll, stmts]⟩, rfl⟩
  | cons b body ih =>
    obtain ⟨hout, hoptions⟩ := ih (s.put (stmt s.options s.indent none b))
    refine ⟨⟨?_, ?_, ?_⟩, hoptions⟩
    · exact hout.text.trans (by simp [put, stmts])
    · exact hout.faults.trans (by simp [put, stmts])
    · exact hout.usesRuntime.trans (by simp [put, stmts, Bool.or_assoc])

/-- **One script**: whatever the last one has left behind, a session writes the script of the job,
    and remembers whether it uses the runtime. -/
theorem agree_write (s : Session) (job : Job) :
    Agree (s.write job).1 (ofJob s.options job) ∧
      (s.write job).2.usesRuntime = (ofJob s.options job).usesRuntime ∧
      (s.write job).2.options = s.options := by
  cases job with
  | program p =>
    obtain ⟨hout, hoptions⟩ := s.cleared.agree_putAll p.body
    have hbody : Agree (s.cleared.putAll p.body).out (stmts s.options 0 none p.body) :=
      ⟨hout.text.trans (by simp [cleared]), hout.faults, hout.usesRuntime⟩
    have hruntime : (s.cleared.putAll p.body).usesRuntime =
      (stmts s.options 0 none p.body).usesRuntime := hbody.usesRuntime
    have hoptions : (s.cleared.putAll p.body).options = s.options := hoptions
    simp only [write, ofJob, ofProgram, hruntime, hoptions]
    cases hused : (stmts s.options 0 none p.body).usesRuntime with
    | true =>
      exact ⟨⟨by simp [hbody.text], hbody.faults, hbody.usesRuntime⟩, hbody.usesRuntime, hoptions⟩
    | false => exact ⟨hbody, hbody.usesRuntime, rfl⟩
  | expression e =>
    refine ⟨⟨rfl, rfl, rfl⟩, ?_, rfl⟩
    exact Bool.false_or _

/-- What there is to see of a job: the text, its faults, and whether the runtime is used. -/
def outcome (s : Session) (job : Job) : Text × List Report × Bool :=
  ((s.write job).1.text, (s.write job).1.faults, (s.write job).2.usesRuntime)

/-- What there is to see of jobs that are done one after the other. -/
def outcomes (s : Session) : List Job → List (Text × List Report × Bool)
  | [] => []
  | job :: jobs => s.outcome job :: (s.write job).2.outcomes jobs

theorem outcome_eq (s : Session) (job : Job) :
    s.outcome job = ((ofJob s.options job).text, (ofJob s.options job).faults,
      (ofJob s.options job).usesRuntime) := by
  obtain ⟨hcode, hruntime, -⟩ := s.agree_write job
  rw [outcome, hcode.text, hcode.faults, hruntime]

/-- **A session in use writes what a new one does.** -/
theorem outcomes_eq (s : Session) (jobs : List Job) :
    s.outcomes jobs = jobs.map fun job => ({ options := s.options } : Session).outcome job := by
  induction jobs generalizing s with
  | nil => rfl
  | cons job jobs ih =>
    obtain ⟨-, -, hoptions⟩ := s.agree_write job
    rw [outcomes, ih, hoptions, List.map_cons, outcome_eq, outcome_eq]

end Session

end Script

/-! ## 2. Programs that were read -/

/-- **The runtime is imported exactly if it is called**, once and in front of the statements,
    whatever the session has written before; and a session in use writes what a new one does. -/
theorem runtime_imported_iff_called {source : Text} {p : Program}
    (hread : readProgram source = some (.ok p)) (s : Script.Session)
    (hclean : (s.write (.program p)).1.faults = []) :
    let body := p.body.flatMap fun b => (Script.stmt s.options 0 none b).text
    ((Piece.program p).CallsRuntime →
        (s.write (.program p)).1.text = Script.importLine s.options ++ body) ∧
      (¬ (Piece.program p).CallsRuntime → (s.write (.program p)).1.text = body) ∧
      compile s.options source = some (.ok (s.write (.program p)).1.text) ∧
      ∀ (used : Script.Session) (jobs : List Script.Job),
        used.outcomes jobs =
          jobs.map fun job => ({ options := used.options } : Script.Session).outcome job := by
  obtain ⟨hcode, -, -⟩ := s.agree_write (.program p)
  have hfaults : (Script.ofProgram s.options p).faults = [] := hcode.faults.symm.trans hclean
  have hbody := (Script.faults_ofProgram s.options p).symm.trans hfaults
  have hcalls := (Script.judged (o := s.options) (sensible_of_readProgram hread) 0).runtime
    (List.eq_nil_iff_forall_not_mem.mp hbody)
  have htext : (s.write (.program p)).1.text = (Script.ofProgram s.options p).text := hcode.text
  rw [htext, compile_of_readProgram s.options hread, Code.checked_of_nil hfaults, ← hcalls,
    ← Script.text_stmts]
  refine ⟨fun hused => ?_, fun hused => ?_, rfl, Script.Session.outcomes_eq⟩
  · have hused : (Script.stmts s.options 0 none p.body).usesRuntime = true := hused
    simp [Script.ofProgram, hused]
  · have hused : ¬ (Script.stmts s.options 0 none p.body).usesRuntime = true := hused
    simp [Script.ofProgram, hused]

/-- A modifier in a function, inside of an attribute. -/
def callingSource : Text :=
  txt "button = <p onClick=\x7b() => \x7b @state count = 1 \x7d\x7d />\n"

/-- A modifier with nothing to hand to the runtime. -/
def idleSource : Text := txt "stop = () => \x7b\n  @react:\n    return\n\x7d\n"

def idleScript : Text := txt "const stop = () => \x7b\n  return;\n\x7d;\n"

theorem sample_imports :
    (∃ p, readProgram callingSource = some (.ok p) ∧ (Piece.program p).CallsRuntime ∧
      ∃ rest, compile {} callingSource = some (.ok (Script.importLine {} ++ rest))) ∧
    ∃ p, readProgram idleSource = some (.ok p) ∧ ¬ (Piece.program p).CallsRuntime ∧
      compile {} idleSource = some (.ok idleScript) := by
  constructor
  · obtain ⟨p, hread, htest⟩ : ∃ p, readProgram callingSource = some (.ok p) ∧
        decide ((({} : Script.Session).write (.program p)).1.faults = [] ∧
          (({} : Script.Session).write (.program p)).1.text ≠
            p.body.flatMap fun b => (Script.stmt {} 0 none b).text) = true :=
      Grammar.exists_of_givesAtOnce (by decide +kernel)
    obtain ⟨hclean, htext⟩ := of_decide_eq_true htest
    obtain ⟨hcalls, hidle, hcompile, -⟩ := runtime_imported_iff_called hread {} hclean
    have hcalled : (Piece.program p).CallsRuntime := Classical.not_not.mp fun h => htext (hidle h)
    rw [hcalls hcalled] at hcompile
    exact ⟨p, hread, hcalled, _, hcompile⟩
  · obtain ⟨p, hread, htest⟩ : ∃ p, readProgram idleSource = some (.ok p) ∧
        decide ((({} : Script.Session).write (.program p)).1.faults = [] ∧
          (({} : Script.Session).write (.program p)).1.text = idleScript) = true :=
      Grammar.exists_of_givesAtOnce (by decide +kernel)
    obtain ⟨hclean, htext⟩ := of_decide_eq_true htest
    obtain ⟨hcalls, -, hcompile, -⟩ := runtime_imported_iff_called hread {} hclean
    rw [htext] at hcalls hcompile
    have hfirst : idleScript.head? ≠ (Script.importLine {}).head? := by decide
    refine ⟨p, hread, fun h => hfirst ?_, hcompile⟩
    rw [hcalls h, List.head?_append, Option.or_of_isSome (by decide)]

end ReactiveScript
