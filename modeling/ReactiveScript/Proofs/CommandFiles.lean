import Mathlib.Data.List.Induction
import ReactiveScript.CommandLine
import ReactiveScript.Proofs.Grammar.Levels

/-!
# What a call does to files

A call changes a file only where it succeeds, and then it has written a script to the file that it
was told to write to. What it was told is read off its arguments item by item: later ones count
instead of earlier ones, and an option with its value is one item, whatever the value looks like. Of
the system only its laws are used.
-/

namespace ReactiveScript

/-! ## 1. Systems -/

namespace Files
variable {σ φ : Type}

/-- What a command may rely on, with the files as they are seen from outside. Nothing changes by
    reading, or if a file cannot be opened for writing; else that file is empty at first, and no
    other is touched. -/
structure Lawful (fs : Files (StateM σ) φ) (view : σ → φ → Option Text) : Prop where
  openIn_view (path : Text) (s : σ) : view ((fs.openIn? path).run s).2 = view s
  read_view (f : φ) (s : σ) : view ((fs.read f).run s).2 = view s
  openOut_none {path : Text} {s s' : σ} (h : (fs.openOut? path).run s = (none, s')) :
    view s' = view s
  openOut_some {path : Text} {s s' : σ} {f : φ} (h : (fs.openOut? path).run s = (some f, s')) :
    view s' f = some [] ∧ ∀ g, g ≠ f → view s' g = view s g
  write_other {f g : φ} (h : g ≠ f) (text : Text) (s : σ) :
    view ((fs.write f text).run s).2 g = view s g

/-- All that is written to a file gets there. -/
def WritesAll (fs : Files (StateM σ) φ) (view : σ → φ → Option Text) : Prop :=
  ∀ path s f s', (fs.openOut? path).run s = (some f, s') →
    ∀ text, view ((fs.write f text).run s').2 f = (view s' f).map (· ++ text)

/-- A text is read under a path. -/
def Reads (fs : Files (StateM σ) φ) (s : σ) (path text : Text) (s' : σ) : Prop :=
  ∃ f s₁, (fs.openIn? path).run s = (some f, s₁) ∧ (fs.read f).run s₁ = (text, s')

theorem Lawful.reads_view {fs : Files (StateM σ) φ} {view : σ → φ → Option Text}
    (laws : fs.Lawful view) {s s' : σ} {path text : Text} (h : fs.Reads s path text s') :
    view s' = view s := by
  obtain ⟨f, s₁, hopen, hread⟩ := h
  have hs₁ := laws.openIn_view path s
  have hs' := laws.read_view f s₁
  rw [hopen] at hs₁
  rw [hread] at hs'
  exact hs'.trans hs₁

end Files

namespace Directory
variable {d d' : Directory} {name content : Text}

theorem get?_put : (d.put name content).get? name = some content := by
  have hnone : (d.files.filter (·.1 ≠ name)).find? (·.1 = name) = none := by
    simp +contextual [List.find?_eq_none]
  rw [get?, put, List.find?_append, hnone, Option.none_or]
  simp

theorem get?_put_of_ne {other : Text} (h : other ≠ name) :
    (d.put name content).get? other = d.get? other := by
  have hsame (f : Text × Text) : (f.1 ≠ name ∧ f.1 = other) ↔ f.1 = other :=
    ⟨And.right, fun hf => ⟨hf ▸ h, hf⟩⟩
  simp [get?, put, List.find?_append, List.find?_filter, hsame, h.symm]

theorem text?_put_of_ne {f : Place} (h : f ≠ .file name) : (d.put name content).text? f = d.text? f := by
  cases f with
  | folder | nowhere => rfl
  | file other => exact get?_put_of_ne fun hother => h (congrArg _ hother)

theorem reads_of_place {p text : Text} (hplace : d.place p = .file name)
    (htext : d.get? name = some text) : system.Reads d p text d := by
  refine ⟨.file name, d, ?_, ?_⟩
  · simp [system, hplace, text?, htext]
    rfl
  · simp [system, text?, htext]
    rfl

theorem openOut?_of_place {p : Text} (hplace : d.place p = .file name) :
    (system.openOut? p).run d = (some (.file name), d.put name []) := by
  simp [system, hplace]
  rfl

/-- Files are opened for writing where a path leads to one. -/
theorem openOut?_eq_some {p : Text} {f : Place}
    (h : (system.openOut? p).run d = (some f, d')) :
    ∃ name, d.place p = .file name ∧ f = .file name ∧ d' = d.put name [] := by
  cases hplace : d.place p <;> simp [system, hplace] at h <;> cases h
  exact ⟨_, rfl, rfl, rfl⟩

theorem system_lawful : system.Lawful text? where
  openIn_view _ _ := rfl
  read_view _ _ := rfl
  openOut_none {p d d'} h := by
    cases hplace : d.place p <;> simp [system, hplace] at h <;> cases h <;> rfl
  openOut_some h := by
    obtain ⟨name, -, rfl, rfl⟩ := openOut?_eq_some h
    exact ⟨get?_put, fun _ => text?_put_of_ne⟩
  write_other {f g} h text d := by
    cases f with
    | file name => exact text?_put_of_ne h
    | folder | nowhere => rfl

theorem system_writesAll : system.WritesAll text? := by
  intro path d f d' h text
  obtain ⟨name, -, rfl, rfl⟩ := openOut?_eq_some h
  change ((d.put name []).put name _).get? name = ((d.put name []).get? name).map (· ++ text)
  rw [get?_put, get?_put]
  rfl

end Directory

namespace CommandLine

/-! ## 2. What arguments say -/

/-- What an argument, or an option with its value, says of the work. -/
inductive Item where
  | dumpTokens
  | dumpTree
  | setting (s : Setting) (value : Text)
  | source (name : Text)
  deriving DecidableEq

namespace Item

/-- The arguments that say so. -/
def args : Item → List Text
  | .dumpTokens => [txt "--dump-tokens"]
  | .dumpTree => [txt "--dump-ast"]
  | .setting s value => [s.name, value]
  | .source name => [name]

/-- What starts with a minus sign is not the name of a source. -/
def isPlain : Item → Bool
  | .source name => name.head? ≠ some Byte.minus
  | _ => true

/-- The work with an item taken into account. -/
def apply (w : Work) : Item → Work
  | .dumpTokens => { w with dumpTokens := true }
  | .dumpTree => { w with dumpTree := true }
  | .setting s value => s.apply value w
  | .source name => { w with source := name }

def value? (s : Setting) : Item → Option Text
  | .setting s' value => if s' = s then some value else none
  | _ => none

def source? : Item → Option Text
  | .source name => some name
  | _ => none

end Item

/-- The last of the items that tell something. -/
def last? (f : Item → Option Text) (items : List Item) : Option Text := items.reverse.findSome? f

theorem last?_concat (f : Item → Option Text) (items : List Item) (i : Item) :
    last? f (items ++ [i]) = (f i).or (last? f items) := by
  rw [last?, List.reverse_concat, List.findSome?_cons]
  cases f i <;> rfl

/-- The options of the script. -/
def optionsOf (items : List Item) : Script.Options where
  library := (last? (Item.value? .library) items).getD ({} : Script.Options).library
  identifier := (last? (Item.value? .identifier) items).getD ({} : Script.Options).identifier

/-- The arguments say this, item by item, and nothing else: none of them asks for help or for the
    version, or is wrong. -/
structure Says (args : List Text) (items : List Item) : Prop where
  args_eq : args = items.flatMap Item.args
  plain : ∀ i ∈ items, i.isPlain = true

/-- An item is read as what it says. -/
theorem Order.from_args {i : Item} (h : i.isPlain = true) (w : Work) (rest : List Text) :
    Order.from w (i.args ++ rest) = Order.from (i.apply w) rest := by
  cases i with
  | dumpTokens | dumpTree => rfl
  | setting s value => cases s <;> rfl
  | source name =>
    have hne {option : Text} (hoption : option.head? = some Byte.minus) : name ≠ option := by
      rintro rfl
      simp [Item.isPlain, hoption] at h
    have hname : Setting.ofName? name = none := by
      refine List.find?_eq_none.mpr fun s _ hs => hne ?_ (of_decide_eq_true hs).symm
      cases s <;> rfl
    change Order.from w (name :: rest) = _
    rw [Order.from, if_neg (hne rfl), if_neg (hne rfl), if_neg (hne rfl), if_neg (hne rfl)]
    · exact if_neg (by simpa [Item.isPlain] using h)
    · exact hname

theorem Order.from_flatMap {items : List Item} (h : ∀ i ∈ items, i.isPlain = true) (w : Work) :
    Order.from w (items.flatMap Item.args) = Order.from (items.foldl Item.apply w) [] := by
  induction items generalizing w with
  | nil => rfl
  | cons i items ih =>
    obtain ⟨hi, hitems⟩ := List.forall_mem_cons.mp h
    rw [List.flatMap_cons, from_args hi, ih hitems, List.foldl_cons]

/-- Arguments that lead to work say what it is. -/
theorem Order.exists_items {args : List Text} {w w' : Work} (h : Order.from w args = .work w') :
    ∃ items, Says args items := by
  have hcons (i : Item) (hi : i.isPlain = true) {rest : List Text} :
      (∃ items, Says rest items) → ∃ items, Says (i.args ++ rest) items := by
    rintro ⟨items, rfl, hplain⟩
    exact ⟨i :: items, rfl, List.forall_mem_cons.mpr ⟨hi, hplain⟩⟩
  fun_induction Order.from w args with
  | case1 | case2 => exact ⟨[], rfl, List.forall_mem_nil _⟩
  | case3 | case4 | case8 | case9 => cases h
  | case5 w rest _ _ ih => exact hcons .dumpTokens rfl (ih h)
  | case6 w rest _ _ _ ih => exact hcons .dumpTree rfl (ih h)
  | case7 w arg _ _ _ _ s value rest hs ih =>
    have hs : Setting.all.find? (·.name = arg) = some s := hs
    obtain rfl : s.name = arg := by simpa using List.find?_some hs
    exact hcons (.setting s value) rfl (ih h)
  | case10 w arg rest _ _ _ _ _ hminus ih =>
    exact hcons (.source arg) (decide_eq_true hminus) (ih h)

/-- **The work is what the last items of each kind say.** -/
theorem Work.foldl_apply (items : List Item) : items.foldl Item.apply {} =
    { dumpTokens := items.contains .dumpTokens
      dumpTree := items.contains .dumpTree
      output := (last? (Item.value? .output) items).getD []
      source := (last? Item.source? items).getD []
      options := optionsOf items } := by
  induction items using List.reverseRecOn with
  | nil => rfl
  | append_singleton items i ih =>
    rw [List.foldl_append, ih]
    cases i with
    | setting s value =>
      cases s <;> simp [last?_concat, optionsOf, Item.apply, Setting.apply, Item.value?, Item.source?]
    | _ => simp [last?_concat, optionsOf, Item.apply, Item.value?, Item.source?]

variable {program : Text} {args : List Text} {items : List Item} {w : Work}
  {text script path : Text}

/-- What arguments that tell of work lead to. -/
theorem Says.ofArgs_eq (h : Says args items) :
    Order.ofArgs args = let w := items.foldl Item.apply {}
      if w.source.isEmpty then if args.isEmpty then .usage 1 else .complain .noInput
      else .work w := by
  rw [Order.ofArgs]
  split
  · rename_i hargs
    obtain rfl : items = [] := by
      cases items with
      | nil => rfl
      | cons i items =>
        rw [h.args_eq] at hargs
        cases i <;> cases hargs
    rfl
  · rw [h.args_eq, Order.from_flatMap h.plain]
    rfl

/-- **The work that arguments lead to is what they say.** -/
theorem Order.says_of_ofArgs (h : Order.ofArgs args = .work w) :
    ∃ items, Says args items ∧ w = items.foldl Item.apply {} := by
  obtain ⟨items, hread⟩ : ∃ items, Says args items := by
    rw [Order.ofArgs] at h
    split at h
    · cases h
    · exact exists_items h
  rw [hread.ofArgs_eq] at h
  dsimp only at h
  split at h
  · split at h <;> cases h
  · exact ⟨items, hread, (Order.work.inj h).symm⟩

/-! ## 3. What comes of work -/

variable {σ φ : Type} {fs : Files (StateM σ) φ} {view : σ → φ → Option Text} {s s₁ s' : σ}
  {o : Outcome}

/-- No list of tokens and no tree is wanted. -/
def Work.WantsScript (w : Work) : Prop := w.dumpTokens = false ∧ w.dumpTree = false

/-- The script of the work, with the files as they are. -/
def Work.Gives (fs : Files (StateM σ) φ) (w : Work) (s : σ) (script : Text) (s₁ : σ) : Prop :=
  w.source ≠ [] ∧ ∃ text, fs.Reads s w.source text s₁ ∧ compile w.options text = some (.ok script)

/-- How a script is passed on: it is shown, or written to the file that is opened under a path. -/
inductive Delivers (fs : Files (StateM σ) φ) (s : σ) (script : Text) : Text → Outcome → σ → Prop where
  | shown : Delivers fs s script [] { stdout := script } s
  | written {path : Text} {f : φ} {s' : σ} (hpath : path ≠ [])
      (hopen : (fs.openOut? path).run s = (some f, s')) :
      Delivers fs s script path {} ((fs.write f script).run s').2

/-- What is left of the files when a script has been written to one of them. -/
structure Wrote (fs : Files (StateM σ) φ) (view : σ → φ → Option Text) (s : σ) (script : Text)
    (f : φ) (s' : σ) : Prop where
  others : ∀ g, g ≠ f → view s' g = view s g
  content : fs.WritesAll view → view s' f = some script

theorem wrote_of_open (laws : fs.Lawful view) {f : φ} (h : (fs.openOut? path).run s = (some f, s₁))
    (script : Text) : Wrote fs view s script f ((fs.write f script).run s₁).2 := by
  obtain ⟨hempty, hothers⟩ := laws.openOut_some h
  refine ⟨fun g hg => ?_, fun hall => ?_⟩
  · rw [laws.write_other hg, hothers g hg]
  · rw [hall _ _ _ _ h, hempty]
    rfl

theorem Delivers.wrote (laws : fs.Lawful view) (h : Delivers fs s script path o s')
    (hview : view s' ≠ view s) :
    path ≠ [] ∧ ∃ f s₂, (fs.openOut? path).run s = (some f, s₂) ∧ Wrote fs view s script f s' := by
  cases h with
  | shown => exact absurd rfl hview
  | written hpath hopen => exact ⟨hpath, _, _, hopen, wrote_of_open laws hopen script⟩

theorem run_bind {α β : Type} {x : StateM σ α} {g : α → StateM σ β} {a : α}
    (h : x.run s = (a, s₁)) : (x >>= g).run s = (g a).run s₁ := by
  rw [StateT.run_bind, h]
  rfl

/-- Nothing is written where a file cannot be opened. -/
theorem Result.finish_none (h : (fs.openOut? path).run s = (none, s')) :
    ((Result.write path script).finish fs).run s = (.complaint (.cannotWrite path), s') := by
  rw [finish, run_bind h]
  rfl

theorem Result.finish_some {f : φ} (h : (fs.openOut? path).run s = (some f, s')) :
    ((Result.write path script).finish fs).run s = ({}, ((fs.write f script).run s').2) := by
  rw [finish, run_bind h]
  rfl

theorem Work.execute_none (h : (fs.openIn? w.source).run s = (none, s')) :
    (w.execute fs).run s = (some (.complaint (.cannotOpen w.source)), s') := by
  rw [execute, run_bind h]
  rfl

/-- What is read is worked on, and the work is finished. -/
theorem Work.execute_reads (h : fs.Reads s w.source text s₁) :
    (w.execute fs).run s =
      (w.perform text).elim (none, s₁) fun r => ((r.finish fs).run s₁).map some id := by
  obtain ⟨f, s₀, hopen, hread⟩ := h
  rw [execute, run_bind hopen, run_bind hread]
  cases w.perform text <;> rfl

/-- Finishing work on a script ends well if the script can be passed on. -/
theorem delivers_iff {r : Result}
    (hr : r = if path.isEmpty then .done { stdout := script } else .write path script) :
    ((r.finish fs).run s).map some id = (some o, s') ∧ o.exit = 0 ↔
      Delivers fs s script path o s' := by
  subst hr
  cases path with
  | nil =>
    constructor
    · rintro ⟨h, -⟩
      cases h
      exact .shown
    · intro h
      cases h with
      | shown => exact ⟨rfl, rfl⟩
      | written hpath => exact absurd rfl hpath
  | cons b path =>
    rw [List.isEmpty_cons, if_neg Bool.false_ne_true]
    obtain ⟨f?, s₁, hopen⟩ : ∃ f? s₁, (fs.openOut? (b :: path)).run s = (f?, s₁) := ⟨_, _, rfl⟩
    cases f? with
    | none =>
      rw [Result.finish_none hopen]
      refine iff_of_false ?_ fun h => ?_
      · rintro ⟨h, hexit⟩
        cases h
        cases hexit
      · cases h with
        | written _ hopen' => cases hopen.symm.trans hopen'
    | some f =>
      rw [Result.finish_some hopen]
      constructor
      · rintro ⟨h, -⟩
        cases h
        exact .written (List.cons_ne_nil b path) hopen
      · intro h
        cases h with
        | written _ hopen' =>
          cases hopen.symm.trans hopen'
          exact ⟨rfl, rfl⟩

/-- Work on a script ends well if there is one that can be passed on. -/
theorem Work.execute_ends_well_iff (h : w.WantsScript) (hsource : w.source ≠ []) :
    (w.execute fs).run s = (some o, s') ∧ o.exit = 0 ↔
      ∃ script s₁, w.Gives fs s script s₁ ∧ Delivers fs s₁ script w.output o s' := by
  obtain ⟨f?, s₀, hopen⟩ : ∃ f? s₀, (fs.openIn? w.source).run s = (f?, s₀) := ⟨_, _, rfl⟩
  cases f? with
  | none =>
    rw [w.execute_none hopen]
    refine iff_of_false ?_ ?_
    · rintro ⟨hdone, hexit⟩
      cases hdone
      cases hexit
    · rintro ⟨script, s₁, ⟨-, text, ⟨f, s₂, hopen', -⟩, -⟩, -⟩
      cases hopen.symm.trans hopen'
  | some f =>
    obtain ⟨text, s₁, hread⟩ : ∃ text s₁, (fs.read f).run s₀ = (text, s₁) := ⟨_, _, rfl⟩
    have hreads : fs.Reads s w.source text s₁ := ⟨f, s₀, hopen, hread⟩
    have hgives (script : Text) (s₂ : σ) : w.Gives fs s script s₂ ↔
        s₂ = s₁ ∧ compile w.options text = some (.ok script) := by
      constructor
      · rintro ⟨-, text', ⟨f', s₃, hopen', hread'⟩, hcompile⟩
        cases hopen.symm.trans hopen'
        cases hread.symm.trans hread'
        exact ⟨rfl, hcompile⟩
      · rintro ⟨rfl, hcompile⟩
        exact ⟨hsource, text, hreads, hcompile⟩
    simp only [hgives, and_assoc, exists_eq_left]
    rw [w.execute_reads hreads, perform, h.1, h.2, if_neg Bool.false_ne_true,
      if_neg Bool.false_ne_true]
    rcases compile w.options text with _ | failure | script
    · refine iff_of_false ?_ ?_
      · rintro ⟨hdone, -⟩
        cases hdone
      · rintro ⟨script, hscript, -⟩
        cases hscript
    · refine iff_of_false ?_ ?_
      · rintro ⟨hdone, hexit⟩
        cases hdone
        cases hexit
      · rintro ⟨script, hscript, -⟩
        cases hscript
    · simp only [Option.map_some, Option.elim_some, Option.some.injEq, Except.ok.injEq,
        exists_eq_left']
      exact delivers_iff rfl

/-- Only a script is ever written. -/
theorem Work.wantsScript_of_write (h : w.perform text = some (.write path script)) :
    w.WantsScript := by
  unfold perform at h
  split at h
  · cases h
  split at h
  · obtain ⟨_, -, hdone⟩ := Option.map_eq_some_iff.mp h
    cases hdone
  · rename_i htokens htree
    exact ⟨by simpa using htokens, by simpa using htree⟩

/-- A call that changes a file ends well, and has written a script. -/
theorem call_changes (laws : fs.Lawful view) {o : Option Outcome}
    (h : (call fs program args).run s = (o, s')) (hview : view s' ≠ view s) :
    (∃ out, o = some out ∧ out.exit = 0) ∧ ∃ w, Order.ofArgs args = .work w ∧ w.WantsScript := by
  unfold call at h
  cases horder : Order.ofArgs args with
  | usage | version | complain =>
    rw [horder] at h
    cases h
    exact absurd rfl hview
  | work w =>
    simp only [horder] at h
    obtain ⟨f?, s₀, hopen⟩ : ∃ f? s₀, (fs.openIn? w.source).run s = (f?, s₀) := ⟨_, _, rfl⟩
    cases f? with
    | none =>
      rw [w.execute_none hopen] at h
      cases h
      have hkept := laws.openIn_view w.source s
      rw [hopen] at hkept
      exact absurd hkept hview
    | some f =>
      obtain ⟨text, s₁, hread⟩ : ∃ text s₁, (fs.read f).run s₀ = (text, s₁) := ⟨_, _, rfl⟩
      have hreads : fs.Reads s w.source text s₁ := ⟨f, s₀, hopen, hread⟩
      rw [w.execute_reads hreads] at h
      have hkept := laws.reads_view hreads
      cases hperform : w.perform text with
      | none =>
        rw [hperform] at h
        cases h
        exact absurd hkept hview
      | some r =>
        rw [hperform] at h
        cases r with
        | done =>
          cases h
          exact absurd hkept hview
        | write path script =>
          obtain ⟨g?, s₂, hout⟩ : ∃ g? s₂, (fs.openOut? path).run s₁ = (g?, s₂) := ⟨_, _, rfl⟩
          cases g? with
          | none =>
            rw [Option.elim_some, Result.finish_none hout] at h
            cases h
            exact absurd ((laws.openOut_none hout).trans hkept) hview
          | some g =>
            rw [Option.elim_some, Result.finish_some hout] at h
            cases h
            exact ⟨⟨_, rfl, rfl⟩, w, rfl, w.wantsScript_of_write hperform⟩

/-- **When a call for a script ends well**: if there is a script, and it can be passed on. -/
theorem Says.ends_well_iff (h : Says args items) (hwants : (items.foldl Item.apply {}).WantsScript) :
    (call fs program args).run s = (some o, s') ∧ o.exit = 0 ↔
      ∃ script s₁, (items.foldl Item.apply {}).Gives fs s script s₁ ∧
        Delivers fs s₁ script (items.foldl Item.apply {}).output o s' := by
  have horder := h.ofArgs_eq
  generalize items.foldl Item.apply {} = w at horder hwants ⊢
  by_cases hsource : w.source = []
  · refine iff_of_false ?_ ?_
    · rintro ⟨hrun, hexit⟩
      simp only [hsource, List.isEmpty_nil, if_true] at horder
      split at horder <;>
      · rw [call, horder] at hrun
        cases hrun
        cases hexit
    · rintro ⟨script, s₁, ⟨hne, -⟩, -⟩
      exact hne hsource
  · simp only [List.isEmpty_iff, if_neg hsource] at horder
    simp only [call, horder]
    exact w.execute_ends_well_iff hwants hsource

/-! ## 4. What a call leaves of the files -/

/-- The arguments ask for a script: neither for help nor for the version, nor for tokens or a
    tree. -/
structure AsksScript (args : List Text) (items : List Item) : Prop extends Says args items where
  no_tokens : .dumpTokens ∉ items
  no_tree : .dumpTree ∉ items

/-- The script that is asked for, after the last source has been read: that of its text, with the
    last options. -/
def IsScript (fs : Files (StateM σ) φ) (s : σ) (items : List Item) (script : Text) (s₁ : σ) : Prop :=
  ∃ source text, last? Item.source? items = some source ∧ source ≠ [] ∧ fs.Reads s source text s₁ ∧
    compile (optionsOf items) text = some (.ok script)

theorem wantsScript_iff :
    (items.foldl Item.apply {}).WantsScript ↔ .dumpTokens ∉ items ∧ .dumpTree ∉ items := by
  simp [Work.foldl_apply, Work.WantsScript]

theorem gives_iff_isScript :
    (items.foldl Item.apply {}).Gives fs s script s₁ ↔ IsScript fs s items script s₁ := by
  rw [Work.foldl_apply, Work.Gives, IsScript]
  cases last? Item.source? items with
  | none =>
    refine iff_of_false ?_ ?_
    · rintro ⟨hne, -⟩
      exact hne rfl
    · rintro ⟨source, text, hsource, -⟩
      cases hsource
  | some source => simp

/-- **Files are changed by scripts only**, whatever the system does, if it keeps to its laws. A call
    that fails, or does not end, leaves all files as they were. A call that changes a file was asked
    for a script, and has written it to the file that the last `-o` names, and to no other. And a call
    that is asked for a script ends well just if there is one that can be passed on: it shows just the
    script, or, with `-o`, writes it. -/
theorem files_change_by_scripts (fs : Files (StateM σ) φ) (view : σ → φ → Option Text)
    (laws : fs.Lawful view) (program : Text) (args : List Text) (s : σ) :
    (∀ o s', (call fs program args).run s = (o, s') →
      ((∀ out, o = some out → out.exit ≠ 0) → view s' = view s) ∧
      (view s' ≠ view s → ∃ items path script s₁ f s₂, AsksScript args items ∧
        last? (Item.value? .output) items = some path ∧ path ≠ [] ∧
        IsScript fs s items script s₁ ∧ (fs.openOut? path).run s₁ = (some f, s₂) ∧
        Wrote fs view s script f s')) ∧
    ∀ items, AsksScript args items → ∀ o s',
      ((call fs program args).run s = (some o, s') ∧ o.exit = 0 ↔
        ∃ script s₁, IsScript fs s items script s₁ ∧
          Delivers fs s₁ script ((last? (Item.value? .output) items).getD []) o s') := by
  have houtput (items : List Item) : (items.foldl Item.apply {}).output =
      (last? (Item.value? .output) items).getD [] := by rw [Work.foldl_apply]
  refine ⟨fun o s' hrun => ⟨fun hexit => ?_, fun hview => ?_⟩, fun items hasks o s' => ?_⟩
  · by_contra hview
    obtain ⟨⟨out, hout, hzero⟩, -⟩ := call_changes laws hrun hview
    exact hexit out hout hzero
  · obtain ⟨⟨out, rfl, hexit⟩, w, hw, hwants⟩ := call_changes laws hrun hview
    obtain ⟨items, hread, rfl⟩ := Order.says_of_ofArgs hw
    obtain ⟨script, s₁, hgives, hdelivers⟩ := (hread.ends_well_iff hwants).mp ⟨hrun, hexit⟩
    have hs₁ : view s₁ = view s := by
      obtain ⟨-, text, hreads, -⟩ := hgives
      exact laws.reads_view hreads
    obtain ⟨hne, f, s₂, hopen, hwrote⟩ := hdelivers.wrote laws (hs₁ ▸ hview)
    rw [houtput] at hne hopen
    obtain ⟨htokens, htree⟩ := wantsScript_iff.mp hwants
    cases hpath : last? (Item.value? .output) items with
    | none => exact absurd (by rw [hpath]; rfl) hne
    | some path =>
      rw [hpath] at hne hopen
      exact ⟨items, path, script, s₁, f, s₂, ⟨hread, htokens, htree⟩, hpath, hne,
        gives_iff_isScript.mp hgives, hopen, fun g hg => hs₁ ▸ hwrote.others g hg, hwrote.content⟩
  · have hwants := wantsScript_iff.mpr ⟨hasks.no_tokens, hasks.no_tree⟩
    simp only [hasks.ends_well_iff hwants, gives_iff_isScript, houtput]

/-- A source, an output and a runtime that are named twice, and an output that looks like an
    option. -/
theorem files_change_by_scripts_of_last_names :
    let d : Directory := ⟨[(txt "a", txt "?"), (txt "b", txt "@state x = 1")]⟩
    let items : List Item :=
      [.setting .output (txt "old"), .source (txt "a"), .setting .library (txt "p"),
        .setting .output (txt "--help"), .source (txt "b"), .setting .library (txt "q")]
    Directory.system.Lawful Directory.text? ∧ AsksScript (items.flatMap Item.args) items ∧
    ∃ o d' script, run (txt "oddoc") (items.flatMap Item.args) d = some (o, d') ∧
      d'.text? ≠ d.text? ∧ o.exit = 0 ∧ IsScript Directory.system d items script d ∧
      d'.get? (txt "--help") = some script ∧ d'.get? (txt "old") = none := by
  intro d items
  have hasks : AsksScript (items.flatMap Item.args) items := ⟨⟨rfl, by decide⟩, by decide, by decide⟩
  obtain ⟨p, hp, hfaults⟩ : ∃ p, readProgram (txt "@state x = 1") = some (.ok p) ∧
      (Script.ofProgram (optionsOf items) p).faults.isEmpty = true :=
    Grammar.exists_of_givesAtOnce (by decide +kernel)
  have hscript : IsScript Directory.system d items (Script.ofProgram (optionsOf items) p).text d := by
    have hsource : d.place (txt "b") = .file (txt "b") := by decide +kernel
    refine ⟨txt "b", txt "@state x = 1", by decide +kernel, by decide +kernel,
      Directory.reads_of_place hsource (by decide +kernel), ?_⟩
    rw [compile, hp]
    exact congrArg some (if_pos hfaults)
  have laws := Directory.system_lawful
  have houtput : d.place (txt "--help") = .file (txt "--help") := by decide +kernel
  have hopen := Directory.openOut?_of_place houtput
  obtain ⟨-, hends⟩ := files_change_by_scripts Directory.system Directory.text? laws (txt "oddoc")
    (items.flatMap Item.args) d
  obtain ⟨hrun, hexit⟩ := (hends items hasks _ _).mpr ⟨_, _, hscript, .written (by decide) hopen⟩
  obtain ⟨hothers, hcontent⟩ := wrote_of_open laws hopen (Script.ofProgram (optionsOf items) p).text
  have hnew := hcontent Directory.system_writesAll
  refine ⟨laws, hasks, _, _, _, ?_, ?_, hexit, hscript, hnew, ?_⟩
  · rw [run, hrun]
    rfl
  · intro hsame
    have hnone : d.text? (.file (txt "--help")) = none := by decide +kernel
    rw [hsame, hnone] at hnew
    cases hnew
  · have hold : d.text? (.file (txt "old")) = none := by decide +kernel
    exact (hothers _ (by decide)).trans hold

end CommandLine

end ReactiveScript
