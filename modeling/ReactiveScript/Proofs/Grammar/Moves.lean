import ReactiveScript.Proofs.Grammar.Located

/-!
# How a run moves the reader

Whatever a routine does, it does by a few moves: it takes the next token, goes back into the token
that it holds, notes what is wrong, gives up, or changes what it counts. Three things follow for
every run of every routine, whether it comes to a fault or not. A relation between readers that each
of these moves keeps to, and that can be followed step by step, holds between its start and its end.
A reader that lies in its source stays there, and so does what it reads. And the same routine with
more rounds for its loops does the same. As what a routine does next depends on what it read before,
all three are followed together.
-/

namespace ReactiveScript.Grammar

-- The instance of a routine is as large as the routine.
set_option synthInstance.maxSize 1000

/-- A run that another routine makes, too: it keeps to a relation, and what it comes to lies in the
    source. -/
structure MovesTo (scope : Option Text) (R : State → State → Prop) {α : Type} [Placed α]
    (y : Reading α) (s : State) (a : α) (t : State) : Prop where
  same : y s = .ok (a, t)
  keeps : R s t
  state : Placed.IsIn scope t
  value : Placed.IsIn scope a

/-- The run of a routine from a state of the source, against that of another one. -/
def MovesFrom (scope : Option Text) (R : State → State → Prop) {α : Type} [Placed α]
    (x y : Reading α) (s : State) : Prop :=
  Placed.IsIn scope s → ∀ a t, x s = .ok (a, t) → MovesTo scope R y s a t

/-- Every run of a routine, against those of another one. -/
class Moves (scope : Option Text) (R : State → State → Prop) {α : Type} [Placed α]
    (x y : Reading α) : Prop where
  run : ∀ {s : State}, MovesFrom scope R x y s

/-- So does what follows a routine, whatever the routine gives. -/
class MovesAll (scope : Option Text) (R : State → State → Prop) {α β : Type} [Placed α] [Placed β]
    (f g : α → Reading β) : Prop where
  moves : ∀ a, Located scope a → Moves scope R (f a) (g a)

section
variable {R : State → State → Prop} {α : Type} [Placed α] {x : Reading α} {s t : State} {a : α}

/-- Where no source is given, the relation is kept to from every state. -/
theorem MovesFrom.keeps (h : MovesFrom none R x x s) (hrun : x s = .ok (a, t)) : R s t :=
  (h (Placed.isIn_none s) a t hrun).keeps

theorem Moves.keeps (h : Moves none R x x) (hrun : x s = .ok (a, t)) : R s t := h.run.keeps hrun

/-- Where no source is given, only the relation is left to show. -/
theorem Moves.of_keeps (h : ∀ {s t : State} {a : α}, x s = .ok (a, t) → R s t) :
    Moves none R x x :=
  ⟨fun _ a t hrun => ⟨hrun, h hrun, Placed.isIn_none t, Placed.isIn_none a⟩⟩

end

/-- A relation that single moves keep to. -/
class Motion (R : State → State → Prop) : Prop where
  refl : ∀ s, R s s
  trans : ∀ {s t u : State}, R s t → R t u → R s u
  next : ∀ s : State, R s s.advance
  find : ∀ (s : State) {r : Report}, r.fault.stage = .build ∨ r.fault.stage = .compile →
    R s (s.report r)
  blame : ∀ (s : State) {f : ParseFault} (p : Position), f ≠ .tooDeep → R s (s.fault f p)
  giveUp : ∀ {s : State} (p : Position), s.tooDeep = false → R s (s.giveUp p)

/-- Coming back from brackets, from braces and from a deeper level keeps to it. -/
class Returns (R : State → State → Prop) : Prop extends Motion R where
  bracketed : ∀ {s t : State}, R { s with nesting := s.nesting + 1 } t →
    R s { t with nesting := t.nesting - 1 }
  outside : ∀ {s t : State}, R { s with nesting := 0 } t → R s { t with nesting := s.nesting }
  braced : ∀ {s t : State}, R { s with braceBlocks := s.braceBlocks + 1 } t →
    R s { t with braceBlocks := t.braceBlocks - 1 }
  restore : ∀ {s t : State}, R s t → R s { t with depth := s.depth }
  redepth : ∀ {s t : State} (n : Nat), R s t → R { s with depth := n } { t with depth := n }

/-- Whatever changes the counts only keeps to it. -/
class Recounts (R : State → State → Prop) : Prop extends Motion R where
  recount : ∀ (s : State) (nesting braceBlocks depth : Nat),
    R s { s with nesting := nesting, braceBlocks := braceBlocks, depth := depth }

instance {R : State → State → Prop} [h : Recounts R] : Returns R where
  bracketed hst := h.trans (h.recount _ _ _ _) (h.trans hst (h.recount _ _ _ _))
  outside hst := h.trans (h.recount _ _ _ _) (h.trans hst (h.recount _ _ _ _))
  braced hst := h.trans (h.recount _ _ _ _) (h.trans hst (h.recount _ _ _ _))
  restore hst := h.trans hst (h.recount _ _ _ _)
  redepth _ hst := h.trans (h.recount _ _ _ _) (h.trans hst (h.recount _ _ _ _))

/-- The relation holds once the depth is restored. -/
def UpToDepth (R : State → State → Prop) (s t : State) : Prop := R s { t with depth := s.depth }

instance {R : State → State → Prop} [h : Returns R] : Motion (UpToDepth R) where
  refl := h.refl
  trans {_ t u} hst htu := h.trans hst (h.redepth (t := { u with depth := t.depth }) _ htu)
  next s := h.restore (h.next s)
  find s _ hr := h.restore (h.find s hr)
  blame s _ p hf := h.restore (h.blame s p hf)
  giveUp p hs := h.restore (h.giveUp p hs)

/-- What a statement keeps to is kept to where it is left by recovery, too. -/
class Recovers (R : State → State → Prop) (c : Context) : Prop where
  checked : ∀ {s t : State} {a : Stmt},
    (∀ {b u}, statement c s = .ok (b, u) → R s u) → Grammar.checked c s = .ok (a, t) → R s t

/-- Going back into a token of the source keeps to a relation. -/
class Reenters (R : State → State → Prop) (source : Text) : Prop where
  back : ∀ {s : State} {width : Nat} {t : Token}, s.current.Closes width t →
    R s (s.reenter source width).advance
  text : ∀ {s : State} {width : Nat} {t : Token}, s.current.Closes width t →
    R s ((s.reenter source width).accept (Cursor.inside source s.current width).jsxText)

/-- Any two readers, where it does not matter how the one comes from the other. -/
def State.Anyhow (_ _ : State) : Prop := True

instance : Recounts State.Anyhow where
  refl _ := trivial
  trans _ _ := trivial
  next _ := trivial
  find _ _ _ := trivial
  blame _ _ _ _ := trivial
  giveUp _ _ := trivial
  recount _ _ _ _ := trivial

instance {c : Context} : Recovers State.Anyhow c := ⟨fun _ _ => trivial⟩

instance (source : Text) : Reenters State.Anyhow source := ⟨fun _ => trivial, fun _ => trivial⟩

/-! ## 1. Ways to put routines together -/

section
variable {α β : Type} {x : Reading α} {f g : α → Reading β} {s : State}

/-- A run of two routines, one after the other, is a run of each of them. -/
theorem bind_eq_ok {t : State} {b : β} (h : (x >>= f) s = .ok (b, t)) :
    ∃ a u, x s = .ok (a, u) ∧ f a u = .ok (b, t) := by
  have hrun : (x >>= f) s = x s >>= fun p => f p.1 p.2 := rfl
  rw [hrun] at h
  cases hx : x s with
  | error e =>
    rw [hx] at h
    cases h
  | ok p =>
    rw [hx] at h
    exact ⟨p.1, p.2, rfl, h⟩

/-- Every run of `x` from `s` that is not cut short ends as `P` says. -/
def Always (x : Reading α) (s : State) (P : α → State → Prop) : Prop :=
  ∀ ⦃a : α⦄ ⦃t : State⦄, x s = .ok (a, t) → P a t

namespace Always
variable {P : α → State → Prop} {Q : β → State → Prop} {a : α}

theorem pure (h : P a s) : Always (Pure.pure a) s P := fun _ _ hrun => by
  cases hrun
  exact h

/-- Something is found. -/
theorem found (h : P a s) : Always (Pure.pure (some a)) s fun o t => ∀ b ∈ o, P b t := by
  rintro _ t hrun b ⟨⟩
  cases hrun
  exact h

/-- What follows is judged run by run. -/
theorem seq (hf : ∀ a t, x s = .ok (a, t) → Always (f a) t Q) : Always (x >>= f) s Q := by
  intro b u hrun
  obtain ⟨a, t, hx, hrun⟩ := bind_eq_ok hrun
  exact hf a t hx hrun

theorem bind (hx : Always x s P) (hf : ∀ a t, P a t → Always (f a) t Q) : Always (x >>= f) s Q :=
  .seq fun a t hrun => hf a t (hx hrun)

/-- A step that is known. -/
theorem step {t : State} (hx : x s = .ok (a, t)) (hf : Always (f a) t Q) : Always (x >>= f) s Q :=
  .seq fun _ _ hrun => by
    cases hx.symm.trans hrun
    exact hf

theorem ite {y : Reading α} {b : Prop} [Decidable b] (hx : b → Always x s P)
    (hy : ¬ b → Always y s P) : Always (if b then x else y) s P := by
  split
  · exact hx ‹_›
  · exact hy ‹_›

end Always

/-- A run on a state of its own leaves the state as it is. -/
theorem liftM_eq_ok {inner t : State} {p : α × State}
    (h : (liftM (x.run inner) : Reading (α × State)) s = .ok (p, t)) : x inner = .ok p ∧ t = s := by
  have hrun : (liftM (x.run inner) : Reading (α × State)) s =
      x inner >>= fun q => pure (q, s) := rfl
  rw [hrun] at h
  cases hx : x inner with
  | error u =>
    rw [hx] at h
    cases h
  | ok q =>
    rw [hx] at h
    cases h
    exact ⟨rfl, rfl⟩

variable {scope : Option Text} {R : State → State → Prop} [Motion R] [Placed α] [Placed β]
  {x y : Reading α}

omit [Motion R] in
theorem Moves.anyhow (h : Moves scope R x y) : Moves scope State.Anyhow x y :=
  ⟨fun hs a t hrun =>
    have hend := h.run hs a t hrun
    ⟨hend.same, trivial, hend.state, hend.value⟩⟩

instance moves_pure {a : α} [ha : Located scope a] :
    Moves scope R (pure a : Reading α) (pure a) :=
  ⟨fun hs _ _ h => by cases h; exact ⟨rfl, Motion.refl _, hs, ha.isIn⟩⟩

/-- **One routine after the other.** -/
theorem MovesFrom.bind (hx : MovesFrom scope R x y s)
    (hf : ∀ a t, x s = .ok (a, t) → Located scope a → MovesFrom scope R (f a) (g a) t) :
    MovesFrom scope R (x >>= f) (y >>= g) s := by
  intro hs b u h
  obtain ⟨a, t, hxt, hft⟩ := bind_eq_ok h
  have hmid := hx hs a t hxt
  have hend := hf a t hxt ⟨hmid.value⟩ hmid.state b u hft
  refine ⟨?_, Motion.trans hmid.keeps hend.keeps, hend.state, hend.value⟩
  change (y s >>= fun r => g r.1 r.2) = _
  rw [hmid.same]
  exact hend.same

omit [Motion R] in
instance [hf : ∀ a : ValueIn scope α, Moves scope R (f a) (g a)] :
    MovesAll scope R f g :=
  ⟨fun a ha => hf ⟨a, ha.isIn⟩⟩

omit [Motion R] in
/-- What goes by cases on the value before it is looked at case by case. -/
instance (priority := low) {f g : Option α → Reading β}
    [hnone : Moves scope R (f none) (g none)]
    [hsome : ∀ a : ValueIn scope α, Moves scope R (f (some a)) (g (some a))] :
    MovesAll scope R f g :=
  ⟨fun | none, _ => hnone | some a, ha => hsome ⟨a, ha.isIn a rfl⟩⟩

omit [Motion R] in
instance (priority := low) {f g : Part α → Reading β}
    [hnone : Moves scope R (f .none) (g .none)]
    [hlast : ∀ a : ValueIn scope α, Moves scope R (f (.last a)) (g (.last a))]
    [hmore : ∀ a : ValueIn scope α, Moves scope R (f (.more a)) (g (.more a))] :
    MovesAll scope R f g :=
  ⟨fun
    | .none, _ => hnone
    | .last a, ha => hlast ⟨a, ha.isIn⟩
    | .more a, ha => hmore ⟨a, ha.isIn⟩⟩

instance moves_bind [hx : Moves scope R x y] [hf : MovesAll scope R f g] :
    Moves scope R (x >>= f) (y >>= g) :=
  ⟨hx.run.bind fun a _ _ ha => (hf.moves a ha).run⟩

/-- Where what follows goes by cases, the instance is found case by case. -/
theorem Moves.seq (hx : Moves scope R x y) (hf : ∀ a, Located scope a → Moves scope R (f a) (g a)) :
    Moves scope R (x >>= f) (y >>= g) :=
  have : MovesAll scope R f g := ⟨hf⟩
  moves_bind

instance [Moves scope R x y] {f : α → β}
    [∀ a : ValueIn scope α, Located scope (f a)] : Moves scope R (f <$> x) (f <$> y) := by
  rw [map_eq_pure_bind, map_eq_pure_bind]
  infer_instance

omit [Motion R] in
instance {b : Prop} [Decidable b] [Moves scope R x y] {x' y' : Reading α}
    [Moves scope R x' y'] : Moves scope R (if b then x else x') (if b then y else y') := by
  split <;> infer_instance

instance moves_get : Moves scope R (get : Reading State) get :=
  ⟨fun hs _ _ h => by cases h; exact ⟨rfl, Motion.refl _, hs, hs⟩⟩

omit [Motion R] in
/-- A change of the state. -/
theorem movesFrom_modify {f : State → State} (h : R s (f s))
    (hin : Placed.IsIn scope s → Placed.IsIn scope (f s)) :
    MovesFrom scope R (modify f : Reading Unit) (modify f) s :=
  fun hs _ _ hrun => by cases hrun; exact ⟨rfl, h, hin hs, trivial⟩

omit [Motion R] in
/-- Something that is read between two changes of what the reader counts. -/
theorem moves_between (before : State → State) (after : State → State → State)
    {S : State → State → Prop} [hx : Moves scope R x y]
    (hbefore : ∀ s source, s.IsIn source → (before s).IsIn source)
    (hafter : ∀ s t source, t.IsIn source → (after s t).IsIn source)
    (h : ∀ s t, R (before s) t → S s (after s t)) {around : Reading α → Reading α}
    (haround : ∀ z, around z = do
      let s ← get
      modify before
      let a ← z
      modify (after s)
      return a) : Moves scope S (around x) (around y) := by
  refine ⟨fun {s} hs a t hrun => ?_⟩
  rw [haround] at hrun
  obtain ⟨_, _, hget, hrun⟩ := bind_eq_ok hrun
  cases hget
  obtain ⟨_, _, hmodify, hrun⟩ := bind_eq_ok hrun
  cases hmodify
  obtain ⟨a, u, hxu, hrun⟩ := bind_eq_ok hrun
  cases hrun
  have hend := hx.run (fun source hsource => hbefore s source (hs source hsource)) a u hxu
  refine ⟨?_, h s u hend.keeps, fun source hsource => hafter s u source (hend.state source hsource),
    hend.value⟩
  rw [haround]
  change (y (before s) >>= fun r => _) = _
  rw [hend.same]
  rfl

omit [Motion R] in
instance moves_outOfRounds : Moves scope R (outOfRounds : Reading α) y :=
  ⟨fun _ _ _ h => by cases h⟩

instance {wanted : Bool} [Moves scope R x y] :
    Moves scope R (readIf wanted x) (readIf wanted y) := by
  unfold readIf
  infer_instance

instance {f g : β → Reading α} [hf : ∀ b : ValueIn scope β, Moves scope R (f b) (g b)]
    {bs : List β} [hbs : Located scope bs] : Moves scope R (bs.mapM f) (bs.mapM g) := by
  have hall := hbs.isIn
  clear hbs
  induction bs with
  | nil => exact moves_pure
  | cons b bs ih =>
    obtain ⟨hb, hrest⟩ := List.forall_mem_cons.mp hall
    have hfirst := hf ⟨b, hb⟩
    have hothers := ih hrest
    rw [List.mapM_cons, List.mapM_cons]
    infer_instance

end

/-! ## 2. Operations on the state -/

/-- Faults of the grammar other than its depth. -/
class OtherThanDepth (f : ParseFault) : Prop where
  ne : f ≠ .tooDeep

instance (want got : Kind) : OtherThanDepth (.expectedToken want got) := ⟨nofun⟩

instance (want : Wanted) (got : Kind) : OtherThanDepth (.expected want got) := ⟨nofun⟩

instance : OtherThanDepth .noBlock := ⟨nofun⟩

instance : OtherThanDepth .noDeclaration := ⟨nofun⟩

instance : OtherThanDepth .taggedOptional := ⟨nofun⟩

instance (want got : Text) : OtherThanDepth (.closingName want got) := ⟨nofun⟩

/-- A layout that skips tokens for other faults than depth. -/
class Layout.Skips {σ : Type} (l : Layout σ) : Prop where
  other : ∀ {memory : σ} {t : Token} {f : ParseFault}, l.turn memory t = .skip f → OtherThanDepth f

instance : Layout.program.Skips := ⟨fun {_ _ f} h => ⟨by simp only [Layout.program] at h; grind⟩⟩

instance : Layout.braces.Skips := ⟨fun {_ _ f} h => ⟨by simp only [Layout.braces] at h; grind⟩⟩

instance (column : Nat) : (Layout.indented column).Skips :=
  ⟨fun {_ _ f} h => ⟨by simp only [Layout.indented] at h; grind⟩⟩

/-- As many rounds as another loop has, or fewer. -/
class AtMost (m n : Nat) : Prop where
  le : m ≤ n

instance (n : Nat) : AtMost n n := ⟨Nat.le_refl n⟩

theorem AtMost.exists_succ {m n : Nat} (h : AtMost (m + 1) n) : ∃ k, n = k + 1 ∧ AtMost m k := by
  cases n with
  | zero => exact absurd h.le (Nat.not_succ_le_zero m)
  | succ k => exact ⟨k, rfl, ⟨Nat.le_of_succ_le_succ h.le⟩⟩

section
variable {scope : Option Text} {R : State → State → Prop} [Motion R] {k : Kind}

instance moves_token : Moves scope R token token := by unfold token; infer_instance

instance moves_sees : Moves scope R (sees k) (sees k) := by unfold sees; infer_instance

instance : Moves scope R atEnd atEnd := by unfold atEnd; infer_instance

instance {word : Text} : Moves scope R (seesWord word) (seesWord word) := by
  unfold seesWord; infer_instance

instance : Moves scope R canContinue canContinue := by
  unfold canContinue; infer_instance

instance moves_advance : Moves scope R advance advance :=
  ⟨movesFrom_modify (Motion.next _) fun hs source hsource => (hs source hsource).advance⟩

instance moves_take : Moves scope R take take := by unfold take; infer_instance

instance : Moves scope R (accept k) (accept k) := by
  unfold accept; infer_instance

/-- What is found in a construct can be reported at any time. -/
theorem moves_report {r : Report} [hr : Located scope r]
    (h : r.fault.stage = .build ∨ r.fault.stage = .compile) : Moves scope R (report r) (report r) :=
  ⟨movesFrom_modify (Motion.find _ h) fun hs source hsource =>
    (hs source hsource).report (Position.isIn_iff_forall.mp hr.isIn source hsource)⟩

theorem moves_reportAll {rs : List Report} [hrs : Located scope rs]
    (h : ∀ r ∈ rs, r.fault.stage = .build) : Moves scope R (reportAll rs) (reportAll rs) := by
  have hall := hrs.isIn
  clear hrs
  induction rs with
  | nil => exact moves_pure
  | cons r rs ih =>
    obtain ⟨hr, hrest⟩ := List.forall_mem_cons.mp hall
    have hfirst : Located scope r := ⟨hr⟩
    have hhead : Moves scope R _ _ := moves_report (.inl (h r List.mem_cons_self))
    have htail := ih (fun r hr => h r (List.mem_cons_of_mem _ hr)) hrest
    have hcons : reportAll (r :: rs) = report r >>= fun _ => reportAll rs := rfl
    rw [hcons]
    infer_instance

instance {α : Type} {rest? : α → Option Position} {items : List α}
    [Located scope (Check.restLast rest? items)] :
    Moves scope R (reportAll (Check.restLast rest? items))
      (reportAll (Check.restLast rest? items)) :=
  moves_reportAll fun r hr => by
    obtain ⟨p, -, rfl⟩ := List.mem_map.mp hr
    rfl

instance {properties : List Property} [Located scope properties] :
    Moves scope R (reportAll (Check.computedComplete properties))
      (reportAll (Check.computedComplete properties)) :=
  moves_reportAll fun r hr => by
    obtain ⟨p, -, rfl⟩ := List.mem_map.mp hr
    rfl

instance {f : ParseFault} [hf : OtherThanDepth f] {p : Position}
    [hp : Located scope p] : Moves scope R (faultAt f p) (faultAt f p) :=
  ⟨movesFrom_modify (Motion.blame _ p hf.ne) fun hs source hsource =>
    (hs source hsource).fault (Position.isIn_iff_forall.mp hp.isIn source hsource)⟩

instance {f : ParseFault} [OtherThanDepth f] : Moves scope R (fault f) (fault f) := by
  unfold fault; infer_instance

instance {w : Wanted} : Moves scope R (expected w) (expected w) := by
  unfold expected; infer_instance

instance : Moves scope R (expect k) (expect k) := by
  unfold expect; infer_instance

instance : Moves scope R (expectToken k) (expectToken k) := by
  unfold expectToken; infer_instance

instance {word : Text} : Moves scope R (expectWord word) (expectWord word) := by
  unfold expectWord; infer_instance

instance moves_badHere : Moves scope R badHere badHere := by unfold badHere; infer_instance

instance moves_emptyBlock : Moves scope R emptyBlock emptyBlock := by
  unfold emptyBlock; infer_instance

instance : Moves scope R tooDeep tooDeep := by
  have hcheck : Moves scope R (modify State.checkDepth) (modify State.checkDepth) := by
    refine ⟨fun {s} => movesFrom_modify ?_ fun hs source hsource => ?_⟩ <;> unfold State.checkDepth
    · split
      · rename_i hdeep
        rw [Bool.and_eq_true, Bool.not_eq_true'] at hdeep
        exact Motion.giveUp _ hdeep.1
      · exact Motion.refl s
    · have hin := hs source hsource
      split
      · exact hin.giveUp hin.current.pos
      · exact hin
  unfold tooDeep
  infer_instance

end

section
variable {scope : Option Text} {R : State → State → Prop} [Returns R] {α : Type} [Placed α]
  {x y x' y' : Reading α}

section
variable [Moves scope R x y]

instance moves_bracketed : Moves scope R (bracketed x) (bracketed y) :=
  moves_between (fun s => { s with nesting := s.nesting + 1 })
    (fun _ t => { t with nesting := t.nesting - 1 })
    (fun _ _ h => h.recount) (fun _ _ _ h => h.recount) (fun _ _ => Returns.bracketed) fun _ => rfl

instance : Moves scope R (outsideBrackets x) (outsideBrackets y) :=
  moves_between (fun s => { s with nesting := 0 }) (fun s t => { t with nesting := s.nesting })
    (fun _ _ h => h.recount) (fun _ _ _ h => h.recount) (fun _ _ => Returns.outside) fun _ => rfl

instance : Moves scope R (insideBraces x) (insideBraces y) :=
  moves_between (fun s => { s with braceBlocks := s.braceBlocks + 1 })
    (fun _ t => { t with braceBlocks := t.braceBlocks - 1 })
    (fun _ _ h => h.recount) (fun _ _ _ h => h.recount) (fun _ _ => Returns.braced) fun _ => rfl

instance (priority := low) moves_upToDepth : Moves scope (UpToDepth R) x y :=
  ⟨fun hs a t hrun =>
    have hend := (‹Moves scope R x y›.run hs a t hrun)
    ⟨hend.same, Returns.restore hend.keeps, hend.state, hend.value⟩⟩

end

variable [Moves scope (UpToDepth R) x y]

instance moves_restoringDepth : Moves scope R (restoringDepth x) (restoringDepth y) :=
  moves_between (R := UpToDepth R) id (fun s t => { t with depth := s.depth })
    (fun _ _ h => h) (fun _ _ _ h => h.recount) (fun _ _ h => h) fun _ => rfl

variable [Moves scope (UpToDepth R) x' y']

instance moves_deeper : Moves scope (UpToDepth R) (deeper x' x) (deeper y' y) := by
  have hdeepen : Moves scope (UpToDepth R) deepen deepen :=
    ⟨movesFrom_modify (Motion.refl (R := R) _) fun hs source hsource => (hs source hsource).recount⟩
  unfold deeper
  infer_instance

instance : Moves scope R (nested x' x) (nested y' y) := moves_restoringDepth

end

section
variable {scope : Option Text} {R : State → State → Prop} [Motion R]

/-! ### Loops -/

section
variable {m n : Nat} [h : AtMost m n]

instance : Moves scope R (skipLine m) (skipLine n) := by
  induction m generalizing n with
  | zero => exact moves_outOfRounds
  | succ m ih =>
    obtain ⟨n, rfl, hrest⟩ := h.exists_succ
    have hrest : Moves scope R (skipLine m) (skipLine n) := ih
    unfold skipLine
    infer_instance

instance {start : Nat} : Moves scope R (recover m start) (recover n start) := by
  unfold recover; infer_instance

variable {α : Type} [Placed α] {close : Kind} {x y : Reading (Part α)} [Moves scope R x y]

instance {done : List α} [Located scope done] :
    Moves scope R (partsFrom close x done m) (partsFrom close y done n) := by
  induction m generalizing n done with
  | zero => exact moves_outOfRounds
  | succ m ih =>
    obtain ⟨n, rfl, hrest⟩ := h.exists_succ
    have hrest {done : List α} [Located scope done] :
        Moves scope R (partsFrom close x done m) (partsFrom close y done n) := ih
    unfold partsFrom
    infer_instance

end

/-- A statement that is recovered from, where the flag for being too deep does not matter. -/
theorem recovers_of_reset (h : ∀ s, R s { s with tooDeep := false }) (c : Context) :
    Recovers R c := by
  refine ⟨fun hstatement hrun => ?_⟩
  obtain ⟨_, _, hget, hrun⟩ := bind_eq_ok hrun
  cases hget
  obtain ⟨b, u, hb, hrun⟩ := bind_eq_ok hrun
  refine Motion.trans (hstatement hb) (Moves.keeps ?_ hrun)
  have hreset : Moves none R (modify fun s => { s with tooDeep := false }) _ :=
    .of_keeps fun hrun => by cases hrun; exact h _
  infer_instance

end

/-! ## 3. What closes a tag or a child -/

/-- The reader holds a token, and not a run of text between tags. -/
def State.HoldsToken (s : State) : Prop := s.current.kind ≠ .jsxText

theorem State.holdsToken_advance (s : State) : s.advance.HoldsToken := by
  unfold HoldsToken
  rw [advance_current]
  exact Cursor.next_kind_ne_jsxText _

section
variable {c : Context} {s : State} {name : Text} {k : Kind}

theorem always_accept : Always (accept k) s fun b t => t = if b then s.advance else s :=
  .step rfl (.ite (fun _ => .step rfl (.pure rfl)) fun _ => .pure rfl)

theorem always_expect : Always (expect k) s fun b t => b → t.HoldsToken := by
  refine .bind always_accept fun b t ht => .ite (fun hb => .pure fun _ => ?_) fun _ => ?_
  · rw [ht, if_pos hb]
    exact s.holdsToken_advance
  · exact .step rfl (.seq fun _ _ _ => .pure nofun)

/-- What is found ends behind a token that was taken. -/
def Lands {α : Type} (x : Reading (Option α)) (s : State) : Prop :=
  Always x s fun o t => o.isSome → t.HoldsToken

/-- Behind a fault nothing is found. -/
theorem lands_none {α β : Type} {x : Reading β} : Lands (x >>= fun _ => pure (none : Option α)) s :=
  .seq fun _ _ _ => .pure nofun

theorem lands_jsxNameRest (rounds : Nat) (hs : s.HoldsToken) : Lands (jsxNameRest name rounds) s := by
  induction rounds generalizing name s with
  | zero => exact fun _ _ hrun => by cases hrun
  | succ rounds ih =>
    refine .step rfl (.ite (fun _ => .step rfl (.step rfl (.ite (fun _ => ?_) fun _ => ?_))) ?_)
    · exact .step rfl (ih (State.holdsToken_advance _))
    · exact lands_none
    · exact fun _ => .pure fun _ => hs

theorem lands_jsxName : Lands (jsxName c) s :=
  .step rfl (.ite (fun _ => .step rfl (lands_jsxNameRest _ s.holdsToken_advance)) fun _ => lands_none)

theorem lands_bracedValue {f : Expr → Attribute} :
    Lands (do return (← bracedValue c).map f) s := by
  have hvalue : Lands (bracedValue c) s := .seq fun _ _ _ => .bind always_expect fun _ _ ht =>
    .ite (fun hb => .pure fun _ => ht hb) fun _ => .pure nofun
  exact .bind hvalue fun o t ht => .pure fun ho => ht (by simpa using ho)

theorem lands_attributeValue {p : Position} (hs : s.HoldsToken) :
    Lands (attributeValue c p name) s := by
  refine .bind always_accept fun b t ht => .ite (fun hb => .pure fun _ => ?_) fun _ => ?_
  · rw [ht, if_neg (by simpa using hb)]
    exact hs
  · refine .step rfl (.ite (fun _ => .step rfl (.pure fun _ => t.holdsToken_advance)) fun _ => ?_)
    exact .seq fun _ _ _ => .ite (fun _ => lands_bracedValue) fun _ => lands_none

theorem lands_tagAttribute : Lands (tagAttribute c) s := by
  refine .step rfl (.seq fun _ _ _ => .ite (fun _ => ?_) fun _ => .bind lands_jsxName ?_)
  · exact .seq fun _ _ _ => .ite (fun _ => lands_bracedValue) fun _ => .pure nofun
  · rintro (_ | name) t ht
    · exact .pure nofun
    · exact lands_attributeValue (ht rfl)

/-- Attributes end before the end of their tag. -/
theorem always_attributesFrom {done : List Attribute} {rounds : Nat} :
    Always (attributesFrom c done rounds) s fun o t => o.isSome → (s.HoldsToken → t.HoldsToken) ∧
      (t.current.kind = .punct .selfClose ∨ t.current.startsWith Byte.greater = true) := by
  induction rounds generalizing done s with
  | zero => exact fun _ _ hrun => by cases hrun
  | succ rounds ih =>
    refine .step rfl (.ite (fun _ => .seq fun _ _ _ => .pure nofun) fun _ => .step rfl (.step rfl ?_))
    refine .ite (fun hend => .pure fun _ => ⟨id, by simpa [State.sees] using hend⟩) fun _ => ?_
    refine .bind lands_tagAttribute ?_
    rintro (_ | a) t ht
    · exact .pure nofun
    · intro o u hrun ho
      exact ⟨fun _ => (ih hrun ho).1 (ht rfl), (ih hrun ho).2⟩

/-- A closing tag that is right ends at the current token. -/
theorem always_closingTag : Always (closingTag c name) s fun right t => right →
    t.HoldsToken ∧ t.current.startsWith Byte.greater = true := by
  refine .step rfl (.step rfl (.bind lands_jsxName ?_))
  rintro (_ | closing) t ht
  · exact .pure nofun
  · refine .ite (fun _ => .seq fun _ _ _ => .pure nofun) fun _ => .step rfl (.ite (fun htag => ?_) ?_)
    · exact .pure fun _ => ⟨ht rfl, htag⟩
    · exact fun _ => .seq fun _ _ _ => .pure nofun

end

/-! ## 4. Routines of the grammar -/

/-- The context of the same source, with as many rounds or more. -/
class Context.Widens (c d : Context) : Prop where
  source_eq : c.source = d.source
  lines_eq : c.lines = d.lines
  rounds : AtMost c.rounds d.rounds

attribute [instance] Context.Widens.rounds

instance (c : Context) : c.Widens c := ⟨rfl, rfl, inferInstance⟩

/-- The context is one of the source, the runs of the routines of the level below go as those of
    another context, and going back into a token and leaving a statement keep to the relation. -/
class Context.Moves (scope : Option Text) (R : State → State → Prop) (c d : Context) : Prop where
  fits : ∀ source ∈ scope, c.source = source ∧ c.lines = LineMap.ofText source
  reenters : Reenters R c.source
  recovers : Recovers R c
  assignment : Grammar.Moves scope R c.inner.assignment d.inner.assignment
  binary : ∀ {least}, Grammar.Moves scope R (c.inner.binary least) (d.inner.binary least)
  binaryRest : ∀ {least left} [Located scope left],
    Grammar.Moves scope (UpToDepth R) (c.inner.binaryRest least left) (d.inner.binaryRest least left)
  unary : Grammar.Moves scope R c.inner.unary d.inner.unary
  chainRest : ∀ {optional e} [Located scope e],
    Grammar.Moves scope (UpToDepth R) (c.inner.chainRest optional e) (d.inner.chainRest optional e)
  block : ∀ {header}, Grammar.Moves scope R (c.inner.block header) (d.inner.block header)
  pattern : Grammar.Moves scope R c.inner.pattern d.inner.pattern
  jsx : ∀ {inChildren}, Grammar.Moves scope R (c.inner.jsx inChildren) (d.inner.jsx inChildren)

attribute [instance] Context.Moves.assignment Context.Moves.binary Context.Moves.binaryRest
  Context.Moves.unary Context.Moves.chainRest Context.Moves.block Context.Moves.pattern
  Context.Moves.jsx

section
variable {scope : Option Text} {R : State → State → Prop} [Returns R] {c d : Context}
  [w : c.Widens d] [hc : Context.Moves scope R c d] {h : Template.Hole}

instance {α : Type} [Placed α] {close : Kind} {x y : Reading (Part α)}
    [Moves scope R x y] : Moves scope R (parts c close x) (parts d close y) := by
  unfold parts; infer_instance

/-! ### Patterns -/

instance : Moves scope R (default? c) (default? d) := by
  unfold default?; infer_instance

instance : Moves scope R seesPattern seesPattern := by
  unfold seesPattern; infer_instance

instance : Moves scope R (bindingTarget c) (bindingTarget d) := by
  unfold bindingTarget; infer_instance

instance : Moves scope R (patternElement c) (patternElement d) := by
  unfold patternElement; infer_instance

instance : Moves scope R (arrayPattern c) (arrayPattern d) := by
  unfold arrayPattern; infer_instance

section
variable {p : Position} [Located scope p]

instance : Moves scope R (namedProperty c p) (namedProperty d p) := by
  unfold namedProperty; infer_instance

instance : Moves scope R (keyedProperty c p) (keyedProperty d p) := by
  unfold keyedProperty; infer_instance

end

instance : Moves scope R (patternProperty c) (patternProperty d) := by
  unfold patternProperty; infer_instance

instance : Moves scope R (objectPattern c) (objectPattern d) := by
  unfold objectPattern; infer_instance

instance moves_pattern : Moves scope R (pattern c) (pattern d) := by
  unfold pattern; infer_instance

/-! ### Statements -/

instance : Moves scope R endStatement endStatement := by
  unfold endStatement; infer_instance

section
variable {p : Position} [Located scope p] {m : Option Text}

instance : Moves scope R (expressionStmt c m p) (expressionStmt d m p) := by
  unfold expressionStmt; infer_instance

instance : Moves scope R (returnStmt c m p) (returnStmt d m p) := by
  unfold returnStmt; infer_instance

instance : Moves scope R (modifierStmt c) (modifierStmt d) := by
  unfold modifierStmt; infer_instance

instance : Moves scope R exportSpecifier exportSpecifier :=
  .seq inferInstance fun t _ => by split <;> infer_instance

instance : Moves scope R (exportList c p) (exportList d p) := by
  unfold exportList; infer_instance

instance : Moves scope R exportModifier exportModifier := by
  unfold exportModifier; infer_instance

instance : Moves scope R (exportDeclaration c p) (exportDeclaration d p) := by
  unfold exportDeclaration; infer_instance

instance : Moves scope R (exportStmt c) (exportStmt d) := by
  unfold exportStmt; infer_instance

instance : Moves scope R importSource importSource := by
  unfold importSource
  refine .seq inferInstance fun _ _ => .seq inferInstance fun o ho => .seq inferInstance fun _ _ => ?_
  cases o with
  | none => infer_instance
  | some t =>
    have ht : Located scope t := ⟨ho.isIn t rfl⟩
    infer_instance

instance : Moves scope R importSpecifier importSpecifier := by
  unfold importSpecifier; infer_instance

instance : Moves scope R (importList c) (importList d) := by
  unfold importList; infer_instance

instance : Moves scope R (importAll p) (importAll p) := by
  unfold importAll; infer_instance

instance : Moves scope R (moreNames c) (moreNames d) := by
  unfold moreNames; infer_instance

instance : Moves scope R (importSome c p) (importSome d p) := by
  unfold importSome; infer_instance

instance : Moves scope R (importStmt c) (importStmt d) := by
  unfold importStmt; infer_instance

end

instance : Moves scope R (statement c) (statement d) := by
  refine .seq inferInstance fun t _ => ?_
  generalize t.kind = k
  split <;> infer_instance

/-- The relation holds by what is known of recovery; all else is followed as in other routines. -/
instance : Moves scope R (checked c) (checked d) := by
  have hstatement : Moves scope R (statement c) (statement d) := inferInstance
  have hchecked : Moves scope State.Anyhow (checked c) (checked d) := by
    have hinner := hstatement.anyhow
    have hreset : Moves scope State.Anyhow (modify fun s => { s with tooDeep := false }) _ :=
      ⟨movesFrom_modify trivial fun hs source hsource => (hs source hsource).recount⟩
    unfold checked
    infer_instance
  refine ⟨fun hs a t hrun => ?_⟩
  have hend := hchecked.run hs a t hrun
  have hkeeps : R _ t := hc.recovers.checked (fun h => (hstatement.run hs _ _ h).keeps) hrun
  exact ⟨hend.same, hkeeps, hend.state, hend.value⟩

instance {f : ParseFault} [OtherThanDepth f] :
    Moves scope R (skipFaulty c f) (skipFaulty d f) := by
  unfold skipFaulty; infer_instance

section
variable {σ : Type} {l : Layout σ} [hl : l.Skips] {memory : σ}

instance {done : List Stmt} [Located scope done] {m n : Nat}
    [h : AtMost m n] :
    Moves scope R (statementsFrom c l memory done m) (statementsFrom d l memory done n) := by
  induction m generalizing n memory done with
  | zero => exact moves_outOfRounds
  | succ m ih =>
    obtain ⟨n, rfl, hrest⟩ := h.exists_succ
    have hrest {memory : σ} {done : List Stmt} [Located scope done] :
        Moves scope R (statementsFrom c l memory done m) (statementsFrom d l memory done n) := ih
    unfold statementsFrom
    refine .seq inferInstance fun t _ => ?_
    generalize hturn : l.turn memory t = turn
    cases turn with
    | skip f =>
      have hother := hl.other hturn
      infer_instance
    | _ => infer_instance

instance : Moves scope R (statements c l memory) (statements d l memory) := by
  unfold statements; infer_instance

end

instance : Moves scope R (program c) (program d) := by
  unfold program; infer_instance

instance : Moves scope R (braceBlock c) (braceBlock d) := by
  unfold braceBlock; infer_instance

instance {header : Nat} :
    Moves scope R (indentedBlock c header) (indentedBlock d header) := by
  unfold indentedBlock; infer_instance

instance moves_block {header : Nat} : Moves scope R (block c header) (block d header) := by
  unfold block; infer_instance

/-! ### Functions -/

instance : Moves scope R (param c) (param d) := by unfold param; infer_instance

instance : Moves scope R (params c) (params d) := by unfold params; infer_instance

instance {p : Position} [Located scope p] {ps : List Param} [Located scope ps] {header : Nat} :
    Moves scope R (arrowBody c p ps header) (arrowBody d p ps header) := by
  unfold arrowBody; infer_instance

instance : Moves scope R (arrow c) (arrow d) := by unfold arrow; infer_instance

/-! ### Elements and fragments -/

section
variable {width : Nat} {token : Token} {inChildren : Bool} {s : State}

/-! The text between tags is read where the reader holds the end of a tag or of a child. -/

omit [Returns R] in
theorem movesFrom_advanceText (hclose : s.current.Closes width token) :
    MovesFrom scope R (advanceText c width) (advanceText d width) s := by
  intro hs _ _ hrun
  cases hrun
  refine ⟨?_, hc.reenters.text hclose, fun source hsource => ?_, trivial⟩
  · unfold advanceText
    rw [w.source_eq]
    rfl
  · have hin := hs source hsource
    have hback := hin.reenter (State.passes_of_closes hin.current hclose)
    rw [(hc.fits source hsource).1]
    exact hback.accept hback.cursor.jsxText

omit [Returns R] in
theorem movesFrom_leaveTag (hclose : s.current.Closes width token) :
    MovesFrom scope R (leaveTag c width inChildren) (leaveTag d width inChildren) s := by
  unfold leaveTag
  split
  · exact movesFrom_advanceText hclose
  · intro hs _ _ hrun
    cases hrun
    refine ⟨?_, hc.reenters.back hclose, fun source hsource => ?_, trivial⟩
    · rw [w.source_eq]
      rfl
    · have hin := hs source hsource
      rw [(hc.fits source hsource).1]
      exact (hin.reenter (State.passes_of_closes hin.current hclose)).advance

end

instance moves_seesTagEnd : Moves scope R seesTagEnd seesTagEnd := by
  unfold seesTagEnd; infer_instance

instance {name : Text} {m n : Nat} [h : AtMost m n] :
    Moves scope R (jsxNameRest name m) (jsxNameRest name n) := by
  induction m generalizing n name with
  | zero => exact moves_outOfRounds
  | succ m ih =>
    obtain ⟨n, rfl, hrest⟩ := h.exists_succ
    have hrest {name : Text} : Moves scope R (jsxNameRest name m) (jsxNameRest name n) := ih
    unfold jsxNameRest
    infer_instance

instance moves_jsxName : Moves scope R (jsxName c) (jsxName d) := by
  unfold jsxName; infer_instance

instance : Moves scope R (bracedValue c) (bracedValue d) := by
  unfold bracedValue; infer_instance

section
variable {p : Position} [Located scope p] {name : Text}

instance : Moves scope R (spreadAttribute c p) (spreadAttribute d p) := by
  unfold spreadAttribute; infer_instance

instance : Moves scope R (attributeValue c p name) (attributeValue d p name) := by
  unfold attributeValue; infer_instance

instance : Moves scope R (namedAttribute c p) (namedAttribute d p) := by
  unfold namedAttribute; infer_instance

end

instance : Moves scope R (tagAttribute c) (tagAttribute d) := by
  unfold tagAttribute; infer_instance

instance moves_attributesFrom {done : List Attribute} [Located scope done] {m n : Nat}
    [h : AtMost m n] : Moves scope R (attributesFrom c done m) (attributesFrom d done n) := by
  induction m generalizing n done with
  | zero => exact moves_outOfRounds
  | succ m ih =>
    obtain ⟨n, rfl, hrest⟩ := h.exists_succ
    have hrest {done : List Attribute} [Located scope done] :
        Moves scope R (attributesFrom c done m) (attributesFrom d done n) := ih
    unfold attributesFrom
    infer_instance

/-- Behind the brace of a child its text is read on. -/
instance : Moves scope R (bracedChild c) (bracedChild d) := by
  refine ⟨.bind moves_take.run fun brace u _ hbrace => ?_⟩
  refine .bind moves_token.run fun close v htoken hclose => ?_
  cases htoken
  split
  · rename_i hkind
    have hslot := located_comment (located_through hbrace hclose)
    have hmark : u.current.Closes 1 u.current := .mark hkind
    exact .bind (movesFrom_advanceText hmark) fun _ _ _ _ => Moves.run
  · refine .bind moves_bracketed.run fun e v _ he => ?_
    refine .bind moves_token.run fun close w htoken hclose => ?_
    cases htoken
    split
    · rename_i hkind
      have hslot := located_node (e := .jsxExpression brace.pos e) (located_through hbrace hclose)
        inferInstance
      have hmark : v.current.Closes 1 v.current := .mark hkind
      exact .bind (movesFrom_advanceText hmark) fun _ _ _ _ => Moves.run
    · exact Moves.run

instance : Moves scope R (elementChild c) (elementChild d) := by
  unfold elementChild
  refine .seq inferInstance fun first hfirst => .seq inferInstance fun e he => ?_
  have hslot (last : ValueIn scope Token) :
      Located scope (Slot.node ⟨first.offset, last.1.offset⟩ e) :=
    located_node (located_between hfirst inferInstance) he
  infer_instance

instance moves_slotsFrom {done : List Slot} [Located scope done] {m n : Nat} [h : AtMost m n] :
    Moves scope R (slotsFrom c done m) (slotsFrom d done n) := by
  induction m generalizing n done with
  | zero => exact moves_outOfRounds
  | succ m ih =>
    obtain ⟨n, rfl, hrest⟩ := h.exists_succ
    have hrest {done : List Slot} [Located scope done] :
        Moves scope R (slotsFrom c done m) (slotsFrom d done n) := ih
    unfold slotsFrom
    refine .seq inferInstance fun t _ => .seq inferInstance fun u _ => ?_
    generalize u.kind = k
    split <;> infer_instance

omit hc [Returns R] in
theorem childrenOf_eq (ss : List Slot) : childrenOf d ss = childrenOf c ss := by
  unfold childrenOf
  rw [w.source_eq, w.lines_eq]

instance moves_closingTag {name : Text} : Moves scope R (closingTag c name) (closingTag d name) := by
  unfold closingTag; infer_instance

section
variable {inChildren : Bool} {p : Position} [Located scope p] {s : State}

/-- What stands between two tags, read from the end of the first. -/
theorem movesFrom_slots (hs : s.HoldsToken) (htag : s.current.startsWith Byte.greater = true) :
    MovesFrom scope R (slots c) (slots d) s :=
  .bind (movesFrom_advanceText (.tag hs htag)) fun _ _ _ _ => moves_slotsFrom.run

/-- A fragment, from the end of its first tag. -/
theorem movesFrom_fragment (hs : s.HoldsToken) (htag : s.current.startsWith Byte.greater = true) :
    MovesFrom scope R (fragment c inChildren p) (fragment d inChildren p) s := by
  refine .bind (movesFrom_slots hs htag) fun o u _ ho => ?_
  cases o with
  | none => exact Moves.run
  | some ss =>
    have hchildren : Located scope (childrenOf c ss) :=
      Children.located_ofSlots hc.fits ⟨ho.isIn ss rfl⟩
    dsimp only
    rw [childrenOf_eq (c := c) (d := d)]
    refine .bind moves_advance.run fun _ v hadvance _ => ?_
    cases hadvance
    refine .bind moves_seesTagEnd.run fun b v hsees _ => ?_
    cases hsees
    split
    · rename_i hend
      exact .bind (movesFrom_leaveTag (.tag u.holdsToken_advance hend)) fun _ _ _ _ => Moves.run
    · exact Moves.run

/-- The rest of an element, from the end of its first tag. -/
theorem movesFrom_elementRest {name : Text} {as : List Attribute} [Located scope as]
    (hs : s.HoldsToken)
    (htag : s.current.kind = .punct .selfClose ∨ s.current.startsWith Byte.greater = true) :
    MovesFrom scope R (elementRest c inChildren p name as) (elementRest d inChildren p name as)
      s := by
  refine .bind moves_sees.run fun b u hsees _ => ?_
  cases hsees
  split
  · rename_i hclose
    have hmark : s.current.Closes 2 s.current := .mark (by simpa [State.sees] using hclose)
    exact .bind (movesFrom_leaveTag hmark) fun _ _ _ _ => Moves.run
  · rename_i hclose
    have htag' : s.current.startsWith Byte.greater = true :=
      htag.resolve_left fun hkind => hclose (by simpa [State.sees] using hkind)
    refine .bind (movesFrom_slots hs htag') fun o u _ ho => ?_
    cases o with
    | none => exact Moves.run
    | some ss =>
      have hchildren : Located scope (childrenOf c ss) :=
        Children.located_ofSlots hc.fits ⟨ho.isIn ss rfl⟩
      dsimp only
      rw [childrenOf_eq (c := c) (d := d)]
      refine .bind moves_closingTag.run fun right v hclosing _ => ?_
      split
      · obtain ⟨htoken, hend⟩ := always_closingTag hclosing ‹_›
        exact .bind (movesFrom_leaveTag (.tag htoken hend)) fun _ _ _ _ => Moves.run
      · exact Moves.run

instance moves_element : Moves scope R (element c inChildren p) (element d inChildren p) := by
  refine ⟨.bind moves_jsxName.run fun name u hname _ => ?_⟩
  cases name with
  | none => exact Moves.run
  | some name =>
    refine .bind moves_attributesFrom.run fun o v hattributes ho => ?_
    cases o with
    | none => exact Moves.run
    | some as =>
      have has : Located scope as := ⟨ho.isIn as rfl⟩
      obtain ⟨htoken, hend⟩ := always_attributesFrom hattributes rfl
      exact movesFrom_elementRest (htoken (lands_jsxName hname rfl)) hend

end

instance moves_markup {inChildren : Bool} :
    Moves scope R (markup c inChildren) (markup d inChildren) := by
  refine ⟨fun {s} => .bind moves_take.run fun first u htake _ => ?_⟩
  cases htake
  refine .bind moves_seesTagEnd.run fun b u hsees _ => ?_
  cases hsees
  split
  · exact movesFrom_fragment s.holdsToken_advance ‹_›
  · exact moves_element.run

instance moves_jsx {inChildren : Bool} : Moves scope R (jsx c inChildren) (jsx d inChildren) := by
  unfold jsx; infer_instance

/-! ### Expressions -/

omit w hc [Returns R] in
/-- **What a run of a hole is**: its expression is read by a reader of its own, and only that this
    one came too deep is handed on. -/
theorem hole_run (c : Context) {s t : State} {o : Option Expr} (hrun : hole c h s = .ok (o, t)) :
    ∃ e u, c.inner.assignment { State.start (Cursor.place c.source h.pos) with
          nesting := 1, depth := s.depth } = .ok (e, u) ∧
      t = (if (u.tooDeep && !s.tooDeep) = true then s.giveUp h.pos else s) ∧
      o = if (u.reports.isEmpty && decide (u.current.offset = h.span.stop)) = true then some e
        else none := by
  obtain ⟨_, _, hget, hrun⟩ := bind_eq_ok hrun
  cases hget
  obtain ⟨⟨e, u⟩, v, hinner, hrun⟩ := bind_eq_ok hrun
  obtain ⟨hinner, rfl⟩ := liftM_eq_ok hinner
  refine ⟨e, u, hinner, ?_⟩
  by_cases hdeep : (u.tooDeep && !v.tooDeep) = true
  · simp only [if_pos hdeep] at hrun
    cases hrun
    exact ⟨(if_pos hdeep).symm, rfl⟩
  · simp only [if_neg hdeep] at hrun
    cases hrun
    exact ⟨(if_neg hdeep).symm, rfl⟩

omit w hc in
/-- A run on a state of its own. -/
theorem movesFrom_liftM {α : Type} [Placed α] {x y : Reading α} {inner s : State}
    (h : MovesFrom scope R x y inner) (hinner : Placed.IsIn scope inner) :
    MovesFrom scope R (liftM (x.run inner) : Reading (α × State)) (liftM (y.run inner)) s := by
  intro hs p t hrun
  obtain ⟨hx, rfl⟩ := liftM_eq_ok hrun
  have hend := h hinner p.1 p.2 hx
  refine ⟨?_, Motion.refl t, hs, hend.value, hend.state⟩
  change ((y inner).bind fun r => .ok (r, t)) = _
  rw [hend.same]
  rfl

/-- A hole is given up at most once, and only by a reader that is not too deep already. -/
instance [hh : Located scope h] : Moves scope R (hole c h) (hole d h) := by
  unfold hole
  rw [w.source_eq]
  refine ⟨fun {s} => .bind moves_get.run fun _ _ hget _ => ?_⟩
  cases hget
  have hinside : Placed.IsIn scope
      { State.start (Cursor.place d.source h.pos) with nesting := 1, depth := s.depth } := by
    intro source hsource
    have hplace : (Cursor.place d.source h.pos).IsIn source := by
      rw [← w.source_eq, (hc.fits source hsource).1]
      exact Cursor.isIn_place (hh.isIn source hsource).pos
    exact (State.isIn_start hplace).recount
  refine .bind (movesFrom_liftM hc.assignment.run hinside) fun p t hrun hp => ?_
  obtain ⟨_, rfl⟩ := liftM_eq_ok hrun
  have he : Located scope p.1 := ⟨hp.isIn.1⟩
  dsimp only
  split
  · rename_i hdeep
    rw [Bool.and_eq_true, Bool.not_eq_true'] at hdeep
    refine .bind (movesFrom_modify (Motion.giveUp h.pos hdeep.2) fun hs source hsource => ?_)
      fun _ _ _ _ => Moves.run
    exact (hs source hsource).giveUp (hh.isIn source hsource).pos
  · exact Moves.run

instance [Located scope h] {o : Option Expr} [ho : Located scope o] :
    Moves scope R (Template.foundIn report h o : Reading Expr) (Template.foundIn report h o) := by
  have hreport : Moves scope R (report ⟨.build (.interpolation h.inner), h.pos⟩) _ :=
    moves_report (.inl rfl)
  cases o with
  | none =>
    unfold Template.foundIn
    infer_instance
  | some e =>
    have he : Located scope e := ⟨ho.isIn e rfl⟩
    exact moves_pure

instance [Located scope h] :
    Moves scope R (Template.holeExpr (hole c) report h : Reading Expr)
      (Template.holeExpr (hole d) report h) := by
  unfold Template.holeExpr; infer_instance

instance {t : Token} [Located scope t] :
    Moves scope R (templateParts c t) (templateParts d t) := by
  unfold templateParts Template.parts; infer_instance

instance : Moves scope R (elementOrSpread c) (elementOrSpread d) := by
  unfold elementOrSpread; infer_instance

instance {close : Punct} : Moves scope R (elements c close) (elements d close) := by
  unfold elements; infer_instance

instance : Moves scope R (arrayLiteral c) (arrayLiteral d) := by
  unfold arrayLiteral; infer_instance

section
variable {p : Position} [Located scope p]

instance : Moves scope R (computedProperty c p) (computedProperty d p) := by
  unfold computedProperty; infer_instance

instance : Moves scope R (literalProperty c p) (literalProperty d p) := by
  unfold literalProperty; infer_instance

instance : Moves scope R (wordProperty c p) (wordProperty d p) := by
  unfold wordProperty; infer_instance

end

instance : Moves scope R (property c) (property d) := by
  unfold property; infer_instance

instance : Moves scope R (objectLiteral c) (objectLiteral d) := by
  unfold objectLiteral; infer_instance

instance : Moves scope R (parenthesized c) (parenthesized d) := by
  unfold parenthesized; infer_instance

instance : Moves scope R (primary c) (primary d) := by
  refine .seq inferInstance fun t _ => ?_
  generalize t.kind = k
  split <;> infer_instance

section
variable {e : Expr} [he : Located scope e] {optional : Bool}

instance : Moves scope R (memberName e optional) (memberName e optional) := by
  unfold memberName; infer_instance

instance : Moves scope R (call c e optional) (call d e optional) := by
  unfold call; infer_instance

instance : Moves scope R (optionalLink c e) (optionalLink d e) := by
  unfold optionalLink; infer_instance

instance : Moves scope R (indexOrSliceInside c e) (indexOrSliceInside d e) := by
  unfold indexOrSliceInside; infer_instance

instance : Moves scope R (indexOrSlice c e) (indexOrSlice d e) := by
  unfold indexOrSlice; infer_instance

instance : Moves scope R (taggedTemplate c e) (taggedTemplate d e) := by
  unfold taggedTemplate; infer_instance

instance : Moves scope (UpToDepth R) (chainOn c optional e) (chainOn d optional e) := by
  unfold chainOn; infer_instance

instance {kind : Kind} :
    Moves scope (UpToDepth R) (linkOn c optional e kind) (linkOn d optional e kind) := by
  unfold linkOn
  split <;> infer_instance

instance moves_chainRest :
    Moves scope (UpToDepth R) (chainRest c optional e) (chainRest d optional e) := by
  unfold chainRest; infer_instance

end

instance : Moves scope R (chain c) (chain d) := by unfold chain; infer_instance

instance : Moves scope R (postfixed c) (postfixed d) := by
  refine .seq inferInstance fun e _ => .seq inferInstance fun t _ => ?_
  split <;> infer_instance

instance moves_unary : Moves scope R (unary c) (unary d) := by
  refine .seq inferInstance fun t _ => ?_
  split <;> infer_instance

instance moves_binaryRest {least : Nat} {left : Expr} [Located scope left] :
    Moves scope (UpToDepth R) (binaryRest c least left) (binaryRest d least left) := by
  refine .seq inferInstance fun s _ => ?_
  split <;> infer_instance

instance moves_binary {least : Nat} : Moves scope R (binary c least) (binary d least) := by
  unfold binary; infer_instance

instance : Moves scope R (conditional c) (conditional d) := by
  unfold conditional; infer_instance

omit w hc in
/-- What is wrong with a target is no fault of the grammar. -/
theorem moves_target {sign : AssignSign} {p : Position} {target value : Expr} {r : Report}
    [Located scope r] (h : Check.assignment? sign p target value = .error r) :
    Moves scope R (report r) (report r) := by
  refine moves_report ?_
  unfold Check.assignment? at h
  grind [Fault.stage]

instance {sign : AssignSign} {target : Expr} [Located scope target] :
    Moves scope R (assigned c sign target) (assigned d sign target) := by
  refine .seq inferInstance fun t _ => .seq inferInstance fun value _ => ?_
  obtain ⟨htree, hreport⟩ := Check.located_assignment scope sign t.pos target value
  generalize hcheck : Check.assignment? sign t.pos target value = result
  cases result with
  | ok e =>
    have hlocated := htree e hcheck
    infer_instance
  | error r =>
    have hlocated := hreport r hcheck
    have hmoves : Moves scope R _ _ := moves_target hcheck
    infer_instance

instance : Moves scope R (destructuring c) (destructuring d) := by
  refine .seq inferInstance fun target _ => .seq inferInstance fun t _ => ?_
  split <;> infer_instance

instance : Moves scope R (plainAssignment c) (plainAssignment d) := by
  refine .seq inferInstance fun target _ => .seq inferInstance fun t _ => ?_
  split <;> infer_instance

instance moves_assignment : Moves scope R (assignment c) (assignment d) := by
  unfold assignment; infer_instance

end

instance {scope : Option Text} {R : State → State → Prop} [Recounts R] {c d : Context} [c.Widens d]
    [Context.Moves scope R c d] : Moves scope R (wholeExpression c) (wholeExpression d) := by
  have hmodify : Moves scope R (modify fun s => { s with nesting := 1 }) _ :=
    ⟨movesFrom_modify (Recounts.recount _ _ _ _) fun hs source hsource => (hs source hsource).recount⟩
  unfold wholeExpression
  infer_instance

/-! ## 5. All levels -/

section
variable {scope : Option Text} {R : State → State → Prop} [Returns R]

instance Context.raised_widens {c d : Context} [w : c.Widens d] {n : Nat} :
    (c.raised n).Widens (d.raised n) := by
  cases n <;> exact ⟨w.source_eq, w.lines_eq, w.rounds⟩

instance Context.raised_moves {c d : Context} [c.Widens d] [hc : Context.Moves scope R c d]
    [hall : ∀ n, Recovers R (c.raised n)] {n : Nat} :
    Context.Moves scope R (c.raised n) (d.raised n) := by
  induction n with
  | zero => exact hc
  | succ n ih =>
    exact ⟨hc.fits, hc.reenters, hall (n + 1), moves_assignment, moves_binary, moves_binaryRest, moves_unary,
      moves_chainRest, moves_block, moves_pattern, moves_jsx⟩

variable {source : Text} {m n : Nat}

instance Context.ground_widens [AtMost m n] :
    (Context.ground source m).Widens (Context.ground source n) := ⟨rfl, rfl, ‹_›⟩

theorem Context.ground_moves [h : Reenters R source] [h' : Recovers R (Context.ground source m)]
    (hscope : ∀ text ∈ scope, source = text) :
    Context.Moves scope R (Context.ground source m) (Context.ground source n) :=
  ⟨fun text htext => by cases hscope text htext; exact ⟨rfl, rfl⟩, h, h', moves_badHere, moves_badHere,
    moves_pure, moves_badHere, moves_pure, moves_emptyBlock, moves_badHere, moves_badHere⟩

instance Context.ground_moves_none [Reenters R source] [Recovers R (Context.ground source m)] :
    Context.Moves none R (Context.ground source m) (Context.ground source n) :=
  ground_moves nofun

instance Context.ground_moves_some [Reenters R source] [Recovers R (Context.ground source m)] :
    Context.Moves (some source) R (Context.ground source m) (Context.ground source n) :=
  Context.ground_moves fun _ h => Option.some.inj h

instance Context.ofSource_widens [AtMost m n] :
    (Context.ofSource source m).Widens (Context.ofSource source n) :=
  Context.raised_widens

instance Context.ofSource_moves [AtMost m n] [∀ k, Recovers R ((Context.ground source m).raised k)]
    [Context.Moves scope R (Context.ground source m) (Context.ground source n)] :
    Context.Moves scope R (Context.ofSource source m) (Context.ofSource source n) :=
  Context.raised_moves

end

end ReactiveScript.Grammar
