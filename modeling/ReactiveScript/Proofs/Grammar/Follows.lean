import ReactiveScript.Proofs.Grammar.Beside
import ReactiveScript.Proofs.Grammar.Ending

/-!
# Runs side by side

`Follows x s y w Q` says that if a run of `x` from `s` is clean, then a run of `y` from `w` comes to
its end, and the two ends are as `Q` says. The rules lead two readers through a routine together.
-/

namespace ReactiveScript.Grammar

/-- If a run of `x` is clean, then a run of `y` ends, and the two ends are as `Q` says. -/
def Follows {α β : Type} (x : Reading α) (s : State) (y : Reading β) (w : State)
    (Q : α → State → β → State → Prop) : Prop :=
  Cleanly x s fun a t => Ends y w fun b u => Q a t b u

section
variable {α β γ δ : Type} {x : Reading α} {y : Reading β} {g : α → Reading γ} {g' : β → Reading δ}
  {S : Setting} {f : Frame} {s w : State} {P : α → State → β → State → Prop}
  {Q : γ → State → δ → State → Prop} {k : Bool → Reading γ} {k' : Bool → Reading δ}

namespace Follows

/-! ## 1. Ways to put routines together -/

theorem mono {R : α → State → β → State → Prop} (h : Follows x s y w P)
    (hPR : ∀ a t b u, P a t b u → R a t b u) : Follows x s y w R :=
  Cleanly.mono h fun a t hy => hy.mono fun b u => hPR a t b u

theorem pure {a : α} {b : β} (h : P a s b w) : Follows (Pure.pure a) s (Pure.pure b) w P :=
  Cleanly.pure (ends_pure.mpr h)

theorem bind (hxy : Follows x s y w P)
    (hg : ∀ a t b u, P a t b u → Follows (g a) t (g' b) u Q)
    [r : AddsAll g] :
    Follows (x >>= g) s (y >>= g') w Q := by
  refine Cleanly.bind hxy fun a t hy => ?_
  obtain ⟨b, u, hyu, hp⟩ := hy
  refine Cleanly.mono (hg a t b u hp) fun c t' hc => ends_bind.mpr ?_
  exact ⟨b, u, hyu, hc⟩

theorem map {k : α → γ} {k' : β → δ} (h : Follows x s y w fun a t b u => Q (k a) t (k' b) u) :
    Follows (k <$> x) s (k' <$> y) w Q :=
  Cleanly.map (Cleanly.mono h fun _ _ hy => ends_map.mpr hy)

theorem ite {p q : Prop} [Decidable p] [Decidable q] {x' : Reading α} {y' : Reading β}
    (hpq : q ↔ p) (hyes : p → Follows x s y w P) (hno : ¬ p → Follows x' s y' w P) :
    Follows (if p then x else x') s (if q then y else y') w P := by
  by_cases hp : p
  · rw [if_pos hp, if_pos (hpq.mpr hp)]
    exact hyes hp
  · rw [if_neg hp, if_neg fun hq => hp (hpq.mp hq)]
    exact hno hp

theorem outOfRounds : Follows (Grammar.outOfRounds : Reading α) s y w P := Cleanly.outOfRounds

/-! ## 2. Questions -/

theorem get {k : State → Reading γ} {k' : State → Reading δ} (h : Follows (k s) s (k' w) w Q) :
    Follows (MonadState.get >>= k) s (MonadState.get >>= k') w Q := h

theorem token {k : Token → Reading γ} {k' : Token → Reading δ}
    (h : Follows (k s.current) s (k' w.current) w Q) :
    Follows (Grammar.token >>= k) s (Grammar.token >>= k') w Q := h

theorem sees {l : Kind} (h : Follows (k (s.sees l)) s (k' (w.sees l)) w Q) :
    Follows (Grammar.sees l >>= k) s (Grammar.sees l >>= k') w Q := h

theorem seesWord {word : Text} (h : Follows (k (s.seesWord word)) s (k' (w.seesWord word)) w Q) :
    Follows (Grammar.seesWord word >>= k) s (Grammar.seesWord word >>= k') w Q := h

theorem atEnd (h : Follows (k s.atEnd) s (k' w.atEnd) w Q) :
    Follows (Grammar.atEnd >>= k) s (Grammar.atEnd >>= k') w Q := h

theorem canContinue (h : Follows (k s.canContinue) s (k' w.canContinue) w Q) :
    Follows (Grammar.canContinue >>= k) s (Grammar.canContinue >>= k') w Q := h

theorem seesTagEnd {k : Bool → Reading γ} {k' : Bool → Reading δ}
    (h : Follows (k (s.current.startsWith Byte.greater)) s
      (k' (w.current.startsWith Byte.greater)) w Q) :
    Follows (Grammar.seesTagEnd >>= k) s (Grammar.seesTagEnd >>= k') w Q := h

end Follows

/-! ## 3. Steps -/

namespace Near
variable (h : Near S f s w) {k : Unit → Reading γ} {k' : Unit → Reading δ}
include h

theorem advance (hkind : s.current.kind ≠ .eof)
    (hk : Beside S f s.advance w.advance → Follows (k ()) s.advance (k' ()) w.advance Q)
    [r : AddsAll k] : Follows (Grammar.advance >>= k) s (Grammar.advance >>= k') w Q := by
  intro a t hrun ht
  have hrest : k () s.advance = .ok (a, t) := hrun
  exact hk (h.next hkind ((r.adds _).reports_nil hrest ht)) hrest ht

theorem take (hkind : s.current.kind ≠ .eof) {k : Token → Reading γ} {k' : Token → Reading δ}
    (hk : Beside S f s.advance w.advance →
      Follows (k s.current) s.advance (k' w.current) w.advance Q)
    [r : AddsAll k] : Follows (Grammar.take >>= k) s (Grammar.take >>= k') w Q := by
  intro a t hrun ht
  have hrest : k s.current s.advance = .ok (a, t) := hrun
  exact hk (h.next hkind ((r.adds _).reports_nil hrest ht)) hrest ht

theorem advanced {R : Unit → State → Unit → State → Prop} (hkind : s.current.kind ≠ .eof)
    (hR : Beside S f s.advance w.advance → R () s.advance () w.advance) :
    Follows Grammar.advance s Grammar.advance w R := by
  intro u t hrun ht
  cases hrun
  exact ⟨_, _, rfl, hR (h.next hkind ht)⟩

/-! ## 4. Branches on the current token -/

variable {l : Kind}

theorem ifSees (hl : isInner l = true) {no : Reading α} {no' : Reading β}
    (hyes : s.current.kind = l → Follows x s y w P)
    (hno : s.current.kind ≠ l → Follows no s no' w P) :
    Follows (do if ← Grammar.sees l then x else no) s (do if ← Grammar.sees l then y else no') w
      P := by
  refine .sees (.ite (by rw [h.sees_eq hl]) (fun hs => hyes ?_) fun hs => hno ?_)
  · simpa [State.sees] using hs
  · simpa [State.sees] using hs

theorem accept (hl : isInner l = true) {k : Bool → Reading γ} {k' : Bool → Reading δ}
    (hyes : s.current.kind = l → Beside S f s.advance w.advance →
      Follows (k true) s.advance (k' true) w.advance Q)
    (hno : s.current.kind ≠ l → Follows (k false) s (k' false) w Q) [r : AddsAll k] :
    Follows (Grammar.accept l >>= k) s (Grammar.accept l >>= k') w Q := by
  refine Cleanly.accept (fun hkind => ?_) fun hkind => ?_
  · intro a t hrun ht
    have heof : s.current.kind ≠ .eof := by
      rintro heof
      rw [← hkind, heof] at hl
      cases hl
    have hs : w.sees l = true := by rw [h.sees_eq hl]; simpa [State.sees] using hkind
    rw [ends_accept_of_sees hs]
    exact hyes hkind (h.next heof ((r.adds _).reports_nil hrun ht)) hrun ht
  · intro a t hrun ht
    have hs : w.sees l = false := by rw [h.sees_eq hl]; simpa [State.sees] using hkind
    rw [ends_accept_of_not_sees hs]
    exact hno hkind hrun ht

theorem ifAccept (hl : isInner l = true) {no : Reading α} {no' : Reading β}
    (hyes : s.current.kind = l → Beside S f s.advance w.advance →
      Follows x s.advance y w.advance P)
    (hno : s.current.kind ≠ l → Follows no s no' w P) [Adds x] [Adds no] :
    Follows (do if ← Grammar.accept l then x else no) s
      (do if ← Grammar.accept l then y else no') w P :=
  h.accept hl hyes hno

/-! ## 5. Faults -/

theorem fault [Faulty x] : Follows x s y w P := Cleanly.fault h.tooDeep

/-- Behind a fault no run is clean. -/
theorem faulty [Faulty x]
    [r : AddsAll g]
    {z : Reading δ} : Follows (x >>= g) s z w Q := Cleanly.faulty h.tooDeep

/-- Where one makes no report of what was read, the other makes none. -/
theorem reportAll {rs rs' : List Report} (hrs : rs = [] → rs' = [])
    (hk : Follows (k ()) s (k' ()) w Q) [r : AddsAll k] :
    Follows (Grammar.reportAll rs >>= k) s (Grammar.reportAll rs' >>= k') w Q := by
  cases rs with
  | nil =>
    rw [hrs rfl]
    exact hk
  | cons r rs =>
    have hfaulty : Faulty (report r >>= fun _ => Grammar.reportAll rs) := inferInstance
    exact h.faulty (x := report r >>= fun _ => Grammar.reportAll rs)

theorem expect (hl : l ≠ .eof) {k : Bool → Reading γ} {k' : Bool → Reading δ}
    (hk : s.current.kind = l → Beside S f s.advance w.advance →
      Follows (k true) s.advance (k' true) w.advance Q)
    [r : AddsAll k] :
    Follows (Grammar.expect l >>= k) s (Grammar.expect l >>= k') w Q := by
  refine Cleanly.expect h.tooDeep fun hkind => ?_
  intro a t hrun ht
  have heof : s.current.kind ≠ .eof := hkind ▸ hl
  have hs : w.sees l = true := by simpa [State.sees, (h.alike heof).token.kind] using hkind
  rw [ends_expect_of_sees hs]
  exact hk hkind (h.next heof ((r.adds _).reports_nil hrun ht)) hrun ht

theorem expectToken (hl : l ≠ .eof) {k : Option Token → Reading γ} {k' : Option Token → Reading δ}
    (hk : s.current.kind = l → Beside S f s.advance w.advance →
      Follows (k (some s.current)) s.advance (k' (some w.current)) w.advance Q)
    [r : AddsAll k] :
    Follows (Grammar.expectToken l >>= k) s (Grammar.expectToken l >>= k') w Q := by
  have hadds : AddsAll fun found : Bool => k (if found then some s.current else none) :=
    ⟨fun _ => r.adds _⟩
  rw [expectToken_bind, expectToken_bind]
  exact .token (h.expect hl hk)

theorem expectWord {word : Text}
    (hk : Beside S f s.advance w.advance → Follows (k ()) s.advance (k' ()) w.advance Q)
    [r : AddsAll k] :
    Follows (Grammar.expectWord word >>= k) s (Grammar.expectWord word >>= k') w Q := by
  have hword : Follows (Grammar.expectWord word) s (Grammar.expectWord word) w
      fun _ t _ u => Beside S f t u ∧ t = s.advance ∧ u = w.advance := by
    refine .seesWord (.ite (by rw [h.seesWord_eq]) (fun hs => ?_) fun _ => h.fault)
    have hkind : s.current.kind ≠ .eof := by
      simp only [State.seesWord, Bool.and_eq_true, decide_eq_true_eq] at hs
      rw [hs.1]
      decide
    exact h.advanced hkind fun hnext => ⟨hnext, rfl, rfl⟩
  refine .bind hword fun _ t _ u htu => ?_
  obtain ⟨hnext, rfl, rfl⟩ := htu
  exact hk hnext

end Near

end

/-! ## 6. Brackets, blocks and depth -/

namespace Frame

/-- Inside one more bracket. -/
def bracketed (f : Frame) : Frame :=
  { f with nesting := f.nesting + 1, nesting' := f.nesting' + 1, nesting_pos := by simp }

/-- Outside of all brackets. -/
def outside (f : Frame) : Frame := { f with nesting := 0, nesting' := 0, nesting_pos := Iff.rfl }

/-- One level deeper. -/
def deeper (f : Frame) : Frame := { f with depth := f.depth + 1 }

/-- The readers are so many levels down. -/
class Reaches (f : Frame) (d : Nat) : Prop where
  le : d ≤ f.depth

variable {f : Frame} {d : Nat} [h : f.Reaches d]

instance : f.bracketed.Reaches d := ⟨h.le⟩

instance : f.outside.Reaches d := ⟨h.le⟩

instance : f.deeper.Reaches d := ⟨Nat.le_succ_of_le h.le⟩

instance : f.deeper.Reaches (d + 1) := ⟨Nat.succ_le_succ h.le⟩

end Frame

section
variable {α β γ : Type} {x y z z' : Reading α} {k : α → γ} {S : Setting} {f : Frame}
  {s w t u : State} {P : α → State → β → State → Prop} {d : Nat}

theorem Alike.adjust (h : Alike S s w) (n n' b b' d d' : Nat) :
    Alike S { s with nesting := n, braceBlocks := b, depth := d }
      { w with nesting := n', braceBlocks := b', depth := d' } :=
  ⟨h.token, h.cursor, h.onLine, h.closed, h.inText⟩

/-- Brackets, blocks and depth can be set for both readers, as the frame says. -/
theorem Near.adjust (h : Near S f s w) (f' : Frame) (b b' : Nat) {d' : Nat} (hle : f'.depth ≤ d)
    (hmax : d ≤ maxDepth) (hle' : d' ≤ d) :
    Near S f' { s with nesting := f'.nesting, braceBlocks := b, depth := d }
      { w with nesting := f'.nesting', braceBlocks := b', depth := d' } where
  tooDeep := h.tooDeep
  tooDeep' := h.tooDeep'
  sound := h.sound
  sound' := h.sound'
  clean := h.clean
  clean' := h.clean'
  nesting := rfl
  nesting' := rfl
  le_depth := hle
  depth_le := hmax
  depth_le' := hle'
  indent_pos := h.indent_pos
  indent_le := h.indent_le
  place := h.place.imp (fun hs => hs.adjust _ _ _ _ _ _) fun hclose =>
    ⟨hclose.kind, hclose.text, hclose.offset, hclose.ending, hclose.kind', hclose.lineStart',
      hclose.offset'⟩

theorem Beside.adjust (h : Beside S f s w) (f' : Frame) (b b' : Nat) {d' : Nat}
    (hle : f'.depth ≤ d) (hmax : d ≤ maxDepth) (hle' : d' ≤ d) :
    Beside S f' { s with nesting := f'.nesting, braceBlocks := b, depth := d }
      { w with nesting := f'.nesting', braceBlocks := b', depth := d' } where
  toNear := h.toNear.adjust f' b b' hle hmax hle'
  lineStart hs := h.lineStart ⟨hs.token, hs.cursor, hs.onLine, hs.closed, hs.inText⟩

/-! ## 7. Contracts -/

/-- Two readers that are together and have read the same, as far as `k` tells. -/
abbrev Together (S : Setting) (f : Frame) (k : α → γ) (a : α) (t : State) (b : α) (u : State) :
    Prop := k b = k a ∧ Beside S f t u

/-- Two routines that keep readers together and give the same, as far as `k` tells. -/
def Mirrors (S : Setting) (f : Frame) (x y : Reading α) (k : α → γ) : Prop :=
  ∀ ⦃s w : State⦄, Beside S f s w → Follows x s y w fun a t b u => k b = k a ∧ Beside S f t u

/-- So do two routines that can also be the first to be run. -/
def Opens (S : Setting) (f : Frame) (x y : Reading α) (k : α → γ) : Prop :=
  ∀ ⦃s w : State⦄, Near S f s w → Follows x s y w fun a t b u => k b = k a ∧ Beside S f t u

theorem Opens.mirrors (h : Opens S f x y k) : Mirrors S f x y k := fun _ _ hs => h hs.toNear

theorem Beside.bracketed (h : Beside S f s w) :
    Beside S f.bracketed { s with nesting := s.nesting + 1 }
      { w with nesting := w.nesting + 1 } := by
  rw [h.nesting, h.nesting']
  exact h.adjust f.bracketed s.braceBlocks w.braceBlocks h.le_depth h.depth_le h.depth_le'

theorem Beside.unbracketed (h : Beside S f.bracketed s w) :
    Beside S f { s with nesting := s.nesting - 1 } { w with nesting := w.nesting - 1 } := by
  rw [h.nesting, h.nesting']
  exact h.adjust f s.braceBlocks w.braceBlocks h.le_depth h.depth_le h.depth_le'

theorem Follows.bracketed {k : α → γ} (h : Follows x { s with nesting := s.nesting + 1 } y
    { w with nesting := w.nesting + 1 } (Together S f.bracketed k)) :
    Follows (bracketed x) s (bracketed y) w (Together S f k) :=
  Cleanly.bracketed (Cleanly.mono h fun _ _ hy => ends_bracketed.mpr
    (hy.mono fun _ _ hb => ⟨hb.1, hb.2.unbracketed⟩))

theorem Mirrors.bracketed (h : Mirrors S f.bracketed x y k) :
    Mirrors S f (bracketed x) (bracketed y) k := fun _ _ hs => .bracketed (h hs.bracketed)

theorem ends_outsideBrackets {Q : α → State → Prop} : Ends (outsideBrackets x) s Q ↔
    Ends x { s with nesting := 0 } fun a t => Q a { t with nesting := s.nesting } := by
  rw [outsideBrackets, ends_get, ends_modify, ends_bind]
  simp only [ends_modify, ends_pure]

theorem ends_insideBraces {Q : α → State → Prop} : Ends (insideBraces x) s Q ↔
    Ends x { s with braceBlocks := s.braceBlocks + 1 }
      fun a t => Q a { t with braceBlocks := t.braceBlocks - 1 } := by
  rw [insideBraces, ends_modify, ends_bind]
  simp only [ends_modify, ends_pure]

theorem Beside.outside (h : Beside S f s w) :
    Beside S f.outside { s with nesting := 0 } { w with nesting := 0 } :=
  h.adjust f.outside s.braceBlocks w.braceBlocks h.le_depth h.depth_le h.depth_le'

/-- Back inside the brackets. -/
theorem Beside.inside (h : Beside S f.outside t u) (hs : Near S f s w) :
    Beside S f { t with nesting := s.nesting } { u with nesting := w.nesting } := by
  rw [hs.nesting, hs.nesting']
  exact h.adjust f t.braceBlocks u.braceBlocks h.le_depth h.depth_le h.depth_le'

/-- Going deeper in a clean run stays within the limit. -/
theorem depth_lt_of_deeper [Adds x] [Adds z] (hdeep : s.tooDeep = false) {a : α}
    (hrun : deeper z x s = .ok (a, t)) (ht : t.reports = []) : s.depth < maxDepth := by
  have hdeepened : deeper z x s = (if s.deepened.tooDeep then z else x) s.deepened := rfl
  have hadds : Adds (if s.deepened.tooDeep then z else x) := inferInstance
  rw [hdeepened] at hrun
  have hclean := hadds.reports_nil hrun ht
  refine Nat.lt_of_not_le fun hle => ?_
  rw [State.deepened, State.checkDepth, if_pos (by simp [hdeep]; omega)] at hclean
  exact absurd hclean (List.cons_ne_nil _ _)

/-- Where the reader of the text goes deeper, the other one can do so too. -/
theorem Follows.deeper [Adds x] [Adds z] {P : α → State → α → State → Prop} (h : Near S f s w)
    (hxy : s.depth < maxDepth → Follows x { s with depth := s.depth + 1 } y
      { w with depth := w.depth + 1 } P) :
    Follows (deeper z x) s (deeper z' y) w P := by
  intro a t hrun ht
  have hlt := depth_lt_of_deeper h.tooDeep hrun ht
  have hdeep : w.tooDeep = false := h.tooDeep'
  have hle := h.depth_le'
  have hstate : w.deepened = { w with depth := w.depth + 1 } := by
    rw [State.deepened, State.checkDepth, if_neg (by simp; omega)]
  rw [ends_deeper (by rw [hstate]; exact hdeep), hstate]
  exact Cleanly.deeper h.tooDeep (hxy hlt) hrun ht

theorem Near.deeper (h : Near S f s w) (hlt : s.depth < maxDepth) :
    Near S f.deeper { s with depth := s.depth + 1 } { w with depth := w.depth + 1 } := by
  have hle : f.deeper.depth ≤ s.depth + 1 := Nat.succ_le_succ h.le_depth
  have hle' : w.depth + 1 ≤ s.depth + 1 := Nat.succ_le_succ h.depth_le'
  have hadjusted := h.adjust f.deeper s.braceBlocks w.braceBlocks hle hlt hle'
  have hnesting : f.deeper.nesting = s.nesting := h.nesting.symm
  have hnesting' : f.deeper.nesting' = w.nesting := h.nesting'.symm
  rwa [hnesting, hnesting'] at hadjusted

theorem Beside.deeper (h : Beside S f s w) (hlt : s.depth < maxDepth) :
    Beside S f.deeper { s with depth := s.depth + 1 } { w with depth := w.depth + 1 } where
  toNear := h.toNear.deeper hlt
  lineStart hs := h.lineStart ⟨hs.token, hs.cursor, hs.onLine, hs.closed, hs.inText⟩

/-- Deeper than wanted is as good. -/
theorem Beside.shallower (h : Beside S f.deeper s w) : Beside S f s w :=
  { h with le_depth := Nat.le_of_succ_le h.le_depth }

/-- Back at the depth from which both readers started. -/
theorem Near.restored (h : Near S { f with depth := d } t u) (hs : Near S f s w) :
    Near S f { t with depth := s.depth } { u with depth := w.depth } := by
  have hadjusted := h.adjust f t.braceBlocks u.braceBlocks hs.le_depth hs.depth_le hs.depth_le'
  have hnesting : f.nesting = t.nesting := h.nesting.symm
  have hnesting' : f.nesting' = u.nesting := h.nesting'.symm
  rwa [hnesting, hnesting'] at hadjusted

theorem Beside.restored (h : Beside S { f with depth := d } t u) (hs : Near S f s w) :
    Beside S f { t with depth := s.depth } { u with depth := w.depth } where
  toNear := h.toNear.restored hs
  lineStart htu := h.lineStart ⟨htu.token, htu.cursor, htu.onLine, htu.closed, htu.inText⟩

theorem Follows.restoringDepth {P : α → State → α → State → Prop}
    (h : Follows x s y w fun a t b u =>
      P a { t with depth := s.depth } b { u with depth := w.depth }) :
    Follows (restoringDepth x) s (restoringDepth y) w P :=
  Cleanly.restoringDepth (Cleanly.mono h fun _ _ hy => ends_restoringDepth.mpr hy)

theorem Mirrors.restoringDepth (h : Mirrors S f x y k) :
    Mirrors S f (restoringDepth x) (restoringDepth y) k :=
  fun _ _ hs => .restoringDepth ((h hs).mono fun _ _ _ _ hb => ⟨hb.1, hb.2.restored hs.toNear⟩)

theorem Mirrors.deeper [Adds x] [Adds z] (h : Mirrors S f.deeper x y k) :
    Mirrors S f (deeper z x) (deeper z' y) k := fun _ _ hs =>
  .deeper hs.toNear fun hlt => (h (hs.deeper hlt)).mono fun _ _ _ _ hb => ⟨hb.1, hb.2.shallower⟩

/-- One level deeper, and back. -/
theorem Follows.nested [Adds x] [Adds z] {P : α → State → α → State → Prop} (hs : Near S f s w)
    (h : Near S f.deeper { s with depth := s.depth + 1 } { w with depth := w.depth + 1 } →
      Follows x { s with depth := s.depth + 1 } y { w with depth := w.depth + 1 } fun a t b u =>
        P a { t with depth := s.depth } b { u with depth := w.depth }) :
    Follows (nested z x) s (nested z' y) w P :=
  .restoringDepth (.deeper hs fun hlt => h (hs.deeper hlt))

theorem Opens.nested [Adds x] [Adds z] (h : Opens S f.deeper x y k) :
    Opens S f (nested z x) (nested z' y) k := fun _ _ hs =>
  .nested hs fun hdeeper => (h hdeeper).mono fun _ _ _ _ hb => ⟨hb.1, hb.2.restored hs⟩

theorem Mirrors.nested [Adds x] [Adds z] (h : Mirrors S f.deeper x y k) :
    Mirrors S f (nested z x) (nested z' y) k := fun _ _ hs =>
  .restoringDepth (.deeper hs.toNear fun hlt =>
    (h (hs.deeper hlt)).mono fun _ _ _ _ hb => ⟨hb.1, hb.2.restored hs.toNear⟩)

/-- What is made of the same things in the same way. -/
theorem Follows.give {δ : Type} {k' : β → δ} {g g' : α → β} (h : Follows x s y w (Together S f k))
    (hg : ∀ a b, k b = k a → k' (g' b) = k' (g a)) :
    Follows (do return g (← x)) s (do return g' (← y)) w (Together S f k') :=
  .bind h fun _ _ _ _ hab => .pure ⟨hg _ _ hab.1, hab.2⟩

end

end ReactiveScript.Grammar
