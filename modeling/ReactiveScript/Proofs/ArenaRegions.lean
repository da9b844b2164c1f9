import Mathlib.Algebra.GroupWithZero.Nat
import Mathlib.Data.List.Induction
import Mathlib.Order.Bounds.Basic
import ReactiveScript.Arena

/-!
# What an arena hands out

An arena computes with words, and sums of words wrap. As long as none of the sums that it forms does,
the regions that it hands out lie in their blocks, aligned as demanded and side by side, and it counts
their sizes.
-/

namespace ReactiveScript

/-- Two regions share no byte. -/
def Region.Apart (r q : Region) : Prop := r.block = q.block → r.stop ≤ q.start ∨ q.stop ≤ r.start

namespace Arena

/-! ## 1. Alignment -/

/-- The number of words. -/
def wordCount : Nat := Nat.pow 2 64

theorem word_eq {n : Nat} (h : n < wordCount) : word n = n := Nat.mod_eq_of_lt h

/-- The least multiple that is not below an offset. -/
theorem isLeast_alignUp {offset alignment : Nat} (hpos : 0 < alignment)
    (h : offset + (alignment - 1) < wordCount) :
    IsLeast {n | alignment ∣ n ∧ offset ≤ n} (alignUp offset alignment) := by
  have hdiv := Nat.div_add_mod (offset + (alignment - 1)) alignment
  have hmod := Nat.mod_lt (offset + (alignment - 1)) hpos
  rw [alignUp, word_eq h, Nat.mul_comm]
  refine ⟨⟨Nat.dvd_mul_right _ _, by omega⟩, ?_⟩
  rintro n ⟨⟨m, rfl⟩, hle⟩
  refine Nat.mul_le_mul_left alignment (Nat.lt_succ_iff.mp ?_)
  rw [Nat.div_lt_iff_lt_mul hpos, Nat.succ_mul, Nat.mul_comm]
  omega

theorem alignUp_zero {alignment : Nat} (hpos : 0 < alignment) (h : alignment - 1 < wordCount) :
    alignUp 0 alignment = 0 :=
  (isLeast_alignUp hpos (by rwa [Nat.zero_add])).unique
    ⟨⟨Nat.dvd_zero _, Nat.le_refl 0⟩, fun _ _ => Nat.zero_le _⟩

/-! ## 2. Demands -/

namespace Demand

/-- The number of bytes that are demanded. -/
def size : Demand → Nat
  | .allocate size _ => size
  | .text t => t.length
  | .array width count _ => width * count
  | .reset => 0

/-- The alignment that is demanded. -/
def alignment : Demand → Nat
  | .allocate _ alignment => alignment
  | .text _ => 1
  | .array _ _ alignment => alignment
  | .reset => 1

/-- Is a region handed out? -/
def wantsRegion : Demand → Bool
  | .allocate _ _ => true
  | .text t => !t.isEmpty
  | .array _ count _ => count ≠ 0
  | .reset => false

theorem size_eq_zero {d : Demand} (h : d.wantsRegion = false) : d.size = 0 := by
  cases d with
  | allocate => cases h
  | text t => simpa [wantsRegion, size] using h
  | array width count =>
    have hcount : count = 0 := by simpa [wantsRegion] using h
    rw [size, hcount, Nat.mul_zero]
  | reset => rfl

/-- The demands since the last reset, the latest first. -/
def sinceReset (ds : List Demand) : List Demand := ds.reverse.takeWhile (· ≠ .reset)

theorem sinceReset_concat (ds : List Demand) (d : Demand) :
    sinceReset (ds ++ [d]) = if d = .reset then [] else d :: sinceReset ds := by
  by_cases hd : d = .reset <;> simp [sinceReset, hd]

end Demand

variable {a : Arena} {d : Demand} {size alignment : Nat}

/-- A region can be handed out with words: its alignment is a power of two, and none of the sums that
    are formed wraps. These are its start, its end, the size of a block for it, and the size of
    everything. -/
structure Holds (a : Arena) (size alignment : Nat) : Prop where
  isPowerOfTwo : alignment.isPowerOfTwo
  start_lt : a.offset + (alignment - 1) < wordCount
  stop_lt : alignUp a.offset alignment + size < wordCount
  block_lt : size + alignment < wordCount
  total_lt : a.total + size < wordCount

/-- The region of a demand, if it wants one, can be handed out with words. -/
def Admits (a : Arena) (d : Demand) : Prop := d.wantsRegion = true → a.Holds d.size d.alignment

/-! ## 3. One demand -/

/-- Somewhere behind what is used of the latest block there is room for a region. -/
def HasRoom (a : Arena) (size alignment : Nat) : Prop :=
  a.blocks ≠ [] ∧ ∃ start, alignment ∣ start ∧ a.offset ≤ start ∧ start + size ≤ a.currentSize

/-- Does the region of a demand take a new block? -/
def NeedsBlock (a : Arena) (d : Demand) : Prop :=
  d.wantsRegion = true ∧ ¬ a.HasRoom d.size d.alignment

theorem Holds.isLeast_start (h : a.Holds size alignment) :
    IsLeast {n | alignment ∣ n ∧ a.offset ≤ n} (alignUp a.offset alignment) :=
  isLeast_alignUp (Nat.pos_of_isPowerOfTwo h.isPowerOfTwo) h.start_lt

theorem Holds.hasRoom_iff (h : a.Holds size alignment) :
    a.HasRoom size alignment ↔
      a.blocks ≠ [] ∧ alignUp a.offset alignment + size ≤ a.currentSize := by
  refine and_congr_right fun _ => ⟨?_, fun hle => ⟨_, h.isLeast_start.1.1, h.isLeast_start.1.2, hle⟩⟩
  rintro ⟨start, hdvd, hoffset, hle⟩
  exact (Nat.add_le_add_right (h.isLeast_start.2 ⟨hdvd, hoffset⟩) size).trans hle

/-- **The two ways in which a region is handed out**: behind what is used of the latest block, or at
    the start of a new one. -/
theorem allocate_cases (h : a.Holds size alignment) :
    ((a.blocks ≠ [] ∧ alignUp a.offset alignment + size ≤ a.currentSize) ∧
      a.allocate size alignment =
      (⟨a.blockCount - 1, alignUp a.offset alignment, size⟩,
        { a with offset := alignUp a.offset alignment + size, total := a.total + size })) ∨
    (¬ a.HasRoom size alignment ∧ a.allocate size alignment =
      (⟨a.blockCount, 0, size⟩,
        { a with
          blocks := max (size + alignment) a.blockSize :: a.blocks
          offset := size
          total := a.total + size })) := by
  have hpos : 0 < alignment := Nat.pos_of_isPowerOfTwo h.isPowerOfTwo
  have hfits : a.fits size alignment = true ↔ a.HasRoom size alignment := by
    rw [h.hasRoom_iff]
    simp [fits, word_eq h.stop_lt]
  by_cases hroom : a.HasRoom size alignment
  · refine .inl ⟨h.hasRoom_iff.mp hroom, ?_⟩
    rw [allocate, if_pos (hfits.mpr hroom), word_eq h.stop_lt, word_eq h.total_lt]
  · refine .inr ⟨hroom, ?_⟩
    have hblock := h.block_lt
    rw [allocate, if_neg fun hfit => hroom (hfits.mp hfit), grow, word_eq hblock]
    simp only [alignUp_zero hpos (by omega), Nat.zero_add]
    rw [word_eq (by omega), word_eq h.total_lt]
    rfl

/-- **What is done with a demand.** -/
theorem serve_cases (h : a.Admits d) :
    (d.wantsRegion = true ∧ a.serve d =
      (some (a.allocate d.size d.alignment).1, (a.allocate d.size d.alignment).2)) ∨
    (d.wantsRegion = false ∧ d ≠ .reset ∧ a.serve d = (none, a)) ∨
    (d = .reset ∧ a.serve d = (none, a.reset)) := by
  cases d with
  | allocate size alignment => exact .inl ⟨rfl, rfl⟩
  | text t =>
    cases t with
    | nil => exact .inr (.inl ⟨rfl, nofun, rfl⟩)
    | cons b t => exact .inl ⟨rfl, rfl⟩
  | array width count alignment =>
    by_cases hcount : count = 0
    · exact .inr (.inl ⟨by simp [Demand.wantsRegion, hcount], nofun, by rw [serve, if_pos hcount]⟩)
    · have hwants : (Demand.array width count alignment).wantsRegion = true := by
        simpa [Demand.wantsRegion] using hcount
      have hblock := (h hwants).block_lt
      refine .inl ⟨hwants, ?_⟩
      rw [serve, if_neg hcount, word_eq (by simp only [Demand.size] at hblock; omega)]
      rfl
  | reset => exact .inr (.inr ⟨rfl, rfl⟩)

/-! ## 4. Accounts -/

/-- A region with the demand that it was handed out for. -/
structure Grant where
  demand : Demand
  region : Region

/-- A region that lies in its block, as large as demanded and at a multiple of its alignment. -/
def Places (a : Arena) (g : Grant) : Prop :=
  g.region.size = g.demand.size ∧ g.demand.alignment ∣ g.region.start ∧
    ∃ room ∈ a.blocks.reverse[g.region.block]?, g.region.stop ≤ room

/-- An arena with what was handed out since the last reset, the latest first. -/
structure Account where
  arena : Arena
  grants : List Grant := []

namespace Account

/-- Meet a demand and note what was handed out for it. -/
def serve (c : Account) (d : Demand) : Account where
  arena := (c.arena.serve d).2
  grants :=
    if d = .reset then [] else ((c.arena.serve d).1.map (Grant.mk d)).toList ++ c.grants

/-- Meet a sequence of demands. -/
def serveAll (c : Account) (ds : List Demand) : Account := ds.foldl serve c

/-- What holds of an arena and of its regions at any time. A region of the latest block ends within
    what is used of that block, so what is handed out next stands behind it. -/
structure Sound (c : Account) : Prop where
  offset_le : c.arena.offset ≤ c.arena.currentSize
  total_eq : c.arena.total = (c.grants.map (·.demand.size)).sum
  places : ∀ g ∈ c.grants, c.arena.Places g
  stop_le : ∀ g ∈ c.grants, g.region.block + 1 = c.arena.blockCount → g.region.stop ≤ c.arena.offset
  apart : c.grants.Pairwise fun g g' => g.region.Apart g'.region

variable {c : Account} {ds : List Demand}

theorem sound_new (blockSize : Nat) : Sound { arena := { blockSize } } where
  offset_le := Nat.le_refl 0
  total_eq := rfl
  places := nofun
  stop_le := nofun
  apart := .nil

theorem Sound.block_lt (h : c.Sound) {g : Grant} (hg : g ∈ c.grants) :
    g.region.block < c.arena.blockCount := by
  obtain ⟨-, -, room, hroom, -⟩ := h.places g hg
  simpa [blockCount] using (List.getElem?_eq_some_iff.mp hroom).1

/-- The region of a demand joins those that were handed out before. -/
theorem Sound.allocate (h : c.Sound) (hd : c.arena.Holds d.size d.alignment) :
    Sound
      { arena := (c.arena.allocate d.size d.alignment).2
        grants := ⟨d, (c.arena.allocate d.size d.alignment).1⟩ :: c.grants } := by
  have hstart := hd.isLeast_start.1
  obtain ⟨⟨hblocks, hroom⟩, heq⟩ | ⟨-, heq⟩ := allocate_cases hd <;> rw [heq]
  · -- behind what is used of the latest block
    obtain ⟨room, rooms, hrooms⟩ := List.exists_cons_of_ne_nil hblocks
    have hcurrent : c.arena.currentSize = room := by rw [currentSize, hrooms, List.headD_cons]
    have hcount : c.arena.blockCount = rooms.length + 1 := by rw [blockCount, hrooms, List.length_cons]
    refine
      { offset_le := hroom
        total_eq := by simp [h.total_eq, Nat.add_comm]
        places := List.forall_mem_cons.mpr ⟨⟨rfl, hstart.1, room, ?_, hcurrent ▸ hroom⟩, h.places⟩
        stop_le := List.forall_mem_cons.mpr ⟨fun _ => Nat.le_refl _, fun g hg hlast => ?_⟩
        apart := h.apart.cons fun g hg hsame => ?_ }
    · simp [hrooms, hcount]
    · exact (h.stop_le g hg hlast).trans (hstart.2.trans (Nat.le_add_right _ _))
    · have hlast : g.region.block + 1 = c.arena.blockCount := by rw [← hsame, hcount]; rfl
      exact .inr ((h.stop_le g hg hlast).trans hstart.2)
  · -- at the start of a new block
    refine
      { offset_le := (Nat.le_add_right _ _).trans (Nat.le_max_left _ _)
        total_eq := by simp [h.total_eq, Nat.add_comm]
        places := List.forall_mem_cons.mpr ⟨⟨rfl, Nat.dvd_zero _, ?_⟩, fun g hg => ?_⟩
        stop_le := List.forall_mem_cons.mpr ⟨fun _ => ?_, fun g hg hlast => ?_⟩
        apart := h.apart.cons fun g hg hsame => absurd hsame (h.block_lt hg).ne' }
    · refine ⟨max (d.size + d.alignment) c.arena.blockSize, by simp [blockCount], ?_⟩
      exact (Nat.zero_add _).trans_le ((Nat.le_add_right _ _).trans (Nat.le_max_left _ _))
    · obtain ⟨hsize, hdvd, room, hroom, hle⟩ := h.places g hg
      refine ⟨hsize, hdvd, room, ?_, hle⟩
      rw [List.reverse_cons, List.getElem?_append_left (by simpa [blockCount] using h.block_lt hg)]
      exact hroom
    · exact (Nat.zero_add _).le
    · exact absurd (Nat.succ.inj hlast) (h.block_lt hg).ne

/-- **What a demand keeps.** -/
theorem Sound.serve (h : c.Sound) (hd : c.arena.Admits d) : (c.serve d).Sound := by
  obtain ⟨hwants, heq⟩ | ⟨-, hreset, heq⟩ | ⟨rfl, heq⟩ := serve_cases hd
  · have hreset : d ≠ .reset := by rintro rfl; cases hwants
    rw [Account.serve, heq, if_neg hreset]
    exact h.allocate (hd hwants)
  · rw [Account.serve, heq, if_neg hreset]
    exact h
  · exact sound_new c.arena.blockSize

/-- No sum wraps for any of a sequence of demands. -/
def AdmitsAll (c : Account) : List Demand → Prop
  | [] => True
  | d :: ds => c.arena.Admits d ∧ (c.serve d).AdmitsAll ds

/-- **What a sequence of demands keeps.** -/
theorem Sound.serveAll (h : c.Sound) (hds : c.AdmitsAll ds) : (c.serveAll ds).Sound := by
  induction ds generalizing c with
  | nil => exact h
  | cons d ds ih => exact ih (h.serve hds.1) hds.2

theorem serveAll_concat : c.serveAll (ds ++ [d]) = (c.serveAll ds).serve d := by
  simp [serveAll]

theorem admitsAll_concat :
    c.AdmitsAll (ds ++ [d]) ↔ c.AdmitsAll ds ∧ (c.serveAll ds).arena.Admits d := by
  induction ds generalizing c with
  | nil => simp [AdmitsAll, serveAll]
  | cons d' ds ih => simp [AdmitsAll, serveAll, ih, and_assoc]

/-! ## 5. Sequences of demands -/

/-- A region is handed out for every demand since the last reset that wants one. -/
theorem demands_serveAll (blockSize : Nat) (h : AdmitsAll { arena := { blockSize } } ds) :
    (serveAll { arena := { blockSize } } ds).grants.map (·.demand) =
      (Demand.sinceReset ds).filter (·.wantsRegion) := by
  induction ds using List.reverseRecOn with
  | nil => rfl
  | append_singleton ds d ih =>
    obtain ⟨hds, hd⟩ := admitsAll_concat.mp h
    rw [Demand.sinceReset_concat, serveAll_concat, serve]
    obtain ⟨hwants, heq⟩ | ⟨hwants, hreset, heq⟩ | ⟨rfl, heq⟩ := serve_cases hd
    · have hreset : d ≠ .reset := by rintro rfl; cases hwants
      simp [heq, hwants, hreset, ih hds]
    · simp [heq, hwants, hreset, ih hds]
    · rfl

/-- What wants no region takes no room. -/
theorem sum_size_filter (ds : List Demand) :
    ((ds.filter (·.wantsRegion)).map (·.size)).sum = (ds.map (·.size)).sum := by
  induction ds with
  | nil => rfl
  | cons d ds ih =>
    cases hd : d.wantsRegion with
    | true => simp [hd, ih]
    | false => simp [hd, ih, Demand.size_eq_zero hd]

end Account

/-- **A block is added exactly when there is none or the region does not fit into the latest.** -/
theorem blockCount_serve (hd : a.Admits d) :
    (a.NeedsBlock d → (a.serve d).2.blockCount = a.blockCount + 1) ∧
      (¬ a.NeedsBlock d → d ≠ .reset → (a.serve d).2.blockCount = a.blockCount) := by
  obtain ⟨hwants, heq⟩ | ⟨hwants, -, heq⟩ | ⟨rfl, -⟩ := serve_cases hd
  · have hholds := hd hwants
    rw [heq]
    obtain ⟨hroom, heq⟩ | ⟨hroom, heq⟩ := allocate_cases hholds <;> rw [heq]
    · exact ⟨fun h => absurd (hholds.hasRoom_iff.mpr hroom) h.2, fun _ _ => rfl⟩
    · exact ⟨fun _ => rfl, fun h => absurd ⟨hwants, hroom⟩ h⟩
  · rw [heq]
    exact ⟨fun h => absurd h.1 (Bool.eq_false_iff.mp hwants), fun _ _ => rfl⟩
  · exact ⟨fun h => absurd h.1 Bool.false_ne_true, fun _ h => absurd rfl h⟩

/-- **The regions that an arena hands out lie in their blocks and apart from each other.** After any
    sequence of demands for which no sum wraps, the size of everything is the sum of the sizes that
    were demanded since the last reset, no more of the latest block is used than there is, and each
    demand since then that wants a region has one, in its block, aligned, and apart from all others.
    The next demand adds a block exactly if its region does not fit into the latest. -/
theorem regions_lie_apart (blockSize : Nat) {ds : List Demand}
    (h : Account.AdmitsAll { arena := { blockSize } } ds) :
    let c := Account.serveAll { arena := { blockSize } } ds
    c.arena.total = ((Demand.sinceReset ds).map (·.size)).sum ∧
    c.arena.offset ≤ c.arena.currentSize ∧
    c.grants.map (·.demand) = (Demand.sinceReset ds).filter (·.wantsRegion) ∧
    (∀ g ∈ c.grants, c.arena.Places g) ∧
    c.grants.Pairwise (fun g g' => g.region.Apart g'.region) ∧
    ∀ d, c.arena.Admits d →
      (c.arena.NeedsBlock d → (c.serve d).arena.blockCount = c.arena.blockCount + 1) ∧
      (¬ c.arena.NeedsBlock d → d ≠ .reset →
        (c.serve d).arena.blockCount = c.arena.blockCount) := by
  intro c
  have hsound : c.Sound := (Account.sound_new blockSize).serveAll h
  have hdemands := Account.demands_serveAll blockSize h
  refine ⟨?_, hsound.offset_le, hdemands, hsound.places, hsound.apart, fun d => blockCount_serve⟩
  rw [hsound.total_eq, ← Account.sum_size_filter, ← hdemands, List.map_map]
  rfl

/-- Padding, an empty region at the end of a block, a small region that takes a new block and a large
    one that takes a block of its own, all after a reset. -/
theorem regions_lie_apart_in_three_blocks :
    let ds : List Demand :=
      [.allocate 100 1, .reset, .allocate 3 1, .allocate 8 8, .allocate 0 16, .text [104, 105],
        .array 4 10]
    let c := Account.serveAll { arena := { blockSize := 16 } } ds
    Account.AdmitsAll { arena := { blockSize := 16 } } ds ∧
    c.grants.map (·.region) = [⟨2, 0, 40⟩, ⟨1, 0, 2⟩, ⟨0, 16, 0⟩, ⟨0, 8, 8⟩, ⟨0, 0, 3⟩] ∧
    c.arena.total = 53 ∧ (∀ g ∈ c.grants, c.arena.Places g) ∧
    c.grants.Pairwise (fun g g' => g.region.Apart g'.region) := by
  intro ds c
  have h : Account.AdmitsAll { arena := { blockSize := 16 } } ds := by
    refine ⟨fun _ => ⟨⟨0, rfl⟩, ?_, ?_, ?_, ?_⟩, nofun, fun _ => ⟨⟨0, rfl⟩, ?_, ?_, ?_, ?_⟩,
      fun _ => ⟨⟨3, rfl⟩, ?_, ?_, ?_, ?_⟩, fun _ => ⟨⟨4, rfl⟩, ?_, ?_, ?_, ?_⟩,
      fun _ => ⟨⟨0, rfl⟩, ?_, ?_, ?_, ?_⟩, fun _ => ⟨⟨2, rfl⟩, ?_, ?_, ?_, ?_⟩, trivial⟩ <;> decide
  obtain ⟨htotal, -, -, hplaces, hapart, -⟩ := regions_lie_apart 16 h
  exact ⟨h, by decide, htotal.trans (by decide), hplaces, hapart⟩

end Arena

end ReactiveScript
