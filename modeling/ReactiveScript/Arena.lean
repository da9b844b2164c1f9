import ReactiveScript.Text.Basic

/-!
# Arenas

An arena hands out ranges of bytes from blocks that it keeps until it is reset. Within a block it
only moves forward. A range that does not fit starts a new block, and what was left of the block
before is not used any more.

Sizes and offsets are words of 64 bits, and sums of them wrap.
-/

namespace ReactiveScript

/-- A range of bytes in a block; blocks count from zero. -/
structure Region where
  block : Nat
  start : Nat
  size : Nat
  deriving DecidableEq, Repr, Inhabited

/-- The offset after a region. -/
def Region.stop (r : Region) : Nat := r.start + r.size

/-- The blocks in use. -/
structure Arena where
  /-- The least size of a block. -/
  blockSize : Nat := 32 * 1024
  /-- The sizes of the blocks, the latest first. -/
  blocks : List Nat := []
  /-- How much of the latest block is used. -/
  offset : Nat := 0
  /-- The size of everything handed out. -/
  total : Nat := 0
  deriving DecidableEq, Repr, Inhabited

namespace Arena

/-- A number as a word. -/
def word (n : Nat) : Nat := n % Nat.pow 2 64

/-- The least multiple of an alignment that is not below an offset. -/
def alignUp (offset alignment : Nat) : Nat :=
  word (offset + (alignment - 1)) / alignment * alignment

def blockCount (a : Arena) : Nat := a.blocks.length

/-- The size of the latest block; zero without one. -/
def currentSize (a : Arena) : Nat := a.blocks.headD 0

/-- Is there room for a region in the latest block? -/
def fits (a : Arena) (size alignment : Nat) : Bool :=
  !a.blocks.isEmpty && word (alignUp a.offset alignment + size) ≤ a.currentSize

/-- Start a new block with room for a region. -/
def grow (a : Arena) (size alignment : Nat) : Arena :=
  { a with blocks := max (word (size + alignment)) a.blockSize :: a.blocks, offset := 0 }

/-- Hand out a region at a multiple of an alignment, which is a power of two. -/
def allocate (a : Arena) (size alignment : Nat) : Region × Arena :=
  let a := if a.fits size alignment then a else a.grow size alignment
  let start := alignUp a.offset alignment
  ( { block := a.blockCount - 1, start := start, size := size },
    { a with offset := word (start + size), total := word (a.total + size) })

/-- Give up everything that was handed out. -/
def reset (a : Arena) : Arena := { blockSize := a.blockSize }

/-! ## Demands -/

/-- What can be asked of an arena. -/
inductive Demand where
  | allocate (size alignment : Nat)
  /-- A copy of a text. -/
  | text (t : Text)
  /-- A copy of so many elements, each of the given width and alignment. -/
  | array (width count : Nat) (alignment : Nat := width)
  | reset
  deriving DecidableEq, Repr

/-- Meet a demand. Nothing is handed out for an empty text or array. -/
def serve (a : Arena) : Demand → Option Region × Arena
  | .allocate size alignment => (a.allocate size alignment).map some id
  | .text t => if t.isEmpty then (none, a) else (a.allocate t.length 1).map some id
  | .array width count alignment =>
    if count = 0 then (none, a) else (a.allocate (word (width * count)) alignment).map some id
  | .reset => (none, a.reset)

end Arena

end ReactiveScript
