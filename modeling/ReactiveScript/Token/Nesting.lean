import ReactiveScript.Text.Basic

/-!
# Constructs nested in templates

A template may hold interpolations, an interpolation may hold strings, braces and templates, and so
on. `Nesting.closeFrom` reads up to the byte that closes the outermost of the constructs that are
open.
-/

namespace ReactiveScript.Nesting

/-- The construct that a byte belongs to. -/
inductive Inside where
  /-- The literal part of a template. -/
  | body
  /-- An interpolation with so many braces open, its own one included. -/
  | code (braces : Nat)
  /-- A string inside an interpolation. -/
  | string (quote : UInt8)
  deriving DecidableEq, Repr

/-- The number of bytes, `n` of them read already, up to and with the one that closes the outermost
    construct, and whether there is such a byte; without one all bytes count. The open constructs
    are listed from the inside out.

    A `$` before a brace enters an interpolation, whose brace is the next byte. A string inside an
    interpolation ends with its quote or with its line. -/
def closeFrom (nest : List Inside) (n : Nat) : Text → Nat × Bool
  | [] => (n, false)
  | b :: rest =>
    match nest with
    | [] => (n, true)
    | .body :: outer =>
      if b = Byte.backtick then
        if outer.isEmpty then (n + 1, true) else closeFrom outer (n + 1) rest
      else if b = Byte.backslash then
        match rest with
        | [] => (n + 1, false)
        | _escaped :: rest => closeFrom nest (n + 2) rest
      else if b = Byte.dollar ∧ rest.head? = some Byte.openBrace then
        closeFrom (.code 0 :: nest) (n + 1) rest
      else closeFrom nest (n + 1) rest
    | .code braces :: outer =>
      if b = Byte.openBrace then closeFrom (.code (braces + 1) :: outer) (n + 1) rest
      else if b = Byte.closeBrace then
        if braces ≤ 1 then
          if outer.isEmpty then (n + 1, true) else closeFrom outer (n + 1) rest
        else closeFrom (.code (braces - 1) :: outer) (n + 1) rest
      else if b = Byte.backtick then closeFrom (.body :: nest) (n + 1) rest
      else if b = Byte.doubleQuote ∨ b = Byte.singleQuote then
        closeFrom (.string b :: nest) (n + 1) rest
      else closeFrom nest (n + 1) rest
    | .string quote :: outer =>
      if b = quote ∨ b = Byte.newline then closeFrom outer (n + 1) rest
      else if b = Byte.backslash then
        match rest with
        | [] => (n + 1, false)
        | _escaped :: rest => closeFrom nest (n + 2) rest
      else closeFrom nest (n + 1) rest

/-- The number of bytes of an interpolation in front of its closing brace; all bytes without one.
    The text starts just after `${`. -/
def interpolationLength (t : Text) : Nat :=
  let (n, closed) := closeFrom [.code 1] 0 t
  if closed then n - 1 else n

end ReactiveScript.Nesting
