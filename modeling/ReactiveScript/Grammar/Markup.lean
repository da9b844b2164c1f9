import ReactiveScript.Grammar.Routines
import ReactiveScript.Syntax.Children

/-!
# Elements and fragments

Tags are read from the ordinary tokens. The text between tags is read from the source as it is,
starting right after the `>` or `}` of what stands before it; the token that holds this byte may be
longer (`>=`, `>>`), so the reader goes back into it first.
-/

namespace ReactiveScript.Grammar

/-! ## 1. Going back into a token -/

/-- The reader placed so many bytes into its current token. -/
def State.reenter (s : State) (source : Text) (width : Nat) : State :=
  { s with cursor := Cursor.inside source s.current width }

/-- Read the text that follows the first bytes of the current token. -/
def advanceText (c : Context) (width : Nat) : Reading Unit :=
  modify fun s =>
    let s := s.reenter c.source width
    s.accept s.cursor.jsxText

/-- Leave the last tag of an element. What follows is text if the element is a child. -/
def leaveTag (c : Context) (width : Nat) (inChildren : Bool) : Reading Unit := do
  if inChildren then advanceText c width
  else
    modify (·.reenter c.source width)
    advance

/-- Does the current token start with the `>` of a tag? -/
def seesTagEnd : Reading Bool := return (← token).startsWith Byte.greater

/-! ## 2. Names and attributes -/

/-- Does the current token follow the one before it without a gap? -/
def State.adjoins (s : State) : Bool := s.current.offset = s.previous.stop

/-- The parts of a name after the first, joined by `.` or `-` without gaps. -/
def jsxNameRest (name : Text) : Nat → Reading (Option Text)
  | 0 => outOfRounds
  | rounds + 1 => do
    let s ← get
    if (s.sees (.punct .dot) || s.sees (.punct .minus)) && s.adjoins then
      let sep ← take
      let s ← get
      if s.current.kind.isPropertyName && s.adjoins then
        let part ← take
        jsxNameRest (name ++ sep.text ++ part.text) rounds
      else
        expected .jsxName
        return none
    else return some name

/-- The name of an element or attribute. -/
def jsxName (c : Context) : Reading (Option Text) := do
  if (← token).kind.isPropertyName then
    let t ← take
    jsxNameRest t.text c.rounds
  else
    expected .jsxName
    return none

/-- An expression in braces, whose opening brace has been taken. -/
def bracedValue (c : Context) : Reading (Option Expr) := do
  let e ← bracketed c.inner.assignment
  if ← expect (.punct .closeBrace) then return some e else return none

/-- `{...value}`, whose opening brace has been taken. -/
def spreadAttribute (c : Context) (p : Position) : Reading (Option Attribute) := do
  if ← expect (.punct .ellipsis) then return (← bracedValue c).map (.spread p)
  else return none

/-- An attribute whose name has been taken. -/
def attributeValue (c : Context) (p : Position) (name : Text) : Reading (Option Attribute) := do
  if !(← accept (.punct .declare)) then return some (.flag p name)
  else if ← sees .string then return some (.string p name (← take).text)
  else if ← accept (.punct .openBrace) then return (← bracedValue c).map (.value p name)
  else
    expected .attributeValue
    return none

/-- An attribute with a name. -/
def namedAttribute (c : Context) (p : Position) : Reading (Option Attribute) := do
  match ← jsxName c with
  | none => return none
  | some name => attributeValue c p name

/-- An attribute. -/
def tagAttribute (c : Context) : Reading (Option Attribute) := do
  let p := (← token).pos
  if ← accept (.punct .openBrace) then spreadAttribute c p else namedAttribute c p

/-- The attributes up to the end of a tag; those read so far are kept last first. -/
def attributesFrom (c : Context) (done : List Attribute) : Nat → Reading (Option (List Attribute))
  | 0 => outOfRounds
  | rounds + 1 => do
    if ← atEnd then
      expected .tagEnd
      return none
    else if (← sees (.punct .selfClose)) || (← seesTagEnd) then return some done.reverse
    else
      match ← tagAttribute c with
      | none => return none
      | some a => attributesFrom c (a :: done) rounds

/-! ## 3. Children -/

/-- A child in braces: an expression, or nothing at all. The opening brace is the current token. -/
def bracedChild (c : Context) : Reading (Option Slot) := do
  let t ← take
  let close ← token
  if close.kind = .punct .closeBrace then
    advanceText c 1
    return some (.comment ⟨t.offset, close.stop⟩)
  else
    let e ← bracketed c.inner.assignment
    let close ← token
    if close.kind = .punct .closeBrace then
      advanceText c 1
      return some (.node ⟨t.offset, close.stop⟩ (.jsxExpression t.pos e))
    else
      expected .closingBrace
      return none

/-- A child that is an element or a fragment. -/
def elementChild (c : Context) : Reading (Option Slot) := do
  let start := (← token).offset
  let e ← c.inner.jsx true
  if e.isBad then return none
  else return some (.node ⟨start, (← token).offset⟩ e)

/-- The run of text in the current token, unless it is empty. -/
def textSlot (t : Token) : List Slot :=
  if t.text.isEmpty then [] else [.text ⟨t.offset, t.stop⟩]

/-- What stands up to the closing tag, the current token being a run of text; `none` after a fault.
    The slots read so far are kept last first. -/
def slotsFrom (c : Context) (done : List Slot) : Nat → Reading (Option (List Slot))
  | 0 => outOfRounds
  | rounds + 1 => do
    let done := textSlot (← take) ++ done
    match (← token).kind with
    | .punct .closeTag => return some done.reverse
    | .punct .less =>
      match ← elementChild c with
      | none => return none
      | some slot => slotsFrom c (slot :: done) rounds
    | .punct .openBrace =>
      match ← bracedChild c with
      | none => return none
      | some slot => slotsFrom c (slot :: done) rounds
    | _ =>
      expected .closingTag
      return none

/-- What stands between an opening tag, whose `>` is the current token, and the closing tag, whose
    `</` is the current token afterwards. -/
def slots (c : Context) : Reading (Option (List Slot)) := do
  advanceText c 1
  slotsFrom c [] c.rounds

/-- The children that slots leave. -/
def childrenOf (c : Context) (ss : List Slot) : List Expr := Children.ofSlots c.lines c.source ss

/-! ## 4. Elements and fragments -/

/-- The rest of a fragment, whose first `>` is the current token. -/
def fragment (c : Context) (inChildren : Bool) (p : Position) : Reading Expr := do
  match ← slots c with
  | none => return .bad p
  | some ss =>
    advance
    if ← seesTagEnd then
      leaveTag c 1 inChildren
      return .jsxFragment p (childrenOf c ss)
    else
      expected .fragmentEnd
      return .bad p

/-- The closing tag of an element, whose `</` is the current token; tells whether it is right. The
    `>` is the current token afterwards. -/
def closingTag (c : Context) (name : Text) : Reading Bool := do
  advance
  let p := (← token).pos
  match ← jsxName c with
  | none => return false
  | some closing =>
    if closing ≠ name then
      faultAt (.closingName name closing) p
      return false
    else if ← seesTagEnd then return true
    else
      expected .tagEnd
      return false

/-- The rest of an element after its attributes. -/
def elementRest (c : Context) (inChildren : Bool) (p : Position) (name : Text)
    (attributes : List Attribute) : Reading Expr := do
  if ← sees (.punct .selfClose) then
    leaveTag c 2 inChildren
    return .jsxElement p name attributes [] true
  else
    match ← slots c with
    | none => return .bad p
    | some ss =>
      if ← closingTag c name then
        leaveTag c 1 inChildren
        return .jsxElement p name attributes (childrenOf c ss) false
      else return .bad p

/-- The rest of an element, whose name is the current token. -/
def element (c : Context) (inChildren : Bool) (p : Position) : Reading Expr := do
  match ← jsxName c with
  | none => return .bad p
  | some name =>
    match ← attributesFrom c [] c.rounds with
    | none => return .bad p
    | some attributes => elementRest c inChildren p name attributes

/-- An element or a fragment, whose `<` is the current token. -/
def markup (c : Context) (inChildren : Bool) : Reading Expr := do
  let p := (← take).pos
  if ← seesTagEnd then fragment c inChildren p else element c inChildren p

/-- An element or a fragment, one level deeper. -/
def jsx (c : Context) (inChildren : Bool) : Reading Expr := nested badHere (markup c inChildren)

end ReactiveScript.Grammar
