import ReactiveScript.Token.Kind
import ReactiveScript.Source.Position

/-!
# Faults and their wording

Every way in which a source can be refused is a constructor here, and its wording is given by one
function per stage. A `Report` is a fault at a position.
-/

namespace ReactiveScript

/-! ## 1. Stages -/

/-- The stage at which a source is refused. -/
inductive Stage where
  | general | lex | parse | build | compile
  deriving DecidableEq, Repr, Inhabited

namespace Stage

/-- The name under which errors of the stage are reported. -/
def name : Stage → Text
  | .general => txt "Error"
  | .lex => txt "LexError"
  | .parse => txt "ParseError"
  | .build => txt "BuildError"
  | .compile => txt "CompileError"

/-- Every stage, in the order of the pipeline. -/
def all : List Stage := [.general, .lex, .parse, .build, .compile]

end Stage

/-! ## 2. Faults in tokens -/

/-- The number bases that have a mark of their own. -/
inductive Radix where
  | hexadecimal | binary | octal
  deriving DecidableEq, Repr, Inhabited

namespace Radix

def name : Radix → Text
  | .hexadecimal => txt "hexadecimal"
  | .binary => txt "binary"
  | .octal => txt "octal"

/-- The base as a number. -/
def base : Radix → Nat
  | .hexadecimal => 16
  | .binary => 2
  | .octal => 8

/-- The digits of the base. -/
def isDigit : Radix → UInt8 → Bool
  | .hexadecimal => Byte.isHex
  | .binary => Byte.isBinary
  | .octal => Byte.isOctal

/-- The base that the byte after a leading zero announces. -/
def ofMark? (b : UInt8) : Option Radix :=
  if b = 0x78 ∨ b = 0x58 then some .hexadecimal
  else if b = 0x62 ∨ b = 0x42 then some .binary
  else if b = 0x6F ∨ b = 0x4F then some .octal
  else none

end Radix

/-- What can be wrong with a token. -/
inductive LexFault where
  | openComment
  | modifierName
  | noDigits (r : Radix)
  | noExponent
  | nameAfterNumber
  | openEscape
  | hexEscape
  | lineInString
  | openString
  | openTemplate
  | strayByte (b : UInt8)
  | strayCharacter (t : Text)
  deriving DecidableEq, Repr

def LexFault.message : LexFault → Text
  | .openComment => txt "unterminated block comment"
  | .modifierName => txt "expected modifier name after '@'"
  | .noDigits r => r.name ++ txt " literal has no digits"
  | .noExponent => txt "exponent has no digits"
  | .nameAfterNumber => txt "identifier starts immediately after numeric literal"
  | .openEscape => txt "unterminated escape sequence"
  | .hexEscape => txt "expected 2 hex digits in escape sequence"
  | .lineInString => txt "newline in string literal"
  | .openString => txt "unterminated string literal"
  | .openTemplate => txt "unterminated template literal"
  | .strayByte b => txt "unexpected byte 0x" ++ Text.hexByte b
  | .strayCharacter t => txt "unexpected character " ++ Text.quoted t

/-! ## 3. Faults in the grammar -/

/-- What the grammar wants where something else stands. -/
inductive Wanted where
  | endOfInput
  | word (w : Text)
  | exportName
  | importName
  | assignmentSign
  | propertyName
  | expression
  | colon
  | property
  | bindingTarget
  | jsxName
  | attributeValue
  | tagEnd
  | fragmentEnd
  | closingTag
  | closingBrace
  deriving DecidableEq, Repr

def Wanted.describe : Wanted → Text
  | .endOfInput => txt "end of input"
  | .word w => Text.quoted w
  | .exportName => txt "export name"
  | .importName => txt "import name"
  | .assignmentSign => txt "'=' or ':='"
  | .propertyName => txt "property name"
  | .expression => txt "expression"
  | .colon => txt "':'"
  | .property => txt "property"
  | .bindingTarget => txt "binding name or pattern"
  | .jsxName => txt "JSX name"
  | .attributeValue => txt "attribute value"
  | .tagEnd => txt "'>'"
  | .fragmentEnd => txt "'>' closing the fragment"
  | .closingTag => txt "closing tag"
  | .closingBrace => txt "'\x7d'"

/-- What can be wrong with the arrangement of tokens. -/
inductive ParseFault where
  | expectedToken (want got : Kind)
  | expected (want : Wanted) (got : Kind)
  | unseparated
  | indentation
  | noBlock
  | tooDeep
  | noDeclaration
  | taggedOptional
  | closingName (want got : Text)
  deriving DecidableEq, Repr

def ParseFault.message : ParseFault → Text
  | .expectedToken want got =>
    txt "expected " ++ Text.quoted want.name ++ txt ", got " ++ Text.quoted got.name
  | .expected want got => txt "expected " ++ want.describe ++ txt ", got " ++ Text.quoted got.name
  | .unseparated => txt "Statements must be separated by newlines"
  | .indentation => txt "Unexpected indentation"
  | .noBlock => txt "Expected an indented block"
  | .tooDeep => txt "Expression nested too deeply"
  | .noDeclaration => txt "Expected a declaration after export"
  | .taggedOptional => txt "Invalid tagged template on optional chain"
  | .closingName want got =>
    txt "Mismatched closing tag: expected </" ++ want ++ txt ">, got </" ++ got ++ txt ">"

/-! ## 4. Faults in meaning -/

/-- What can be wrong with a construct that is grammatical. -/
inductive BuildFault where
  | computedKey
  | restNotLast
  | interpolation (inner : Text)
  | compoundSlice
  | target
  deriving DecidableEq, Repr

def BuildFault.message : BuildFault → Text
  | .computedKey => txt "Computed key property must have both key and value expressions"
  | .restNotLast => txt "Rest element must be last"
  | .interpolation inner => txt "Invalid template literal interpolation: " ++ inner
  | .compoundSlice => txt "Compound assignment is not supported on array slices"
  | .target => txt "Invalid assignment target"

/-- What can be wrong with a program whose constructs are all right. -/
inductive CompileFault where
  | declaredSlice
  | declaredMember
  | unknownStatement (kind : Text)
  | unknownExpression (kind : Text)
  | unknownModifier (name : Text)
  | notFunction (modifier : Text)
  | nestedDeclaration
  | noDeclaration
  deriving DecidableEq, Repr

def CompileFault.message : CompileFault → Text
  | .declaredSlice => txt "Array slice assignments must use := operator, not ="
  | .declaredMember => txt "Member access assignments must use := operator, not ="
  | .unknownStatement kind => txt "Unknown statement type: " ++ kind
  | .unknownExpression kind => txt "Unknown expression type: " ++ kind
  | .unknownModifier name => txt "Unknown modifier: @" ++ name
  | .notFunction modifier => modifier ++ txt " modifier must be a function"
  | .nestedDeclaration =>
    txt "Declarations (=) are only allowed as statements; use := to assign"
  | .noDeclaration => txt "Expected a declaration after export"

/-! ## 5. Reports -/

/-- A cause for which a source is refused. -/
inductive Fault where
  | lex (f : LexFault)
  | parse (f : ParseFault)
  | build (f : BuildFault)
  | compile (f : CompileFault)
  deriving DecidableEq, Repr

namespace Fault

def stage : Fault → Stage
  | .lex _ => .lex
  | .parse _ => .parse
  | .build _ => .build
  | .compile _ => .compile

def message : Fault → Text
  | .lex f => f.message
  | .parse f => f.message
  | .build f => f.message
  | .compile f => f.message

end Fault

/-- A fault and where it was found. -/
structure Report where
  fault : Fault
  pos : Position
  deriving DecidableEq, Repr

namespace Report

/-- The order in which the faults of a generated program are listed: by offset, then by wording. -/
def le (a b : Report) : Bool :=
  a.pos.offset < b.pos.offset ||
    (a.pos.offset == b.pos.offset && Text.le a.fault.message b.fault.message)

/-- Reports in the order of `Report.le`; equal ones all stay. -/
def sort (rs : List Report) : List Report := rs.mergeSort le

end Report

end ReactiveScript
