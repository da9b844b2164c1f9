import ReactiveScript.Text.Basic

/-!
# Kinds of tokens

Operators and punctuation (`Punct`) and keywords (`Keyword`) are fixed spellings; the other kinds
are named for what they hold. `Punct.all` and `Keyword.all` list them in the order in which the
language declares them, and `Kind.all` puts all kinds into one list.
-/

namespace ReactiveScript

/-! ## 1. Operators and punctuation -/

/-- An operator or a mark of punctuation. Names that start with `set` are the assignments made of
    `:=` and an operator. -/
inductive Punct where
  | plus | minus | star | slash | percent | starStar | ampersand | bar | caret | tilde | bang
  | shiftLeft | shiftRight | shiftRightZero | andAnd | orOr | nullish | increment | decrement
  | equal | notEqual | less | greater | lessEqual | greaterEqual | declare | set | setPlus
  | setMinus | setStar | setSlash | setPercent | setStarStar | setShiftLeft | setShiftRight
  | setShiftRightZero | setAmpersand | setBar | setCaret | setAndAnd | setOrOr | setNullish
  | pipe | compose | arrow | question | optional | colon | closeTag | selfClose | openParen
  | closeParen | openBracket | closeBracket | openBrace | closeBrace | comma | semicolon | dot
  | ellipsis
  deriving DecidableEq, Repr, Inhabited

namespace Punct

/-- The bytes of the source that make up the token. -/
def spelling : Punct → Text
  | .plus => txt "+"
  | .minus => txt "-"
  | .star => txt "*"
  | .slash => txt "/"
  | .percent => txt "%"
  | .starStar => txt "**"
  | .ampersand => txt "&"
  | .bar => txt "|"
  | .caret => txt "^"
  | .tilde => txt "~"
  | .bang => txt "!"
  | .shiftLeft => txt "<<"
  | .shiftRight => txt ">>"
  | .shiftRightZero => txt ">>>"
  | .andAnd => txt "&&"
  | .orOr => txt "||"
  | .nullish => txt "??"
  | .increment => txt "++"
  | .decrement => txt "--"
  | .equal => txt "=="
  | .notEqual => txt "!="
  | .less => txt "<"
  | .greater => txt ">"
  | .lessEqual => txt "<="
  | .greaterEqual => txt ">="
  | .declare => txt "="
  | .set => txt ":="
  | .setPlus => txt "+:="
  | .setMinus => txt "-:="
  | .setStar => txt "*:="
  | .setSlash => txt "/:="
  | .setPercent => txt "%:="
  | .setStarStar => txt "**:="
  | .setShiftLeft => txt "<<:="
  | .setShiftRight => txt ">>:="
  | .setShiftRightZero => txt ">>>:="
  | .setAmpersand => txt "&:="
  | .setBar => txt "|:="
  | .setCaret => txt "^:="
  | .setAndAnd => txt "&&:="
  | .setOrOr => txt "||:="
  | .setNullish => txt "??:="
  | .pipe => txt "|>"
  | .compose => txt "<|"
  | .arrow => txt "=>"
  | .question => txt "?"
  | .optional => txt "?."
  | .colon => txt ":"
  | .closeTag => txt "</"
  | .selfClose => txt "/>"
  | .openParen => txt "("
  | .closeParen => txt ")"
  | .openBracket => txt "["
  | .closeBracket => txt "]"
  | .openBrace => txt "\x7b"
  | .closeBrace => txt "\x7d"
  | .comma => txt ","
  | .semicolon => txt ";"
  | .dot => txt "."
  | .ellipsis => txt "..."

/-- Every operator and mark of punctuation, in declaration order. -/
def all : List Punct :=
  [ .plus, .minus, .star, .slash, .percent, .starStar, .ampersand, .bar, .caret, .tilde, .bang,
    .shiftLeft, .shiftRight, .shiftRightZero, .andAnd, .orOr, .nullish, .increment, .decrement,
    .equal, .notEqual, .less, .greater, .lessEqual, .greaterEqual, .declare, .set, .setPlus,
    .setMinus, .setStar, .setSlash, .setPercent, .setStarStar, .setShiftLeft, .setShiftRight,
    .setShiftRightZero, .setAmpersand, .setBar, .setCaret, .setAndAnd, .setOrOr, .setNullish,
    .pipe, .compose, .arrow, .question, .optional, .colon, .closeTag, .selfClose, .openParen,
    .closeParen, .openBracket, .closeBracket, .openBrace, .closeBrace, .comma, .semicolon, .dot,
    .ellipsis ]

/-- `=`, `:=` and every assignment made of `:=` and an operator. -/
def isAssignment : Punct → Bool
  | .declare | .set | .setPlus | .setMinus | .setStar | .setSlash | .setPercent | .setStarStar
  | .setShiftLeft | .setShiftRight | .setShiftRightZero | .setAmpersand | .setBar | .setCaret
  | .setAndAnd | .setOrOr | .setNullish => true
  | _ => false

/-- A bracket that opens a group. -/
def isOpening : Punct → Bool
  | .openParen | .openBracket | .openBrace => true
  | _ => false

/-- A bracket that closes a group. -/
def isClosing : Punct → Bool
  | .closeParen | .closeBracket | .closeBrace => true
  | _ => false

end Punct

/-! ## 2. Keywords -/

/-- A reserved word. -/
inductive Keyword where
  | ret | true | false | null | typeof | void | delete | instanceof | isIn
  | exports | imports | default
  deriving DecidableEq, Repr, Inhabited

namespace Keyword

/-- The reserved word itself. -/
def spelling : Keyword → Text
  | .ret => txt "return"
  | .true => txt "true"
  | .false => txt "false"
  | .null => txt "null"
  | .typeof => txt "typeof"
  | .void => txt "void"
  | .delete => txt "delete"
  | .instanceof => txt "instanceof"
  | .isIn => txt "in"
  | .exports => txt "export"
  | .imports => txt "import"
  | .default => txt "default"

/-- Every reserved word, in declaration order. -/
def all : List Keyword :=
  [ .ret, .true, .false, .null, .typeof, .void, .delete, .instanceof, .isIn, .exports, .imports,
    .default ]

/-- The keyword that a word spells. -/
def ofText? (word : Text) : Option Keyword := all.find? (·.spelling = word)

end Keyword

/-! ## 3. All kinds -/

/-- The kind of a token. -/
inductive Kind where
  /-- Bytes that make up no token. -/
  | invalid
  /-- The end of the source. -/
  | eof
  /-- A name that is not reserved. -/
  | identifier
  /-- A name with `@` in front of it. -/
  | modifier
  | number
  | string
  | template
  /-- The text between two tags. -/
  | jsxText
  | punct (p : Punct)
  | keyword (k : Keyword)
  deriving DecidableEq, Repr, Inhabited

namespace Kind

/-- The spelling of a fixed token, the name of the class otherwise. -/
def name : Kind → Text
  | .invalid => txt "Invalid"
  | .eof => txt "EOF"
  | .identifier => txt "Identifier"
  | .modifier => txt "Modifier"
  | .number => txt "NumberLiteral"
  | .string => txt "StringLiteral"
  | .template => txt "TemplateLiteral"
  | .jsxText => txt "JsxText"
  | .punct p => p.spelling
  | .keyword k => k.spelling

/-- Every kind, in declaration order. -/
def all : List Kind :=
  [.invalid, .eof, .identifier, .modifier, .number, .string, .template, .jsxText] ++
    Punct.all.map .punct ++ Keyword.all.map .keyword

/-- Is it a reserved word? -/
def isKeyword : Kind → Bool
  | .keyword _ => true
  | _ => false

/-- Is it an assignment sign? -/
def isAssignment : Kind → Bool
  | .punct p => p.isAssignment
  | _ => false

/-- A word that may name a property: any name, reserved or not. -/
def isPropertyName : Kind → Bool
  | .identifier | .keyword _ => true
  | _ => false

/-- The kind of a word: a keyword, or else an identifier. -/
def ofWord (word : Text) : Kind :=
  match Keyword.ofText? word with
  | some k => .keyword k
  | none => .identifier

end Kind

end ReactiveScript
