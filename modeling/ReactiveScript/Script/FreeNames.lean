import ReactiveScript.Syntax.Tree

/-!
# Names that a value depends on

The uses of names in an expression, in the order of the source. What stands inside a function is
no use, nor is the name of a member or the key of a property. `FreeNames.ofExpr` lists every name
once, where it is used first.
-/

namespace ReactiveScript.FreeNames

/-- A use of a name. -/
structure Use where
  pos : Position
  name : Text
  deriving DecidableEq, Repr, Inhabited

mutual

/-- The uses in an expression. -/
def uses : Expr → List Use
  | .identifier p name => [⟨p, name⟩]
  | .bad _ | .number _ _ | .string _ _ _ | .boolean _ _ | .null _ | .jsxText _ _ => []
  | .arrow _ _ _ | .arrowBlock _ _ _ _ => []
  | .template _ _ es => usesAll es
  | .tagged _ tag _ _ es => uses tag ++ usesAll es
  | .array _ es => usesAll es
  | .object _ ps => propertiesUses ps
  | .spread _ e => uses e
  | .call _ callee args _ => uses callee ++ usesAll args
  | .member _ object property computed _ =>
    uses object ++ if computed then uses property else []
  | .slice _ object start stop => uses object ++ uses? start ++ uses? stop
  | .sliceAssign _ object start stop value =>
    uses object ++ uses? start ++ uses? stop ++ uses value
  | .unary _ _ e => uses e
  | .update _ _ _ e => uses e
  | .binary _ _ l r => uses l ++ uses r
  | .conditional _ test yes no => uses test ++ uses yes ++ uses no
  | .assign _ _ target value => uses target ++ uses value
  | .declare _ target value => uses target ++ uses value
  | .arrayPattern _ es => elementsUses es
  | .objectPattern _ ps => patternPropertiesUses ps
  | .jsxElement _ _ attributes children _ => attributesUses attributes ++ usesAll children
  | .jsxFragment _ children => usesAll children
  | .jsxExpression _ e => uses e

/-- The uses in an expression that may be missing. -/
def uses? : Option Expr → List Use
  | some e => uses e
  | none => []

/-- The uses in expressions, in order. -/
def usesAll : List Expr → List Use
  | [] => []
  | e :: es => uses e ++ usesAll es

def propertiesUses : List Property → List Use
  | [] => []
  | p :: ps => propertyUses p ++ propertiesUses ps

def propertyUses : Property → List Use
  | .spread _ value => uses value
  | .named _ _ value => uses value
  | .shorthand _ key => uses key
  | .computed _ key value => uses? key ++ uses? value

def elementsUses : List PatternElement → List Use
  | [] => []
  | e :: es => elementUses e ++ elementsUses es

def elementUses : PatternElement → List Use
  | .item _ target default => uses target ++ uses? default
  | .rest _ target => uses target

def patternPropertiesUses : List PatternProperty → List Use
  | [] => []
  | p :: ps => patternPropertyUses p ++ patternPropertiesUses ps

def patternPropertyUses : PatternProperty → List Use
  | .named _ _ target default => uses target ++ uses? default
  | .shorthand _ key default => uses key ++ uses? default
  | .rest _ target => uses target

def attributesUses : List Attribute → List Use
  | [] => []
  | a :: as => attrUses a ++ attributesUses as

def attrUses : Attribute → List Use
  | .flag _ _ | .string _ _ _ => []
  | .value _ _ value => uses value
  | .spread _ value => uses value

end

/-- The names used in an expression, each once, in the order of their first uses. -/
def ofExpr (e : Expr) : List Text := ((uses e).map (·.name)).eraseDups

end ReactiveScript.FreeNames
