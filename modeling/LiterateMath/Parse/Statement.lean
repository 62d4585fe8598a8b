import LiterateMath.Statement
import LiterateMath.Region
import LiterateMath.Parse.Value

/-! Reading statements: each slice of a document becomes one. -/
namespace LiterateMath

def numberSet? : List Token → Option NumberSet
  | [.plain (.numberSet s) _] => some s
  | [.command "mathbb" [letters] _ _] =>
      match normalize letters with
      | [.plain (.text letter) _] => NumberSet.all.find? fun s => String.singleton s.letter = letter
      | _ => none
  | _ => none

def parseNumberSet (role : String) (near : Option Span) (ts : List Token) : Parsed NumberSet :=
  match numberSet? ts with
  | some s => .ok s
  | none => malformed (.numberSetExpected role) ((spanOf ts).or near)

def parseFunctionDeclaration (name signature : List Token) (place : Option Span) :
    Parsed FunctionDeclaration := do
  let name ← parseName subscriptDepth false name
  match splitOnce .arrow signature with
  | none => malformed .declarationForm place
  | some (domain, codomain) =>
      let domain ← parseNumberSet "domain" place domain
      let codomain ← parseNumberSet "codomain" place codomain
      return ⟨name, domain, codomain, none⟩

def hasRepeat : List Name → Bool
  | [] => false
  | n :: rest => rest.contains n || hasRepeat rest

def parseParameters (inside : List Token) : Parsed (List Name) :=
  if inside.isEmpty then .ok [] else (splitTop .comma 0 inside).mapM (parseName subscriptDepth false)

def parseFunctionDefinition (signature body : List Token) : Parsed FunctionDefinition :=
  match cutAt (Token.opens .paren) signature with
  | none => malformed .parametersNeverClosed (signature.getLast?.map Token.span)
  | some (name, opener, rest) =>
      match splitClosing 0 rest with
      | none => malformed .parametersNeverClosed (some opener.span)
      | some (inside, closer, after) => do
          checkClosing .paren opener.span closer
          if !after.isEmpty then malformed .afterParameters (spanOf after)
          let name ← parseName subscriptDepth false name
          let params ← parseParameters inside
          if hasRepeat params then malformed .repeatedParameter (spanOf signature)
          return ⟨name, params, ← parseValue valueDepth body, [], none⟩

def parseMembers (inside : List Token) : Parsed (List Expr) :=
  if inside.isEmpty then .ok [] else (splitTop .comma 0 inside).mapM (parseValue valueDepth)

def parseValueDeclaration (name value : List Token) : Parsed Statement := do
  let name ← parseName subscriptDepth false name
  match value with
  | .plain (.opening .escapedBrace) opener :: rest =>
      match splitClosing 0 rest with
      | none => malformed .setNeverClosed (some opener)
      | some (inside, closer, after) => do
          checkClosing .escapedBrace opener closer
          if !after.isEmpty then malformed .afterSet (spanOf after)
          return .setDeclaration name (← parseMembers inside) none
  | value => return .valueDeclaration name (← parseValue valueDepth value) none

def parseStatement (slice : List Token) : Parsed Statement := do
  let statement ← match shape slice with
    | .expression => do pure (.expression (← parseValue valueDepth slice))
    | .functionDeclaration name signature => do
        pure (.functionDeclaration (← parseFunctionDeclaration name signature (spanOf slice)))
    | .functionDefinition signature body => do
        pure (.functionDefinition (← parseFunctionDefinition signature body))
    | .valueDeclaration name value => parseValueDeclaration name value
  return statement.putAt (spanOf slice)

def bareCode (text : String) : Parsed (List Token) := do
  return normalize (← commandTokens text)

def Name.ofText (text : String) (asSubscript : Bool) : Parsed Name := do
  parseName subscriptDepth asSubscript (← bareCode text)

end LiterateMath
