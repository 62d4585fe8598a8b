import LiterateMath.Name
import LiterateMath.Grouping

/-! Reading names. A name is a run of text or a Greek letter, perhaps with subscripts; braces
may stand around a name or around a subscript, and a subscript may be a number. -/
namespace LiterateMath

def malformed {α : Type} (fault : ParseFault) (place : Option Span) : Parsed α :=
  .error (.malformed fault place)

def stripBraces : List Token → Parsed (List Token)
  | [] => .ok []
  | t :: rest =>
      if t.opens .brace then
        match _h : splitClosing 0 rest with
        | none => .ok (t :: rest)
        | some (inside, closer, after) => do
            checkClosing .brace t.span closer
            if after.isEmpty then stripBraces inside else return t :: rest
      else .ok (t :: rest)
termination_by ts => ts.length
decreasing_by
  have := splitClosingLength _h
  simp only [List.length_cons]
  omega

def parseAtom (asSubscript : Bool) : List Token → Parsed Name
  | [] => malformed .nameMissing none
  | [t] =>
      match t.word? with
      | some (.text letters) => .ok (.text letters)
      | some (.greek letter) => .ok (.greek letter)
      | some (.number digits) =>
          if asSubscript then .ok (.text digits) else malformed .notAName (some t.span)
      | _ => malformed .notAName (some t.span)
  | ts => malformed .notAName (spanOf ts)

def parseName : (limit : Nat) → (asSubscript : Bool) → List Token → Parsed Name
  | 0, _, _ => .error .tooDeep
  | limit + 1, asSubscript, ts => do
      let stripped ← stripBraces ts
      match splitOnce .underscore stripped with
      | none => parseAtom asSubscript stripped
      | some (base, sub) =>
          return .subscripted (← parseName limit asSubscript base) (← parseName limit true sub)

end LiterateMath
