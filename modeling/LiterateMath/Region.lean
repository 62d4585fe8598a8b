import LiterateMath.Command
import LiterateMath.Depth
import LiterateMath.Token.Lex
import LiterateMath.ParseFault

/-! Code regions. Only what stands inside a region is code, less its comments; each region
leaves a mark where it ends. -/
namespace LiterateMath

/-- Keeps what lies within code regions. A comment runs from a percent sign to the end of its
line and hides everything on the way, region markers included; the line's end itself stays. -/
def filterRegions : (inComment : Bool) → (opened : Option (Region × Span)) → List Token →
    Parsed (List Token)
  | _, none, [] => .ok []
  | _, some (_, place), [] => .error (.malformed .regionNeverClosed (some place))
  | inComment, opened, t :: rest =>
      if inComment && t.word? ≠ some .newline then filterRegions true opened rest
      else
        match t.word?, opened with
        | some .percent, _ => filterRegions true opened rest
        | some (.regionOpening r), none => filterRegions false (some (r, t.span)) rest
        | _, none => filterRegions false none rest
        | some (.regionOpening _), some _ => filterRegions false opened rest
        | some (.regionClosing r), some (within, _) =>
            if r = within then do
              return .plain .regionEnd t.span :: (← filterRegions false none rest)
            else filterRegions false opened rest
        | _, some _ => do return t :: (← filterRegions false opened rest)

def dropComments : (inComment : Bool) → List Token → List Token
  | _, [] => []
  | inComment, t :: rest =>
      if inComment && t.word? ≠ some .newline then dropComments true rest
      else if t.word? = some .percent then dropComments true rest
      else t :: dropComments false rest

def namedTokens (text : String) : List Token := resolveNames (formStubs (lex text))

def commandTokens (text : String) : Parsed (List Token) :=
  let tokens := captureArguments (namedTokens text)
  if groupDepth < nesting tokens then .error .tooDeep else .ok tokens

def codeTokens (text : String) : Parsed (List Token) := do
  filterRegions false none (← commandTokens text)

end LiterateMath
