/-! Paths of files, with the names between slashes. -/
namespace LiterateMath.CommandLine

def pathNames (path : List Char) : List (List Char) :=
  (path.splitBy fun a b => a ≠ '/' && b ≠ '/').filter fun name =>
    name ≠ ['/'] && name ≠ ['.']

/-- The slashes that a path from the root begins with: two stay two, more count as one. -/
def pathRoot : List Char → List Char
  | ['/', '/'] => ['/', '/']
  | '/' :: '/' :: '/' :: _ => ['/']
  | '/' :: '/' :: _ => ['/', '/']
  | '/' :: _ => ['/']
  | _ => []

def pathText (root : List Char) (names : List (List Char)) : String :=
  String.ofList (root ++ ['/'].intercalate names)

def pathFrom (directory path : String) : String :=
  if path.toList.head? = some '/' then pathText (pathRoot path.toList) (pathNames path.toList)
  else
    pathText (pathRoot directory.toList)
      (pathNames directory.toList ++ pathNames path.toList)

end LiterateMath.CommandLine
