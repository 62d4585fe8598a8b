import LiterateMath.Fault
import LiterateMath.Statement

/-! Environments: what names mean at a point of a run. A name may mean a number, have a
declaration, and be defined as a function, each in a table of its own. -/
namespace LiterateMath

abbrev Table (α : Type) := List (Name × α)

namespace Table

variable {α : Type}

def find? (t : Table α) (name : Name) : Option α := List.lookup name t

def contains (t : Table α) (name : Name) : Bool := (t.find? name).isSome

def remove (t : Table α) (name : Name) : Table α := List.filter (fun entry => entry.1 != name) t

def insert (t : Table α) (name : Name) (value : α) : Table α := (name, value) :: t.remove name

def union (s t : Table α) : Table α :=
  s ++ List.filter (fun entry => !s.contains entry.1) t

end Table

abbrev Snapshot := Option FunctionDeclaration × FunctionDefinition

structure Environment where
  values : Table Number
  declarations : Table FunctionDeclaration
  definitions : Table FunctionDefinition
  deriving Repr

namespace Environment

def empty : Environment := ⟨[], [], []⟩

def lookupVariable (env : Environment) (name : Name) : Outcome Number :=
  match env.values.find? name with
  | some value => .ok value
  | none => .error (.missingVariable name)

def lookupFunction (env : Environment) (name : Name) : Outcome FunctionDefinition :=
  match env.definitions.find? name with
  | some d => .ok d
  | none => .error (.missingFunction name)

def namesFunction (env : Environment) (name : Name) : Bool :=
  env.definitions.contains name && !env.values.contains name

def snapshot (env : Environment) (name : Name) : Outcome Snapshot := do
  return (env.declarations.find? name, ← env.lookupFunction name)

def adopt (env : Environment) (name : Name) (s : Snapshot) : Environment :=
  { env with
    declarations := match s.1 with
      | some d => env.declarations.insert name d
      | none => env.declarations
    definitions := env.definitions.insert name s.2 }

def bindVariable (env : Environment) (name : Name) (value : Number) : Environment :=
  { env with values := env.values.insert name value }

def declare (env : Environment) (d : FunctionDeclaration) : Environment :=
  { env with declarations := env.declarations.insert d.name d }

def define (env : Environment) (d : FunctionDefinition) : Environment :=
  { env with definitions := env.definitions.insert d.name d }

end Environment

def FunctionDefinition.frame (d : FunctionDefinition) (known : Option FunctionDeclaration) :
    Environment :=
  (d.captures.foldl (fun env entry => env.adopt entry.1 entry.2) Environment.empty).adopt
    d.name (known, d)

end LiterateMath
