import LiterateMath.Condense

/-! The memory in which statements are carried out. It holds the environments in use, what has
been captured for the definition under way, and the lines shown. Whatever is written to it before
a fault stays written. -/
namespace LiterateMath

inductive Ref where
  | session
  | call (n : Nat)
  deriving DecidableEq, Repr

structure Memory where
  session : Environment
  calls : Array Environment
  captures : Captures
  shown : List String
  deriving Repr

namespace Memory

def start (env : Environment) : Memory := ⟨env, #[], [], []⟩

def environment (m : Memory) : Ref → Environment
  | .session => m.session
  | .call n => m.calls.getD n .empty

def change (m : Memory) (f : Environment → Environment) : Ref → Memory
  | .session => { m with session := f m.session }
  | .call n => { m with calls := m.calls.modify n f }

end Memory

abbrev Act (α : Type) := EStateM Fault Memory α

namespace Act

def ofOutcome {α : Type} : Outcome α → Act α
  | .ok a => pure a
  | .error fault => throw fault

instance : MonadLift Outcome Act := ⟨ofOutcome⟩

def look (ref : Ref) : Act Environment := return (← get).environment ref

def write (ref : Ref) (f : Environment → Environment) : Act Unit :=
  modify fun m => m.change f ref

def enter : Act Ref :=
  modifyGet fun m => (.call m.calls.size, { m with calls := m.calls.push .empty })

def leave : Act Unit := modify fun m => { m with calls := m.calls.pop }

def captured : Act Captures := return (← get).captures

def keepCaptures (captures : Captures) : Act Unit := modify fun m => { m with captures }

def print (line : String) : Act Unit := modify fun m => { m with shown := m.shown ++ [line] }

end Act
end LiterateMath
