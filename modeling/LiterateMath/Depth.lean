/-! How deep things may lie within each other. Whatever lies deeper is not read, not run or not
written. -/
namespace LiterateMath

def groupDepth : Nat := 990

def spelledDepth : Nat := 492

def subscriptDepth : Nat := 984

def valueDepth : Nat := 328

def depthLimit : Nat := 450

def textDepth : Nat := 490

end LiterateMath
