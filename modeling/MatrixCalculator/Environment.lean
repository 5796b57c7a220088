import MatrixCalculator.Value.Basic

namespace MatrixCalculator

structure Environment where
  bindings : List (String × Value)

namespace Environment

def empty : Environment := ⟨[]⟩

def get? (env : Environment) (name : String) : Option Value :=
  (env.bindings.find? fun b => b.1 == name).map Prod.snd

/-- The value of a variable; the failure carries the line, if one is given. -/
def get (env : Environment) (name : String) (line : Option Nat) : Except Failure Value :=
  match env.get? name with
  | some v => .ok v
  | none => .error (.error ⟨.unbound name, line⟩)

def has (env : Environment) (name : String) : Bool := (env.get? name).isSome

def set (env : Environment) (name : String) (value : Value) : Environment :=
  if env.has name then
    ⟨env.bindings.map fun b => if b.1 == name then (name, value) else b⟩
  else ⟨env.bindings ++ [(name, value)]⟩

end Environment
end MatrixCalculator
