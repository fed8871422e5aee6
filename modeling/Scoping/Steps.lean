/-! How steps end. Code that reads and changes a state and may fail leaves a state in either case. -/

namespace Scoping

namespace Steps

variable {ε τ α : Type}

/-- What steps leave, whether they fail or not. -/
def left : EStateM.Result ε τ α → τ
  | .ok _ y | .error _ y => y

/-- Why steps fail, if they do. -/
def failure? : EStateM.Result ε τ α → Option ε
  | .ok _ _ => none
  | .error e _ => some e

end Steps

end Scoping
