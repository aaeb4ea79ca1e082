/-!
# Programs

A program changes a state in place and may fail. It checks and writes step by step, and a
program that fails takes back nothing of what it has written until then. Whether there is
anything to take back is a matter of the order of the steps.
-/

namespace Stencil

/-- A program that changes a state and may fail. The state after a failure is the one that
the steps before it have left. -/
abbrev Program (ε σ α : Type) := ExceptT ε (StateM σ) α

namespace Program

variable {ε σ α : Type}

/-- What the program answers when it starts in a state, and the state after it. -/
def exec (p : Program ε σ α) (s : σ) : Except ε α × σ := StateT.run (ExceptT.run p) s

/-- Fails if the state as it is does not pass the check. -/
def check (c : σ → Except ε α) : Program ε σ α := do MonadExcept.ofExcept (c (← get))

def failIf (c : Bool) (e : ε) : Program ε σ Unit := if c then throw e else pure ()

end Program

end Stencil
