import Sm83.Machine.Execute
import Sm83.Memory.Code

/-!
# Steps

A step carries out the instruction at the program counter and moves the program counter on. It
does not ask whether the machine has halted.
-/

namespace Sm83.Machine

/-- Carries out one instruction and yields the new program counter. -/
def step : Action Word := do
  let s ← get
  let pc := s.registers.pc
  let i ← MonadExcept.ofExcept (s.memory.fetch pc)
  let target ← execute i
  let next := target.getD (pc + .ofNat 16 i.length)
  modify (·.setPc next)
  return next

end Sm83.Machine
