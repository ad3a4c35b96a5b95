/-
This file models the handle of a request slot: a worker, a generation and an arena index, packed
into fifty-three bits so that a host language can hold it as a number.
-/

import ZeroServer.Rt.SlotWord

namespace ZeroServer.Rt

/-- The handle of one request slot. -/
structure SlotId where
  worker : Fin 128
  generation : Fin (2 ^ 30)
  index : Fin 65536
  deriving DecidableEq

namespace SlotId

/-- Packs a worker, a generation and an index into one id. -/
def new (worker generation index : Nat) : Option SlotId :=
  if fits : worker < 128 ∧ generation < 2 ^ 30 ∧ index < 65536 then
    some ⟨⟨worker, fits.1⟩, ⟨generation, fits.2.1⟩, ⟨index, fits.2.2⟩⟩
  else none

end SlotId

end ZeroServer.Rt
