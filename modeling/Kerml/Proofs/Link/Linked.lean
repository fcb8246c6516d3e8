import Kerml.Proofs.Link.Phases
import Kerml.Proofs.Reachable

/-! # What linking derives and reports -/
namespace Kerml.Model

variable {m : Model}

end Kerml.Model
