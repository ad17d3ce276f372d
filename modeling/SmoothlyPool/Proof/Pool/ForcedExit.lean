import SmoothlyPool.Proof.Pool.Kept
import SmoothlyPool.Proof.Pool.Removal

namespace SmoothlyPool

open Checked Pool Transition

namespace Books

end Books

variable {B : Type} {G : ReentrancyGuard}

variable [Bytes32 B] [DecidableEq B]

namespace Sample

end Sample

end SmoothlyPool
