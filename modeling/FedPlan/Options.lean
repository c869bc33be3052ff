/-!
# Planning options

Whether sub-plans are shared and whether intermediate results are checked. Both are on by default.
-/

namespace FedPlan

structure Options where
  share : Bool := true
  verify : Bool := true
deriving DecidableEq

end FedPlan
