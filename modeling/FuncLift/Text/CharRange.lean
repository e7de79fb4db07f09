/-!
# Character ranges

A class of characters is a list of closed ranges of code points in increasing order.
-/
namespace FuncLift

abbrev CharRanges := List (Nat × Nat)

namespace CharRanges

/-- The search stops at the first range that starts behind the code point. -/
def covers : CharRanges → Nat → Bool
  | [], _ => false
  | (lo, hi) :: rest, n => decide (lo ≤ n) && (decide (n ≤ hi) || covers rest n)

end CharRanges

end FuncLift
