/-
Two listeners, which cover what the library is used for. `Listener.strict` takes every
match and refuses the first fault, so its runs end with the matches found until
then. `ListenerPolicy` is the one to observe a walk with: it can refuse the
root, refuse a match once enough have been found, and refuse or pass over
faults.
-/
import PathGlob.Walk.Run

set_option autoImplicit false

namespace PathGlob

/-- Takes every match and refuses a fault as it came. -/
def Listener.strict : Listener
  | _, .failed path fault => some (.io path fault)
  | _, _ => none

/-- When to refuse what. -/
structure ListenerPolicy where
  /-- Refuse the root with this reason. -/
  refuseRoot : Option String
  /-- Refuse a match once this many have been found, the match included. -/
  stopAfter : Option Nat
  /-- Refuse faults, with their wording as the reason. -/
  refuseFaults : Bool

/-- The listener that follows a policy. -/
def ListenerPolicy.listener (policy : ListenerPolicy) : Listener
  | _, .root _ => policy.refuseRoot.map .refused
  | heard, .found _ =>
    let count := heard.countP (·.isFound) + 1
    match policy.stopAfter with
    | some limit =>
      if count ≥ limit then some (.refused ("stopped after " ++ toString count)) else none
    | none => none
  | _, .failed _ fault => if policy.refuseFaults then some (.refused fault.message) else none

end PathGlob
