/-!
# Outcomes

How a run of one list came to an end.
-/

namespace DisplayList

/-- How a run of one list came to an end. -/
inductive Outcome where
  /-- Its END word was reached; `finished` tells whether a FINISH word came before. -/
  | ended (finished : Bool)
  | paused
  /-- It ran as far as it may, and nobody let it go on in time. -/
  | stalled
  deriving DecidableEq, Repr

namespace Outcome

/-- Whether the list ran to its END word. -/
def isEnded : Outcome → Bool
  | ended _ => true
  | _ => false

/-- The text of an outcome. -/
def text : Outcome → String
  | ended finished => s!"Ended \x7b finished: {finished} \x7d"
  | paused => "Paused"
  | stalled => "Stalled"

end Outcome

end DisplayList
