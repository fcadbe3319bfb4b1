/-!
# SharedLink.Scheduler.Log

What schedulers report while they work.
-/

namespace SharedLink

/-- How much a record matters. -/
inductive Level where
  | debug
  | warning
deriving DecidableEq, Repr

/-- The name of a level. -/
def Level.write : Level → String
  | debug => "DEBUG"
  | warning => "WARNING"

/-- One line of a log. -/
structure Record where
  level : Level
  text : String
deriving DecidableEq, Repr

end SharedLink
