import Yeast.Text.Basic

set_option autoImplicit false

/-! # Log records

What the program reports about its own work, beside its output. A level is heard if it is at
least as high as the threshold in force.
-/

namespace Yeast

/-- How much a log record matters. -/
inductive LogLevel where
  | debug
  | info
  | warning
  deriving DecidableEq

namespace LogLevel

def name : LogLevel → Text
  | debug => "DEBUG".toList
  | info => "INFO".toList
  | warning => "WARNING".toList

/-- Levels by increasing weight. -/
def weight : LogLevel → Nat
  | debug => 0
  | info => 1
  | warning => 2

end LogLevel

structure LogRecord where
  level : LogLevel
  message : Text
  deriving DecidableEq

namespace LogRecord

/-- The row that shows a record logged at the given time of day. -/
def row (time : Text) (r : LogRecord) : Text :=
  time ++ " [".toList ++ r.level.name ++ "] ".toList ++ r.message

end LogRecord

end Yeast
