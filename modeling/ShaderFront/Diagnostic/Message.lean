/-!
# Messages

Notes about a source that do not stop its processing, each with a level.
-/

namespace ShaderFront

/-- The level of a message. -/
inductive Level where
  | error
  | warn
  | info
deriving DecidableEq, Repr

/-- The name of a level. -/
def Level.text : Level → String
  | .error => "error"
  | .warn => "warn"
  | .info => "info"

/-- A note about a source. -/
structure Message where
  level : Level
  text : String
deriving DecidableEq, Repr

namespace Message

/-- A message about a fault. -/
def error (text : String) : Message := ⟨.error, text⟩

/-- A message about something suspicious. -/
def warn (text : String) : Message := ⟨.warn, text⟩

/-- A message for information. -/
def info (text : String) : Message := ⟨.info, text⟩

/-- The message as a line of a log. -/
def line (m : Message) : String := m.level.text ++ ": " ++ m.text

end Message

end ShaderFront
