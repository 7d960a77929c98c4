import LosslessCss.Text.Location

/-
  Settings of a parse: what the input is, where it starts
  and how it is called.

  Key definitions include:
    * `Context`
    * `Settings`
    * `Settings.sourceName`
-/

------------------------------------------------------------
-- Contexts
------------------------------------------------------------

namespace LosslessCss

/-
  What the input is parsed as: a whole style sheet, or a
  single item with formatting around it.
-/
inductive Context where
  | styleSheet
  | rule
  | atRule
  | declaration
deriving DecidableEq

namespace Context

/- The name of a context. -/
def name : Context → String
| .styleSheet => "Stylesheet"
| .rule => "Rule"
| .atRule => "AtRule"
| .declaration => "Declaration"

end Context

end LosslessCss

------------------------------------------------------------
-- Settings
------------------------------------------------------------

namespace LosslessCss

/- The settings of a parse. -/
structure Settings where
  context : Context
  location : Location
  source : Option String
deriving DecidableEq

namespace Settings

/- A nameless style sheet from its first character on. -/
def default : Settings :=
  ⟨.styleSheet, Location.start, none⟩

/- What the source is called in traces. -/
def sourceName (settings : Settings) : String :=
  settings.source.getD "<inline>"

end Settings

end LosslessCss
