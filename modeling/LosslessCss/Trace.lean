import LosslessCss.Settings
import LosslessCss.Token.Describe

/-
  Traces: what a parse did, step by step.

  A parse notes its start, each grammar routine that it
  enters, and each token that it reads from the text on the
  way.

  Key definitions include:
    * `Routine`
    * `Event`
    * `Event.message`
-/

------------------------------------------------------------
-- Routines of the Grammar
------------------------------------------------------------

namespace LosslessCss

/- The routines that leave a trace. -/
inductive Routine where
  | styleSheet
  | ruleList
  | single
  | singleRule
  | singleAtRule
  | singleDeclaration
  | ruleOrDeclaration
  | ambiguousSpan
  | ruleBlock
  | selectorList
  | declaration
  | atRule
  | charsetRule
  | importRule
  | namespaceRule
  | blockAtRule
  | fragment
  | bracketSpan
  | functionSpan
deriving DecidableEq

namespace Routine

/- The name of a routine in traces. -/
def name : Routine → String
| .styleSheet => "parse_stylesheet"
| .ruleList => "parse_rule_list"
| .single => "parse_single"
| .singleRule => "parse_single_rule"
| .singleAtRule => "parse_single_at_rule"
| .singleDeclaration => "parse_single_declaration"
| .ruleOrDeclaration => "parse_rule_or_declaration"
| .ambiguousSpan => "consume_ambiguous_span"
| .ruleBlock => "parse_rule_block"
| .selectorList => "parse_selector_list"
| .declaration => "parse_declaration"
| .atRule => "parse_at_rule"
| .charsetRule => "parse_at_rule_charset"
| .importRule => "parse_at_rule_import"
| .namespaceRule => "parse_at_rule_namespace"
| .blockAtRule => "parse_nested_at_rule"
| .fragment => "consume_fragment"
| .bracketSpan => "consume_bracket_span"
| .functionSpan => "consume_function_span"

end Routine

end LosslessCss

------------------------------------------------------------
-- Events
------------------------------------------------------------

namespace LosslessCss

/- A step of a parse. -/
inductive Event where
  | startText (source : String) (context : Context)
  | startTokens
      (count : Nat)
      (source : String)
      (context : Context)
  | enter (routine : Routine)
  | token (t : Token)
deriving DecidableEq

namespace Event

/- The line of an event, with its level in front. -/
def message : Event → String
| .startText source context =>
    "DEBUG parsing " ++ source ++ " as " ++ context.name
| .startTokens count source context =>
    "DEBUG parsing " ++ toString count ++
      " tokens from " ++ source ++ " as " ++ context.name
| .enter routine => "TRACE " ++ routine.name
| .token t => "TRACE " ++ t.describe

end Event

end LosslessCss
