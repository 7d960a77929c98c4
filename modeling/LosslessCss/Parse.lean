import LosslessCss.Grammar.Document
import LosslessCss.Source.PulledText
import LosslessCss.Source.TokenList

/-
  Parsing of texts and of lists of tokens.

  Key definitions include:
    * `Parse.readText`
    * `Parse.readTokens`
    * `Parse.text`
    * `Parse.tokens`
-/

------------------------------------------------------------
-- Texts
------------------------------------------------------------

namespace LosslessCss

namespace Parse

/-
  Parse a text.  Its tokens are read while the parse goes
  on, and the first one is read before it starts.
-/
def readText
    (css : String)
    (settings : Settings) : Reply PulledText Node :=
  let source := PulledText.ofText css settings.location
  ((Session.ofSource source).parse settings.context).after
    (.startText settings.sourceName settings.context ::
      TokenSource.arrival source)

/- The tree of a text. -/
def text
    (css : String)
    (settings : Settings) : Except SyntaxError Node :=
  (readText css settings).outcome

end Parse

end LosslessCss

------------------------------------------------------------
-- Lists of Tokens
------------------------------------------------------------

namespace LosslessCss

namespace Parse

/- Parse tokens that have been read before. -/
def readTokens
    (tokens : List Token)
    (settings : Settings) : Reply TokenList Node :=
  let source := TokenList.ofTokens tokens
  ((Session.ofSource source).parse settings.context).after
    [ .startTokens tokens.length settings.sourceName
        settings.context ]

/- The tree of a list of tokens. -/
def tokens
    (list : List Token)
    (settings : Settings) : Except SyntaxError Node :=
  (readTokens list settings).outcome

end Parse

end LosslessCss
