import LosslessCss.Parse
import LosslessCss.Proofs.DocumentRecognition
import LosslessCss.Proofs.LexedTokens

/-
  What has been parsed can be written back.

  The tree of a text or of a list of tokens has the form of
  its tokens, and what has a form is written as the tokens
  that it was made of.

  Key theorems include:
    * `Parse.text_styleSheet_iff`
    * `Parse.tokens_styleSheet_iff`
    * `Parse.form_of_text`
    * `Parse.render_text`
    * `Parse.render_tokens`
-/

------------------------------------------------------------
-- Texts and Their Trees
------------------------------------------------------------

namespace LosslessCss

namespace Parse

/- A text has a tree when the grammar yields it. -/
theorem text_eq_ok_iff
    {css : String}
    {settings : Settings}
    {root : Node} :
    text css settings = .ok root ↔
      ∃ s',
        (Grammar.document .full settings.context).Yields
          (PulledText.ofText css settings.location)
          root s' := by
  constructor
  · intro hParse
    exact ⟨_, Parser.yields_of_outcome hParse⟩
  · rintro ⟨s', hOutcome, _⟩
    exact hOutcome

/- The tree of a style sheet is a form of all its tokens. -/
theorem text_styleSheet_iff
    {css : String}
    {here : Location}
    {source : Option String}
    {root : Node} :
    text css ⟨.styleSheet, here, source⟩ = .ok root ↔
      ∃ block,
        Form.Items ""
          (TokenSource.upcoming (PulledText.ofText css here))
          [] block ∧
        root = block.toNode .styleSheet here "" := by
  rw [text_eq_ok_iff]
  constructor
  · rintro ⟨s', hYields⟩
    rcases Grammar.yields_styleSheet.mp hYields with
      ⟨block, _, hForm, hRoot⟩
    exact ⟨block, hForm, hRoot⟩
  · rintro ⟨block, hForm, hRoot⟩
    rcases TokenSource.exists_passes_upcoming
        (PulledText.ofText css here) with
      ⟨s', hPasses, _⟩
    exact
      ⟨s', Grammar.yields_styleSheet.mpr
        ⟨block, hPasses, hForm, hRoot⟩⟩

/-
  The tree of a text is a style sheet at the start location,
  and its block has the form of the tokens of the text.
-/
theorem form_of_text
    {css : String}
    {settings : Settings}
    {root : Node}
    (hParse : text css settings = .ok root) :
    ∃ block,
      Form.Whole
        (TokenSource.upcoming
          (PulledText.ofText css settings.location))
        block ∧
      root =
        block.toNode .styleSheet settings.location "" := by
  rcases text_eq_ok_iff.mp hParse with ⟨s', hYields⟩
  rcases Grammar.form_of_yields_document hYields with
    ⟨block, _, hWhole, hRoot⟩
  exact ⟨block, hWhole, hRoot⟩

/- What has the form of the tokens of a text is the text. -/
theorem render_eq_of_form
    {css : String}
    {here : Location}
    {block : Block}
    (hWhole :
      Form.Whole
        (TokenSource.upcoming (PulledText.ofText css here))
        block) :
    block.render = css := by
  rw [hWhole.render_eq
      (PulledText.spelled_of_mem_upcoming css here),
    PulledText.rawText_upcoming]

/- A tree that is found is the result. -/
theorem eq_ok_of_toOption
    {result : Except SyntaxError Node}
    {root : Node}
    (hSome : result.toOption = some root) :
    result = .ok root := by
  cases result with
  | error e => cases hSome
  | ok other =>
      exact congrArg Except.ok (Option.some.inj hSome)

end Parse

end LosslessCss

------------------------------------------------------------
-- The Round Trip
------------------------------------------------------------

namespace LosslessCss

namespace Parse

/-
  Whatever text is parsed, in any context and from any start
  location, its tree is written as that text.
-/
theorem render_text
    {css : String}
    {settings : Settings}
    {root : Node}
    (hParse : text css settings = .ok root) :
    root.render = css := by
  rcases form_of_text hParse with ⟨block, hWhole, rfl⟩
  have hBlock := render_eq_of_form hWhole
  simp [Opening.render, Opening.close, hBlock]

/- Formatting is kept in every place that it can be in. -/
theorem render_text_nested :
    ∃ root,
      text
          "@page \x7bp , q/**/\x7br :s!important ;\x7d\n\x7d-->"
          ⟨.styleSheet, ⟨3, 7, 40⟩, none⟩ =
        .ok root ∧
      root.render =
        "@page \x7bp , q/**/\x7br :s!important ;\x7d\n\x7d-->" := by
  rcases Option.isSome_iff_exists.mp
      (show (text
          "@page \x7bp , q/**/\x7br :s!important ;\x7d\n\x7d-->"
          ⟨.styleSheet, ⟨3, 7, 40⟩, none⟩).toOption.isSome
        by decide +kernel) with
    ⟨root, hSome⟩
  have hParse := eq_ok_of_toOption hSome
  exact ⟨root, hParse, render_text hParse⟩

end Parse

end LosslessCss

------------------------------------------------------------
-- Lists of Tokens
------------------------------------------------------------

namespace LosslessCss

open TokenSource (upcoming)

namespace Parse

/- A list of tokens has a tree when the grammar yields it. -/
theorem tokens_eq_ok_iff
    {list : List Token}
    {settings : Settings}
    {root : Node} :
    tokens list settings = .ok root ↔
      ∃ s',
        (Grammar.document .full settings.context).Yields
          (TokenList.ofTokens list) root s' := by
  constructor
  · intro hParse
    exact ⟨_, Parser.yields_of_outcome hParse⟩
  · rintro ⟨s', hOutcome, _⟩
    exact hOutcome

/-
  The tree of a list of tokens has the form of the tokens in
  front of the first end mark.
-/
theorem form_of_tokens
    {list : List Token}
    {settings : Settings}
    {root : Node}
    (hParse : tokens list settings = .ok root) :
    ∃ block here,
      Form.Whole (Token.untilEof list) block ∧
        root = block.toNode .styleSheet here "" := by
  rcases tokens_eq_ok_iff.mp hParse with ⟨s', hYields⟩
  rcases Grammar.form_of_yields_document hYields with
    ⟨block, _, hWhole, hRoot⟩
  rw [TokenList.upcoming_ofTokens] at hWhole
  exact ⟨block, _, hWhole, hRoot⟩

/- Tokens without an end mark are all a style sheet. -/
theorem tokens_styleSheet_iff
    {list : List Token}
    {here : Location}
    {source : Option String}
    {root : Node}
    (hEof : ∀ t ∈ list, t.isEof = false) :
    tokens list ⟨.styleSheet, here, source⟩ = .ok root ↔
      ∃ block,
        Form.Items "" list [] block ∧
        root =
          block.toNode .styleSheet
            (TokenSource.location (TokenList.ofTokens list))
            "" := by
  have hUpcoming : upcoming (TokenList.ofTokens list) = list := by
    rw [TokenList.upcoming_ofTokens,
      Token.untilEof_eq_self hEof]
  rw [tokens_eq_ok_iff]
  constructor
  · rintro ⟨s', hYields⟩
    rcases Grammar.yields_styleSheet.mp hYields with
      ⟨block, _, hForm, hRoot⟩
    rw [hUpcoming] at hForm
    exact ⟨block, hForm, hRoot⟩
  · rintro ⟨block, hForm, hRoot⟩
    rw [← hUpcoming] at hForm
    rcases TokenSource.exists_passes_upcoming
        (TokenList.ofTokens list) with
      ⟨s', hPasses, _⟩
    exact
      ⟨s', Grammar.yields_styleSheet.mpr
        ⟨block, hPasses, hForm, hRoot⟩⟩

/-
  Any list of tokens is written back, wherever the texts of
  the tokens come from, as long as its braces and colons are
  spelled the usual way.
-/
theorem render_tokens
    {list : List Token}
    {settings : Settings}
    {root : Node}
    (hSpelled : ∀ t ∈ list, t.Spelled)
    (hParse : tokens list settings = .ok root) :
    root.render =
      Token.rawText (Token.untilEof list) := by
  rcases form_of_tokens hParse with
    ⟨block, here, hWhole, rfl⟩
  have hShown :
      ∀ t ∈ Token.untilEof list, t.Spelled :=
    fun t hMem =>
      hSpelled t ((List.takeWhile_prefix _).subset hMem)
  rw [Block.render_toNode, hWhole.render_eq hShown]
  simp [Opening.render, Opening.close]

/-
  A selector without text, a comma and a semicolon with the
  texts of other tokens, and an end mark inside of the list.
-/
theorem render_tokens_misspelled :
    ∃ list root,
      (∀ t ∈ list, t.Spelled) ∧
      tokens list Settings.default = .ok root ∧
      root.render = " <\x7bp:q&\x7d" := by
  let mark (kind : TokenKind) (raw : String) : Token :=
    ⟨kind, raw, Location.start⟩
  let list : List Token :=
    [ mark .whitespace " ", mark (.hash "h") "",
      mark .comma "<", mark .leftCurly "\x7b",
      mark (.ident "r") "p", mark .colon ":",
      mark (.delim 's') "q", mark .semicolon "&",
      mark .rightCurly "\x7d", mark .eof "end",
      mark .rightParen "tail" ]
  have hSpelled : ∀ t ∈ list, t.Spelled := by
    simp [list, mark, Token.Spelled]
  rcases Option.isSome_iff_exists.mp
      (show (tokens list
          Settings.default).toOption.isSome
        by decide +kernel) with
    ⟨root, hSome⟩
  have hParse := eq_ok_of_toOption hSome
  exact
    ⟨list, root, hSpelled, hParse,
      (render_tokens hSpelled hParse).trans
        (by decide +kernel)⟩

end Parse

end LosslessCss
