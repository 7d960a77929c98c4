import LosslessCss.Proofs.Agreement
import LosslessCss.Proofs.LexedTokens

/-
  Sessions: several parses in a row over one source.

  A parse goes on where the one before it has stopped, also
  after an error.  It does not matter for the results where
  the tokens come from.

  Key definitions include:
    * `Parse.session`

  Key theorems include:
    * `Parse.session_eq_of_alike`
    * `Parse.session_sources`
-/

------------------------------------------------------------
-- Sessions
------------------------------------------------------------

namespace LosslessCss

namespace Parse

/-
  The results of parses that are run one after the other, in
  the given contexts, on the same source.
-/
def session
    {σ : Type}
    [TokenSource σ]
    (s : σ) : List Context → List (Except SyntaxError Node)
| [] => []
| context :: contexts =>
    let reply := (Session.ofSource s).parse context
    reply.outcome :: session reply.source contexts

/- Sources that are alike have the same sessions. -/
theorem session_eq_of_alike
    {σ τ : Type}
    [TokenSource σ]
    [TokenSource τ]
    {s : σ}
    {t : τ}
    (hAlike : TokenSource.Alike s t)
    (contexts : List Context) :
    session s contexts = session t contexts := by
  induction contexts generalizing s t with
  | nil => rfl
  | cons context contexts ih =>
      rcases Grammar.agree_document context hAlike with
        ⟨hOutcome, hSource⟩
      simp only [session, Session.parse_ofSource]
      rw [hOutcome, ih hSource]

end Parse

end LosslessCss

------------------------------------------------------------
-- Lexed Texts as Lists
------------------------------------------------------------

namespace LosslessCss

open TokenSource (upcoming ending)

namespace Token

/- The end mark after tokens without gaps between them. -/
theorem eofAfter_of_located
    {here : Location}
    {ts : List Token}
    (hLocated : Located here ts)
    (hEof : ∀ t ∈ ts, t.isEof = false) :
    eofAfter here ts =
      endOfInput (here.advanceBy (rawText ts)) := by
  induction ts generalizing here with
  | nil => simp [eofAfter, rawText, Location.advanceBy]
  | cons t ts ih =>
      rcases hLocated with ⟨rfl, hTail⟩
      have hHead := hEof t (by simp)
      have hRest :=
        ih hTail fun u hMem => hEof u (by simp [hMem])
      rw [eofAfter, if_neg (by simp [hHead]), hRest,
        rawText, Location.advanceBy_append, endLocation]

/- The fallback counts only when there is no token. -/
theorem eofAfter_congr
    {ts : List Token}
    (hTokens : ts ≠ [])
    (here there : Location) :
    eofAfter here ts = eofAfter there ts := by
  cases ts with
  | nil => exact absurd rfl hTokens
  | cons t ts => rfl

end Token

namespace PulledText

variable (css : String) (here : Location)

/- An end mark that is made is where the text ends. -/
theorem eofAfter_upcoming :
    Token.eofAfter here (upcoming (ofText css here)) =
      ending (ofText css here) := by
  rw [ending_ofText,
    Token.eofAfter_of_located (located_upcoming css here)
      fun t => TokenSource.isEof_of_mem_upcoming,
    rawText_upcoming]

end PulledText

end LosslessCss

------------------------------------------------------------
-- Sources of the Same Tokens
------------------------------------------------------------

namespace LosslessCss

open TokenSource (Alike upcoming ending)

variable (css : String) (here : Location)

/- Tokens can be read in advance. -/
theorem TokenList.alike_tokenize :
    Alike (ofTokens (Lexer.tokenize css here))
      (PulledText.ofText css here) := by
  have hTokens :
      ∀ t ∈ upcoming (PulledText.ofText css here),
        t.isEof = false :=
    fun t => TokenSource.isEof_of_mem_upcoming
  have hEnding :
      (ending (PulledText.ofText css here)).isEof =
        true := by
    rw [PulledText.ending_ofText, Token.isEof_endOfInput]
  constructor
  · rw [upcoming_ofTokens, PulledText.tokenize_eq,
      Token.untilEof_append_cons hTokens hEnding]
  · rw [ending_ofTokens, PulledText.tokenize_eq,
      Token.eofAfter_append_cons _ hTokens hEnding]

/-
  A list without its end mark gets it back, but a list of no
  tokens at all does not know where it starts.
-/
theorem TokenList.alike_dropLast
    (hStart : css ≠ "" ∨ here = Location.start) :
    Alike (ofTokens (Lexer.tokenize css here).dropLast)
      (PulledText.ofText css here) := by
  rw [PulledText.dropLast_tokenize]
  constructor
  · rw [upcoming_ofTokens, Token.untilEof_eq_self]
    exact fun t => TokenSource.isEof_of_mem_upcoming
  · rw [ending_ofTokens, ← PulledText.eofAfter_upcoming]
    rcases hStart with hText | rfl
    · apply Token.eofAfter_congr
      intro hNone
      apply hText
      rw [← PulledText.rawText_upcoming css here, hNone,
        Token.rawText]
    · rfl

theorem TokenSlice.alike_dropLast :
    Alike (ofTokens (Lexer.tokenize css here).dropLast here)
      (PulledText.ofText css here) := by
  rw [PulledText.dropLast_tokenize]
  constructor
  · rw [upcoming_ofTokens, Token.untilEof_eq_self]
    exact fun t => TokenSource.isEof_of_mem_upcoming
  · rw [ending_ofTokens, PulledText.eofAfter_upcoming]

/- A list and a slice of the same tokens are alike. -/
theorem TokenSlice.alike_tokenList
    (list : List Token) :
    Alike (ofTokens list Location.start)
      (TokenList.ofTokens list) := by
  constructor
  · rw [upcoming_ofTokens, TokenList.upcoming_ofTokens]
  · rw [ending_ofTokens, TokenList.ending_ofTokens]

theorem TokenList.alike_throughEof
    (list : List Token) :
    Alike (ofTokens (Token.throughEof list))
      (ofTokens list) := by
  constructor
  · rw [upcoming_ofTokens, upcoming_ofTokens,
      Token.untilEof_throughEof]
  · rw [ending_ofTokens, ending_ofTokens,
      Token.eofAfter_throughEof]

namespace Parse

/-
  All sources of the tokens of a text have the same
  sessions, and so have all sources of any list of tokens,
  wherever there are end marks in it.
-/
theorem session_sources :
    (∀ (css : String) (here : Location)
        (contexts : List Context),
      session (TokenList.ofTokens (Lexer.tokenize css here))
          contexts =
        session (PulledText.ofText css here) contexts ∧
      (css ≠ "" ∨ here = Location.start →
        session
            (TokenList.ofTokens
              (Lexer.tokenize css here).dropLast)
            contexts =
          session (PulledText.ofText css here) contexts) ∧
      session
          (TokenSlice.ofTokens
            (Lexer.tokenize css here).dropLast here)
          contexts =
        session (PulledText.ofText css here) contexts) ∧
    (∀ (list : List Token) (contexts : List Context),
      session (TokenSlice.ofTokens list Location.start)
          contexts =
        session (TokenList.ofTokens list) contexts ∧
      session (TokenList.ofTokens (Token.throughEof list))
          contexts =
        session (TokenList.ofTokens list) contexts) := by
  constructor
  · intro css here contexts
    refine ⟨?_, ?_, ?_⟩
    · exact session_eq_of_alike
        (TokenList.alike_tokenize css here) contexts
    · intro hStart
      exact session_eq_of_alike
        (TokenList.alike_dropLast css here hStart) contexts
    · exact session_eq_of_alike
        (TokenSlice.alike_dropLast css here) contexts
  · intro list contexts
    constructor
    · exact session_eq_of_alike
        (TokenSlice.alike_tokenList list) contexts
    · exact session_eq_of_alike
        (TokenList.alike_throughEof list) contexts

/-
  A failed parse that stops after the brace, and two more
  parses from there on that succeed.
-/
theorem session_sources_after_error :
    ("p\x7b r:s" ≠ "" ∨
      (⟨3, 7, 40⟩ : Location) = Location.start) ∧
    session
        (TokenList.ofTokens
          (Lexer.tokenize "p\x7b r:s" ⟨3, 7, 40⟩).dropLast)
        [.declaration, .declaration, .styleSheet] =
      session (PulledText.ofText "p\x7b r:s" ⟨3, 7, 40⟩)
        [.declaration, .declaration, .styleSheet] := by
  have hStart :
      "p\x7b r:s" ≠ "" ∨
        (⟨3, 7, 40⟩ : Location) = Location.start := by
    decide
  exact ⟨hStart, (session_sources.1 _ _ _).2.1 hStart⟩

end Parse

end LosslessCss
