import LosslessCss.Proofs.Following
import Mathlib.Logic.Function.Iterate

/-
  Sources that show the same tokens up to the end of the
  input drive every routine of the grammar alike.

  The sources may differ in what they do past the end.  No
  routine ever moves over an end mark, also when it fails,
  so two sources that were alike are alike again after it.
  This is the case of sources that follow each other where
  no place is moved.

  Key definitions include:
    * `TokenSource.Alike`
    * `Parser.Agree`

  Key theorems include:
    * `TokenSource.follows_id_iff`
    * `TokenSource.alike_of_current`
    * `Grammar.agree_document`
-/

------------------------------------------------------------
-- Nothing Is Moved
------------------------------------------------------------

namespace LosslessCss

@[simp] theorem Token.map_moved_id
    (ts : List Token) :
    ts.map (Token.moved id) = ts :=
  List.map_id ts

namespace Node

mutual

/- A tree whose places stay is the same. -/
theorem moved_id : (node : Node) → node.moved id = node
| .leaf _ _ _ => rfl
| .block _ children _ _ _ => by
    rw [moved, movedAll_id children]
    rfl

theorem movedAll_id :
    (nodes : List Node) → movedAll id nodes = nodes
| [] => rfl
| node :: nodes => by
    rw [movedAll, moved_id node, movedAll_id nodes]

end

end Node

namespace Parser

theorem movedOutcome_id
    (outcome : Except SyntaxError Node) :
    movedOutcome id (Node.moved id) outcome = outcome := by
  cases outcome with
  | error e => rfl
  | ok node => rw [movedOutcome, Node.moved_id]

end Parser

end LosslessCss

------------------------------------------------------------
-- Sources That Are Alike
------------------------------------------------------------

namespace LosslessCss

namespace TokenSource

variable {σ τ : Type} [TokenSource σ] [TokenSource τ]

/- Two sources with the same tokens and the same end mark. -/
def Alike
    (s : σ)
    (t : τ) : Prop :=
  upcoming s = upcoming t ∧ ending s = ending t

/- Sources are alike when they follow each other in place. -/
theorem follows_id_iff
    {s : σ}
    {t : τ} :
    Follows false id s t ↔ Alike s t := by
  constructor
  · intro hFollows
    rcases hFollows.shown with ⟨more, hShown, hMore⟩
    rw [hMore rfl, List.append_nil, Token.map_moved_id]
      at hShown
    exact ⟨hShown.symm, (hFollows.ended rfl).symm⟩
  · intro hAlike
    refine ⟨⟨[], ?_, fun _ => rfl⟩, ?_, ?_⟩
    · rw [List.append_nil, Token.map_moved_id, hAlike.1]
    · intro _
      exact hAlike.2.symm
    · intro t _
      rfl

/-
  Sources are alike when they show the same token after any
  number of moves.
-/
theorem alike_of_current
    {s : σ}
    {t : τ}
    (hCurrent :
      ∀ n, current (advance^[n] s) = current (advance^[n] t)) :
    Alike s t := by
  induction s using remaining_induction generalizing t with
  | step s ih =>
      have hFirst : current s = current t := hCurrent 0
      cases hEof : (current s).isEof with
      | true =>
          have hOther : (current t).isEof = true := by
            rw [← hFirst, hEof]
          constructor
          · rw [upcoming_of_isEof hEof,
              upcoming_of_isEof hOther]
          · rw [ending_of_isEof hEof,
              ending_of_isEof hOther, hFirst]
      | false =>
          have hOther : (current t).isEof = false := by
            rw [← hFirst, hEof]
          rcases ih _ (remaining_advance_lt s hEof)
              (fun n => hCurrent (n + 1)) with
            ⟨hShown, hEnding⟩
          constructor
          · rw [upcoming_of_not_isEof hEof,
              upcoming_of_not_isEof hOther, hFirst, hShown]
          · rw [ending_of_not_isEof hEof,
              ending_of_not_isEof hOther, hEnding]

end TokenSource

end LosslessCss

------------------------------------------------------------
-- Parsers That Agree
------------------------------------------------------------

namespace LosslessCss

open TokenSource (Alike)

namespace Parser

variable {σ τ : Type} [TokenSource σ] [TokenSource τ]
variable {α : Type}

/-
  Two parsers have the same outcome, be it a result or an
  error, and they leave sources that are alike.
-/
def Agree
    (p : Parser σ α)
    (q : Parser τ α)
    (s : σ)
    (t : τ) : Prop :=
  (p.run s).outcome = (q.run t).outcome ∧
    Alike (p.run s).source (q.run t).source

end Parser

namespace Grammar

variable {σ τ : Type} [TokenSource σ] [TokenSource τ]
variable {s : σ} {t : τ}

/- Sources that are alike are parsed alike. -/
theorem agree_document
    (context : Context)
    (hAlike : Alike s t) :
    Parser.Agree (document .full context : Parser σ _)
      (document .full context : Parser τ _) s t := by
  have hFollows := TokenSource.follows_id_iff.mpr hAlike
  rcases (follows_document context hFollows).2 with
    hEnd | ⟨hOutcome, hSource⟩
  · cases hEnd.1
  · rw [Parser.movedOutcome_id] at hOutcome
    exact
      ⟨hOutcome.symm, TokenSource.follows_id_iff.mp hSource⟩

end Grammar

end LosslessCss
