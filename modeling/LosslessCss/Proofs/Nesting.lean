import LosslessCss.Proofs.Form
import LosslessCss.Proofs.TokenKinds

/-
  Spans, read with a stack.

  While a run is read, the stack holds the closers of the
  spans that are open, with the innermost one first.  A run
  can be cut into chunks exactly when it leaves no span open.
  The stack also tells which commas stand outside of all
  spans, and where the chunks of a run end.

  Key definitions include:
    * `Nesting.step`
    * `Nesting.after`
    * `Nesting.segments`
    * `Nesting.items`

  Key theorems include:
    * `Nesting.after_eq_nil_iff`
    * `Nesting.segments_span`
    * `Nesting.items_span`
-/

------------------------------------------------------------
-- The Stack
------------------------------------------------------------

namespace LosslessCss

open Grammar

namespace Nesting

/-
  The open spans after one more token.  Outside of all spans
  `opens` says what opens one.  Inside of one its closer
  comes first, and other closers are plain text.
-/
def step
    (opens : Token → Option Opener) :
    List Closer → Token → List Closer
| [], t =>
    match opens t with
    | none => []
    | some opener => [opener.closer]
| closer :: outer, t =>
    if closer.closes t then
      outer
    else
      match opens? t with
      | none => closer :: outer
      | some opener => opener.closer :: closer :: outer

/- The open spans after a run of tokens. -/
def after
    (opens : Token → Option Opener)
    (stack : List Closer)
    (ts : List Token) : List Closer :=
  ts.foldl (step opens) stack

/-
  A run, cut at the commas outside of all spans.  The commas
  are left out, and the first part continues what was read
  before the run.
-/
def segments
    (opens : Token → Option Opener) :
    List Closer → List Token → List (List Token)
| _, [] => [[]]
| stack, t :: ts =>
    if stack = [] ∧ t.kind = .comma then
      [] :: segments opens [] ts
    else
      (segments opens (step opens stack t) ts).modifyHead
        (t :: ·)

/-
  Put tokens in front of a list of items.  They are an item
  by themselves if no span is open after them.
-/
def prepend
    (stack : List Closer)
    (ts : List Token)
    (items : List (List Token)) : List (List Token) :=
  match stack with
  | [] => ts :: items
  | _ :: _ => items.modifyHead (ts ++ ·)

/-
  A run, cut into single tokens and whole spans.  Where a
  span is open, the first item is the rest of that span.
-/
def items
    (opens : Token → Option Opener) :
    List Closer → List Token → List (List Token)
| [], [] => []
| _ :: _, [] => [[]]
| stack, t :: ts =>
    prepend (step opens stack t) [t]
      (items opens (step opens stack t) ts)

end Nesting

end LosslessCss

------------------------------------------------------------
-- Single Steps
------------------------------------------------------------

namespace LosslessCss

open Grammar

namespace Nesting

variable {opens : Token → Option Opener} {t : Token}
  {opener : Opener} {closer : Closer} {outer : List Closer}

theorem step_nil_of_none
    (hOpens : opens t = none) :
    step opens [] t = [] := by
  rw [step, hOpens]

theorem step_nil_of_some
    (hOpens : opens t = some opener) :
    step opens [] t = [opener.closer] := by
  rw [step, hOpens]

theorem step_of_closes
    (hCloses : closer.closes t = true) :
    step opens (closer :: outer) t = outer := by
  rw [step, if_pos hCloses]

theorem step_of_plain
    (hCloses : closer.closes t = false)
    (hOpens : opens? t = none) :
    step opens (closer :: outer) t = closer :: outer := by
  rw [step, if_neg (by simp [hCloses]), hOpens]

/- An opening token is never a closer. -/
theorem step_of_opens?
    (hOpens : opens? t = some opener) :
    step opens (closer :: outer) t =
      opener.closer :: closer :: outer := by
  have hCloses := closes_of_opens? hOpens closer
  rw [step, if_neg (by simp [hCloses]), hOpens]

theorem after_cons
    {stack : List Closer}
    {ts : List Token} :
    after opens stack (t :: ts) =
      after opens (step opens stack t) ts :=
  rfl

theorem after_append
    {stack : List Closer}
    {ts us : List Token} :
    after opens stack (ts ++ us) =
      after opens (after opens stack ts) us :=
  List.foldl_append

theorem segments_of_not_comma
    {stack : List Closer}
    {ts : List Token}
    (hComma : ¬ (stack = [] ∧ t.kind = .comma)) :
    segments opens stack (t :: ts) =
      (segments opens (step opens stack t) ts).modifyHead
        (t :: ·) := by
  rw [segments, if_neg hComma]

theorem prepend_prepend
    {ts us : List Token}
    {its : List (List Token)} :
    prepend (closer :: outer) ts (prepend outer us its) =
      prepend outer (ts ++ us) its := by
  cases outer with
  | nil => rfl
  | cons other outer =>
      simp only [prepend, List.modifyHead_modifyHead]
      congr 1
      funext first
      exact (List.append_assoc ts us first).symm

end Nesting

end LosslessCss

------------------------------------------------------------
-- Whole Spans
------------------------------------------------------------

namespace LosslessCss

open Grammar

namespace Nesting

variable {opens : Token → Option Opener} {closer : Closer}
  {body : List Token}

/- The rest of a span takes its own closer off the stack. -/
theorem after_spanRest
    (hBody : Form.SpanRest closer body)
    (outer : List Closer) :
    after opens (closer :: outer) body = outer := by
  induction hBody generalizing outer with
  | close hCloses =>
      rw [after_cons, step_of_closes hCloses]
      rfl
  | plain hCloses hOpens _ ih =>
      rw [after_cons, step_of_plain hCloses hOpens]
      exact ih outer
  | @nested closer _ _ _ _ hOpens _ _ ihBody ihRest =>
      rw [after_cons, step_of_opens? hOpens, after_append,
        ihBody (closer :: outer)]
      exact ihRest outer

/- No comma inside of a span separates anything. -/
theorem segments_spanRest
    (hBody : Form.SpanRest closer body)
    (outer : List Closer)
    (rest : List Token) :
    segments opens (closer :: outer) (body ++ rest) =
      (segments opens outer rest).modifyHead
        (body ++ ·) := by
  induction hBody generalizing outer rest with
  | close hCloses =>
      rw [List.singleton_append,
        segments_of_not_comma (by simp),
        step_of_closes hCloses]
      rfl
  | plain hCloses hOpens _ ih =>
      rw [List.cons_append, segments_of_not_comma (by simp),
        step_of_plain hCloses hOpens, ih,
        List.modifyHead_modifyHead]
      rfl
  | @nested closer _ _ _ _ hOpens _ _ ihBody ihRest =>
      rw [List.cons_append, List.append_assoc,
        segments_of_not_comma (by simp),
        step_of_opens? hOpens, ihBody (closer :: outer),
        ihRest outer, List.modifyHead_modifyHead,
        List.modifyHead_modifyHead]
      congr 1
      funext first
      simp

/- The rest of a span stays in one item. -/
theorem items_spanRest
    (hBody : Form.SpanRest closer body)
    (outer : List Closer)
    (rest : List Token) :
    items opens (closer :: outer) (body ++ rest) =
      prepend outer body (items opens outer rest) := by
  induction hBody generalizing outer rest with
  | close hCloses =>
      rw [List.singleton_append, items,
        step_of_closes hCloses]
  | plain hCloses hOpens _ ih =>
      rw [List.cons_append, items,
        step_of_plain hCloses hOpens, ih, prepend_prepend]
      rfl
  | @nested closer _ _ _ _ hOpens _ _ ihBody ihRest =>
      rw [List.cons_append, List.append_assoc, items,
        step_of_opens? hOpens, ihBody (closer :: outer),
        ihRest outer, prepend_prepend, prepend_prepend]
      rfl

end Nesting

end LosslessCss

------------------------------------------------------------
-- Runs Without Open Spans
------------------------------------------------------------

namespace LosslessCss

open Grammar

namespace Nesting

variable {opens : Token → Option Opener} {t : Token}
  {opener : Opener} {body ts : List Token}

theorem segments_comma
    (hComma : t.kind = .comma) :
    segments opens [] (t :: ts) =
      [] :: segments opens [] ts := by
  rw [segments, if_pos ⟨rfl, hComma⟩]

theorem segments_token
    (hOpens : opens t = none)
    (hComma : t.kind ≠ .comma) :
    segments opens [] (t :: ts) =
      (segments opens [] ts).modifyHead (t :: ·) := by
  rw [segments_of_not_comma (by simp [hComma]),
    step_nil_of_none hOpens]

theorem segments_span
    (hOpens : opens t = some opener)
    (hComma : t.kind ≠ .comma)
    (hBody : Form.SpanRest opener.closer body) :
    segments opens [] (t :: (body ++ ts)) =
      (segments opens [] ts).modifyHead
        (t :: body ++ ·) := by
  rw [segments_of_not_comma (by simp [hComma]),
    step_nil_of_some hOpens, segments_spanRest hBody,
    List.modifyHead_modifyHead]
  rfl

theorem items_token
    (hOpens : opens t = none) :
    items opens [] (t :: ts) = [t] :: items opens [] ts := by
  rw [items, step_nil_of_none hOpens]
  rfl

theorem items_span
    (hOpens : opens t = some opener)
    (hBody : Form.SpanRest opener.closer body) :
    items opens [] (t :: (body ++ ts)) =
      (t :: body) :: items opens [] ts := by
  rw [items, step_nil_of_some hOpens, items_spanRest hBody,
    prepend_prepend]
  rfl

end Nesting

end LosslessCss

------------------------------------------------------------
-- Runs That Close Their Spans
------------------------------------------------------------

namespace LosslessCss

open Grammar

namespace Nesting

/-
  A run that closes the spans on the stack, one after the
  other, and goes on with chunks.
-/
def Unwinds
    (opens : Token → Option Opener) :
    List Closer → List Token → Prop
| [], ts =>
    ∃ chunks, Form.Chunks opens (fun _ => true) ts chunks
| closer :: outer, ts =>
    ∃ body rest, ts = body ++ rest ∧
      Form.SpanRest closer body ∧ Unwinds opens outer rest

/- The run still closes the spans with one more token. -/
theorem unwinds_cons
    {opens : Token → Option Opener}
    {stack : List Closer}
    {t : Token}
    {ts : List Token}
    (hRest : Unwinds opens (step opens stack t) ts) :
    Unwinds opens stack (t :: ts) := by
  cases stack with
  | nil =>
      cases hOpens : opens t with
      | none =>
          rw [step_nil_of_none hOpens] at hRest
          rcases hRest with ⟨chunks, hChunks⟩
          exact ⟨_, .token hOpens rfl hChunks⟩
      | some opener =>
          rw [step_nil_of_some hOpens] at hRest
          rcases hRest with
            ⟨body, rest, rfl, hBody, chunks, hChunks⟩
          exact ⟨_, .span hOpens rfl hBody hChunks⟩
  | cons closer outer =>
      cases hCloses : closer.closes t with
      | true =>
          rw [step_of_closes hCloses] at hRest
          exact ⟨[t], ts, rfl, .close hCloses, hRest⟩
      | false =>
          cases hOpens : opens? t with
          | none =>
              rw [step_of_plain hCloses hOpens] at hRest
              rcases hRest with
                ⟨body, rest, rfl, hBody, hOuter⟩
              exact
                ⟨t :: body, rest, rfl,
                  .plain hCloses hOpens hBody, hOuter⟩
          | some opener =>
              -- Two spans are closed in turn: the inner one
              -- and that which was open before the token.
              rw [step_of_opens? hOpens] at hRest
              rcases hRest with
                ⟨inner, _, rfl, hInner, body, rest, rfl,
                  hBody, hOuter⟩
              exact
                ⟨t :: (inner ++ body), rest, by simp,
                  .nested hOpens hInner hBody, hOuter⟩

theorem unwinds_of_after
    {opens : Token → Option Opener}
    {stack : List Closer}
    {ts : List Token}
    (hAfter : after opens stack ts = []) :
    Unwinds opens stack ts := by
  induction ts generalizing stack with
  | nil =>
      cases hAfter
      exact ⟨[], .nil⟩
  | cons t ts ih => exact unwinds_cons (ih hAfter)

theorem after_chunks
    {opens : Token → Option Opener}
    {p : Token → Bool}
    {ts : List Token}
    {chunks : List Chunk}
    (hChunks : Form.Chunks opens p ts chunks) :
    after opens [] ts = [] := by
  induction hChunks with
  | nil => rfl
  | token hOpens _ _ ih =>
      rw [after_cons, step_nil_of_none hOpens]
      exact ih
  | span hOpens _ hBody _ ih =>
      rw [after_cons, step_nil_of_some hOpens, after_append,
        after_spanRest hBody]
      exact ih

/- The items of a run are all its tokens. -/
theorem flatten_items
    {opens : Token → Option Opener}
    {p : Token → Bool}
    {ts : List Token}
    {chunks : List Chunk}
    (hChunks : Form.Chunks opens p ts chunks) :
    (items opens [] ts).flatten = ts := by
  induction hChunks with
  | nil => rfl
  | token hOpens _ _ ih =>
      rw [items_token hOpens, List.flatten_cons, ih]
      rfl
  | span hOpens _ hBody _ ih =>
      rw [items_span hOpens hBody, List.flatten_cons, ih]
      rfl

/- A run has chunks if it closes all spans that it opens. -/
theorem after_eq_nil_iff
    {opens : Token → Option Opener}
    {ts : List Token} :
    after opens [] ts = [] ↔
      ∃ chunks,
        Form.Chunks opens (fun _ => true) ts chunks := by
  constructor
  · exact unwinds_of_after
  · intro h
    rcases h with ⟨chunks, hChunks⟩
    exact after_chunks hChunks

end Nesting

end LosslessCss
