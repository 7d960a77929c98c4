import LosslessCss.Lexer.Reader
import LosslessCss.Proofs.Fences

/-
  The loops of the reader.

  A loop returns if and only if finitely many of its passes
  lead to one that returns.  What it reads is compared to the
  lexeme of a scanner: it is that lexeme, if the stream is
  closed or if the lexeme is complete.

  Key definitions include:
    * `Lexer.Returns`
    * `Lexer.Advances`
    * `Lexer.beyond`
    * `Lexer.await`

  Key theorems include:
    * `Lexer.loop_eq_some_iff`
    * `Lexer.loop_beyond`
    * `Lexer.exists_returns_iff`
    * `Lexer.readRun_eq`
-/

------------------------------------------------------------
-- Loops That Return
------------------------------------------------------------

namespace LosslessCss

namespace Lexer

variable {α β : Type} {l rest : Lexer}
variable {items : List α} {result : β}
variable {pass : Lexer → Option (Pass α β)}

/- Finitely many passes lead to one that returns. -/
inductive Returns (pass : Lexer → Option (Pass α β)) :
    Lexer → (List α × β) × Lexer → Prop where
  | done {l rest : Lexer} {result : β}
      (hPass : pass l = some (.done result rest)) :
      Returns pass l (([], result), rest)
  | more {l rest last : Lexer} {result : β}
      {items others : List α}
      (hPass : pass l = some (.more items rest))
      (hReturns : Returns pass rest ((others, result), last)) :
      Returns pass l ((items ++ others, result), last)

/- The cursor is moved ahead, or it is left where it is. -/
def Follows (l rest : Lexer) : Prop :=
  rest = l ∨
    rest.stream.ahead.length < l.stream.ahead.length

/- No pass goes on from a place behind the cursor. -/
def Advances (pass : Lexer → Option (Pass α β)) : Prop :=
  ∀ l items rest,
    pass l = some (.more items rest) → l.Follows rest

theorem loop_done
    (hPass : pass l = some (.done result rest)) :
    l.loop pass = some (([], result), rest) := by
  rw [loop, hPass]

theorem loop_more
    (hPass : pass l = some (.more items rest))
    (hLess :
      rest.stream.ahead.length < l.stream.ahead.length) :
    l.loop pass =
      (rest.loop pass).map fun r =>
        ((items ++ r.1.1, r.1.2), r.2) := by
  rw [loop, hPass]
  exact if_pos hLess

theorem loop_again
    (hPass : pass l = some (.more items l)) :
    l.loop pass = none := by
  rw [loop, hPass]
  exact if_neg (Nat.lt_irrefl _)

theorem loop_never
    (hPass : pass l = none) :
    l.loop pass = none := by
  rw [loop, hPass]

/-
  A loop has a result if and only if finitely many passes
  lead to it.
-/
theorem loop_eq_some_iff
    (hAdvances : Advances pass)
    (l : Lexer)
    (r : (List α × β) × Lexer) :
    l.loop pass = some r ↔ Returns pass l r := by
  constructor
  · intro hLoop
    fun_induction loop pass l generalizing r with
    | case1 => cases hLoop
    | case2 l result rest hPass =>
        cases hLoop
        exact .done hPass
    | case3 l items rest hPass hLess ih =>
        rcases Option.map_eq_some_iff.mp hLoop with
          ⟨⟨⟨others, result⟩, last⟩, hTail, rfl⟩
        exact .more hPass (ih _ hTail)
    | case4 => cases hLoop
  · intro hReturns
    induction hReturns with
    | done hPass => exact loop_done hPass
    | more hPass _ ih =>
        rcases hAdvances _ _ _ hPass with rfl | hLess
        · -- A pass that stays leads to itself alone.
          rw [loop_again hPass] at ih
          cases ih
        · rw [loop_more hPass hLess, ih]
          rfl

end Lexer

end LosslessCss

------------------------------------------------------------
-- Moving the Cursor
------------------------------------------------------------

namespace LosslessCss

namespace Lexer

variable {α β : Type} {l : Lexer}
variable {c : Char} {cs : List Char}

/- The lexer behind some of the characters ahead of it. -/
def beyond
    (l : Lexer)
    (taken rest : List Char) : Lexer :=
  { stream := l.stream.pass taken rest
    origin := l.origin
    counter := l.counter.advanceOver taken
    counted := l.counted.advanceOver taken }

/-
  What reading a lexeme returns.  One that is not complete
  is waited for on an open stream.
-/
def await
    (l : Lexer)
    (lexeme : Lexeme α) : Option (α × Lexer) :=
  if l.stream.closed || lexeme.complete then
    some (lexeme.value, l.beyond lexeme.raw lexeme.rest)
  else
    none

@[simp]
theorem ahead_beyond
    (l : Lexer)
    (taken rest : List Char) :
    (l.beyond taken rest).stream.ahead = rest :=
  rfl

@[simp]
theorem closed_beyond
    (l : Lexer)
    (taken rest : List Char) :
    (l.beyond taken rest).stream.closed = l.stream.closed :=
  rfl

@[simp]
theorem beyond_beyond
    (l : Lexer)
    (taken middle others rest : List Char) :
    (l.beyond taken middle).beyond others rest =
      l.beyond (taken ++ others) rest := by
  simp [beyond, CharStream.pass, Location.advanceOver_append]

theorem beyond_nil
    (hAhead : l.stream.ahead = cs) :
    l.beyond [] cs = l := by
  subst hAhead
  rfl

theorem await_of_complete
    {lexeme : Lexeme α}
    (hComplete : lexeme.complete = true) :
    l.await lexeme =
      some (lexeme.value,
        l.beyond lexeme.raw lexeme.rest) := by
  rw [await, hComplete, Bool.or_true]
  rfl

theorem await_stop
    (value : α)
    (hAhead : l.stream.ahead = cs) :
    l.await (.stop value cs) = some (value, l) := by
  rw [await_of_complete rfl]
  exact congrArg (fun rest => some (value, rest))
    (beyond_nil hAhead)

theorem await_cutOff
    (value : α)
    (hAhead : l.stream.ahead = []) :
    l.await (.cutOff value) =
      if l.stream.closed then some (value, l) else none := by
  rw [await]
  change
    (if (l.stream.closed || false) = true then
      some (value, l.beyond [] [])
    else none) = _
  rw [Bool.or_false, beyond_nil hAhead]

theorem map_await
    (l : Lexer)
    (lexeme : Lexeme α)
    (f : α → β) :
    (l.await lexeme).map (Prod.map f id) =
      l.await (lexeme.map f) := by
  unfold await
  change
    Option.map _ _ =
      if (l.stream.closed || lexeme.complete) = true then
        some (f lexeme.value,
          l.beyond lexeme.raw lexeme.rest)
      else none
  split
  · rfl
  · rfl

theorem await_beyond
    (l : Lexer)
    (lexeme : Lexeme α)
    (taken rest : List Char) :
    (l.beyond taken rest).await lexeme =
      l.await (lexeme.extend taken) := by
  unfold await
  rw [beyond_beyond]
  rfl

theorem bind_await
    (l : Lexer)
    (lexeme : Lexeme α)
    (f : α → β) :
    ((l.await lexeme).bind fun r => pure (f r.1, r.2)) =
      l.await (lexeme.map f) := by
  rw [← map_await]
  cases l.await lexeme with
  | none => rfl
  | some r => rfl

/- Where a character is ahead, it is moved over. -/
theorem step_eq
    (hAhead : l.stream.ahead = c :: cs) :
    l.step = l.beyond [c] cs := by
  have hStream : l.stream.skip = l.stream.pass [c] cs := by
    rw [CharStream.skip, hAhead]
    rfl
  have hRead : l.stream.read = .char c := by
    rw [CharStream.read, hAhead]
  have hCounter :
      l.counter.past l.stream.read = l.counter.advance c := by
    rw [hRead]
    rfl
  exact Lexer.ext hStream rfl hCounter

/- At the end the cursor stays where it is. -/
theorem step_eq_self
    (hAhead : l.stream.ahead = []) :
    l.step = l := by
  have hRead : l.stream.read.char? = none := by
    rw [CharStream.read, hAhead]
    exact l.stream.char?_dry
  have hStream : l.stream.skip = l.stream := by
    rw [CharStream.skip, hAhead]
  have hCounter :
      l.counter.past l.stream.read = l.counter := by
    rw [Location.past, hRead]
    rfl
  exact Lexer.ext hStream rfl hCounter

theorem peek_zero
    (hAhead : l.stream.ahead = c :: cs) :
    l.peek 0 = .char c := by
  simp [peek, CharStream.peek, hAhead]

@[simp]
theorem peek_eq_char_iff
    {n : Nat} :
    l.peek n = .char c ↔ l.stream.ahead[n]? = some c := by
  rw [← char?_peek]
  cases l.peek n with
  | char d => simp [Reading.char?]
  | ended => simp [Reading.char?]
  | drained => simp [Reading.char?]

/- Past the end there is no character to look at. -/
theorem peek_of_none
    {n : Nat}
    (hAt : l.stream.ahead[n]? = none) :
    l.peek n = .ended ∨ l.peek n = .drained := by
  rw [← char?_peek] at hAt
  cases hPeek : l.peek n with
  | char c =>
      rw [hPeek] at hAt
      cases hAt
  | ended => exact .inl rfl
  | drained => exact .inr rfl

@[simp]
theorem isBlank_peek
    (l : Lexer)
    (n : Nat) :
    (l.peek n).isBlank =
      l.stream.ahead[n]?.any Text.isBlank := by
  rw [Reading.isBlank, char?_peek]

@[simp]
theorem isDigit_peek
    (l : Lexer)
    (n : Nat) :
    (l.peek n).isDigit =
      l.stream.ahead[n]?.any Char.isDigit := by
  rw [Reading.isDigit, char?_peek]

@[simp]
theorem toChar_peek
    (l : Lexer)
    (n : Nat) :
    (l.peek n).toChar =
      l.stream.ahead[n]?.getD '\x00' := by
  rw [Reading.toChar, char?_peek]

@[simp]
theorem finished_eq
    (l : Lexer) :
    l.finished =
      (l.stream.closed && l.stream.ahead.isEmpty) :=
  rfl

theorem preview_eq
    (l : Lexer)
    (place n : Nat) :
    l.preview place n =
      (l.stream.ahead.drop place).take n := by
  induction n generalizing place with
  | zero => simp [preview]
  | succ n ih =>
      rw [preview]
      cases hAt : l.stream.ahead[place]? with
      | none =>
          have hDrop : l.stream.ahead.drop place = [] :=
            List.drop_eq_nil_iff.mpr
              (List.getElem?_eq_none_iff.mp hAt)
          rw [hDrop, List.take_nil]
          rcases peek_of_none hAt with hPeek | hPeek
          · rw [hPeek]
          · rw [hPeek]
      | some c =>
          rw [peek_eq_char_iff.mpr hAt]
          rw [List.drop_eq_getElem?_toList_append, hAt]
          simp [ih]

theorem take_eq
    (l : Lexer)
    (n : Nat) :
    l.take n =
      (l.stream.ahead.take n,
        l.beyond (l.stream.ahead.take n)
          (l.stream.ahead.drop n)) := by
  induction n generalizing l with
  | zero => exact congrArg _ (beyond_nil rfl).symm
  | succ n ih =>
      rw [take]
      cases hAhead : l.stream.ahead with
      | nil =>
          have hAt : l.stream.ahead[0]? = none := by
            rw [hAhead]
            rfl
          rw [List.take_nil, List.drop_nil, beyond_nil hAhead,
            step_eq_self hAhead]
          rcases peek_of_none hAt with hPeek | hPeek
          · rw [hPeek]
          · rw [hPeek]
      | cons c cs =>
          rw [peek_zero hAhead, step_eq hAhead]
          simp [ih]

end Lexer

end LosslessCss

------------------------------------------------------------
-- Loops and Lexemes
------------------------------------------------------------

namespace LosslessCss

namespace Lexer

variable {α β γ : Type} {l : Lexer}
variable {taken rest : List Char} {items : List α}
variable {pass : Lexer → Option (Pass α β)}

theorem length_lt_of_append
    (hAhead : l.stream.ahead = taken ++ rest)
    (hSome : taken ≠ []) :
    (l.beyond taken rest).stream.ahead.length <
      l.stream.ahead.length := by
  have hPos := List.length_pos_iff.mpr hSome
  rw [hAhead, ahead_beyond, List.length_append]
  omega

theorem follows_beyond
    (hAhead : l.stream.ahead = taken ++ rest) :
    l.Follows (l.beyond taken rest) := by
  by_cases hSome : taken = []
  · subst hSome
    exact .inl (beyond_nil hAhead)
  · exact .inr (length_lt_of_append hAhead hSome)

theorem follows_step
    (l : Lexer) :
    l.Follows l.step := by
  cases hAhead : l.stream.ahead with
  | nil => exact .inl (step_eq_self hAhead)
  | cons c cs =>
      rw [step_eq hAhead]
      exact follows_beyond hAhead

/-
  A pass that moves over some characters puts them in front
  of what the loop reads from there on.
-/
theorem loop_beyond
    (f : List α × β → γ)
    (push : γ → γ)
    {lexeme : Lexeme γ}
    (hAhead : l.stream.ahead = taken ++ rest)
    (hSome : taken ≠ [])
    (hPass :
      pass l = some (.more items (l.beyond taken rest)))
    (hPush : ∀ r, f (items ++ r.1, r.2) = push (f r))
    (hTail :
      ((l.beyond taken rest).loop pass).map (Prod.map f id) =
        (l.beyond taken rest).await lexeme) :
    (l.loop pass).map (Prod.map f id) =
      l.await ((lexeme.map push).extend taken) := by
  rw [← await_beyond, ← map_await, ← hTail,
    loop_more hPass (length_lt_of_append hAhead hSome),
    Option.map_map, Option.map_map]
  congr 1
  funext r
  exact congrArg (fun value => (value, r.2)) (hPush r.1)

/-
  A loop that reads a lexeme ends if and only if the lexeme
  is not waited for.
-/
theorem exists_returns_iff
    {f : List α × β → γ}
    {lexeme : Lexeme γ}
    (hAdvances : Advances pass)
    (hLoop :
      (l.loop pass).map (Prod.map f id) = l.await lexeme) :
    (∃ r, Returns pass l r) ↔
      (l.stream.closed || lexeme.complete) = true := by
  have hSome :
      (l.loop pass).isSome = (l.await lexeme).isSome := by
    rw [← hLoop, Option.isSome_map]
  rw [await] at hSome
  constructor
  · rintro ⟨r, hReturns⟩
    rw [(loop_eq_some_iff hAdvances l r).mpr hReturns]
      at hSome
    by_contra hWaits
    rw [if_neg hWaits] at hSome
    cases hSome
  · intro hReady
    rw [if_pos hReady] at hSome
    rcases Option.isSome_iff_exists.mp hSome with ⟨r, hRead⟩
    exact ⟨r, (loop_eq_some_iff hAdvances l r).mp hRead⟩

/- The loop returns what its pass returns. -/
theorem loop_returns
    {f : List α × β → γ}
    {lexeme : Lexeme γ}
    {result : β}
    (hPass :
      pass l =
        some (.done result
          (l.beyond lexeme.raw lexeme.rest)))
    (hValue : f ([], result) = lexeme.value)
    (hComplete : lexeme.complete = true) :
    (l.loop pass).map (Prod.map f id) = l.await lexeme := by
  rw [loop_done hPass, await_of_complete hComplete, ← hValue]
  rfl

theorem readRun_eq
    (p : Char → Bool)
    (l : Lexer) :
    l.readRun p =
      some
        (l.stream.ahead.takeWhile p,
          l.beyond (l.stream.ahead.takeWhile p)
            (l.stream.ahead.dropWhile p)) := by
  suffices hAwait :
      l.readRun p =
        l.await
          ⟨l.stream.ahead.takeWhile p,
            l.stream.ahead.takeWhile p,
            l.stream.ahead.dropWhile p, true⟩ by
    rw [hAwait, await_of_complete rfl]
  generalize hAhead : l.stream.ahead = input
  induction input generalizing l with
  | nil =>
      have hPass :
          runPass p l = some (.done () (l.beyond [] [])) := by
        simp [runPass, hAhead, beyond_nil hAhead]
      exact loop_returns hPass rfl rfl
  | cons c cs ih =>
      by_cases hTest : p c = true
      · have hPass :
            runPass p l =
              some (.more [c] (l.beyond [c] cs)) := by
          simp [runPass, hAhead, hTest, step_eq hAhead]
        rw [List.takeWhile_cons_of_pos hTest,
          List.dropWhile_cons_of_pos hTest]
        exact
          loop_beyond Prod.fst (c :: ·) hAhead (by simp) hPass
            (fun _ => rfl) (ih _ rfl)
      · have hPass :
            runPass p l =
              some (.done () (l.beyond [] (c :: cs))) := by
          simp [runPass, hAhead, hTest, beyond_nil hAhead]
        rw [List.takeWhile_cons_of_neg hTest,
          List.dropWhile_cons_of_neg hTest]
        exact loop_returns hPass rfl rfl

theorem readBlanks_eq
    (l : Lexer) :
    l.readBlanks =
      some
        (l.beyond (l.stream.ahead.takeWhile Text.isBlank)
          (l.stream.ahead.dropWhile Text.isBlank)) := by
  rw [readBlanks, readRun_eq]
  rfl

end Lexer

end LosslessCss
