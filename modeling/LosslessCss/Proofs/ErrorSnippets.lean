import LosslessCss.CommandLine.Snippet
import LosslessCss.Proofs.ErrorLocality

/-
  The snippet of an error points at the error.

  An error is located at the end of a front of its text.  A
  location counts lines, columns and bytes on its own, and a
  snippet cuts the text at its line feeds.  Both agree: the
  front consists of the lines before the error, and of so
  many characters of its line as the column says.  So the
  lines around the error are there, and the mark stands below
  the character after the front.

  Key theorems include:
    * `Text.splitLines_eq_splitOn`
    * `Text.exists_lines_append`
    * `Snippet.lines_of_source`
    * `Snippet.exists_above_pointer`
    * `Parse.exists_line_of_error`
    * `Parse.snippet_points_at_error`
-/

------------------------------------------------------------
-- Lines Up to a Place
------------------------------------------------------------

namespace LosslessCss

namespace Text

/- There is always a first line. -/
theorem exists_splitLines_eq_cons
    (cs : List Char) :
    ∃ line lines, splitLines cs = line :: lines := by
  induction cs with
  | nil => exact ⟨[], [], rfl⟩
  | cons c cs ih =>
      rcases ih with ⟨line, lines, hLines⟩
      rw [splitLines, hLines]
      split
      · exact ⟨[], line :: lines, rfl⟩
      · exact ⟨c :: line, lines, rfl⟩

/- The lines are what stands between the line feeds. -/
theorem splitLines_eq_splitOn
    (cs : List Char) :
    splitLines cs = cs.splitOn '\n' := by
  rw [List.splitOn_eq_splitOnP]
  induction cs with
  | nil => rfl
  | cons c cs ih =>
      rcases exists_splitLines_eq_cons cs with
        ⟨line, lines, hLines⟩
      rw [List.splitOnP_cons_eq_if_modifyHead, ← ih,
        splitLines, hLines]
      simp [consLine]

/- Without line feeds there is only the last line. -/
theorem lastLine_of_not_mem
    {cs : List Char}
    (hFeed : '\n' ∉ cs) :
    lastLine cs = cs := by
  have hAll :
      cs.reverse.takeWhile (fun c => c != '\n') =
        cs.reverse := by
    rw [List.takeWhile_eq_self_iff]
    intro c hMem
    have hOther : c ≠ '\n' := by
      rintro rfl
      exact hFeed (List.mem_reverse.mp hMem)
    simpa using hOther
  rw [lastLine, hAll, List.reverse_reverse]

/-
  A front of a text ends a line with each of its line feeds.
  Its last line goes on with what follows.
-/
theorem exists_splitLines_append
    (cs : List Char) :
    ∃ full : List (List Char),
      cs =
        full.flatMap (fun line => line ++ ['\n']) ++
          lastLine cs ∧
      full.length = cs.count '\n' ∧
      ∀ ds line lines,
        splitLines ds = line :: lines →
        splitLines (cs ++ ds) =
          full ++ (lastLine cs ++ line) :: lines := by
  induction cs using List.reverseRecOn with
  | nil => exact ⟨[], rfl, rfl, fun ds line lines h => h⟩
  | append_singleton cs c ih =>
      rcases ih with ⟨full, hText, hCount, hSplit⟩
      by_cases hFeed : c = '\n'
      · subst hFeed
        have hLast : lastLine (cs ++ ['\n']) = [] := by
          rw [lastLine_concat, if_pos rfl]
        refine ⟨full ++ [lastLine cs], ?_, ?_, ?_⟩
        · rw [hLast, List.flatMap_append,
            List.flatMap_singleton, List.append_nil,
            ← List.append_assoc, ← hText]
        · simp [hCount]
        · intro ds line lines hLines
          have hStep :
              splitLines ('\n' :: ds) =
                [] :: line :: lines := by
            rw [splitLines, if_pos rfl, hLines]
          have hFront := hSplit _ _ _ hStep
          rw [hLast, List.append_assoc]
          simpa using hFront
      · have hLast :
            lastLine (cs ++ [c]) = lastLine cs ++ [c] := by
          rw [lastLine_concat, if_neg hFeed]
        refine ⟨full, ?_, ?_, ?_⟩
        · rw [hLast, ← List.append_assoc, ← hText]
        · simp [hCount, hFeed]
        · intro ds line lines hLines
          have hStep :
              splitLines (c :: ds) =
                (c :: line) :: lines := by
            rw [splitLines, if_neg hFeed, hLines, consLine]
          have hFront := hSplit _ _ _ hStep
          rw [hLast, List.append_assoc]
          simpa using hFront

end Text

end LosslessCss

------------------------------------------------------------
-- Places in Lines
------------------------------------------------------------

namespace LosslessCss

/- The counters of a location, by the text in front of it. -/
theorem Location.advanceBy_start
    (text : String) :
    start.advanceBy text =
      ⟨text.toList.count '\n' + 1,
        (Text.lastLine text.toList).length + 1,
        text.utf8ByteSize⟩ := by
  have hLine := line_advanceOver start text.toList
  have hColumn :
      (start.advanceOver text.toList).column =
        1 + (Text.lastLine text.toList).length := by
    rw [column_advanceOver]
    split
    · rfl
    · rename_i hFeed
      rw [Text.lastLine_of_not_mem hFeed]
      rfl
  have hOffset := offset_advanceOver start text.toList
  rw [Text.byteLength_toList] at hOffset
  unfold advanceBy
  rw [Location.mk.injEq]
  refine ⟨hLine.trans ?_, hColumn.trans ?_, hOffset.trans ?_⟩
  · exact Nat.add_comm _ _
  · exact Nat.add_comm _ _
  · exact Nat.zero_add _

namespace Text

/-
  The place after a front of a text, by its lines.  Before
  it there are the full lines of the front and the start of
  one more line, and its three counters say how many lines,
  characters and bytes these are.
-/
theorem exists_lines_append
    (front back : String) :
    ∃ full last next more,
      lines (front ++ back) =
        full ++ (last ++ next) :: more ∧
      front =
        String.join (full.map fun line => line ++ "\n") ++
          last ∧
      Location.start.advanceBy front =
        ⟨full.length + 1, last.length + 1,
          front.utf8ByteSize⟩ := by
  rcases exists_splitLines_append front.toList with
    ⟨full, hText, hCount, hSplit⟩
  rcases exists_splitLines_eq_cons back.toList with
    ⟨next, more, hLines⟩
  refine
    ⟨full.map String.ofList,
      String.ofList (lastLine front.toList),
      String.ofList next, more.map String.ofList, ?_, ?_, ?_⟩
  · rw [lines, String.toList_append, hSplit _ _ _ hLines]
    simp
  · apply String.toList_inj.mp
    simpa [List.flatMap_map] using hText
  · rw [Location.advanceBy_start, List.length_map, hCount,
      String.length_ofList]

end Text

end LosslessCss

------------------------------------------------------------
-- Lines Around an Error
------------------------------------------------------------

namespace LosslessCss

namespace Snippet

variable {source : List String} {n : Nat} {line : String}

/- Lines that are looked up are a part of all the lines. -/
theorem filterMap_numbered
    (source : List String)
    (first count : Nat) :
    ((List.range' first count).filterMap fun i =>
        source[i]?.map (numbered i)) =
      ((source.mapIdx numbered).drop first).take count := by
  induction count with
  | zero => simp
  | succ count ih =>
      rw [List.range'_1_concat, List.filterMap_append, ih,
        List.take_add_one, List.getElem?_drop,
        List.getElem?_mapIdx]
      cases hLine : source[first + count]? with
      | none => rw [List.filterMap_cons, hLine]; rfl
      | some line => rw [List.filterMap_cons, hLine]; rfl

theorem linesAfter_eq
    (source : List String)
    (n : Nat) :
    linesAfter source n =
      ((source.mapIdx numbered).drop (n + 1)).take 5 :=
  filterMap_numbered source (n + 1) margin

/- The lines in front of one that is there are there. -/
theorem linesBefore_eq
    (hLength : n ≤ source.length) :
    linesBefore source n =
      ((source.mapIdx numbered).take n).drop (n - 5) := by
  rw [List.drop_take, ← filterMap_numbered, linesBefore,
    ← List.filterMap_eq_map]
  apply List.filterMap_congr
  intro i hMem
  have hRange := List.mem_range'_1.mp hMem
  have hIndex : i < source.length := by
    unfold margin at hRange
    omega
  simp [List.getElem?_eq_getElem hIndex]

/-
  The snippet of an error in a line of the source, unless it
  is too far to the right.
-/
theorem lines_of_source
    {css : String}
    {e : SyntaxError}
    {column : Nat}
    (hLine : (Text.lines css)[n]? = some line)
    (hPlace : e.location.line = n + 1)
    (hColumn : e.location.column = column + 1)
    (hShown : e.location.column ≤ 1001) :
    lines css e =
      ["", ""] ++
        (((Text.lines css).mapIdx numbered).take n).drop
          (n - 5) ++
        [numbered n line, pointer column] ++
        (((Text.lines css).mapIdx numbered).drop (n + 1)).take
          5 ++
        [e.message, ""] := by
  have hIndex : n < (Text.lines css).length :=
    (List.getElem?_eq_some_iff.mp hLine).1
  have hNear : ¬ lastColumn < column := by
    unfold lastColumn
    omega
  rw [lines, hPlace, hColumn]
  simp only [Nat.add_sub_cancel, if_neg hNear, hLine,
    linesBefore_eq (Nat.le_of_lt hIndex), linesAfter_eq,
    Option.getD_some]

/-
  The mark stands below the character that follows the start
  of a line, when there is room for the number of the line.
-/
theorem exists_above_pointer
    {last next : String}
    (hDigits : (toString (n + 1)).length ≤ 5) :
    ∃ left : List Char,
      (numbered n (last ++ next)).toList =
        left ++ next.toList ∧
      (pointer last.length).toList =
        List.replicate left.length '-' ++ ['^'] := by
  have hNumber :
      (padded numberWidth (toString (n + 1))).length = 5 := by
    rw [padded, String.length_append, String.length_ofList,
      List.length_replicate]
    exact Nat.add_sub_cancel' hDigits
  refine
    ⟨(padded numberWidth (toString (n + 1)) ++ "|" ++
      last).toList, ?_, ?_⟩
  · rw [numbered, ← String.append_assoc,
      String.toList_append]
  · rw [pointer, String.toList_ofList, String.length_toList,
      String.length_append, String.length_append, hNumber,
      numberWidth, Nat.add_right_comm]
    rfl

end Snippet

end LosslessCss

------------------------------------------------------------
-- Errors in Texts
------------------------------------------------------------

namespace LosslessCss

namespace Parse

/- An error stands directly after a front of its text. -/
theorem exists_front_of_error
    {css : String}
    {settings : Settings}
    {e : SyntaxError}
    (h : text css settings = .error e) :
    ∃ front back,
      css = front ++ back ∧
      e.location = settings.location.advanceBy front := by
  have hGapless :=
    PulledText.gapless_ofText css settings.location
  rcases Grammar.found_of_fails_document hGapless h with
    ⟨left, t, right, hShown, hPlace, _⟩
  rw [PulledText.shown_ofText] at hShown
  have hText :=
    PulledText.rawText_tokenize css settings.location
  have hLocated :=
    PulledText.located_tokenize css settings.location
  rw [hShown, Token.rawText_append] at hText
  rw [hShown] at hLocated
  exact
    ⟨Token.rawText left, Token.rawText (t :: right),
      hText.symm, hPlace.trans hLocated.location_of_append⟩

/- The counters of an error are those of its line. -/
theorem exists_line_of_error
    {css : String}
    {settings : Settings}
    {e : SyntaxError}
    (hStart : settings.location = Location.start)
    (h : text css settings = .error e) :
    ∃ front back full last next more,
      css = front ++ back ∧
      Text.lines css = full ++ (last ++ next) :: more ∧
      front =
        String.join (full.map fun line => line ++ "\n") ++
          last ∧
      e.location =
        ⟨full.length + 1, last.length + 1,
          front.utf8ByteSize⟩ := by
  rcases exists_front_of_error h with
    ⟨front, back, hText, hPlace⟩
  rcases Text.exists_lines_append front back with
    ⟨full, last, next, more, hLines, hFront, hCounters⟩
  rw [← hText] at hLines
  rw [hStart, hCounters] at hPlace
  exact
    ⟨front, back, full, last, next, more, hText, hLines,
      hFront, hPlace⟩

/-
  The counters of an error of a text agree with its lines, so
  that the snippet shows the lines around the error and marks
  its column.
-/
theorem snippet_points_at_error
    {css : String}
    {settings : Settings}
    {e : SyntaxError}
    (hStart : settings.location = Location.start)
    (h : text css settings = .error e) :
    (Text.lines css).map String.toList =
        css.toList.splitOn '\n' ∧
      1 ≤ e.location.line ∧
      e.location.line ≤ (Text.lines css).length ∧
      1 ≤ e.location.column ∧
      ∃ n column line front back,
        e.location.line = n + 1 ∧
        e.location.column = column + 1 ∧
        (Text.lines css)[n]? = some line ∧
        column ≤ line.length ∧
        css = front ++ back ∧
        front.utf8ByteSize = e.location.offset ∧
        front =
          String.join
              (((Text.lines css).take n).map fun before =>
                before ++ "\n") ++
            String.ofList (line.toList.take column) ∧
        (e.location.column ≤ 1001 →
          Snippet.lines css e =
            ["", ""] ++
              (((Text.lines css).mapIdx
                Snippet.numbered).take n).drop (n - 5) ++
              [Snippet.numbered n line,
                Snippet.pointer column] ++
              (((Text.lines css).mapIdx
                Snippet.numbered).drop (n + 1)).take 5 ++
              [e.message, ""]) ∧
        ((toString e.location.line).length ≤ 5 →
          ∃ left : List Char,
            (Snippet.numbered n line).toList =
              left ++ line.toList.drop column ∧
            (Snippet.pointer column).toList =
              List.replicate left.length '-' ++ ['^']) := by
  rcases exists_line_of_error hStart h with
    ⟨front, back, full, last, next, more, hText, hLines,
      hFront, hPlace⟩
  have hLineNumber : e.location.line = full.length + 1 := by
    rw [hPlace]
  have hColumn : e.location.column = last.length + 1 := by
    rw [hPlace]
  have hLine :
      (Text.lines css)[full.length]? =
        some (last ++ next) := by
    rw [hLines, List.getElem?_append_right (Nat.le_refl _),
      Nat.sub_self]
    rfl
  have hBefore : (Text.lines css).take full.length = full := by
    rw [hLines, List.take_left]
  have hSplit :
      (last ++ next).toList.take last.length = last.toList ∧
        (last ++ next).toList.drop last.length =
          next.toList := by
    rw [String.toList_append, ← String.length_toList]
    exact ⟨List.take_left, List.drop_left⟩
  have hIndex := (List.getElem?_eq_some_iff.mp hLine).1
  refine
    ⟨?_, ?_, ?_, ?_, full.length, last.length, last ++ next,
      front, back, hLineNumber, hColumn, hLine, ?_, hText, ?_,
      ?_, ?_, ?_⟩
  · rw [Text.lines, List.map_map,
      Text.splitLines_eq_splitOn]
    simp [Function.comp_def]
  · rw [hLineNumber]
    exact Nat.le_add_left 1 _
  · rw [hLineNumber]
    exact hIndex
  · rw [hColumn]
    exact Nat.le_add_left 1 _
  · rw [String.length_append]
    exact Nat.le_add_right _ _
  · rw [hPlace]
  · rw [hBefore, hSplit.1, String.ofList_toList]
    exact hFront
  · exact Snippet.lines_of_source hLine hLineNumber hColumn
  · intro hDigits
    rw [hLineNumber] at hDigits
    rw [hSplit.2]
    exact Snippet.exists_above_pointer hDigits

/-
  The at-rule that is not known stands in the second line,
  after a character of two bytes.
-/
theorem snippet_points_at_error_second_line :
    text "a\x7b\x7d\n/*é*/@foo;\n"
          ⟨.styleSheet, Location.start, none⟩ =
        .error
          ⟨.unexpectedAtRule, "unknown at-rule @foo",
            ⟨2, 6, 10⟩⟩ ∧
      Snippet.lines "a\x7b\x7d\n/*é*/@foo;\n"
          ⟨.unexpectedAtRule, "unknown at-rule @foo",
            ⟨2, 6, 10⟩⟩ =
        ["", "", "1    |a\x7b\x7d", "2    |/*é*/@foo;",
          "-----------^", "3    |",
          "unexpected at-rule: unknown at-rule @foo at 2:6",
          ""] ∧
      ∃ left : List Char,
        (Snippet.numbered 1 "/*é*/@foo;").toList =
          left ++ "@foo;".toList ∧
        (Snippet.pointer 5).toList =
          List.replicate left.length '-' ++ ['^'] := by
  have hParse :
      text "a\x7b\x7d\n/*é*/@foo;\n"
          ⟨.styleSheet, Location.start, none⟩ =
        .error
          ⟨.unexpectedAtRule, "unknown at-rule @foo",
            ⟨2, 6, 10⟩⟩ := by
    decide +kernel
  rcases snippet_points_at_error rfl hParse with
    ⟨_, _, _, _, n, column, line, _, _, hLineNumber,
      hColumn, hLine, _, _, _, _, hShown, hMark⟩
  obtain rfl : 1 = n := Nat.succ.inj hLineNumber
  obtain rfl : 5 = column := Nat.succ.inj hColumn
  obtain rfl : "/*é*/@foo;" = line := by
    rw [← Option.some.injEq, ← hLine]
    decide +kernel
  refine ⟨hParse, (hShown (by decide)).trans ?_, ?_⟩
  · decide +kernel
  · exact hMark (by decide +kernel)

end Parse

end LosslessCss
