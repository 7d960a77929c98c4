import LosslessCss.Proofs.Fences

/-
  Tokens do not see past a fence.

  Whatever kind the next token has, it stays the same when
  the text from a fence after it on is replaced.  A token
  that is cut off by the end of the text has no fence after
  it.

  Key theorems include:
    * `Quotation.scanBody_local`
    * `Url.scanAddress_local`
    * `Scan.comment_local`
    * `Scan.identLike_local`
    * `Scan.token_local`
-/

------------------------------------------------------------
-- Quotations
------------------------------------------------------------

namespace LosslessCss

open Text (Fence Fenced Stops Rejects)

namespace Quotation

variable {old new : List Char}

theorem startsFold_of_ne
    {c : Char}
    (hSlash : c ≠ '\\')
    (cs : List Char) :
    startsFold (c :: cs) = false := by
  simp [startsFold, hSlash]

/- A backslash before a character folds or escapes it. -/
theorem ne_slash
    {c : Char}
    {cs : List Char}
    (hSome : cs ≠ [])
    (hFold : ¬ startsFold (c :: cs) = true)
    (hEscape : ¬ Escape.startsEscape (c :: cs) = true) :
    c ≠ '\\' := by
  rintro rfl
  cases cs with
  | nil => exact hSome rfl
  | cons d cs =>
      by_cases hFeed : d = '\n'
      · subst hFeed
        exact hFold rfl
      · exact hEscape (by simpa [Escape.startsEscape])

theorem startsFold_of_startsEscape
    {input : List Char}
    (hEscape : Escape.startsEscape input = true) :
    startsFold input = false := by
  unfold startsFold
  split
  · simp [Escape.startsEscape] at hEscape
  · rfl

theorem eq_of_startsFold
    {input : List Char}
    (hFold : startsFold input = true) :
    ∃ rest, input = '\\' :: '\n' :: rest := by
  unfold startsFold at hFold
  split at hFold
  · rename_i rest
    exact ⟨rest, rfl⟩
  · cases hFold

/- A quotation that ends before a fence stays the same. -/
theorem scanBody_local
    (quote : Char)
    (hFence : Fence old new) :
    Lexeme.Local (scanBody quote) old new := by
  intro input kept hRest
  fun_induction scanBody quote input with
  | case1 =>
      exact absurd hRest (hFence.nil_ne_append kept)
  | case2 cs =>
      simp only [List.cons_append, List.nil_append]
      rw [scanBody, if_pos rfl]
      rfl
  | case3 cs hQuote =>
      have hKept : '\n' :: cs = kept ++ old := hRest
      cases kept with
      | nil =>
          rw [List.nil_append] at hKept
          cases hKept ▸ hFence.old_fenced
      | cons c kept =>
          rcases List.cons.inj hKept with ⟨rfl, -⟩
          simp only [Lexeme.stop, List.cons_append,
            List.nil_append]
          rw [scanBody, if_neg hQuote, if_pos rfl]
          rfl
  | case4 c cs hQuote hFeed hFold ih =>
      rcases eq_of_startsFold hFold with ⟨rest, hInput⟩
      cases hInput
      have hFolds :
          startsFold
            ('\\' :: '\n' ::
              ((scanBody quote rest).raw ++ (kept ++ new))) =
            true :=
        rfl
      have hTail := ih hRest
      simp only [Lexeme.extend, List.cons_append,
        List.take_succ_cons, List.take_zero,
        List.drop_succ_cons, List.drop_zero,
        List.nil_append] at hTail ⊢
      rw [scanBody, if_neg hQuote, if_neg hFeed,
        if_pos hFolds]
      simp only [List.drop_succ_cons, List.drop_zero, hTail]
      rfl
  | case5 c cs hQuote hFeed hFold hEscape escape tail ih =>
      have hScan :=
        Escape.scan_raw_append hFence
          (scanBody_splits quote escape.rest) hRest
      have hStarts :=
        Escape.startsEscape_raw hEscape
          (tail.raw ++ (kept ++ new))
      have hNoFold := startsFold_of_startsEscape hStarts
      simp only [Lexeme.extend, Lexeme.map, List.cons_append,
        List.append_assoc]
      rw [scanBody, if_neg hQuote, if_neg hFeed,
        if_neg (by simp [escape, hNoFold]), if_pos hStarts]
      simp only [escape, tail, hScan, Lexeme.withRest,
        Lexeme.extend, Lexeme.map, ih hRest,
        List.cons_append]
  | case6 c cs hQuote hFeed hFold hEscape ih =>
      have hInput := (scanBody_splits quote cs).eq_append hRest
      have hSome : cs ≠ [] := by
        rw [hInput]
        simp [hFence.ne_nil]
      -- The fence comes later, so a backslash would have
      -- something to escape.
      have hSlash := ne_slash hSome hFold hEscape
      simp only [Lexeme.extend, Lexeme.map, List.cons_append,
        List.nil_append]
      rw [scanBody, if_neg hQuote, if_neg hFeed,
        if_neg (by simp [startsFold_of_ne hSlash]),
        if_neg (by simp [Escape.startsEscape_of_ne hSlash]),
        ih hRest]
      rfl

theorem scan_local
    (quote : Char)
    (hFence : Fence old new) :
    Lexeme.LocalAfter quote (scan quote) old new := by
  intro input kept _ hRest
  have hInput :=
    (scanBody_splits quote input).eq_append hRest
  refine
    ⟨(scanBody quote input).raw, rfl, ?_, trivial, ?_⟩
  · rw [← List.append_assoc]
    exact hInput
  · rw [scan, scanBody_local quote hFence hRest]
    rfl

end Quotation

end LosslessCss

------------------------------------------------------------
-- Addresses
------------------------------------------------------------

namespace LosslessCss

open Text (Fence Fenced Stops Rejects)

namespace Url

variable {old new : List Char}

theorem scanRemnants_local
    (hFence : Fence old new) :
    Lexeme.Local scanRemnants old new := by
  intro input kept hRest
  fun_induction scanRemnants input with
  | case1 =>
      exact absurd hRest (hFence.nil_ne_append kept)
  | case2 cs =>
      simp only [List.cons_append, List.nil_append]
      rw [scanRemnants, if_pos rfl]
      rfl
  | case3 c cs hParen hEscape escape ih =>
      have hScan :=
        Escape.scan_raw_append hFence
          (scanRemnants_splits escape.rest) hRest
      have hStarts :=
        Escape.startsEscape_raw hEscape
          ((scanRemnants escape.rest).raw ++ (kept ++ new))
      simp only [Lexeme.extend, List.cons_append,
        List.append_assoc]
      rw [scanRemnants, if_neg hParen, if_pos hStarts]
      simp only [escape, hScan, Lexeme.withRest,
        Lexeme.extend, ih hRest, List.cons_append]
  | case4 c cs hParen hEscape ih =>
      have hStarts :=
        Escape.startsEscape_raw_append hFence
          (scanRemnants_splits cs) hRest
          (by simpa using hEscape)
      simp only [Lexeme.extend, List.cons_append,
        List.nil_append]
      rw [scanRemnants, if_neg hParen,
        if_neg (by simp [hStarts]), ih hRest]
      rfl

theorem raw_scanRemnants_ne_nil
    (c : Char)
    (cs : List Char) :
    (scanRemnants (c :: cs)).raw ≠ [] := by
  rw [scanRemnants]
  split
  · simp
  · split
    · simp [Lexeme.extend]
    · simp [Lexeme.extend]

theorem scanEnd_local
    (hFence : Fence old new) :
    Lexeme.Local scanEnd old new := by
  intro input kept hRest
  cases input with
  | nil =>
      exact absurd hRest (hFence.nil_ne_append kept)
  | cons c cs =>
      rw [scanEnd] at hRest ⊢
      by_cases hParen : c = ')'
      · rw [if_pos hParen] at hRest ⊢
        simp only [List.cons_append, List.nil_append]
        rw [scanEnd, if_pos hParen]
        rfl
      · rw [if_neg hParen] at hRest ⊢
        have hScan := scanRemnants_local hFence hRest
        rcases (scanRemnants_splits (c :: cs)).exists_cons
          (raw_scanRemnants_ne_nil c cs) with
          ⟨taken, hTaken, -⟩
        rw [hTaken, List.cons_append] at hScan ⊢
        rw [scanEnd, if_neg hParen]
        exact hScan

theorem scanAddress_local
    (hFence : Fence old new) :
    Lexeme.Local scanAddress old new := by
  intro input kept hRest
  fun_induction scanAddress input with
  | case1 =>
      exact absurd hRest (hFence.nil_ne_append kept)
  | case2 cs =>
      simp only [List.cons_append, List.nil_append]
      rw [scanAddress, if_pos rfl]
      rfl
  | case3 c cs hParen hBlank =>
      let tail := (c :: cs).dropWhile Text.isBlank
      have hScan := scanEnd_local hFence hRest
      -- The run of blanks ends where it ended, because a
      -- fence is no blank.
      have hStops :=
        (scanEnd_splits tail).stops_append hFence hRest
          (by decide) (Text.stops_dropWhile _ _)
      have hTake := Text.takeWhile_run hStops (c :: cs)
      have hDrop := Text.dropWhile_run hStops (c :: cs)
      have hTaken :
          (c :: cs).takeWhile Text.isBlank =
            c :: cs.takeWhile Text.isBlank :=
        List.takeWhile_cons_of_pos hBlank
      simp only [Lexeme.extend, List.append_assoc]
      rw [hTaken, List.cons_append] at hTake hDrop ⊢
      rw [scanAddress, if_neg hParen, if_pos hBlank, hTake,
        hDrop, hScan]
      rfl
  | case4 c cs hParen hBlank hSpoils =>
      have hScan := scanRemnants_local hFence hRest
      rcases (scanRemnants_splits (c :: cs)).exists_cons
        (raw_scanRemnants_ne_nil c cs) with
        ⟨taken, hTaken, -⟩
      rw [hTaken, List.cons_append] at hScan ⊢
      rw [scanAddress, if_neg hParen, if_neg hBlank,
        if_pos hSpoils]
      exact hScan
  | case5 c cs hParen hBlank hSpoils hEscape escape tail ih =>
      have hScan :=
        Escape.scan_raw_append hFence
          (scanAddress_splits escape.rest) hRest
      have hStarts :=
        Escape.startsEscape_raw hEscape
          (tail.raw ++ (kept ++ new))
      simp only [Lexeme.extend, Lexeme.map, List.cons_append,
        List.append_assoc]
      rw [scanAddress, if_neg hParen, if_neg hBlank,
        if_neg hSpoils, if_pos hStarts]
      simp only [escape, tail, hScan, Lexeme.withRest,
        Lexeme.extend, Lexeme.map, ih hRest,
        List.cons_append]
  | case6 cs hParen hBlank hSpoils hEscape =>
      have hScan := scanRemnants_local hFence hRest
      rcases (scanRemnants_splits ('\\' :: cs)).exists_cons
        (raw_scanRemnants_ne_nil '\\' cs) with
        ⟨taken, hTaken, hCs⟩
      have hOld :
          Escape.startsEscape
            (('\\' :: (taken ++ kept)) ++ old) = false := by
        rw [hRest] at hCs
        simpa [hCs] using hEscape
      have hStarts :
          Escape.startsEscape
            ('\\' :: (taken ++ (kept ++ new))) = false := by
        simpa using
          Escape.startsEscape_eq_false hFence hOld
      rw [hTaken, List.cons_append] at hScan ⊢
      rw [scanAddress, if_neg hParen, if_neg hBlank,
        if_neg hSpoils, if_neg (by simp [hStarts]),
        if_pos rfl]
      exact hScan
  | case7 c cs hParen hBlank hSpoils hEscape hSlash ih =>
      simp only [Lexeme.extend, Lexeme.map, List.cons_append,
        List.nil_append]
      rw [scanAddress, if_neg hParen, if_neg hBlank,
        if_neg hSpoils,
        if_neg (by simp [Escape.startsEscape_of_ne hSlash]),
        if_neg hSlash, ih hRest]
      rfl

theorem scan_local
    (hFence : Fence old new) :
    Lexeme.Local scan old new := by
  intro input kept hRest
  let tail := input.dropWhile Text.isBlank
  have hScan : scanAddress
      ((scanAddress tail).raw ++ (kept ++ new)) =
        (scanAddress tail).withRest (kept ++ new) :=
    scanAddress_local hFence hRest
  have hStops :=
    (scanAddress_splits tail).stops_append hFence hRest
      (by decide) (Text.stops_dropWhile _ _)
  have hRaw :
      (scan input).raw =
        input.takeWhile Text.isBlank ++
          (scanAddress tail).raw :=
    rfl
  rw [hRaw, List.append_assoc, scan,
    Text.takeWhile_run hStops, Text.dropWhile_run hStops,
    hScan]
  rfl

end Url

end LosslessCss

------------------------------------------------------------
-- Comments
------------------------------------------------------------

namespace LosslessCss

open Text (Fence Fenced Stops Rejects)

namespace Scan

theorem raw_comment_ne_nil
    {input : List Char}
    (hSome : input ≠ []) :
    (comment input).raw ≠ [] := by
  fun_cases comment input with
  | case1 => exact absurd rfl hSome
  | case2 => simp
  | case3 => simp [Lexeme.extend]

/-
  A comment with a closing mark does not see what follows
  it, whatever that is.
-/
theorem comment_local
    {old : List Char}
    (hOld : old ≠ [])
    (new : List Char) :
    Lexeme.Local comment old new := by
  intro input kept hRest
  fun_induction comment input with
  | case1 =>
      exact absurd (List.append_eq_nil_iff.mp hRest.symm).2
        hOld
  | case2 cs => rfl
  | case3 c cs hOpen ih =>
      have hInput := (comment_splits cs).eq_append hRest
      have hSome : cs ≠ [] := by
        rw [hInput]
        simp [hOld]
      cases cs with
      | nil => exact absurd rfl hSome
      | cons d cs =>
          rcases (comment_splits (d :: cs)).exists_cons
            (raw_comment_ne_nil hSome) with ⟨taken, hTaken, -⟩
          have hTail := ih hRest
          simp only [Lexeme.extend, Lexeme.map,
            List.cons_append, List.nil_append]
          rw [hTaken, List.cons_append] at hTail ⊢
          rw [comment, hTail]
          · simp [Lexeme.extend, Lexeme.map, Lexeme.withRest,
              hTaken]
          · intro rest hStar hSlash
            rcases List.cons.inj hSlash with ⟨rfl, -⟩
            exact hOpen cs hStar rfl

end Scan

end LosslessCss

------------------------------------------------------------
-- Names with Arguments
------------------------------------------------------------

namespace LosslessCss

open Text (Fence Fenced Stops Rejects)

namespace Scan

variable {old new kept tail : List Char}

theorem quoteFollows_append
    (hTail : Fenced tail)
    (cs : List Char) :
    quoteFollows (cs ++ tail) = quoteFollows cs := by
  have hBlank : Rejects Text.isBlank := by decide
  unfold quoteFollows
  rw [Text.dropWhile_append_stops (hTail.stops hBlank)]
  cases cs.dropWhile Text.isBlank with
  | nil => cases hTail <;> rfl
  | cons c cs => rfl

theorem identLike_of_stops
    {input : List Char}
    (hStops : Stops (· == '(') (Name.scan input).rest) :
    identLike input =
      ⟨.ident (String.ofList (Name.scan input).value),
        (Name.scan input).raw, (Name.scan input).rest,
        true⟩ := by
  unfold identLike
  simp only
  split
  · rename_i rest hRest
    rw [hRest] at hStops
    simp [Stops] at hStops
  · rfl

/- Whether a name and its argument make an address. -/
def opensUrl
    (name : List Char)
    (rest : List Char) : Bool :=
  Text.sameLetters (String.ofList name) "url" &&
    !quoteFollows rest

theorem opensUrl_eq
    (hFence : Fence old new)
    (name kept : List Char) :
    opensUrl name (kept ++ new) =
      opensUrl name (kept ++ old) := by
  rw [opensUrl, opensUrl,
    quoteFollows_append hFence.new_fenced,
    quoteFollows_append hFence.old_fenced]

theorem identLike_of_url
    {input rest : List Char}
    (hRest : (Name.scan input).rest = '(' :: rest)
    (hUrl : opensUrl (Name.scan input).value rest = true) :
    identLike input =
      (Url.scan rest).extend
        ((Name.scan input).raw ++ ['(']) := by
  unfold identLike
  simp only [hRest]
  exact if_pos hUrl

theorem identLike_of_function
    {input rest : List Char}
    (hRest : (Name.scan input).rest = '(' :: rest)
    (hUrl : opensUrl (Name.scan input).value rest = false) :
    identLike input =
      ⟨.function (String.ofList (Name.scan input).value),
        (Name.scan input).raw ++ ['('], rest, true⟩ := by
  unfold identLike
  simp only [hRest]
  exact if_neg (Bool.eq_false_iff.mp hUrl)

/- The token starts with its name. -/
theorem startsName_raw_identLike
    {input : List Char}
    (hStarts : Name.startsName input = true)
    (tail : List Char) :
    Name.startsName ((identLike input).raw ++ tail) =
      true := by
  have hName := Name.startsName_raw hStarts
  unfold identLike
  simp only
  split
  · split
    · simp only [Lexeme.extend, List.append_assoc]
      exact hName _
    · rw [List.append_assoc]
      exact hName _
  · exact hName _

theorem identLike_local
    (hFence : Fence old new) :
    Lexeme.Local identLike old new := by
  intro input kept hRest
  rcases Text.stops_or_eq_cons '(' (Name.scan input).rest with
    hStops | ⟨rest, hParen⟩
  · rw [identLike_of_stops hStops] at hRest ⊢
    have hAfter : (Name.scan input).rest = kept ++ old :=
      hRest
    have hName := Name.scan_local hFence hAfter
    rw [hAfter] at hStops
    have hEnds := hFence.stops (by decide) hStops
    rw [identLike_of_stops (by rw [hName]; exact hEnds),
      hName]
    rfl
  cases hUrl : opensUrl (Name.scan input).value rest with
  | true =>
      rw [identLike_of_url hParen hUrl] at hRest ⊢
      have hScan := Url.scan_local hFence hRest
      have hInput := (Url.scan_splits rest).eq_append hRest
      have hAfter :
          (Name.scan input).rest =
            ('(' :: ((Url.scan rest).raw ++ kept)) ++
              old := by
        rw [hParen, List.cons_append, ← hInput]
      have hName := Name.scan_local hFence hAfter
      have hNew := congrArg Lexeme.rest hName
      rw [hInput, ← opensUrl_eq hFence] at hUrl
      simp only [Lexeme.extend, List.append_assoc,
        List.cons_append, List.nil_append, Lexeme.withRest]
        at hName hNew hUrl ⊢
      rw [identLike_of_url hNew (by rw [hName]; exact hUrl),
        hName, hScan]
      simp [Lexeme.extend, Lexeme.withRest]
  | false =>
      rw [identLike_of_function hParen hUrl] at hRest ⊢
      have hAfter :
          (Name.scan input).rest = ('(' :: kept) ++ old := by
        rw [hParen, List.cons_append, ← hRest]
      have hName := Name.scan_local hFence hAfter
      have hNew := congrArg Lexeme.rest hName
      rw [show rest = kept ++ old from hRest,
        ← opensUrl_eq hFence] at hUrl
      simp only [List.append_assoc, List.cons_append,
        List.nil_append, Lexeme.withRest] at hName hNew ⊢
      rw [identLike_of_function hNew
        (by rw [hName]; exact hUrl), hName]

end Scan

end LosslessCss

------------------------------------------------------------
-- Tokens
------------------------------------------------------------

namespace LosslessCss

open Text (Fence Fenced Stops Rejects)

namespace Scan

variable {old new : List Char}

theorem single_local
    (kind : TokenKind)
    (c : Char) :
    Lexeme.LocalAfter c (single kind c) old new := by
  intro input kept _ hRest
  exact ⟨[], rfl, hRest, trivial, rfl⟩

/- A name after a mark. -/
theorem name_localWhere
    {test : List Char → Prop}
    (hFence : Fence old new)
    (c : Char)
    (f : List Char → TokenKind)
    (hTest :
      ∀ {input : List Char},
        test input → ∀ tail,
          test ((Name.scan input).raw ++ tail)) :
    Lexeme.LocalWhere test c
      (fun cs => ((Name.scan cs).map f).extend [c])
      old new := by
  intro input kept hStarts hRest
  have hInput := (Name.scan_splits input).eq_append hRest
  refine
    ⟨(Name.scan input).raw, rfl, ?_, hTest hStarts _, ?_⟩
  · rw [← List.append_assoc]
    exact hInput
  · simp only [Name.scan_local hFence hRest]
    rfl

theorem marks_localWhere
    (marks : List Char)
    (kind : TokenKind)
    (c : Char) :
    Lexeme.LocalWhere
      (fun cs => cs.take marks.length = marks) c
      (fun cs =>
        ⟨kind, c :: cs.take marks.length,
          cs.drop marks.length, true⟩)
      old new := by
  intro input kept hMarks hRest
  have hDrop : input.drop marks.length = kept ++ old := hRest
  refine
    ⟨marks, by simp [hMarks], ?_, by simp,
      by simp [Lexeme.withRest, hMarks]⟩
  calc
    input = input.take marks.length ++
        input.drop marks.length :=
      (List.take_append_drop _ _).symm
    _ = marks ++ (kept ++ old) := by rw [hMarks, hDrop]

theorem identLike_localWhere
    (hFence : Fence old new)
    (c : Char) :
    Lexeme.LocalWhere
      (fun cs => Name.startsName (c :: cs) = true) c
      (fun cs => identLike (c :: cs)) old new := by
  refine
    (identLike_local hFence).localWhere identLike_splits
      raw_identLike_ne_nil ?_
  intro cs kept taken hStarts hTaken _
  have hAgain :=
    startsName_raw_identLike hStarts (kept ++ new)
  rwa [hTaken] at hAgain

theorem not_startsName_cons
    (hFence : Fence old new)
    (c : Char)
    {kept : List Char}
    (hStarts :
      ¬ Name.startsName (c :: (kept ++ old)) = true) :
    ¬ Name.startsName (c :: (kept ++ new)) = true := by
  rw [Bool.not_eq_true, ← List.cons_append] at hStarts ⊢
  exact Name.startsName_eq_false hFence hStarts

/- A numeral starts with the same test for both texts. -/
theorem numeral_localWhere
    {test : List Char → Prop}
    (hFence : Fence old new)
    (c : Char)
    (hRaw :
      ∀ {cs}, test cs →
        (Numeral.takeNumeral (c :: cs)).1 ≠ [])
    (hTest :
      ∀ {kept}, test (kept ++ old) → test (kept ++ new)) :
    Lexeme.LocalWhere test c
      (fun cs => Numeral.scan (c :: cs)) old new := by
  refine
    (Numeral.scan_local hFence).localWhere
      Numeral.scan_splits
      (fun hStarts => Numeral.raw_scan_ne_nil (hRaw hStarts))
      ?_
  intro cs kept taken hStarts _ hInput
  rw [← List.append_assoc] at hInput ⊢
  exact hTest (hInput ▸ hStarts)

theorem hash_local
    (hFence : Fence old new) :
    Lexeme.LocalAfter '#' hash old new := by
  refine
    (name_localWhere hFence '#' _ Name.continues_raw).ite ?_
      (single_local _ _)
  simp only [Bool.not_eq_true]
  exact Name.continues_eq_false hFence

theorem atSign_local
    (hFence : Fence old new) :
    Lexeme.LocalAfter '@' atSign old new := by
  refine
    (name_localWhere hFence '@' _ Name.startsName_raw).ite ?_
      (single_local _ _)
  simp only [Bool.not_eq_true]
  exact Name.startsName_eq_false hFence

theorem lessThan_local
    (hFence : Fence old new) :
    Lexeme.LocalAfter '<' lessThan old new := by
  refine
    (marks_localWhere ['!', '-', '-'] .cdo '<').ite ?_
      (single_local _ _)
  exact hFence.take_ne ['!', '-', '-'] (by simp [Rejects])

theorem minus_local
    (hFence : Fence old new) :
    Lexeme.LocalAfter '-' minus old new := by
  have hSigned :=
    fun kept => Numeral.startsSigned_eq hFence ('-' :: kept)
  simp only [List.cons_append] at hSigned
  refine
    (numeral_localWhere hFence '-'
      Numeral.takeNumeral_ne_nil_of_signed ?_).ite ?_ ?_
  · simp [hSigned]
  · simp [hSigned]
  refine (marks_localWhere ['-', '>'] .cdc '-').ite ?_ ?_
  · exact hFence.take_ne ['-', '>'] (by simp [Rejects])
  refine
    (identLike_localWhere hFence '-').ite ?_
      (single_local _ _)
  exact not_startsName_cons hFence '-'

theorem plain_local
    (hFence : Fence old new)
    (c : Char) :
    Lexeme.LocalAfter c (plain c) old new := by
  unfold plain
  by_cases hHash : c = '#'
  · subst hHash
    exact hash_local hFence
  by_cases hAt : c = '@'
  · subst hAt
    exact atSign_local hFence
  by_cases hMinus : c = '-'
  · subst hMinus
    exact minus_local hFence
  by_cases hLess : c = '<'
  · subst hLess
    exact lessThan_local hFence
  simp only [hHash, hAt, hMinus, hLess, if_false]
  have hSigned :=
    fun kept => Numeral.startsSigned_eq hFence (c :: kept)
  have hUnsigned :=
    fun kept => Numeral.startsUnsigned_eq hFence (c :: kept)
  simp only [List.cons_append] at hSigned hUnsigned
  refine (numeral_localWhere hFence c ?_ ?_).ite ?_ ?_
  · intro cs hStarts
    rcases Bool.or_eq_true_iff.mp hStarts with hSign | hNone
    · exact Numeral.takeNumeral_ne_nil_of_signed hSign
    · exact Numeral.takeNumeral_ne_nil_of_unsigned hNone
  · simp [hSigned, hUnsigned]
  · simp [hSigned, hUnsigned]
  refine (identLike_localWhere hFence c).ite ?_ ?_
  · exact not_startsName_cons hFence c
  cases mark? c with
  | none => exact single_local _ _
  | some kind => exact single_local _ _

theorem eq_of_startsComment
    {input : List Char}
    (hStarts : startsComment input = true) :
    ∃ rest, input = '/' :: '*' :: rest := by
  unfold startsComment at hStarts
  split at hStarts
  · rename_i rest
    exact ⟨rest, rfl⟩
  · cases hStarts

theorem comment_localWhere
    (hOld : old ≠ [])
    (new : List Char)
    (c : Char)
    (f : List Char → TokenKind) :
    Lexeme.LocalWhere
      (fun cs => startsComment (c :: cs) = true) c
      (fun cs =>
        ((comment (cs.drop 1)).map f).extend
          (c :: cs.take 1))
      old new := by
  intro input kept hStarts hRest
  rcases eq_of_startsComment hStarts with ⟨rest, hInput⟩
  cases hInput
  have hRest : (comment rest).rest = kept ++ old := hRest
  have hScan := comment_local hOld new hRest
  have hSplit := (comment_splits rest).eq_append hRest
  refine
    ⟨'*' :: (comment rest).raw, rfl, ?_, rfl, ?_⟩
  · rw [List.cons_append, ← List.append_assoc, ← hSplit]
  · simp [hScan, Lexeme.withRest, Lexeme.extend, Lexeme.map]

theorem not_startsComment_cons
    (hFence : Fence old new)
    (c : Char)
    {kept : List Char}
    (hStarts :
      ¬ startsComment (c :: (kept ++ old)) = true) :
    ¬ startsComment (c :: (kept ++ new)) = true := by
  intro hNew
  rcases eq_of_startsComment hNew with ⟨rest, hInput⟩
  rcases List.cons.inj hInput with ⟨rfl, hTail⟩
  cases kept with
  | nil =>
      have hFenced := hFence.new_fenced
      rw [← List.nil_append new, hTail] at hFenced
      cases hFenced
  | cons d kept =>
      rcases List.cons.inj hTail with ⟨rfl, -⟩
      exact hStarts rfl

theorem whitespace_local
    (hFence : Fence old new)
    {c : Char}
    (hBlank : Text.isBlank c = true) :
    Lexeme.LocalAfter c
      (fun cs =>
        ⟨TokenKind.whitespace,
          (c :: cs).takeWhile Text.isBlank,
          (c :: cs).dropWhile Text.isBlank, true⟩)
      old new := by
  intro cs kept _ hRest
  have hAfter :
      (c :: cs).dropWhile Text.isBlank = kept ++ old :=
    hRest
  have hStops : Stops Text.isBlank (kept ++ new) := by
    apply hFence.stops (by decide)
    rw [← hAfter]
    exact Text.stops_dropWhile _ _
  have hTake := Text.takeWhile_run hStops (c :: cs)
  have hDrop := Text.dropWhile_run hStops (c :: cs)
  have hTaken :
      (c :: cs).takeWhile Text.isBlank =
        c :: cs.takeWhile Text.isBlank :=
    List.takeWhile_cons_of_pos hBlank
  rw [List.dropWhile_cons_of_pos hBlank] at hAfter
  rw [hTaken, List.cons_append] at hTake hDrop
  refine
    ⟨cs.takeWhile Text.isBlank, hTaken, ?_, trivial, ?_⟩
  · rw [← hAfter, List.takeWhile_append_dropWhile]
  · simp only [hTake, hDrop, hTaken, Lexeme.withRest]

/-
  The next token stays the same when the text from a fence
  after it on is replaced.
-/
theorem token_local
    (hFence : Fence old new) :
    Lexeme.Local token old new := by
  intro input kept hRest
  cases input with
  | nil =>
      exact absurd hRest (hFence.nil_ne_append kept)
  | cons c cs =>
      have hAfter :
          Lexeme.LocalAfter c (fun cs => token (c :: cs))
            old new := by
        unfold token
        refine
          (comment_localWhere hFence.ne_nil new c _).ite
            (not_startsComment_cons hFence c) ?_
        by_cases hBlank : Text.isBlank c = true
        · simp only [hBlank, if_true]
          exact whitespace_local hFence hBlank
        by_cases hQuote : Quotation.isQuote c = true
        · simp only [hBlank, hQuote, if_true]
          exact Quotation.scan_local c hFence
        · simp only [hBlank, hQuote]
          exact plain_local hFence c
      rcases hAfter trivial hRest with
        ⟨taken, hTaken, -, -, hScan⟩
      rw [hTaken]
      exact hScan

end Scan

end LosslessCss
