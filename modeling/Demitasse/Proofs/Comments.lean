import Demitasse.Proofs.LongestMatch

/-! Block comments in a source text. Wherever the scanner comes to an opening mark, it skips everything up to the first
closing mark behind it, and it gives up the rest of the text if there is none. -/

namespace Demitasse

section
variable {pos : Nat} {rest before : List Char} {lexemes : List Lexeme}

theorem closed_or_unclosed (rest : List Char) :
    Unclosed rest ∨ ∃ u after, rest = u ++ closeMark ++ after ∧ Unclosed u := by
  cases hbody : commentBody rest with
  | none => exact .inl (unclosed_of_commentBody hbody)
  | some found =>
      obtain ⟨body, after⟩ := found
      obtain ⟨u, rfl, hu⟩ := exists_of_commentBody hbody
      exact .inr ⟨u, after, (Piece.commentBody_append hbody).symm, hu⟩

theorem not_unclosed (u after : List Char) : ¬ Unclosed (u ++ closeMark ++ after) :=
  fun h => h ⟨u, after, rfl⟩

theorem append_comment (before u after : List Char) : before ++ (openMark ++ (u ++ closeMark ++ after)) =
    before ++ (openMark ++ (u ++ closeMark)) ++ after := by
  simp only [List.append_assoc]

/-- A comment behind a sequence of pieces is one more piece. -/
theorem Cut.comment {u after : List Char} (h : Cut (openMark ++ (u ++ closeMark ++ after)) pos before lexemes)
    (hu : Unclosed u) : Cut after pos (before ++ (openMark ++ (u ++ closeMark))) lexemes := by
  have hnext := Piece.next_of_comment hu after
  have hpiece : Cut after (pos + byteWidth before)
      ((Piece.next '/' ('*' :: (u ++ closeMark ++ after))).text ++ []) [] :=
    .skipped_next (congrArg Piece.reading hnext) (congrArg Piece.rest hnext) (.nil _)
  have hcomment : Cut after (pos + byteWidth before) (openMark ++ (u ++ closeMark)) [] := by
    rw [hnext, List.append_nil] at hpiece
    exact hpiece
  rw [← List.append_nil lexemes]
  refine Cut.append ?_ hcomment
  rw [List.append_assoc openMark]
  exact h

theorem scanFrom_of_unclosed (h : Unclosed rest) (pos : Nat) : scanFrom pos (openMark ++ rest) =
    .error ⟨⟨pos, pos + byteWidth (openMark ++ rest)⟩, ⟨String.ofList (openMark ++ rest)⟩⟩ := by
  have hbody : commentBody rest = none := by
    cases hbody : commentBody rest with
    | none => rfl
    | some found =>
        obtain ⟨body, after⟩ := found
        obtain ⟨u, rfl, -⟩ := exists_of_commentBody hbody
        rw [← Piece.commentBody_append hbody] at h
        exact absurd h (not_unclosed u after)
  have hnext : Piece.next '/' ('*' :: rest) = ⟨.unreadable, openMark ++ rest, []⟩ := by
    rw [Piece.next_open, hbody]
    rfl
  have hscan := scanFrom_of_unreadable (congrArg Piece.reading hnext) pos
  rw [hnext] at hscan
  exact hscan

/-- Behind a sequence of pieces, an error that starts at the opening mark means that the comment is not closed. -/
theorem exists_error_iff_unclosed (h : Cut (openMark ++ rest) pos before lexemes) :
    (∃ e, scanFrom pos (before ++ (openMark ++ rest)) = .error e ∧
      e.span = ⟨pos + byteWidth before, pos + byteWidth (before ++ (openMark ++ rest))⟩) ↔ Unclosed rest := by
  constructor
  · rintro ⟨e, hscan, hspan⟩
    rcases closed_or_unclosed rest with hrest | ⟨u, after, rfl, hu⟩
    · exact hrest
    -- behind a closed comment every error starts later
    have hcut := h.comment hu
    have hahead := scanFrom_ahead (pos + byteWidth (before ++ (openMark ++ (u ++ closeMark)))) after
    rw [append_comment, scanFrom_of_cut hcut] at hscan
    cases hafter : scanFrom (pos + byteWidth (before ++ (openMark ++ (u ++ closeMark)))) after with
    | ok others =>
        rw [hafter] at hscan
        cases hscan
    | error e' =>
        rw [hafter] at hscan hahead
        cases hscan
        have hlater : pos + byteWidth (before ++ (openMark ++ (u ++ closeMark))) ≤ e.span.start := hahead
        have hstart : e.span.start = pos + byteWidth before := congrArg Span.start hspan
        have hopen : byteWidth openMark = 2 := rfl
        rw [byteWidth_append, byteWidth_append, hopen] at hlater
        omega
  · intro hrest
    rw [scanFrom_of_cut h, scanFrom_of_unclosed hrest]
    refine ⟨_, rfl, ?_⟩
    rw [byteWidth_append before, Nat.add_assoc]

theorem toList_open (rest : String) : ("/*" ++ rest).toList = openMark ++ rest.toList :=
  String.toList_append

theorem toList_comment (before u : String) :
    (before ++ "/*" ++ u ++ "*/").toList = before.toList ++ (openMark ++ (u.toList ++ closeMark)) := by
  simp only [String.toList_append, List.append_assoc]
  rfl

theorem toList_opened (before rest : String) :
    (before ++ "/*" ++ rest).toList = before.toList ++ (openMark ++ rest.toList) := by
  rw [String.append_assoc, String.toList_append, toList_open]

end

section
variable {before rest : String} {lexemes : List Lexeme}

/-- The star of the opening mark does not close the comment. -/
theorem overlapping_marks_notMem : "/*/".toList ∉ blockComment := by
  intro hmem
  obtain ⟨u, hu, -⟩ := mem_blockComment.mp hmem
  have hlength := congrArg List.length hu
  rw [List.length_append, List.length_append] at hlength
  exact absurd hlength (by simp [openMark, closeMark]; omega)

/-- Behind the first closing mark the scanner goes on with the lexemes that it had. -/
theorem exists_end_of_comment (hcut : Cut ("/*" ++ rest).toList 0 before.toList lexemes)
    (hclosed : ¬ Unclosed rest.toList) :
    ∃ u after : String, rest = u ++ "*/" ++ after ∧ Unclosed u.toList ∧
      Cut after.toList 0 (before ++ "/*" ++ u ++ "*/").toList lexemes ∧
      scan (before ++ "/*" ++ rest) =
        (scanFrom (before ++ "/*" ++ u ++ "*/").utf8ByteSize after.toList).map (lexemes ++ ·) := by
  have hsource := toList_opened before rest
  obtain ⟨u, after, hrest, hu⟩ := (closed_or_unclosed rest.toList).resolve_left hclosed
  rw [toList_open, hrest] at hcut
  rw [hrest] at hsource
  have hbehind := hcut.comment hu
  obtain ⟨u, rfl⟩ : ∃ s : String, s.toList = u := ⟨String.ofList u, String.toList_ofList⟩
  obtain ⟨after, rfl⟩ : ∃ s : String, s.toList = after := ⟨String.ofList after, String.toList_ofList⟩
  rw [← toList_comment] at hbehind
  refine ⟨u, after, ?_, hu, hbehind, ?_⟩
  · rw [← String.toList_inj, hrest, String.toList_append, String.toList_append]
    rfl
  · rw [scan, hsource, append_comment, ← toList_comment, scanFrom_of_cut hbehind, Nat.zero_add, byteWidth_toList]

/-- The scanner fails for all text from the opening mark on exactly if there is no closing mark. -/
theorem error_to_end_iff (hcut : Cut ("/*" ++ rest).toList 0 before.toList lexemes) :
    (∃ e, scan (before ++ "/*" ++ rest) = .error e ∧
      e.span = ⟨before.utf8ByteSize, (before ++ "/*" ++ rest).utf8ByteSize⟩) ↔ Unclosed rest.toList := by
  rw [toList_open] at hcut
  have hiff := exists_error_iff_unclosed hcut
  rw [Nat.zero_add, Nat.zero_add, byteWidth_toList, ← toList_opened, byteWidth_toList] at hiff
  exact hiff

end

/-- The pattern of block comments matches exactly what stands between an opening mark and the first closing mark
behind it. Where the scanner comes to an opening mark it goes on right behind that closing mark with the lexemes
that it had, or it fails for all the rest of the text, and the latter exactly if there is no closing mark. -/
theorem block_comments_exact :
    (∀ w : List Char, w ∈ blockComment ↔ ∃ u, w = openMark ++ u ++ closeMark ∧ Unclosed u) ∧
    "/*/".toList ∉ blockComment ∧
    ∀ (before rest : String) (lexemes : List Lexeme), Cut ("/*" ++ rest).toList 0 before.toList lexemes →
      (¬ Unclosed rest.toList → ∃ u after : String, rest = u ++ "*/" ++ after ∧ Unclosed u.toList ∧
        Cut after.toList 0 (before ++ "/*" ++ u ++ "*/").toList lexemes ∧
        scan (before ++ "/*" ++ rest) =
          (scanFrom (before ++ "/*" ++ u ++ "*/").utf8ByteSize after.toList).map (lexemes ++ ·)) ∧
      ((∃ e, scan (before ++ "/*" ++ rest) = .error e ∧
        e.span = ⟨before.utf8ByteSize, (before ++ "/*" ++ rest).utf8ByteSize⟩) ↔ Unclosed rest.toList) := by
  refine ⟨fun w => mem_blockComment, overlapping_marks_notMem, fun before rest lexemes hcut => ?_⟩
  exact ⟨exists_end_of_comment hcut, error_to_end_iff hcut⟩

/-- Behind a word, a comment with stars and slashes in it, and one that is never closed. -/
theorem block_comments_exact_stars : ∃ lexemes,
    Cut ("/*" ++ "/*b**/c").toList 0 "a".toList lexemes ∧ Cut ("/*" ++ "/*b**").toList 0 "a".toList lexemes ∧
    (∃ u after : String, "/*b**/c" = u ++ "*/" ++ after ∧ Unclosed u.toList ∧
      scan ("a" ++ "/*" ++ "/*b**/c") =
        (scanFrom ("a" ++ "/*" ++ u ++ "*/").utf8ByteSize after.toList).map (lexemes ++ ·)) ∧
    ∃ e, scan ("a" ++ "/*" ++ "/*b**") = .error e ∧ e.span = ⟨1, 8⟩ := by
  have hword : ∀ rest : String, Cut ("/*" ++ rest).toList 0 "a".toList [⟨.word "a", 0, 1⟩] := by
    intro rest
    rw [toList_open]
    have hpiece : Cut (openMark ++ rest.toList) 0 ((Piece.next 'a' (openMark ++ rest.toList)).text ++ [])
        [⟨.word "a", 0, 1⟩] := .token_next rfl rfl (.nil 1)
    exact hpiece
  obtain ⟨-, -, hscan⟩ := block_comments_exact
  obtain ⟨u, after, hrest, hu, -, hclosed⟩ := (hscan "a" "/*b**/c" _ (hword _)).1 (by decide)
  have hopen := (hscan "a" "/*b**" _ (hword _)).2.mpr (by decide)
  exact ⟨_, hword _, hword _, ⟨u, after, hrest, hu, hclosed⟩, hopen⟩

end Demitasse
