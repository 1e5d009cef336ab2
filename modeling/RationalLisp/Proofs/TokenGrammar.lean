import RationalLisp.Proofs.PrintedTokens

/-!
# The grammar of tokens

Source text is a row of tokens with gaps around them. A gap is a run of blanks and comments; a
comment goes on to the end of its line. What the scanner finds at the front of a text is described
here: a gap and a token, a gap and nothing else, or a gap and a string literal that is never closed.
-/

namespace RationalLisp

/-! ### Gaps -/

namespace Text

/-- The line ends here. -/
def EndsLine (t : Text) : Prop := t = [] ∨ ∃ rest, t = ('\n' : CodePoint) :: rest

/-- A run of blanks and comments in front of another text. A comment is a semicolon and what follows
it, up to the end of the line. -/
inductive GapBefore (after : Text) : Text → Prop
  | nil : GapBefore after []
  | blank {c : CodePoint} {gap : Text} : c.isBlank = true → GapBefore after gap →
      GapBefore after (c :: gap)
  | comment {body gap : Text} : ('\n' : CodePoint) ∉ body → EndsLine (gap ++ after) →
      GapBefore after gap → GapBefore after ((';' : CodePoint) :: (body ++ gap))

/-- The last line of the text holds a comment. -/
def EndsInComment (t : Text) : Prop :=
  ∃ before body : Text, t = before ++ (';' : CodePoint) :: body ∧ ('\n' : CodePoint) ∉ body

theorem endsLine_append {t after : Text} (h : t ≠ []) :
    EndsLine (t ++ after) ↔ ∃ rest, t = ('\n' : CodePoint) :: rest := by
  obtain ⟨c, rest, rfl⟩ := List.exists_cons_of_ne_nil h
  simp [EndsLine]

theorem EndsInComment.append {t : Text} (h : t.EndsInComment) (u : Text) :
    EndsInComment (u ++ t) := by
  obtain ⟨before, body, rfl, hbody⟩ := h
  exact ⟨u ++ before, body, (List.append_assoc ..).symm, hbody⟩

namespace GapBefore

variable {after after' gap : Text}

/-- All that matters of what follows a gap is whether it ends a line. -/
theorem congr (hgap : GapBefore after gap) (h : after.EndsLine ↔ after'.EndsLine) :
    GapBefore after' gap := by
  induction hgap with
  | nil => exact .nil
  | blank hc _ ih => exact .blank hc ih
  | @comment body gap hbody hline _ ih =>
    refine .comment hbody ?_ ih
    by_cases hnil : gap = []
    · subst hnil
      exact h.mp hline
    · rw [endsLine_append hnil] at hline ⊢
      exact hline

/-- A gap starts with a blank or a semicolon, so no symbol goes on in it. -/
theorem endsSymbol (hgap : GapBefore after gap) (h : gap = [] → after.EndsSymbol) :
    (gap ++ after).EndsSymbol := by
  cases hgap with
  | nil => exact h rfl
  | blank hc _ => exact endsSymbol_cons (by simp [CodePoint.isSymbol, hc]) _
  | comment _ _ _ => exact endsSymbol_cons (by decide) _

/-- In the middle of a line a comment cannot end. -/
theorem not_endsInComment (hgap : GapBefore after gap) (hafter : ¬ after.EndsLine) :
    ¬ gap.EndsInComment := by
  induction hgap with
  | nil => simp [EndsInComment]
  | blank hc _ ih =>
    rintro ⟨before, body, heq, hbody⟩
    cases before with
    | nil =>
      rw [(List.cons.inj heq).1] at hc
      exact absurd hc (by decide)
    | cons d before => exact ih ⟨before, body, (List.cons.inj heq).2, hbody⟩
  | @comment text gap _ hline _ ih =>
    rintro ⟨before, body, heq, hbody⟩
    have hne : gap ≠ [] := by
      rintro rfl
      exact hafter hline
    obtain ⟨rest, rfl⟩ := (endsLine_append hne).mp hline
    rw [← List.cons_append] at heq
    obtain ⟨before', rfl, hrest⟩ | ⟨line, -, hline⟩ := List.append_eq_append_iff.mp heq
    · exact ih ⟨before', body, hrest, hbody⟩
    · -- the newline that ends the comment would stand in the last line
      have hmem : ('\n' : CodePoint) ∈ (';' : CodePoint) :: body := by simp [hline]
      obtain hsemicolon | hmem := List.mem_cons.mp hmem
      · exact absurd hsemicolon (by decide)
      · exact hbody hmem

/-- A gap that does not end in a comment can stand anywhere. -/
theorem anywhere (hgap : GapBefore after gap) (hcomment : ¬ gap.EndsInComment) (after' : Text) :
    GapBefore after' gap := by
  induction hgap with
  | nil => exact .nil
  | @blank c gap hc _ ih => exact .blank hc (ih fun h => hcomment (h.append [c]))
  | @comment body gap hbody hline _ ih =>
    have hne : gap ≠ [] := by
      rintro rfl
      exact hcomment ⟨[], body, by simp, hbody⟩
    refine .comment hbody ?_ (ih fun h => hcomment (h.append (';' :: body)))
    rw [endsLine_append hne] at hline ⊢
    exact hline

end GapBefore

end Text

namespace Token

open Text

theorem dropGap_line {t : Text} (h : t.EndsLine) : dropGap true t = dropGap false t := by
  obtain rfl | ⟨rest, rfl⟩ := h
  · rfl
  · rfl

theorem dropGap_comment {body : Text} (hbody : ('\n' : CodePoint) ∉ body) (t : Text) :
    dropGap true (body ++ t) = dropGap true t := by
  induction body with
  | nil => rfl
  | cons c body ih =>
    rw [List.mem_cons, not_or] at hbody
    have hc : c ≠ CodePoint.ofChar '\n' := fun h => hbody.1 h.symm
    rw [List.cons_append, dropGap, decide_eq_true hc]
    exact ih hbody.2

/-- Gaps are passed over. -/
theorem dropGap_gap {after gap : Text} (h : GapBefore after gap) :
    dropGap false (gap ++ after) = dropGap false after := by
  induction h with
  | nil => rfl
  | blank hc _ ih => rw [List.cons_append, dropGap, if_pos hc, ih]
  | @comment body gap hbody hline _ ih =>
    have hsemicolon : ¬ (CodePoint.ofChar ';').isBlank = true := by decide
    rw [List.cons_append, List.append_assoc, dropGap, if_neg hsemicolon, if_pos rfl,
      dropGap_comment hbody, dropGap_line hline, ih]

/-- Nothing but gaps is passed over. Inside a comment this is the rest of it and a gap. -/
theorem exists_gap_of_dropGap (comment : Bool) (source : Text) :
    ∃ line gap : Text, source = line ++ (gap ++ dropGap comment source) ∧
      GapBefore (dropGap comment source) gap ∧ ('\n' : CodePoint) ∉ line ∧
      (comment = true → EndsLine (gap ++ dropGap comment source)) ∧
      (comment = false → line = []) := by
  fun_induction dropGap comment source with
  | case1 comment => exact ⟨[], [], rfl, .nil, by simp, fun _ => .inl rfl, fun _ => rfl⟩
  | case2 c rest hc ih =>
    obtain ⟨line, gap, hrest, hgap, -, -, hline⟩ := ih
    rw [hline rfl] at hrest
    exact ⟨[], c :: gap, congrArg (c :: ·) hrest, .blank hc hgap, by simp, by simp, fun _ => rfl⟩
  | case3 rest hc ih =>
    obtain ⟨line, gap, hrest, hgap, hline, hends, -⟩ := ih
    refine ⟨[], CodePoint.ofChar ';' :: (line ++ gap), ?_, .comment hline (hends rfl) hgap,
      by simp, by simp, fun _ => rfl⟩
    simpa using hrest
  | case4 c rest hc hsemicolon => exact ⟨[], [], rfl, .nil, by simp, by simp, fun _ => rfl⟩
  | case5 c rest ih =>
    obtain ⟨line, gap, hrest, hgap, hline, hends, hnil⟩ := ih
    by_cases hc : c = CodePoint.ofChar '\n'
    · subst hc
      have hblank : (CodePoint.ofChar '\n').isBlank = true := by decide
      rw [hnil (by simp)] at hrest
      exact ⟨[], CodePoint.ofChar '\n' :: gap, congrArg (CodePoint.ofChar '\n' :: ·) hrest,
        .blank hblank hgap, by simp, fun _ => .inr ⟨_, rfl⟩, by simp⟩
    · refine ⟨c :: line, gap, congrArg (c :: ·) hrest, hgap, ?_, fun _ => hends (by simpa using hc),
        by simp⟩
      simp [hline, Ne.symm hc]

end Token

/-! ### String literals -/

namespace Text

/-- What can stand between the marks of a string literal: pairs of a backslash and any code point,
and code points other than the backslash and the mark. -/
inductive IsLiteralBody : Text → Prop
  | nil : IsLiteralBody []
  | escape (c : CodePoint) {rest : Text} : IsLiteralBody rest →
      IsLiteralBody (('\\' : CodePoint) :: c :: rest)
  | plain {c : CodePoint} {rest : Text} : c ≠ ('\\' : CodePoint) → c ≠ ('"' : CodePoint) →
      IsLiteralBody rest → IsLiteralBody (c :: rest)

/-- A string literal with both of its marks. -/
def IsLiteral (t : Text) : Prop :=
  ∃ body : Text, body.IsLiteralBody ∧ t = ('"' : CodePoint) :: (body ++ [('"' : CodePoint)])

end Text

namespace Token

open Text

theorem scanString_eq_some_iff {source body after : Text} :
    scanString source = some (body, after) ↔
      body.IsLiteralBody ∧ source = body ++ ('"' : CodePoint) :: after := by
  constructor
  · intro h
    fun_induction scanString source generalizing body with
    | case1 => cases h
    | case2 rest =>
      obtain ⟨rfl, rfl⟩ := Prod.mk.inj (Option.some.inj h)
      exact ⟨.nil, rfl⟩
    | case3 => cases h
    | case4 escaped rest _ ih =>
      obtain ⟨⟨body, after⟩, hscan, heq⟩ := Option.map_eq_some_iff.mp h
      obtain ⟨rfl, rfl⟩ := Prod.mk.inj heq
      obtain ⟨hbody, rfl⟩ := ih hscan
      exact ⟨.escape escaped hbody, rfl⟩
    | case5 c rest hmark hescape ih =>
      obtain ⟨⟨body, after⟩, hscan, heq⟩ := Option.map_eq_some_iff.mp h
      obtain ⟨rfl, rfl⟩ := Prod.mk.inj heq
      obtain ⟨hbody, rfl⟩ := ih hscan
      exact ⟨.plain hescape hmark hbody, rfl⟩
  · rintro ⟨hbody, rfl⟩
    induction hbody with
    | nil =>
      rw [List.nil_append, scanString.eq_def]
      exact if_pos rfl
    | escape c _ ih =>
      have hmark : CodePoint.ofChar '\\' ≠ CodePoint.ofChar '"' := by decide
      simp [scanString, hmark, ih]
    | plain hescape hmark _ ih =>
      rw [List.cons_append, scanString.eq_def]
      simp [hescape, hmark, ih]

/-- A string literal is never closed exactly if no literal stands at the front. -/
theorem scanString_eq_none_iff {source : Text} :
    scanString source = none ↔ ∀ literal rest : Text,
      ('"' : CodePoint) :: source = literal ++ rest → ¬ literal.IsLiteral := by
  constructor
  · rintro h _ rest heq ⟨body, hbody, rfl⟩
    have hsource : source = body ++ CodePoint.ofChar '"' :: rest := by simpa using heq
    rw [scanString_eq_some_iff.mpr ⟨hbody, hsource⟩] at h
    exact nomatch h
  · intro h
    cases hscan : scanString source with
    | none => rfl
    | some found =>
      obtain ⟨body, after⟩ := found
      obtain ⟨hbody, rfl⟩ := scanString_eq_some_iff.mp hscan
      exact absurd ⟨body, hbody, rfl⟩ (h _ after (by simp))

/-! ### The first token -/

/-- The token is one that source text can hold. -/
def WellFormed : Token → Prop
  | .string body => body.IsLiteralBody
  | .symbol name => name.IsSymbol
  | .quote | .lparen | .rparen => True

/-- Whether the token is a symbol, which only what follows it can end. -/
def isOpenEnded : Token → Bool
  | .symbol _ => true
  | _ => false

theorem WellFormed.text_ne_nil {t : Token} (h : t.WellFormed) : t.text ≠ [] := by
  cases t with
  | symbol name => exact IsSymbol.ne_nil h
  | string body => exact List.cons_ne_nil _ _
  | _ => exact List.cons_ne_nil _ _

/-- A token starts in the middle of a line, and only symbols start with a code point of symbols. -/
theorem WellFormed.text_eq {t : Token} (h : t.WellFormed) :
    ∃ c rest, t.text = c :: rest ∧ c.isBlank = false ∧ c ≠ CodePoint.ofChar ';' ∧
      c.isSymbol = t.isOpenEnded := by
  cases t with
  | symbol name =>
    obtain ⟨c, rest, rfl⟩ := List.exists_cons_of_ne_nil (IsSymbol.ne_nil h)
    have hc : c.isSymbol = true := IsSymbol.all h c List.mem_cons_self
    obtain ⟨hblank, hdelimiter⟩ := CodePoint.isSymbol_iff.mp hc
    refine ⟨c, rest, rfl, hblank, ?_, hc⟩
    rintro rfl
    exact hdelimiter (by decide)
  | string body =>
    have hmark : (CodePoint.ofChar '"').isSymbol = false := by decide
    exact ⟨_, _, rfl, by decide, by decide, hmark⟩
  | quote => exact ⟨_, _, rfl, by decide, by decide, by decide⟩
  | lparen => exact ⟨_, _, rfl, by decide, by decide, by decide⟩
  | rparen => exact ⟨_, _, rfl, by decide, by decide, by decide⟩

theorem WellFormed.not_endsLine {t : Token} (h : t.WellFormed) (rest : Text) :
    ¬ EndsLine (t.text ++ rest) := by
  obtain ⟨c, cs, htext, hblank, -⟩ := h.text_eq
  rw [endsLine_append h.text_ne_nil, htext]
  rintro ⟨after, heq⟩
  rw [(List.cons.inj heq).1] at hblank
  exact absurd hblank (by decide)

theorem WellFormed.dropGap_text {t : Token} (h : t.WellFormed) (rest : Text) :
    dropGap false (t.text ++ rest) = t.text ++ rest := by
  obtain ⟨c, cs, htext, hblank, hcomment, -⟩ := h.text_eq
  rw [htext, List.cons_append, dropGap, if_neg (by simp [hblank]), if_neg hcomment]

theorem front_congr {source source' : Text} (h : dropGap false source = dropGap false source') :
    front source = front source' := by
  simp only [front, h]

theorem front_text {t : Token} (h : t.WellFormed) {rest : Text}
    (hrest : t.isOpenEnded = true → rest.EndsSymbol) : front (t.text ++ rest) = .token t rest := by
  cases t with
  | symbol name => exact front_symbol h (hrest rfl)
  | string body =>
    have hscan : scanString (body ++ CodePoint.ofChar '"' :: rest) = some (body, rest) :=
      scanString_eq_some_iff.mpr ⟨h, rfl⟩
    have hgap := h.dropGap_text rest
    simp only [text, List.cons_append, List.append_assoc, List.nil_append] at hgap ⊢
    rw [front, hgap]
    simp [hscan, CodePoint.ofChar_inj]
  | quote => rfl
  | lparen => rfl
  | rparen => rfl

theorem exists_gap (source : Text) :
    ∃ gap, source = gap ++ dropGap false source ∧ GapBefore (dropGap false source) gap := by
  obtain ⟨line, gap, hsource, hgap, -, -, hline⟩ := exists_gap_of_dropGap false source
  rw [hline rfl] at hsource
  exact ⟨gap, hsource, hgap⟩

theorem endsSymbol_dropWhile (t : Text) : EndsSymbol (t.dropWhile CodePoint.isSymbol) := by
  intro c rest h
  have hne : t.dropWhile CodePoint.isSymbol ≠ [] := by simp [h]
  have hhead := List.head_dropWhile_not CodePoint.isSymbol hne
  simpa [h] using hhead

/-- After the gap comes the text of the token. -/
theorem text_of_front {source rest : Text} {t : Token} (h : front source = .token t rest) :
    t.WellFormed ∧ (t.isOpenEnded = true → rest.EndsSymbol) ∧
      dropGap false source = t.text ++ rest := by
  have hfront := h
  rw [front] at h
  split at h
  · cases h
  · rename_i c after hgap
    rw [hgap]
    split at h
    · rename_i hc
      cases h
      exact ⟨trivial, fun h => absurd h Bool.false_ne_true, by rw [hc]; rfl⟩
    split at h
    · rename_i hc
      cases h
      exact ⟨trivial, fun h => absurd h Bool.false_ne_true, by rw [hc]; rfl⟩
    split at h
    · rename_i hc
      cases h
      exact ⟨trivial, fun h => absurd h Bool.false_ne_true, by rw [hc]; rfl⟩
    split at h
    · rename_i hc
      split at h
      · cases h
      · rename_i hscan
        cases h
        obtain ⟨hbody, rfl⟩ := scanString_eq_some_iff.mp hscan
        exact ⟨hbody, fun h => absurd h Bool.false_ne_true, by simp [text, hc]⟩
    · cases h
      refine ⟨isSymbol_of_front hfront, fun _ => endsSymbol_dropWhile after, ?_⟩
      rw [text, List.cons_append, List.takeWhile_append_dropWhile]

/-- The front of source text is a token if and only if a gap, the token and the rest follow each
other. -/
theorem front_eq_token_iff {source rest : Text} {t : Token} :
    front source = .token t rest ↔
      t.WellFormed ∧ (t.isOpenEnded = true → rest.EndsSymbol) ∧
        ∃ gap, source = gap ++ (t.text ++ rest) ∧ GapBefore (t.text ++ rest) gap := by
  constructor
  · intro h
    obtain ⟨hform, hrest, htext⟩ := text_of_front h
    exact ⟨hform, hrest, htext ▸ exists_gap source⟩
  · rintro ⟨hform, hrest, gap, rfl, hgap⟩
    rw [front_congr (dropGap_gap hgap), front_text hform hrest]

/-- Nothing is left exactly if all of the source text is a gap. -/
theorem front_eq_done_iff {source : Text} : front source = .done ↔ GapBefore [] source := by
  constructor
  · intro h
    obtain ⟨gap, hsource, hgap⟩ := exists_gap source
    have hnil : dropGap false source = [] := by
      rw [front] at h
      split at h
      · assumption
      · repeat' split at h
        all_goals cases h
    rw [hnil, List.append_nil] at hsource
    rw [hnil] at hgap
    rw [hsource]
    exact hgap
  · intro h
    have hgap := dropGap_gap h
    rw [List.append_nil] at hgap
    rw [front_congr hgap]
    rfl

/-- A string literal is left open exactly if it comes after a gap and is never closed. -/
theorem front_eq_unterminated_iff {source : Text} :
    front source = .unterminated ↔
      ∃ gap after : Text, source = gap ++ ('"' : CodePoint) :: after ∧
        GapBefore (('"' : CodePoint) :: after) gap ∧ scanString after = none := by
  constructor
  · intro h
    obtain ⟨gap, hsource, hgap⟩ := exists_gap source
    rw [front] at h
    split at h
    · cases h
    · rename_i c after hdrop
      rw [hdrop] at hsource hgap
      split at h
      · cases h
      split at h
      · cases h
      split at h
      · cases h
      split at h
      · rename_i hc
        subst hc
        split at h
        · exact ⟨gap, after, hsource, hgap, by assumption⟩
        · cases h
      · cases h
  · rintro ⟨gap, after, rfl, hgap, hscan⟩
    have hmark : dropGap false (CodePoint.ofChar '"' :: after) =
        CodePoint.ofChar '"' :: after := rfl
    rw [front, dropGap_gap hgap, hmark]
    simp [hscan, CodePoint.ofChar_inj]

end Token

end RationalLisp
