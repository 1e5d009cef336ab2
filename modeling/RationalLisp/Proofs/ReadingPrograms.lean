import RationalLisp.Proofs.ExpressionGrammar
import RationalLisp.Reader.Stream
import RationalLisp.Session

/-!
# Reading whole programs

What the reader accepts on a stream of tokens, in a program and in a text that is to hold a single
expression follows from what it accepts as one expression: a program is the longest run of
expressions that its tokens begin with.
-/

namespace RationalLisp

/-! ### Streams -/

namespace TokenStream

variable {room : Nat} {s : TokenStream}

/-- A stream gives an expression and is left with what follows it if and only if its tokens begin
with that expression. -/
theorem next_eq_some_iff {v : Value} {rest : List Token} :
    (s.next room).1 = .ok (some v) ∧ (s.next room).2.pending = rest ↔
      ∃ taken, s.pending = taken ++ rest ∧ Phrase.Derives room ⟨taken, v⟩ := by
  have hread : (s.next room).1 = .ok (some v) ∧ (s.next room).2.pending = rest ↔
      Reader.readFrom s.terminated room (.expression []) s.pending = .expression v rest := by
    rw [next]
    cases Reader.readFrom s.terminated room (.expression []) s.pending <;> simp [pending]
  rw [hread, Reader.readFrom_eq_expression_iff]

theorem next_eq_none_iff :
    (s.next room).1 = .ok none ↔ s.pending = [] ∧ s.terminated = true := by
  have hread : (s.next room).1 = .ok none ↔
      Reader.readFrom s.terminated room (.expression []) s.pending = .finished := by
    rw [next]
    cases Reader.readFrom s.terminated room (.expression []) s.pending <;> simp
  rw [hread, Reader.readFrom_eq_finished_iff]

/-- In all other cases the stream fails. -/
theorem next_eq_error_iff :
    (∃ failure, (s.next room).1 = .error failure) ↔
      ¬ (s.pending = [] ∧ s.terminated = true) ∧
        ∀ taken rest v, s.pending = taken ++ rest → ¬ Phrase.Derives room ⟨taken, v⟩ := by
  constructor
  · rintro ⟨failure, hfailure⟩
    refine ⟨fun hnone => ?_, fun taken rest v hpending hderives => ?_⟩
    · rw [next_eq_none_iff.mpr hnone] at hfailure
      exact nomatch hfailure
    · rw [(next_eq_some_iff.mpr ⟨taken, hpending, hderives⟩).1] at hfailure
      exact nomatch hfailure
  · rintro ⟨hnone, hsome⟩
    cases hnext : (s.next room).1 with
    | error failure => exact ⟨failure, rfl⟩
    | ok result =>
      cases result with
      | none => exact absurd (next_eq_none_iff.mp hnext) hnone
      | some v =>
        obtain ⟨taken, hpending, hderives⟩ := next_eq_some_iff.mp ⟨hnext, rfl⟩
        exact absurd hderives (hsome taken _ v hpending)

/-- An expression that there is no room for makes the stream fail for just that. -/
theorem next_of_too_deep {taken rest : List Token} {v : Value}
    (hpending : s.pending = taken ++ rest) (h : Phrase.IsExpression ⟨taken, v⟩)
    (hdeep : ¬ Phrase.Derives room ⟨taken, v⟩) : (s.next room).1 = .error .outOfDepth := by
  obtain hread | ⟨left, hcut⟩ := Reader.readFrom_of_isExpression h s.terminated room rest
  · obtain ⟨taken', heq, hderives⟩ := Reader.readFrom_eq_expression_iff.mp hread
    obtain rfl : taken = taken' := List.append_cancel_right heq
    exact absurd hderives hdeep
  · rw [next, hpending, hcut]

end TokenStream

/-! ### Programs -/

/-- The tokens begin with these expressions, one after the other, and the rest follows them. -/
structure Phrase.Leading (room : Nat) (tokens : List Token) (phrases : List Phrase)
    (rest : List Token) : Prop where
  tokens_eq : tokens = phrases.flatMap Phrase.tokens ++ rest
  derive : ∀ p ∈ phrases, p.Derives room

namespace Phrase.Leading

variable {room : Nat} {tokens rest : List Token} {phrases : List Phrase}

theorem nil (room : Nat) (tokens : List Token) : Leading room tokens [] tokens :=
  ⟨rfl, by simp⟩

theorem cons {taken : List Token} {v : Value} (hderives : Derives room ⟨taken, v⟩)
    (h : Leading room tokens phrases rest) :
    Leading room (taken ++ tokens) (⟨taken, v⟩ :: phrases) rest where
  tokens_eq := by rw [List.flatMap_cons, List.append_assoc, ← h.tokens_eq]
  derive := List.forall_mem_cons.mpr ⟨hderives, h.derive⟩

/-- Where no other expression follows, there is no longer run of expressions. -/
theorem longest (h : Leading room tokens phrases rest)
    (hrest : ∀ taken after v, rest = taken ++ after → ¬ Derives room ⟨taken, v⟩)
    {others : List Phrase} {rest' : List Token} (hothers : Leading room tokens others rest') :
    others <+: phrases := by
  induction others generalizing tokens phrases with
  | nil => exact List.nil_prefix
  | cons q others ih =>
    have heq := h.tokens_eq.symm.trans hothers.tokens_eq
    have hq := List.forall_mem_cons.mp hothers.derive
    rw [List.flatMap_cons, List.append_assoc] at heq
    cases phrases with
    | nil => exact absurd hq.1 (hrest _ _ _ heq)
    | cons p phrases =>
      have hp := List.forall_mem_cons.mp h.derive
      rw [List.flatMap_cons, List.append_assoc] at heq
      obtain rfl : p = q := IsExpression.unique ⟨room, hp.1⟩ ⟨room, hq.1⟩ heq
      have hrun := ih ⟨rfl, hp.2⟩ ⟨List.append_cancel_left heq, hq.2⟩
      exact List.cons_prefix_cons.mpr ⟨rfl, hrun⟩

end Phrase.Leading

namespace Program

variable {terminated : Bool} {room : Nat}

/-- A program consists of the longest run of expressions, and is faulty if something is left. If it
is an expression that is left, there is no room for it. -/
theorem readOnto_leading (terminated : Bool) (room : Nat) (seen : List Value)
    (tokens : List Token) :
    ∃ phrases rest, Phrase.Leading room tokens phrases rest ∧
      (∀ taken after v, rest = taken ++ after → ¬ Phrase.Derives room ⟨taken, v⟩) ∧
      (readOnto terminated room seen tokens).exprs = seen.reverse ++ phrases.map Phrase.value ∧
      ((readOnto terminated room seen tokens).fault = none ↔ rest = [] ∧ terminated = true) ∧
      ∀ taken after v, rest = taken ++ after → Phrase.IsExpression ⟨taken, v⟩ →
        (readOnto terminated room seen tokens).fault = some .outOfDepth := by
  fun_induction readOnto terminated room seen tokens with
  | case1 seen tokens h =>
    have hnone := Reader.not_derives_of_readFrom h (by simp)
    obtain ⟨rfl, hterminated⟩ := Reader.readFrom_eq_finished_iff.mp h
    refine ⟨[], [], .nil room [], hnone, by simp, by simp [hterminated], ?_⟩
    rintro taken after v heq hexpression
    rw [heq] at h
    obtain hread | ⟨left, hcut⟩ := Reader.readFrom_of_isExpression hexpression terminated room after
    · rw [hread] at h
      cases h
    · rw [hcut] at h
      cases h
  | case2 seen tokens failure left h =>
    have hnone := Reader.not_derives_of_readFrom h (by simp)
    refine ⟨[], tokens, .nil room tokens, hnone, by simp, iff_of_false (by simp) ?_, ?_⟩
    · intro hfinished
      rw [Reader.readFrom_eq_finished_iff.mpr hfinished] at h
      cases h
    · rintro taken after v rfl hexpression
      obtain hread | ⟨left', hcut⟩ :=
        Reader.readFrom_of_isExpression hexpression terminated room after
      · rw [hread] at h
        cases h
      · rw [(Reader.Reading.failed.inj (h.symm.trans hcut)).1]
  | case3 seen tokens v after h ih =>
    obtain ⟨taken, rfl, hderives⟩ := Reader.readFrom_eq_expression_iff.mp h
    obtain ⟨phrases, rest, hleading, hrest, hexprs, hfault, hdeep⟩ := ih
    exact ⟨_, rest, hleading.cons hderives, hrest, by simpa using hexprs, hfault, hdeep⟩

/-- A program that is a single expression fails for want of room, if there is none. -/
theorem single_of_too_deep {tokens : List Token} {v : Value} (h : Phrase.IsExpression ⟨tokens, v⟩)
    (hdeep : ¬ Phrase.Derives room ⟨tokens, v⟩) :
    (readOnto terminated room [] tokens).single = .error .outOfDepth := by
  have hread := Reader.readFrom_of_isExpression h terminated room []
  rw [List.append_nil] at hread
  obtain hread | ⟨left, hcut⟩ := hread
  · obtain ⟨taken, heq, hderives⟩ := Reader.readFrom_eq_expression_iff.mp hread
    rw [List.append_nil] at heq
    exact absurd (heq ▸ hderives) hdeep
  · rw [readOnto_of_failed hcut]
    rfl

theorem single_eq_ok_iff {p : Program} {v : Value} : p.single = .ok v ↔ p = ⟨[v], none⟩ := by
  obtain ⟨exprs, fault⟩ := p
  match fault, exprs with
  | some failure, _ => simp [single]
  | none, [] => simp [single]
  | none, [w] => simp [single]
  | none, _ :: _ :: _ => simp [single]

/-- A program is a single expression if and only if its tokens are. -/
theorem single_readOnto_iff {tokens : List Token} {v : Value} :
    (readOnto terminated room [] tokens).single = .ok v ↔
      Phrase.Derives room ⟨tokens, v⟩ ∧ terminated = true := by
  constructor
  · intro h
    obtain ⟨phrases, rest, hleading, -, hexprs, hfault, -⟩ :=
      readOnto_leading terminated room [] tokens
    rw [single_eq_ok_iff.mp h] at hexprs hfault
    obtain ⟨rfl, hterminated⟩ := hfault.mp rfl
    obtain ⟨p, rfl, rfl⟩ := List.map_eq_singleton_iff.mp hexprs.symm
    have htokens : tokens = p.tokens := by simpa using hleading.tokens_eq
    exact ⟨htokens ▸ hleading.derive p List.mem_cons_self, hterminated⟩
  · rintro ⟨hderives, rfl⟩
    have hread : Reader.readFrom true room (.expression []) tokens = .expression v [] :=
      Reader.readFrom_eq_expression_iff.mpr ⟨tokens, by simp, hderives⟩
    rw [readOnto_of_expression hread, readOnto_of_finished rfl]
    rfl

end Program

/-- A symbol denotes something unless it is a numeral that has too many digits or is over zero. -/
theorem Reader.ofSymbol_eq_ok_iff {name : Text} :
    (∃ v, ofSymbol name = .ok v) ↔
      ∀ numeral, Numeral.ofText? name = some numeral →
        numeral.Legible ∧ numeral.overZero = false := by
  unfold ofSymbol
  split
  · rename_i hname
    subst hname
    simp [show Numeral.ofText? (Text.ofString "#t") = none by decide]
  split
  · rename_i hname
    subst hname
    simp [show Numeral.ofText? (Text.ofString "#f") = none by decide]
  split
  · rename_i hnone
    simp [hnone]
  · rename_i numeral hnumeral
    simp only [hnumeral, Option.some.injEq, forall_eq']
    by_cases hlegible : numeral.Legible
    · cases hzero : numeral.overZero <;> simp [hlegible]
    · simp [hlegible]

/-! ### What the reader accepts -/

/-- The reader accepts just its grammar, and no tokens can be taken for two expressions. An
expression that there is no room for fails for just that reason. -/
theorem reader_accepts_grammar (room : Nat) :
    -- tokens begin with at most one expression, and its nesting is bounded by its length
    (∀ p q : Phrase, p.IsExpression → q.IsExpression →
      ∀ rest rest', p.tokens ++ rest = q.tokens ++ rest' → p = q) ∧
    (∀ p : Phrase, p.IsExpression → p.Derives p.tokens.length) ∧
    (∀ name : Text, (∃ v, Phrase.IsExpression ⟨[.symbol name], v⟩) ↔
      ∀ numeral, Numeral.ofText? name = some numeral →
        numeral.Legible ∧ numeral.overZero = false) ∧
    -- reading one expression off a stream
    (∀ s : TokenStream,
      (∀ v rest, (s.next room).1 = .ok (some v) ∧ (s.next room).2.pending = rest ↔
        ∃ taken, s.pending = taken ++ rest ∧ Phrase.Derives room ⟨taken, v⟩) ∧
      ((s.next room).1 = .ok none ↔ s.pending = [] ∧ s.terminated = true) ∧
      ((∃ failure, (s.next room).1 = .error failure) ↔
        ¬ (s.pending = [] ∧ s.terminated = true) ∧
          ∀ taken rest v, s.pending = taken ++ rest → ¬ Phrase.Derives room ⟨taken, v⟩) ∧
      (∀ taken rest v, s.pending = taken ++ rest → Phrase.IsExpression ⟨taken, v⟩ →
        ¬ Phrase.Derives room ⟨taken, v⟩ → (s.next room).1 = .error .outOfDepth)) ∧
    -- reading all expressions
    (∀ terminated tokens, ∃ phrases rest, Phrase.Leading room tokens phrases rest ∧
      (∀ others rest', Phrase.Leading room tokens others rest' → others <+: phrases) ∧
      (Program.readOnto terminated room [] tokens).exprs = phrases.map Phrase.value ∧
      ((Program.readOnto terminated room [] tokens).fault = none ↔
        rest = [] ∧ terminated = true) ∧
      ∀ taken after v, rest = taken ++ after → Phrase.IsExpression ⟨taken, v⟩ →
        (Program.readOnto terminated room [] tokens).fault = some .outOfDepth) ∧
    -- reading a text that is to hold a single one
    (∀ source v, (Value.ofSource room source = .ok v ↔
        Phrase.Derives room ⟨(Tokens.ofText source).tokens, v⟩ ∧
          (Tokens.ofText source).terminated = true) ∧
      (Phrase.IsExpression ⟨(Tokens.ofText source).tokens, v⟩ →
        ¬ Phrase.Derives room ⟨(Tokens.ofText source).tokens, v⟩ →
          Value.ofSource room source = .error .outOfDepth)) := by
  refine ⟨fun p q hp hq _ _ => hp.unique hq, fun p hp => ?_, fun name => ?_, fun s => ?_,
    fun terminated tokens => ?_,
    fun source v => ⟨Program.single_readOnto_iff, Program.single_of_too_deep⟩⟩
  · obtain ⟨n, hderives⟩ := hp
    exact hderives.length
  · rw [← Reader.ofSymbol_eq_ok_iff]
    constructor
    · rintro ⟨v, n, hderives⟩
      cases hderives with
      | symbol hv => exact ⟨v, hv⟩
    · rintro ⟨v, hv⟩
      exact ⟨v, 0, .symbol hv⟩
  · exact ⟨fun v rest => TokenStream.next_eq_some_iff, TokenStream.next_eq_none_iff,
      TokenStream.next_eq_error_iff, fun taken rest v => TokenStream.next_of_too_deep⟩
  · obtain ⟨phrases, rest, hleading, hrest, hexprs, hfault, hdeep⟩ :=
      Program.readOnto_leading terminated room [] tokens
    exact ⟨phrases, rest, hleading, fun others rest' => hleading.longest hrest, hexprs, hfault,
      hdeep⟩

/-! ### Nesting -/

namespace Phrase

/-- Empty brackets inside so many pairs of other brackets. -/
def brackets : Nat → Phrase
  | 0 => ⟨[.lparen, .rparen], .null⟩
  | n + 1 => ⟨.lparen :: ((brackets n).tokens ++ [.rparen]), .ofList [(brackets n).value]⟩

theorem derives_brackets (n : Nat) : (brackets n).Derives (n + 1) := by
  induction n with
  | zero => exact @Derives.list 0 [] (by simp) (by simp [NoLaterPoint])
  | succ n ih =>
    have hlist := @Derives.list _ [brackets n] (by simpa using ih) (by simp [NoLaterPoint])
    simpa [brackets] using hlist

end Phrase

/-- Brackets that are nested deeper than there is room for are not read. -/
theorem Reader.readFrom_brackets (terminated : Bool) {room n : Nat} (h : room ≤ n)
    (opened : List Open) (rest : List Token) :
    ∃ left, readFrom terminated room (.expression opened) ((Phrase.brackets n).tokens ++ rest) =
      .failed .outOfDepth left := by
  induction n generalizing room opened rest with
  | zero =>
    obtain rfl : room = 0 := by omega
    exact ⟨_, rfl⟩
  | succ n ih =>
    cases room with
    | zero => exact ⟨_, rfl⟩
    | succ room =>
      rw [Phrase.brackets, List.cons_append, List.append_assoc, readFrom_lparen]
      exact ih (by omega) _ _

theorem TokenStream.next_brackets {room n : Nat} (h : room ≤ n) :
    (next room ⟨none, (Phrase.brackets n).tokens, true⟩).1 = .error .outOfDepth := by
  obtain ⟨left, hleft⟩ := Reader.readFrom_brackets true h [] []
  rw [List.append_nil] at hleft
  simp [next, pending, hleft]

/-- Some expressions are nested deeper than a session allows. -/
theorem nesting_may_exceed_depth :
    ¬ ∀ (host : Host) (p : Phrase), p.IsExpression →
      (TokenStream.next host.depth ⟨none, p.tokens, true⟩).1 = .ok (some p.value) := by
  intro h
  have hroom : Host.bare.depth ≤ 19999 := by decide
  have hread := h .bare (Phrase.brackets 19999) ⟨_, Phrase.derives_brackets 19999⟩
  rw [TokenStream.next_brackets hroom] at hread
  exact nomatch hread

end RationalLisp
