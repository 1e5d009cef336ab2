import RationalLisp.Proofs.Numerals
import RationalLisp.Proofs.ReaderValues

/-!
# Tokens of printed values

The printed form of a value falls apart into the tokens it was put together from, as long as the
names in it are symbols: a symbol is printed only where a bracket, a blank or the end of the text
comes next.
-/

namespace RationalLisp

/-! ### Symbols -/

/-- A non-empty run of code points of symbols. -/
structure Text.IsSymbol (name : Text) : Prop where
  ne_nil : name ≠ []
  all : ∀ c ∈ name, c.isSymbol = true

/-- No symbol goes on at the front of the text. -/
def Text.EndsSymbol (t : Text) : Prop := ∀ c rest, t = c :: rest → c.isSymbol = false

/-- A symbol that is neither a boolean nor a numeral is the name of an atom. -/
structure Text.IsName (name : Text) : Prop extends name.IsSymbol where
  not_true : name ≠ Text.ofString "#t"
  not_false : name ≠ Text.ofString "#f"
  not_numeral : Numeral.ofText? name = none

open Text

theorem Text.endsSymbol_nil : EndsSymbol [] := fun _ _ h => nomatch h

theorem Text.endsSymbol_cons {c : CodePoint} (h : c.isSymbol = false) (rest : Text) :
    EndsSymbol (c :: rest) := by
  intro c' rest' heq
  rw [← (List.cons.inj heq).1]
  exact h

/-- The code points of symbols are those that are no gap, bracket or mark. -/
theorem CodePoint.isSymbol_iff {c : CodePoint} :
    c.isSymbol = true ↔ c.isBlank = false ∧ c ∉ delimiters := by
  simp [isSymbol]

theorem Text.IsSymbol.of_all {name : Text} (hne : name ≠ [])
    (hall : name.all CodePoint.isSymbol = true) : name.IsSymbol := ⟨hne, List.all_eq_true.mp hall⟩

theorem Text.IsSymbol.append {s t : Text} (hs : s.IsSymbol) (ht : t.IsSymbol) :
    (s ++ t).IsSymbol := by
  refine ⟨by simp [hs.ne_nil], fun c hc => ?_⟩
  obtain hc | hc := List.mem_append.mp hc
  · exact hs.all c hc
  · exact ht.all c hc

/-- The reader makes an atom of a name. -/
theorem Reader.ofSymbol_name {name : Text} (h : name.IsName) :
    ofSymbol name = .ok (.atom name) := by
  rw [ofSymbol, if_neg h.not_true, if_neg h.not_false, h.not_numeral]

/-! ### Numbers -/

theorem Decimal.isSymbol_ofNat (n : Nat) : (ofNat n).IsSymbol := by
  have hdigit : ∀ d : Digit, (CodePoint.ofDigit d).isSymbol = true := by decide
  refine ⟨ofNat_ne_nil n, fun c hc => ?_⟩
  obtain ⟨d, -, rfl⟩ := List.mem_map.mp hc
  exact hdigit d

theorem Decimal.isSymbol_ofInt (z : Int) : (ofInt z).IsSymbol := by
  cases z with
  | ofNat n => exact isSymbol_ofNat n
  | negSucc n =>
    have hminus : Text.IsSymbol [CodePoint.ofChar '-'] := .of_all (by decide) (by decide)
    exact hminus.append (isSymbol_ofNat (n + 1))

/-- Numbers are printed as symbols. -/
theorem Value.isSymbol_numberText (q : Rat) : (numberText q).IsSymbol := by
  unfold numberText
  split
  · exact Decimal.isSymbol_ofInt q.num
  · have hslash : Text.IsSymbol [CodePoint.ofChar '/'] := .of_all (by decide) (by decide)
    exact (Decimal.isSymbol_ofInt q.num).append (hslash.append (Decimal.isSymbol_ofNat q.den))

/-! ### The front of source text -/

namespace Token

theorem front_symbol {name rest : Text} (hname : name.IsSymbol) (hrest : rest.EndsSymbol) :
    front (name ++ rest) = .token (.symbol name) rest := by
  obtain ⟨c, cs, rfl⟩ := List.exists_cons_of_ne_nil hname.ne_nil
  obtain ⟨hblank, hc⟩ := CodePoint.isSymbol_iff.mp (hname.all c List.mem_cons_self)
  have hdelim : ∀ d ∈ CodePoint.delimiters, c ≠ d := fun d hd heq => hc (heq ▸ hd)
  have hcs : ∀ d ∈ cs, d.isSymbol = true := fun d hd => hname.all d (List.mem_cons_of_mem c hd)
  have hgap : dropGap false (c :: (cs ++ rest)) = c :: (cs ++ rest) := by
    have hcomment : c ≠ CodePoint.ofChar ';' := hdelim _ (by decide)
    rw [dropGap, if_neg (by simp [hblank]), if_neg hcomment]
  have htake : (cs ++ rest).takeWhile CodePoint.isSymbol = cs := by
    rw [List.takeWhile_append_of_pos hcs]
    cases rest with
    | nil => simp
    | cons d rest => simp [hrest d rest rfl]
  have hdrop : (cs ++ rest).dropWhile CodePoint.isSymbol = rest := by
    rw [List.dropWhile_append_of_pos hcs]
    cases rest with
    | nil => rfl
    | cons d rest => simp [hrest d rest rfl]
  rw [List.cons_append, front, hgap]
  simp only [htake, hdrop]
  rw [if_neg (hdelim _ (by decide)), if_neg (hdelim _ (by decide)), if_neg (hdelim _ (by decide)),
    if_neg (hdelim _ (by decide))]

theorem dropGap_cons {comment : Bool} {source : Text} {c : CodePoint} {rest : Text}
    (h : dropGap comment source = c :: rest) :
    c.isBlank = false ∧ c ≠ CodePoint.ofChar ';' := by
  fun_induction dropGap comment source with
  | case1 => exact absurd h (List.cons_ne_nil c rest).symm
  | case2 c' rest' hblank ih => exact ih h
  | case3 rest' hblank ih => exact ih h
  | case4 c' rest' hblank hcomment =>
    obtain ⟨rfl, rfl⟩ := List.cons.inj h
    exact ⟨by simpa using hblank, hcomment⟩
  | case5 c' rest' ih => exact ih h

/-- Symbols that are found in source text are symbols. -/
theorem isSymbol_of_front {source name rest : Text}
    (h : front source = .token (.symbol name) rest) : name.IsSymbol := by
  rw [front] at h
  split at h
  · exact absurd h (by simp)
  · rename_i c after hgap
    obtain ⟨hblank, hcomment⟩ := dropGap_cons hgap
    split at h
    · exact absurd h (by simp)
    split at h
    · exact absurd h (by simp)
    split at h
    · exact absurd h (by simp)
    split at h
    · split at h
      · exact absurd h (by simp)
      · exact absurd h (by simp)
    · rename_i hquote hopen hclose hstring
      simp only [Front.token.injEq, symbol.injEq] at h
      rw [← h.1]
      refine ⟨List.cons_ne_nil _ _, fun d hd => ?_⟩
      obtain rfl | hd := List.mem_cons.mp hd
      · refine CodePoint.isSymbol_iff.mpr ⟨hblank, ?_⟩
        simp [CodePoint.delimiters, hquote, hopen, hclose, hstring, hcomment]
      · exact List.all_eq_true.mp List.all_takeWhile d hd

end Token

/-! ### Scanning -/

namespace Tokens

theorem scanOnto_of_done {seen : List Token} {source : Text} (h : Token.front source = .done) :
    scanOnto seen source = ⟨seen.reverse, true⟩ := by
  rw [scanOnto]
  split <;> simp_all

theorem scanOnto_of_unterminated {seen : List Token} {source : Text}
    (h : Token.front source = .unterminated) : scanOnto seen source = ⟨seen.reverse, false⟩ := by
  rw [scanOnto]
  split <;> simp_all

theorem scanOnto_of_token {seen : List Token} {source rest : Text} {t : Token}
    (h : Token.front source = .token t rest) :
    scanOnto seen source = scanOnto (t :: seen) rest := by
  rw [scanOnto]
  split <;> simp_all

/-- What is found does not depend on the gap in front of it. -/
theorem scanOnto_congr {seen : List Token} {source source' : Text}
    (h : Token.front source = Token.front source') :
    scanOnto seen source = scanOnto seen source' := by
  cases hfront : Token.front source' with
  | done => rw [scanOnto_of_done (h.trans hfront), scanOnto_of_done hfront]
  | unterminated =>
    rw [scanOnto_of_unterminated (h.trans hfront), scanOnto_of_unterminated hfront]
  | token t rest => rw [scanOnto_of_token (h.trans hfront), scanOnto_of_token hfront]

/-- Symbols that are found in source text are symbols. -/
theorem isSymbol_of_mem_scanOnto {seen : List Token} {source name : Text}
    (hseen : ∀ name, .symbol name ∈ seen → name.IsSymbol)
    (h : .symbol name ∈ (scanOnto seen source).tokens) : name.IsSymbol := by
  fun_induction scanOnto seen source with
  | case1 => exact hseen name (by simpa using h)
  | case2 => exact hseen name (by simpa using h)
  | case3 seen source t rest hfront ih =>
    refine ih (fun name hname => ?_) h
    obtain rfl | hname := List.mem_cons.mp hname
    · exact Token.isSymbol_of_front hfront
    · exact hseen name hname

/-- In front of the rest, the source text falls apart into the tokens. -/
def Scans (source : Text) (tokens : List Token) (rest : Text) : Prop :=
  ∀ seen, scanOnto seen (source ++ rest) = scanOnto (tokens.reverse ++ seen) rest

namespace Scans

variable {source source' rest : Text} {tokens tokens' : List Token}

theorem append (h : Scans source tokens (source' ++ rest)) (h' : Scans source' tokens' rest) :
    Scans (source ++ source') (tokens ++ tokens') rest := by
  intro seen
  rw [List.append_assoc, h, h', List.reverse_append, List.append_assoc]

theorem symbol {name : Text} (hname : name.IsSymbol) (hrest : rest.EndsSymbol) :
    Scans name [.symbol name] rest :=
  fun _ => scanOnto_of_token (Token.front_symbol hname hrest)

theorem lparen (rest : Text) : Scans [CodePoint.ofChar '('] [.lparen] rest :=
  fun _ => scanOnto_of_token rfl

theorem rparen (rest : Text) : Scans [CodePoint.ofChar ')'] [.rparen] rest :=
  fun _ => scanOnto_of_token rfl

theorem blank (rest : Text) : Scans [CodePoint.ofChar ' '] [] rest := fun _ => scanOnto_congr rfl

theorem ofText (h : Scans source tokens []) : Tokens.ofText source = ⟨tokens, true⟩ := by
  have hscan := h []
  rw [List.append_nil, List.append_nil] at hscan
  rw [Tokens.ofText, hscan, scanOnto_of_done rfl, List.reverse_reverse]

end Scans

end Tokens

/-! ### Values -/

namespace Value

/-- Lists of booleans, of numbers that can be written, and of atoms whose names read as atoms. -/
def Plain : Value → Prop
  | .atom name => name.IsName
  | .num q => Decimal.Writable q.num ∧ Decimal.Writable q.den
  | .bool _ | .null => True
  | .cell head tail => head.Plain ∧ tail.Plain
  | .proc _ => False

/-- The symbol that a value is printed as, if it is printed as a symbol. -/
def word : Value → Text
  | .atom name => name
  | .num q => numberText q
  | .bool true => "#t"
  | .bool false => "#f"
  | _ => []

mutual

/-- The tokens of the printed form of a value. -/
def tokens : Value → List Token
  | .null => [.lparen, .rparen]
  | .cell head tail => .lparen :: (head.tokens ++ tail.tailTokens)
  | v => [.symbol v.word]

/-- The tokens of what follows the head of a cell. -/
def tailTokens : Value → List Token
  | .null => [.rparen]
  | .cell head tail => head.tokens ++ tail.tailTokens
  | last => [.symbol ".", .symbol last.word, .rparen]

end

/-- The value is printed as a single symbol, which reads as the value. -/
structure IsWord (v : Value) : Prop where
  isSymbol : v.word.IsSymbol
  ofSymbol : Reader.ofSymbol v.word = .ok v
  text_eq : ∀ table, v.text table = v.word
  tailText_eq : ∀ table, v.tailText table = Text.ofString " . " ++ v.word ++ Text.ofString ")"
  tokens_eq : v.tokens = [.symbol v.word]
  tailTokens_eq : v.tailTokens = [.symbol ".", .symbol v.word, .rparen]

theorem isWord_atom {name : Text} (h : (atom name).Plain) : (atom name).IsWord where
  isSymbol := Text.IsName.toIsSymbol h
  ofSymbol := Reader.ofSymbol_name h
  text_eq _ := by simp [text, word]
  tailText_eq _ := by simp [tailText, text, word]; rfl
  tokens_eq := by simp [tokens]
  tailTokens_eq := by simp [tailTokens]

theorem isWord_num {q : Rat} (h : (num q).Plain) : (num q).IsWord where
  isSymbol := isSymbol_numberText q
  ofSymbol := Reader.ofSymbol_numberText h.1 h.2
  text_eq _ := by simp [text, word]
  tailText_eq _ := by simp [tailText, text, word]; rfl
  tokens_eq := by simp [tokens]
  tailTokens_eq := by simp [tailTokens]

theorem isWord_bool (b : Bool) : (bool b).IsWord where
  isSymbol := by cases b <;> exact .of_all (by decide) (by decide)
  ofSymbol := by cases b <;> rfl
  text_eq _ := by cases b <;> simp [text, word]
  tailText_eq _ := by cases b <;> simp [tailText, text, word] <;> rfl
  tokens_eq := by simp [tokens]
  tailTokens_eq := by simp [tailTokens]

theorem endsSymbol_tailText (table : Procedures) (v : Value) (rest : Text) :
    (v.tailText table ++ rest).EndsSymbol := by
  cases v with
  | null =>
    rw [tailText]
    exact endsSymbol_cons (by decide) _
  | cell head tail =>
    rw [tailText]
    exact endsSymbol_cons (by decide) _
  | _ =>
    simp only [tailText, List.append_assoc]
    exact endsSymbol_cons (by decide) _

open Tokens

/-- A word is scanned as one symbol, and as the end of a chain together with the point. -/
theorem IsWord.scans {v : Value} (h : v.IsWord) (table : Procedures) :
    (∀ rest : Text, rest.EndsSymbol → Scans (v.text table) v.tokens rest) ∧
      ∀ rest, Scans (v.tailText table) v.tailTokens rest := by
  constructor
  · intro rest hrest
    rw [h.text_eq, h.tokens_eq]
    exact .symbol h.isSymbol hrest
  · intro rest
    have hpoint : Text.IsSymbol [CodePoint.ofChar '.'] := .of_all (by decide) (by decide)
    have hblank : ∀ t, EndsSymbol (CodePoint.ofChar ' ' :: t) := endsSymbol_cons (by decide)
    have hclose : ∀ t, EndsSymbol (CodePoint.ofChar ')' :: t) := endsSymbol_cons (by decide)
    rw [h.tailText_eq, h.tailTokens_eq]
    exact ((((Scans.blank _).append (.symbol hpoint (hblank _))).append (.blank _)).append
      (.symbol h.isSymbol (hclose _))).append (.rparen _)

/-- The printed form of a plain value falls apart into the tokens of the value. -/
theorem Plain.scans {v : Value} (h : v.Plain) (table : Procedures) :
    (∀ rest : Text, rest.EndsSymbol → Scans (v.text table) v.tokens rest) ∧
      ∀ rest, Scans (v.tailText table) v.tailTokens rest := by
  induction v with
  | atom name => exact (isWord_atom h).scans table
  | num q => exact (isWord_num h).scans table
  | bool b => exact (isWord_bool b).scans table
  | proc id => exact h.elim
  | null =>
    simp only [text, tailText, tokens, tailTokens]
    exact ⟨fun rest _ => (Scans.lparen _).append (.rparen _), fun rest => .rparen rest⟩
  | cell head tail ihhead ihtail =>
    obtain ⟨hhead, -⟩ := ihhead h.1
    obtain ⟨-, htail⟩ := ihtail h.2
    have hitems : ∀ rest, Scans (head.text table ++ tail.tailText table)
        (head.tokens ++ tail.tailTokens) rest := fun rest =>
      (hhead _ (endsSymbol_tailText table tail rest)).append (htail rest)
    simp only [text, tailText, tokens, tailTokens]
    exact ⟨fun rest _ => (Scans.lparen _).append (hitems rest),
      fun rest => (Scans.blank _).append (hitems rest)⟩

/-- The tokens of the printed form of a plain value. -/
theorem Plain.tokens_text {v : Value} (h : v.Plain) (table : Procedures) :
    Tokens.ofText (v.text table) = ⟨v.tokens, true⟩ :=
  ((h.scans table).1 [] endsSymbol_nil).ofText

end Value

end RationalLisp
