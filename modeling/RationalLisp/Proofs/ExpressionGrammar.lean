import RationalLisp.Proofs.ReadingBack

/-!
# The grammar of expressions

An expression is a symbol, a string literal, a quoted expression, or a list of expressions between
brackets, which may end in a point and a last tail. The reader accepts just these expressions, up to
the nesting that it has room for, and stops right after the first one.

## Implementation notes

The reader keeps the forms that are open on a stack. What it has taken so far is explained by that
stack: it is the beginning of the outermost form, then that of the next one, and so on, with the
expressions that each of them holds already.
-/

namespace RationalLisp

/-- Tokens together with the value that they are to denote. -/
structure Phrase where
  tokens : List Token
  value : Value

namespace Phrase

/-- The phrase is a point and nothing else. -/
def IsPoint (p : Phrase) : Prop := p.tokens = [.symbol "."]

/-- No phrase but the first is a point. -/
def NoLaterPoint (items : List Phrase) : Prop := ∀ p ∈ items.tail, ¬ p.IsPoint

/-- The phrase is an expression in which brackets and quotes are nested at most so deep. -/
inductive Derives : Nat → Phrase → Prop
  | symbol {n : Nat} {name : Text} {v : Value} : Reader.ofSymbol name = .ok v →
      Derives n ⟨[.symbol name], v⟩
  | string {n : Nat} (body : Text) :
      Derives n ⟨[.string body], (Value.ofText (Reader.unescape body)).quoted⟩
  | quoted {n : Nat} {p : Phrase} : Derives n p →
      Derives (n + 1) ⟨.quote :: p.tokens, p.value.quoted⟩
  | list {n : Nat} {items : List Phrase} : (∀ p ∈ items, Derives n p) → NoLaterPoint items →
      Derives (n + 1)
        ⟨.lparen :: (items.flatMap tokens ++ [.rparen]), .ofList (items.map value)⟩
  | dotted {n : Nat} {items : List Phrase} {last : Phrase} : items ≠ [] →
      (∀ p ∈ items, Derives n p) → NoLaterPoint items → Derives n last →
      Derives (n + 1)
        ⟨.lparen :: (items.flatMap tokens ++ .symbol "." :: (last.tokens ++ [.rparen])),
          .chain (items.map value) last.value⟩

/-- The phrase is an expression, however deep it is nested. -/
def IsExpression (p : Phrase) : Prop := ∃ n, p.Derives n

theorem Derives.mono {n m : Nat} {p : Phrase} (h : p.Derives n) (hnm : n ≤ m) : p.Derives m := by
  induction h generalizing m with
  | symbol hv => exact .symbol hv
  | string body => exact .string body
  | quoted _ ih =>
    obtain ⟨m, rfl⟩ : ∃ k, m = k + 1 := ⟨m - 1, by omega⟩
    exact .quoted (ih (by omega))
  | list _ hpoint ih =>
    obtain ⟨m, rfl⟩ : ∃ k, m = k + 1 := ⟨m - 1, by omega⟩
    exact .list (fun p hp => ih p hp (by omega)) hpoint
  | dotted hne _ hpoint _ ih ihlast =>
    obtain ⟨m, rfl⟩ : ∃ k, m = k + 1 := ⟨m - 1, by omega⟩
    exact .dotted hne (fun p hp => ih p hp (by omega)) hpoint (ihlast (by omega))

theorem length_tokens_le {p : Phrase} {items : List Phrase} (hp : p ∈ items) :
    p.tokens.length ≤ (items.flatMap tokens).length :=
  (List.sublist_flatten_of_mem (List.mem_map_of_mem hp)).length_le

/-- An expression is nested at most as deep as it has tokens. -/
theorem Derives.length {n : Nat} {p : Phrase} (h : p.Derives n) : p.Derives p.tokens.length := by
  induction h with
  | symbol hv => exact .symbol hv
  | string body => exact .string body
  | quoted _ ih => exact .quoted ih
  | @list n items _ hpoint ih =>
    have hlist := Derives.list (fun p hp => (ih p hp).mono (length_tokens_le hp)) hpoint
    exact hlist.mono (by simp)
  | @dotted n items last hne _ hpoint _ ih ihlast =>
    have hitems : ∀ p ∈ items, p.Derives ((items.flatMap tokens).length + last.tokens.length) :=
      fun p hp => (ih p hp).mono ((length_tokens_le hp).trans (Nat.le_add_right _ _))
    refine (Derives.dotted hne hitems hpoint (ihlast.mono (Nat.le_add_left _ _))).mono ?_
    simp only [List.length_cons, List.length_append, List.length_nil]
    omega

end Phrase

/-! ### Expressions are read -/

namespace Reader

open Phrase

variable {terminated : Bool} {room : Nat} {opened : List Open} {rest : List Token}

/-- The phrase is not a point that an open list would take for the mark in front of its tail. -/
def Admits (opened : List Open) (p : Phrase) : Prop :=
  ∀ item items outer, opened = .list (item :: items) :: outer → ¬ p.IsPoint

theorem admits_list {seen : List Value} {p : Phrase} (h : seen ≠ [] → ¬ p.IsPoint) :
    Admits (.list seen :: opened) p := by
  rintro item items outer heq
  cases heq
  exact h (List.cons_ne_nil _ _)

/-- The tokens of the phrase are read as its value, wherever it is admitted. -/
def Reads (terminated : Bool) (room : Nat) (p : Phrase) : Prop :=
  ∀ {opened rest}, Admits opened p →
    readFrom terminated room (.expression opened) (p.tokens ++ rest) =
      handOver terminated room opened rest p.value

theorem reads_symbol {name : Text} {v : Value} (hv : ofSymbol name = .ok v) :
    Reads terminated room ⟨[.symbol name], v⟩ := by
  intro opened rest hadmits
  refine readFrom_of_deliver (symbol_eq_deliver hv ?_)
  rintro item items outer heq rfl
  apply hadmits item items outer heq
  obtain ⟨b, hb⟩ | ⟨q, hq⟩ | ⟨hname, -⟩ := ofSymbol_cases hv
  · exact nomatch hb
  · exact nomatch hq
  · rw [← Value.atom.inj hname]
    exact Eq.refl [Token.symbol "."]

/-- Expressions after the first one of a list are added to it. -/
theorem readFrom_later {items : List Phrase} (hreads : ∀ p ∈ items, Reads terminated room p)
    (hpoint : ∀ p ∈ items, ¬ p.IsPoint) {seen : List Value} :
    readFrom terminated room (.expression (.list seen :: opened)) (items.flatMap tokens ++ rest) =
      readFrom terminated room
        (.expression (.list ((items.map value).reverse ++ seen) :: opened)) rest := by
  induction items generalizing seen with
  | nil => rfl
  | cons p items ih =>
    rw [List.forall_mem_cons] at hreads hpoint
    rw [List.flatMap_cons, List.append_assoc, hreads.1 (admits_list fun _ => hpoint.1)]
    refine (ih hreads.2 hpoint.2).trans ?_
    simp

/-- The expressions of a list are added to it one by one. -/
theorem readFrom_items {items : List Phrase} (hreads : ∀ p ∈ items, Reads terminated room p)
    (hpoint : NoLaterPoint items) :
    readFrom terminated room (.expression (.list [] :: opened)) (items.flatMap tokens ++ rest) =
      readFrom terminated room (.expression (.list (items.map value).reverse :: opened)) rest := by
  cases items with
  | nil => rfl
  | cons p items =>
    rw [List.forall_mem_cons] at hreads
    rw [List.flatMap_cons, List.append_assoc, hreads.1 (admits_list fun h => absurd rfl h)]
    refine (readFrom_later hreads.2 hpoint).trans ?_
    simp

/-- An expression is read as its value if there is room for it. -/
theorem reads_of_derives {n : Nat} {p : Phrase} (h : p.Derives n) : Reads terminated n p := by
  induction h with
  | symbol hv => exact reads_symbol hv
  | string body => exact fun _ => readFrom_of_deliver rfl
  | quoted _ ih =>
    intro opened rest _
    refine (readFrom_of_more rfl).trans (ih ?_)
    exact fun _ _ _ heq => nomatch heq
  | @list n items _ hpoint ih =>
    intro opened rest _
    simp only [List.cons_append, List.append_assoc, List.nil_append]
    rw [readFrom_lparen, readFrom_items (fun p hp => ih p hp) hpoint, readFrom_rparen,
      List.reverse_reverse]
  | @dotted n items last hne _ hpoint _ ih ihlast =>
    intro opened rest _
    have hvalues : (items.map value).reverse ≠ [] := by simpa using hne
    have hlast : Admits (.tail (items.map value).reverse :: opened) last := nofun
    simp only [List.cons_append, List.append_assoc, List.nil_append]
    rw [readFrom_lparen, readFrom_items (fun p hp => ih p hp) hpoint, readFrom_point hvalues,
      ihlast hlast]
    refine readFrom_close.trans ?_
    rw [List.reverse_reverse]

/-! ### Only expressions are read -/

/-- The items of an open list, latest first, are the values of these expressions. -/
structure Items (room : Nat) (seen : List Value) (items : List Phrase) : Prop where
  values : seen = (items.map value).reverse
  derive : ∀ p ∈ items, p.Derives room
  points : NoLaterPoint items

theorem Items.nil (room : Nat) : Items room [] [] := ⟨rfl, by simp, by simp [NoLaterPoint]⟩

theorem Items.add {seen : List Value} {items : List Phrase} (h : Items room seen items) {p : Phrase}
    (hp : p.Derives room) (hpoint : seen ≠ [] → ¬ p.IsPoint) :
    Items room (p.value :: seen) (items ++ [p]) where
  values := by simp [h.values]
  derive := by
    intro q hq
    obtain hq | hq := List.mem_append.mp hq
    · exact h.derive q hq
    · rw [List.mem_singleton.mp hq]
      exact hp
  points := by
    cases items with
    | nil => simp [NoLaterPoint]
    | cons first items =>
      intro q hq
      obtain hq | hq := List.mem_append.mp hq
      · exact h.points q hq
      · rw [List.mem_singleton.mp hq]
        exact hpoint (by simp [h.values])

/-- The tokens taken so far are the beginnings of the open forms, the outermost one first. Outside
all forms there is as much room as the limit says. -/
inductive Began (limit : Nat) : Nat → List Open → List Token → Prop
  | outside : Began limit limit [] []
  | quoted {room : Nat} {opened : List Open} {taken : List Token} :
      Began limit (room + 1) opened taken →
      Began limit room (.quoted :: opened) (taken ++ [.quote])
  | list {room : Nat} {opened : List Open} {taken : List Token} {seen : List Value}
      {items : List Phrase} : Items room seen items → Began limit (room + 1) opened taken →
      Began limit room (.list seen :: opened) (taken ++ .lparen :: items.flatMap tokens)
  | tail {room : Nat} {opened : List Open} {taken : List Token} {seen : List Value}
      {items : List Phrase} : Items room seen items → items ≠ [] →
      Began limit (room + 1) opened taken →
      Began limit room (.tail seen :: opened)
        (taken ++ .lparen :: (items.flatMap tokens ++ [.symbol "."]))

/-- What is wanted goes on from the tokens taken so far. -/
inductive Wanted.After (limit : Nat) : Nat → Wanted → List Token → Prop
  | expression {room : Nat} {opened : List Open} {taken : List Token} :
      Began limit room opened taken → After limit room (.expression opened) taken
  | close {room : Nat} {opened : List Open} {taken : List Token} {seen : List Value}
      {items : List Phrase} {last : Phrase} : Items room seen items → items ≠ [] →
      last.Derives room → Began limit (room + 1) opened taken →
      After limit room (.close seen last.value opened)
        (taken ++ .lparen :: (items.flatMap tokens ++ .symbol "." :: last.tokens))

/-- What the last of the tokens taken so far has led to. -/
def Step.After (limit : Nat) (taken : List Token) : Step → Prop
  | .more room wanted => wanted.After limit room taken
  | .done v => Derives limit ⟨taken, v⟩
  | .failed .. => True

variable {limit : Nat} {taken : List Token}

theorem admits_of_not_isPoint {p : Phrase} (h : ¬ p.IsPoint) (opened : List Open) :
    Admits opened p := fun _ _ _ _ => h

/-- An expression that is handed to the open forms goes on from where it was read. -/
theorem deliver_after {p : Phrase} (hp : p.Derives room) (hadmits : Admits opened p)
    (ho : Began limit room opened taken) :
    (deliver room p.value opened).After limit (taken ++ p.tokens) := by
  induction ho generalizing p with
  | outside => exact hp
  | @quoted room opened taken _ ih =>
    rw [List.append_assoc]
    exact ih (.quoted hp) (admits_of_not_isPoint (by simp [IsPoint]) opened)
  | @list room opened taken seen items hitems ho _ =>
    have hpoint : seen ≠ [] → ¬ p.IsPoint := by
      intro hne
      obtain ⟨item, seen, rfl⟩ := List.exists_cons_of_ne_nil hne
      exact hadmits item seen opened rfl
    have hmore := Began.list (hitems.add hp hpoint) ho
    simp only [List.flatMap_append, List.flatMap_singleton] at hmore
    rw [List.append_assoc, List.cons_append]
    exact .expression hmore
  | @tail room opened taken seen items hitems hne ho _ =>
    simp only [List.append_assoc, List.cons_append, List.nil_append]
    exact .close hitems hne hp ho

theorem symbol_after {name : Text} (ho : Began limit room opened taken) :
    (symbol room name opened).After limit (taken ++ [.symbol name]) := by
  have hdeliver : ∀ {v}, ofSymbol name = .ok v → Admits opened ⟨[.symbol name], v⟩ →
      (deliver room v opened).After limit (taken ++ [.symbol name]) :=
    fun hv hadmits => deliver_after (.symbol hv) hadmits ho
  unfold symbol
  split
  · rename_i item items outer
    split
    · rename_i hname
      subst hname
      cases ho with
      | @list _ _ taken _ phrases hitems ho =>
        have hne : phrases ≠ [] := by
          rintro rfl
          exact nomatch hitems.values
        rw [List.append_assoc, List.cons_append]
        exact .expression (.tail hitems hne ho)
    · rename_i hname
      split
      · rename_i v hv
        exact hdeliver hv (admits_of_not_isPoint (by simpa [IsPoint] using hname) _)
      · trivial
  · rename_i hopened
    split
    · rename_i v hv
      exact hdeliver hv fun item items outer heq => absurd heq (hopened item items outer)
    · trivial

theorem step_after {wanted : Wanted} (hw : wanted.After limit room taken) (t : Token) :
    (step room wanted t).After limit (taken ++ [t]) := by
  cases hw with
  | close hitems hne hlast ho =>
    rename_i items last
    cases t with
    | rparen =>
      have hphrase := Derives.dotted hne hitems.derive hitems.points hlast
      have hdone := deliver_after hphrase (admits_of_not_isPoint (by simp [IsPoint]) _) ho
      simp only [List.append_assoc, List.cons_append]
      rwa [step, hitems.values, List.reverse_reverse]
    | _ => trivial
  | expression ho =>
    cases t with
    | symbol name => exact symbol_after ho
    | string body =>
      exact deliver_after (.string body) (admits_of_not_isPoint (by simp [IsPoint]) _) ho
    | quote =>
      cases room with
      | zero => trivial
      | succ room => exact .expression (.quoted ho)
    | lparen =>
      cases room with
      | zero => trivial
      | succ room => exact .expression (.list (.nil room) ho)
    | rparen =>
      cases ho with
      | list hitems ho =>
        have hphrase := Derives.list hitems.derive hitems.points
        have hdone := deliver_after hphrase (admits_of_not_isPoint (by simp [IsPoint]) _) ho
        simp only [List.append_assoc, List.cons_append]
        rwa [step, hitems.values, List.reverse_reverse]
      | _ => trivial

/-- What has come of reading one expression off the tokens. -/
def Reading.Of (limit : Nat) (terminated : Bool) (tokens : List Token) : Reading → Prop
  | .finished => tokens = [] ∧ terminated = true
  | .expression v rest => ∃ taken, tokens = taken ++ rest ∧ Derives limit ⟨taken, v⟩
  | .failed .. => True

/-- What the reader comes to goes on from the tokens taken so far. -/
theorem readFrom_after {wanted : Wanted} (hw : wanted.After limit room taken)
    (tokens : List Token) :
    (readFrom terminated room wanted tokens).Of limit terminated (taken ++ tokens) := by
  induction tokens generalizing room wanted taken with
  | nil =>
    rw [List.append_nil, readFrom, atEnd]
    split
    · rename_i hterminated
      cases hw with
      | close => trivial
      | expression ho =>
        cases ho with
        | outside => exact ⟨rfl, hterminated⟩
        | _ => trivial
    · trivial
  | cons t tokens ih =>
    have hstep := step_after hw t
    rw [readFrom]
    cases hnext : step room wanted t with
    | more room wanted =>
      rw [hnext] at hstep
      have hrest := ih hstep
      rwa [List.append_assoc] at hrest
    | done v =>
      rw [hnext] at hstep
      exact ⟨taken ++ [t], by simp, hstep⟩
    | failed failure isTaken => trivial

theorem readFrom_of (terminated : Bool) (room : Nat) (tokens : List Token) :
    (readFrom terminated room (.expression []) tokens).Of room terminated tokens :=
  readFrom_after (.expression .outside) tokens

variable {tokens : List Token} {v : Value}

/-- The reader gives an expression and what follows it if and only if the tokens begin with that
expression. -/
theorem readFrom_eq_expression_iff :
    readFrom terminated room (.expression []) tokens = .expression v rest ↔
      ∃ taken, tokens = taken ++ rest ∧ Derives room ⟨taken, v⟩ := by
  constructor
  · intro h
    have hread := readFrom_of terminated room tokens
    rwa [h] at hread
  · rintro ⟨taken, rfl, hderives⟩
    exact reads_of_derives hderives nofun

theorem not_derives_of_readFrom {r : Reading}
    (h : readFrom terminated room (.expression []) tokens = r)
    (hr : ∀ v rest, r ≠ .expression v rest) :
    ∀ taken rest v, tokens = taken ++ rest → ¬ Derives room ⟨taken, v⟩ := by
  intro taken rest v heq hderives
  exact hr v rest (h.symm.trans (readFrom_eq_expression_iff.mpr ⟨taken, heq, hderives⟩))

/-- The reader finds nothing exactly if there is nothing. -/
theorem readFrom_eq_finished_iff :
    readFrom terminated room (.expression []) tokens = .finished ↔
      tokens = [] ∧ terminated = true := by
  constructor
  · intro h
    have hread := readFrom_of terminated room tokens
    rwa [h] at hread
  · rintro ⟨rfl, rfl⟩
    rfl

/-! ### More room -/

/-- The same step with more room left. -/
def Step.widen (k : Nat) : Step → Step
  | .more room wanted => .more (room + k) wanted
  | .done v => .done v
  | .failed failure taken => .failed failure taken

theorem deliver_add (room k : Nat) (v : Value) (opened : List Open) :
    deliver (room + k) v opened = (deliver room v opened).widen k := by
  induction opened generalizing room v with
  | nil => rfl
  | cons form opened ih =>
    cases form with
    | quoted =>
      rw [deliver, deliver, Nat.add_right_comm]
      exact ih (room + 1) v.quoted
    | list items => rfl
    | tail items => rfl

theorem symbol_add (room k : Nat) (name : Text) (opened : List Open) :
    symbol (room + k) name opened = (symbol room name opened).widen k := by
  unfold symbol
  split
  · split
    · rfl
    · split
      · exact deliver_add ..
      · rfl
  · split
    · exact deliver_add ..
    · rfl

/-- More room matters only to a step that finds none. -/
theorem step_add (room k : Nat) (wanted : Wanted) (t : Token) :
    step (room + k) wanted t = (step room wanted t).widen k ∨
      step room wanted t = .failed .outOfDepth true := by
  have hbegin : ∀ form opened, begin (room + k) form opened = (begin room form opened).widen k ∨
      begin room form opened = .failed .outOfDepth true := by
    intro form opened
    cases room with
    | zero => exact .inr rfl
    | succ room =>
      rw [Nat.add_right_comm]
      exact .inl rfl
  have hdeliver : ∀ v opened,
      deliver (room + k + 1) v opened = (deliver (room + 1) v opened).widen k := by
    intro v opened
    rw [Nat.add_right_comm]
    exact deliver_add ..
  cases wanted with
  | close items tail opened =>
    cases t with
    | rparen => exact .inl (hdeliver _ opened)
    | _ => exact .inl rfl
  | expression opened =>
    cases t with
    | symbol name => exact .inl (symbol_add ..)
    | string body => exact .inl (deliver_add ..)
    | quote => exact hbegin .quoted opened
    | lparen => exact hbegin (.list []) opened
    | rparen =>
      rcases opened with _ | ⟨_ | items | items, opened⟩
      case cons.list => exact .inl (hdeliver _ opened)
      all_goals exact .inl rfl

theorem readFrom_add (terminated : Bool) (room k : Nat) (wanted : Wanted) (tokens : List Token) :
    readFrom terminated (room + k) wanted tokens = readFrom terminated room wanted tokens ∨
      ∃ rest, readFrom terminated room wanted tokens = .failed .outOfDepth rest := by
  induction tokens generalizing room wanted with
  | nil => exact .inl rfl
  | cons t tokens ih =>
    rw [readFrom, readFrom]
    obtain hstep | hstep := step_add room k wanted t
    · rw [hstep]
      cases step room wanted t with
      | more room wanted => exact ih room wanted
      | done v => exact .inl rfl
      | failed failure taken => exact .inl rfl
    · rw [hstep]
      exact .inr ⟨tokens, rfl⟩

/-- An expression is read, or there is no room for it. -/
theorem readFrom_of_isExpression {taken : List Token} (h : IsExpression ⟨taken, v⟩)
    (terminated : Bool) (room : Nat) (rest : List Token) :
    readFrom terminated room (.expression []) (taken ++ rest) = .expression v rest ∨
      ∃ left, readFrom terminated room (.expression []) (taken ++ rest) =
        .failed .outOfDepth left := by
  obtain ⟨n, hderives⟩ := h
  obtain hmore | hcut := readFrom_add terminated room n (.expression []) (taken ++ rest)
  · refine .inl (hmore.symm.trans ?_)
    exact readFrom_eq_expression_iff.mpr ⟨taken, rfl, hderives.mono (Nat.le_add_left n room)⟩
  · exact .inr hcut

end Reader

/-- Tokens begin with at most one expression. -/
theorem Phrase.IsExpression.unique {p q : Phrase} (hp : p.IsExpression) (hq : q.IsExpression)
    {rest rest' : List Token} (h : p.tokens ++ rest = q.tokens ++ rest') : p = q := by
  obtain ⟨n, hp⟩ := hp
  obtain ⟨m, hq⟩ := hq
  have hread : ∀ {p : Phrase} {rest}, p.Derives (max n m) →
      Reader.readFrom true (max n m) (.expression []) (p.tokens ++ rest) =
        .expression p.value rest :=
    fun hp => Reader.readFrom_eq_expression_iff.mpr ⟨_, rfl, hp⟩
  have hboth := (hread (hp.mono (le_max_left n m))).symm.trans
    ((congrArg _ h).trans (hread (hq.mono (le_max_right n m))))
  obtain ⟨hvalue, rfl⟩ := Reader.Reading.expression.inj hboth
  obtain ⟨tokens, value⟩ := p
  obtain rfl : tokens = q.tokens := List.append_cancel_right h
  rw [show value = q.value from hvalue]

end RationalLisp
