import RationalLisp.Proofs.PrintedTokens

/-!
# Reading printed values

What the tokens of a value are read as can be said outright, as long as the value holds no
procedures and no strange names (`Value.reread`). It is the value itself unless a point stands where
the reader takes it for the mark in front of the last tail of a chain.
-/

namespace RationalLisp

namespace Value

/-- How deep brackets are nested in the printed form of a value. -/
def nesting : Value → Nat
  | .null => 1
  | .cell head tail => max (head.nesting + 1) tail.nesting
  | _ => 0

/-! ### What tokens are read as -/

mutual

/-- What the tokens of a value are read as. -/
def reread : Value → Option Value
  | .cell head tail => head.reread.bind fun head => tail.rereadTail [head]
  | v => some v

/-- What a list is read as when the given items have been read, latest first. -/
def rereadTail (items : List Value) : Value → Option Value
  | .null => some (ofList items.reverse)
  | .cell head tail =>
    if head = .atom "." then tail.rereadPoint items
    else head.reread.bind fun head => tail.rereadTail (head :: items)
  | last => some (chain items.reverse last)

/-- What a list is read as when the given items and a point have been read. -/
def rereadPoint (items : List Value) : Value → Option Value
  | .cell last .null => last.reread.map (chain items.reverse)
  | _ => none

end

end Value

namespace Reader

/-- Go on reading when a complete expression has been handed to the open forms. -/
def handOver (terminated : Bool) (room : Nat) (opened : List Open) (rest : List Token)
    (v : Value) : Reading :=
  match deliver room v opened with
  | .more room wanted => readFrom terminated room wanted rest
  | .done v => .expression v rest
  | .failed failure _ => .failed failure rest

theorem deliver_ne_failed (room : Nat) (v : Value) (opened : List Open) (failure : ReadFailure)
    (taken : Bool) : deliver room v opened ≠ .failed failure taken := by
  induction opened generalizing room v with
  | nil => exact nofun
  | cons form opened ih =>
    cases form with
    | quoted => exact ih _ _
    | list items => exact nofun
    | tail items => exact nofun

variable {terminated : Bool} {room room' : Nat} {wanted wanted' : Wanted} {opened : List Open}
variable {t : Token} {rest : List Token} {v : Value}

theorem readFrom_of_deliver (h : step room wanted t = deliver room' v opened) :
    readFrom terminated room wanted (t :: rest) = handOver terminated room' opened rest v := by
  rw [readFrom, h, handOver]
  cases hdeliver : deliver room' v opened with
  | more room wanted => rfl
  | done v => rfl
  | failed failure taken => exact absurd hdeliver (deliver_ne_failed room' v opened failure taken)

theorem readFrom_of_more (h : step room wanted t = .more room' wanted') :
    readFrom terminated room wanted (t :: rest) = readFrom terminated room' wanted' rest := by
  rw [readFrom, h]

/-- The value is not a point that an open list would take for the mark in front of its tail. -/
def Accepts (opened : List Open) (v : Value) : Prop :=
  ∀ item items outer, opened = .list (item :: items) :: outer → v ≠ .atom "."

theorem accepts_nil (v : Value) : Accepts [] v := fun _ _ _ h => nomatch h

theorem accepts_list_nil (outer : List Open) (v : Value) : Accepts (.list [] :: outer) v := nofun

theorem accepts_tail (items : List Value) (outer : List Open) (v : Value) :
    Accepts (.tail items :: outer) v := nofun

theorem accepts_of_ne {v : Value} (h : v ≠ .atom ".") (opened : List Open) : Accepts opened v :=
  fun _ _ _ _ => h

/-- A symbol is handed to the open forms, unless it is a point in its place. -/
theorem symbol_eq_deliver {name : Text} (hv : ofSymbol name = .ok v) (h : Accepts opened v) :
    symbol room name opened = deliver room v opened := by
  unfold symbol
  split
  · rename_i item items outer
    have hpoint : name ≠ Text.ofString "." := by
      rintro rfl
      exact h item items outer rfl (Except.ok.inj hv).symm
    rw [if_neg hpoint, hv]
  · rw [hv]

/-- A word is read as its value. -/
theorem readFrom_word (hv : v.IsWord) (h : Accepts opened v) :
    readFrom terminated room (.expression opened) (.symbol v.word :: rest) =
      handOver terminated room opened rest v :=
  readFrom_of_deliver (symbol_eq_deliver hv.ofSymbol h)

/-- After the first item of a list a point announces the tail. -/
theorem readFrom_point {items : List Value} (hitems : items ≠ []) :
    readFrom terminated room (.expression (.list items :: opened)) (.symbol "." :: rest) =
      readFrom terminated room (.expression (.tail items :: opened)) rest := by
  obtain ⟨item, items, rfl⟩ := List.exists_cons_of_ne_nil hitems
  exact readFrom_of_more rfl

theorem readFrom_quote :
    readFrom terminated (room + 1) (.expression opened) (.quote :: rest) =
      readFrom terminated room (.expression (.quoted :: opened)) rest := readFrom_of_more rfl

theorem readFrom_lparen :
    readFrom terminated (room + 1) (.expression opened) (.lparen :: rest) =
      readFrom terminated room (.expression (.list [] :: opened)) rest := readFrom_of_more rfl

theorem readFrom_rparen {items : List Value} :
    readFrom terminated room (.expression (.list items :: opened)) (.rparen :: rest) =
      handOver terminated (room + 1) opened rest (.ofList items.reverse) := readFrom_of_deliver rfl

theorem readFrom_close {items : List Value} :
    readFrom terminated room (.close items v opened) (.rparen :: rest) =
      handOver terminated (room + 1) opened rest (.chain items.reverse v) := readFrom_of_deliver rfl

/-- After the last tail of a chain only its bracket can follow. -/
theorem readFrom_close_of_ne {items : List Value} (h : t ≠ .rparen) :
    ∃ failure left,
      readFrom terminated room (.close items v opened) (t :: rest) = .failed failure left := by
  cases t with
  | rparen => exact absurd rfl h
  | _ => exact ⟨_, _, rfl⟩

/-- A reading goes on with a value if there is one, and has failed otherwise. -/
def Continues (next : Value → Reading) : Option Value → Reading → Prop
  | some v, r => r = next v
  | none, r => ∃ failure left, r = .failed failure left

/-- A reading that goes on with a value and then goes on from there. -/
theorem Continues.bind {next next' : Value → Reading} {o : Option Value} {f : Value → Option Value}
    {r : Reading} (h : Continues next o r) (h' : ∀ v, Continues next' (f v) (next v)) :
    Continues next' (o.bind f) r := by
  cases o with
  | none => exact h
  | some v =>
    rw [show r = next v from h]
    exact h' v

end Reader

namespace Program

variable {terminated : Bool} {room : Nat} {seen : List Value} {tokens : List Token}

theorem readOnto_of_finished
    (h : Reader.readFrom terminated room (.expression []) tokens = .finished) :
    readOnto terminated room seen tokens = ⟨seen.reverse, none⟩ := by
  rw [readOnto]
  split <;> simp_all

theorem readOnto_of_failed {failure : ReadFailure} {left : List Token}
    (h : Reader.readFrom terminated room (.expression []) tokens = .failed failure left) :
    readOnto terminated room seen tokens = ⟨seen.reverse, some failure⟩ := by
  rw [readOnto]
  split <;> simp_all

theorem readOnto_of_expression {v : Value} {rest : List Token}
    (h : Reader.readFrom terminated room (.expression []) tokens = .expression v rest) :
    readOnto terminated room seen tokens = readOnto terminated room (v :: seen) rest := by
  rw [readOnto]
  split <;> simp_all

end Program

namespace Value

open Reader

theorem tokens_head (v : Value) : ∃ t rest, v.tokens = t :: rest ∧ t ≠ .rparen := by
  cases v with
  | null => exact ⟨_, _, by rw [tokens], by simp⟩
  | cell head tail => exact ⟨_, _, by rw [tokens], by simp⟩
  | _ => exact ⟨_, _, by simp only [tokens]; rfl, by simp⟩

/-- Only the empty list ends a chain with a bracket at once. -/
theorem tailTokens_head {v : Value} (h : v ≠ .null) :
    ∃ t rest, v.tailTokens = t :: rest ∧ t ≠ .rparen := by
  cases v with
  | null => exact absurd rfl h
  | cell head tail =>
    obtain ⟨t, rest, ht, hne⟩ := head.tokens_head
    exact ⟨t, rest ++ tail.tailTokens, by rw [tailTokens, ht]; rfl, hne⟩
  | _ => exact ⟨_, _, by simp only [tailTokens]; rfl, by simp⟩

/-- How the tokens of a value are read, in each of the places where they can stand. -/
structure Reads (terminated : Bool) (v : Value) : Prop where
  value : ∀ {room opened rest}, v.nesting ≤ room → Accepts opened v →
    Continues (handOver terminated room opened rest) v.reread
      (readFrom terminated room (.expression opened) (v.tokens ++ rest))
  tail : ∀ {room items opened rest}, v.nesting ≤ room + 1 → items ≠ [] →
    Continues (handOver terminated (room + 1) opened rest) (v.rereadTail items)
      (readFrom terminated room (.expression (.list items :: opened)) (v.tailTokens ++ rest))
  point : ∀ {room items opened rest}, v.nesting ≤ room + 1 →
    Continues (handOver terminated (room + 1) opened rest) (v.rereadPoint items)
      (readFrom terminated room (.expression (.tail items :: opened)) (v.tailTokens ++ rest))

theorem IsWord.reread_eq {v : Value} (h : v.IsWord) :
    v.reread = some v ∧ (∀ items, v.rereadTail items = some (chain items.reverse v)) ∧
      ∀ items, v.rereadPoint items = none := by
  cases v with
  | null => exact absurd h.tokens_eq (by simp [tokens])
  | cell head tail => exact absurd h.tokens_eq (by simp [tokens])
  | _ => simp [reread, rereadTail, rereadPoint]

theorem isName_point : Text.IsName "." where
  toIsSymbol := .of_all (by decide) (by decide)
  not_true := by decide
  not_false := by decide
  not_numeral := by decide

variable {terminated : Bool}

theorem IsWord.reads {v : Value} (h : v.IsWord) : v.Reads terminated := by
  obtain ⟨hvalue, htail, hpoint⟩ := h.reread_eq
  constructor
  · intro room opened rest _ haccepts
    rw [hvalue, h.tokens_eq]
    exact readFrom_word h haccepts
  · intro room items opened rest _ hitems
    rw [htail, h.tailTokens_eq]
    calc readFrom terminated room (.expression (.list items :: opened))
          ([.symbol ".", .symbol v.word, .rparen] ++ rest)
        = readFrom terminated room (.expression (.tail items :: opened))
            (.symbol v.word :: .rparen :: rest) := readFrom_point hitems
      _ = readFrom terminated room (.close items v opened) (.rparen :: rest) :=
          readFrom_word h (accepts_tail items opened v)
      _ = handOver terminated (room + 1) opened rest (chain items.reverse v) := readFrom_close
  · intro room items opened rest _
    rw [hpoint, h.tailTokens_eq]
    -- the point of the chain is read as its last tail, and another symbol follows
    have hatom : readFrom terminated room (.expression (.tail items :: opened))
        ([.symbol ".", .symbol v.word, .rparen] ++ rest) =
          readFrom terminated room (.close items (.atom ".") opened)
            (.symbol v.word :: .rparen :: rest) :=
      readFrom_word (isWord_atom isName_point) (accepts_tail items opened _)
    rw [hatom]
    exact readFrom_close_of_ne (by simp)

theorem reads_null : null.Reads terminated := by
  constructor
  · intro room opened rest hroom _
    obtain ⟨room, rfl⟩ : ∃ r, room = r + 1 := ⟨room - 1, by simp [nesting] at hroom; omega⟩
    simp only [tokens, reread]
    exact readFrom_lparen.trans readFrom_rparen
  · intro room items opened rest _ _
    rw [tailTokens, rereadTail]
    exact readFrom_rparen
  · intro room items opened rest _
    simp only [tailTokens, rereadPoint]
    exact ⟨_, _, rfl⟩

theorem rereadPoint_of_ne_null {head tail : Value} (h : tail ≠ .null) (items : List Value) :
    (cell head tail).rereadPoint items = none := by
  cases tail with
  | null => exact absurd rfl h
  | _ => simp [rereadPoint]

theorem Reads.cell {head tail : Value} (hhead : head.Reads terminated)
    (htail : tail.Reads terminated) : (cell head tail).Reads terminated := by
  constructor
  · intro room opened rest hroom _
    simp only [nesting] at hroom
    obtain ⟨room, rfl⟩ : ∃ r, room = r + 1 := ⟨room - 1, by omega⟩
    rw [tokens, reread, List.cons_append, List.append_assoc, readFrom_lparen]
    exact (hhead.value (by omega) (accepts_list_nil opened head)).bind
      fun v => htail.tail (by omega) (List.cons_ne_nil v [])
  · intro room items opened rest hroom hitems
    simp only [nesting] at hroom
    rw [tailTokens, rereadTail, List.append_assoc]
    by_cases hpoint : head = .atom "."
    · have hmark : readFrom terminated room (.expression (.list items :: opened))
          (head.tokens ++ (tail.tailTokens ++ rest)) =
            readFrom terminated room (.expression (.tail items :: opened))
              (tail.tailTokens ++ rest) := by
        rw [hpoint, (isWord_atom isName_point).tokens_eq]
        exact readFrom_point hitems
      rw [if_pos hpoint, hmark]
      exact htail.point (by omega)
    · rw [if_neg hpoint]
      exact (hhead.value (by omega) (accepts_of_ne hpoint _)).bind
        fun v => htail.tail (by omega) (List.cons_ne_nil v items)
  · intro room items opened rest hroom
    simp only [nesting] at hroom
    have hlast : Continues (handOver terminated room (.tail items :: opened)
        (tail.tailTokens ++ rest)) head.reread (readFrom terminated room
          (.expression (.tail items :: opened)) (head.tokens ++ (tail.tailTokens ++ rest))) :=
      hhead.value (by omega) (accepts_tail items opened head)
    rw [tailTokens, List.append_assoc]
    by_cases hnull : tail = .null
    · subst hnull
      rw [rereadPoint, Option.map_eq_bind]
      refine hlast.bind fun v => ?_
      rw [tailTokens]
      exact readFrom_close
    · obtain ⟨t, after, htokens, hne⟩ := tailTokens_head hnull
      rw [rereadPoint_of_ne_null hnull, ← Option.bind_fun_none head.reread]
      refine hlast.bind fun v => ?_
      rw [htokens]
      exact readFrom_close_of_ne hne

/-- How the tokens of plain values are read. -/
theorem Plain.reads {v : Value} (h : v.Plain) : v.Reads terminated := by
  induction v with
  | atom name => exact (isWord_atom h).reads
  | num q => exact (isWord_num h).reads
  | bool b => exact (isWord_bool b).reads
  | proc id => exact h.elim
  | null => exact reads_null
  | cell head tail ihhead ihtail => exact (ihhead h.1).cell (ihtail h.2)

/-- What the printed form of a plain value is read as. -/
theorem Plain.ofSource_text {v : Value} (h : v.Plain) (table : Procedures) {room : Nat}
    (hroom : v.nesting ≤ room) (u : Value) :
    ofSource room (v.text table) = .ok u ↔ v.reread = some u := by
  have hread : Continues (handOver true room [] []) v.reread
      (readFrom true room (.expression []) (v.tokens ++ [])) :=
    h.reads.value hroom (accepts_nil v)
  rw [List.append_nil] at hread
  simp only [ofSource, Program.ofText, h.tokens_text table]
  cases hreread : v.reread with
  | none =>
    rw [hreread] at hread
    obtain ⟨failure, left, hfailed⟩ := hread
    rw [Program.readOnto_of_failed hfailed]
    simp [Program.single]
  | some w =>
    rw [hreread] at hread
    have hexpression : readFrom true room (.expression []) v.tokens = .expression w [] := hread
    rw [Program.readOnto_of_expression hexpression, Program.readOnto_of_finished rfl]
    simp [Program.single]

end Value

end RationalLisp
