import RationalLisp.Proofs.Contents

/-!
# Values that the reader builds

The reader makes values from symbols, numbers, the atom `quote`, the empty list and cells. A
property that these have, and that cells inherit from their parts, holds of everything that is
read. In particular nothing that is read holds a procedure.
-/

namespace RationalLisp

namespace Reader

/-- The property holds of what every token list is made into, apart from symbols. -/
structure Inherited (P : Value → Prop) : Prop where
  null : P .null
  num : ∀ q, P (.num q)
  quote : P (.atom "quote")
  cell : ∀ head tail, P head → P tail → P (.cell head tail)

/-- The property, which may depend on the room that is left, is handed on from the parts of a form
to the form. There is more room outside a form than in it. -/
structure Graded (P : Nat → Value → Prop) : Prop where
  quoted : ∀ {room v}, P room v → P (room + 1) v.quoted
  list : ∀ {room items}, (∀ v ∈ items, P room v) → P (room + 1) (.ofList items)
  chain : ∀ {room items last}, (∀ v ∈ items, P room v) → P room last →
    P (room + 1) (.chain items last)
  string : ∀ room t, P room (Value.ofText t).quoted

theorem Inherited.chain {P : Value → Prop} (hP : Inherited P) {xs : List Value} {last : Value}
    (hxs : ∀ v ∈ xs, P v) (hlast : P last) : P (Value.chain xs last) := by
  induction xs with
  | nil => exact hlast
  | cons x xs ih =>
    exact hP.cell x _ (hxs x List.mem_cons_self)
      (ih fun v hv => hxs v (List.mem_cons_of_mem _ hv))

theorem Inherited.quoted {P : Value → Prop} (hP : Inherited P) {v : Value} (hv : P v) :
    P v.quoted :=
  hP.cell _ _ hP.quote (hP.cell _ _ hv hP.null)

theorem Inherited.ofText {P : Value → Prop} (hP : Inherited P) (t : Text) :
    P (Value.ofText t) := by
  apply hP.chain _ hP.null
  intro v hv
  obtain ⟨c, -, rfl⟩ := List.mem_map.mp hv
  exact hP.num _

/-- A property that does not depend on the room. -/
theorem Inherited.graded {P : Value → Prop} (hP : Inherited P) : Graded fun _ => P where
  quoted := hP.quoted
  list h := hP.chain h hP.null
  chain := hP.chain
  string _ t := hP.quoted (hP.ofText t)

/-- The property holds of the items of an open form. -/
def Open.All (P : Value → Prop) : Open → Prop
  | .quoted => True
  | .list items | .tail items => ∀ v ∈ items, P v

/-- The property holds of the items of all open forms, each with the room that is left in it. -/
def OpenedAll (P : Nat → Value → Prop) : Nat → List Open → Prop
  | _, [] => True
  | room, form :: opened => form.All (P room) ∧ OpenedAll P (room + 1) opened

/-- The property holds of all that has been read so far. Outside all forms there is as much room as
the limit says. -/
def Wanted.All (P : Nat → Value → Prop) (limit room : Nat) : Wanted → Prop
  | .expression opened => room + opened.length = limit ∧ OpenedAll P room opened
  | .close items tail opened => room + 1 + opened.length = limit ∧ (∀ v ∈ items, P room v) ∧
      P room tail ∧ OpenedAll P (room + 1) opened

/-- The property holds of all that a token leads to. -/
def Step.All (P : Nat → Value → Prop) (limit : Nat) : Step → Prop
  | .more room wanted => wanted.All P limit room
  | .done v => P limit v
  | .failed .. => True

variable {P : Nat → Value → Prop} {limit room : Nat} {opened : List Open}

theorem deliver_all (hP : Graded P) {v : Value} (hv : P room v)
    (hlimit : room + opened.length = limit) (ho : OpenedAll P room opened) :
    (deliver room v opened).All P limit := by
  induction opened generalizing room v with
  | nil => exact hlimit ▸ hv
  | cons form opened ih =>
    obtain ⟨hform, hrest⟩ := ho
    rw [List.length_cons] at hlimit
    cases form with
    | quoted => exact ih (hP.quoted hv) (by omega) hrest
    | list items =>
      refine ⟨hlimit, fun x hx => ?_, hrest⟩
      rcases List.mem_cons.mp hx with rfl | hx
      · exact hv
      · exact hform x hx
    | tail items => exact ⟨by omega, hform, hv, hrest⟩

theorem begin_all {form : Open} (hform : ∀ room, form.All (P room))
    (hlimit : room + opened.length = limit) (ho : OpenedAll P room opened) :
    (begin room form opened).All P limit := by
  cases room with
  | zero => trivial
  | succ room => exact ⟨by rw [List.length_cons]; omega, hform room, ho⟩

theorem deliver_ofSymbol_all (hP : Graded P) {name : Text}
    (hname : ∀ v, ofSymbol name = .ok v → P room v) (hlimit : room + opened.length = limit)
    (ho : OpenedAll P room opened) :
    Step.All P limit (match ofSymbol name with
      | .ok v => deliver room v opened
      | .error failure => .failed failure true) := by
  split
  · rename_i v hv
    exact deliver_all hP (hname v hv) hlimit ho
  · trivial

theorem symbol_all (hP : Graded P) {name : Text}
    (hname : ∀ v, ofSymbol name = .ok v → P room v) (hlimit : room + opened.length = limit)
    (ho : OpenedAll P room opened) : (symbol room name opened).All P limit := by
  unfold symbol
  split
  · split
    · -- the point turns the list into one that waits for its tail
      exact ⟨hlimit, ho.1, ho.2⟩
    · exact deliver_ofSymbol_all hP hname hlimit ho
  · exact deliver_ofSymbol_all hP hname hlimit ho

theorem step_all (hP : Graded P) {wanted : Wanted} (hw : wanted.All P limit room) {t : Token}
    (ht : ∀ name, t = .symbol name → ∀ v, ofSymbol name = .ok v → P room v) :
    (step room wanted t).All P limit := by
  unfold step
  split
  · obtain ⟨hlimit, hitems, htail, ho⟩ := hw
    exact deliver_all hP (hP.chain (by simpa using hitems) htail) hlimit ho
  · trivial
  · rename_i name
    exact symbol_all hP (ht name rfl) hw.1 hw.2
  · exact deliver_all hP (hP.string room _) hw.1 hw.2
  · exact begin_all (fun _ => trivial) hw.1 hw.2
  · exact begin_all (fun _ => by simp [Open.All]) hw.1 hw.2
  · rename_i items opened
    obtain ⟨hlimit, hform, ho⟩ := hw
    have hitems : ∀ v ∈ items, P room v := hform
    rw [List.length_cons] at hlimit
    exact deliver_all hP (hP.list (by simpa using hitems)) (by omega) ho
  · trivial

/-- An expression read from tokens has the property if the values of the symbols have it. -/
theorem readFrom_all (hP : Graded P) {terminated : Bool} {wanted : Wanted}
    (hw : wanted.All P limit room) {tokens : List Token}
    (ht : ∀ name, .symbol name ∈ tokens → ∀ v, ofSymbol name = .ok v → ∀ room, P room v)
    {v : Value} {rest : List Token}
    (h : readFrom terminated room wanted tokens = .expression v rest) :
    P limit v ∧ ∃ taken, tokens = taken ++ rest := by
  induction tokens generalizing room wanted with
  | nil =>
    simp only [readFrom, atEnd] at h
    split at h
    · split at h <;> simp at h
    · simp at h
  | cons t tokens ih =>
    have hstep := step_all hP hw (t := t)
      (fun name hname v hv => ht name (hname ▸ List.mem_cons_self) v hv room)
    simp only [readFrom] at h
    split at h
    · rename_i hmore
      rw [hmore] at hstep
      obtain ⟨hv, taken, rfl⟩ :=
        ih hstep (fun name hname => ht name (List.mem_cons_of_mem _ hname)) h
      exact ⟨hv, t :: taken, rfl⟩
    · rename_i hdone
      rw [hdone] at hstep
      simp only [Reading.expression.injEq] at h
      obtain ⟨rfl, rfl⟩ := h
      exact ⟨hstep, [t], rfl⟩
    · simp at h

end Reader

namespace Program

theorem readOnto_all {P : Nat → Value → Prop} (hP : Reader.Graded P) {terminated : Bool}
    {room : Nat} {seen : List Value} (hseen : ∀ v ∈ seen, P room v) {tokens : List Token}
    (ht : ∀ name, .symbol name ∈ tokens → ∀ v, Reader.ofSymbol name = .ok v → ∀ room, P room v) :
    ∀ v ∈ (readOnto terminated room seen tokens).exprs, P room v := by
  fun_induction readOnto terminated room seen tokens with
  | case1 => simpa using hseen
  | case2 => simpa using hseen
  | case3 seen tokens v rest h ih =>
    have hwanted : (Reader.Wanted.expression []).All P room room := ⟨rfl, trivial⟩
    obtain ⟨hv, taken, rfl⟩ := Reader.readFrom_all hP hwanted ht h
    apply ih
    · intro x hx
      rcases List.mem_cons.mp hx with rfl | hx
      · exact hv
      · exact hseen x hx
    · exact fun name hname => ht name (List.mem_append_right _ hname)

/-- The expressions of a text have the property if the values of its symbols have it. -/
theorem ofText_graded {P : Nat → Value → Prop} (hP : Reader.Graded P) (room : Nat) {source : Text}
    (ht : ∀ name, .symbol name ∈ (Tokens.ofText source).tokens →
      ∀ v, Reader.ofSymbol name = .ok v → ∀ room, P room v) :
    ∀ v ∈ (ofText room source).exprs, P room v :=
  readOnto_all hP (by simp) ht

theorem ofText_all {P : Value → Prop} (hP : Reader.Inherited P) (room : Nat) {source : Text}
    (ht : ∀ name, .symbol name ∈ (Tokens.ofText source).tokens →
      ∀ v, Reader.ofSymbol name = .ok v → P v) :
    ∀ v ∈ (ofText room source).exprs, P v :=
  ofText_graded hP.graded room fun name hname v hv _ => ht name hname v hv

theorem single_mem {p : Program} {v : Value} (h : p.single = .ok v) : v ∈ p.exprs := by
  unfold single at h
  split at h
  · simp at h
  · rename_i u _ hu
    simp only [Except.ok.injEq] at h
    simp [hu, h]
  · simp at h

end Program

/-! ### Procedures -/

/-- No procedure occurs in the value. -/
theorem Reader.inherited_within (allowed : ProcId → Prop) :
    Reader.Inherited (Value.Within allowed) where
  null := by simp
  num := by simp
  quote := by simp
  cell := by simp +contextual

/-- A symbol reads as a boolean, as a number, or as the atom of that name. -/
theorem Reader.ofSymbol_cases {name : Text} {v : Value} (h : ofSymbol name = .ok v) :
    (∃ b, v = .bool b) ∨ (∃ q, v = .num q) ∨
      v = .atom name ∧ name ≠ Text.ofString "#t" ∧ name ≠ Text.ofString "#f" ∧
        Numeral.ofText? name = none := by
  unfold ofSymbol at h
  split at h
  · exact .inl ⟨true, (Except.ok.inj h).symm⟩
  split at h
  · exact .inl ⟨false, (Except.ok.inj h).symm⟩
  rename_i htrue hfalse
  split at h
  · rename_i hnumeral
    exact .inr (.inr ⟨(Except.ok.inj h).symm, htrue, hfalse, hnumeral⟩)
  split at h
  · exact nomatch h
  split at h
  · exact nomatch h
  · exact .inr (.inl ⟨_, (Except.ok.inj h).symm⟩)

theorem Reader.within_ofSymbol (allowed : ProcId → Prop) {name : Text} {v : Value}
    (h : Reader.ofSymbol name = .ok v) : v.Within allowed := by
  obtain ⟨b, rfl⟩ | ⟨q, rfl⟩ | ⟨rfl, -⟩ := ofSymbol_cases h
  all_goals simp

/-- Source text holds no procedures. -/
theorem Program.within_ofText (allowed : ProcId → Prop) (room : Nat) (source : Text) :
    ∀ v ∈ (Program.ofText room source).exprs, v.Within allowed :=
  Program.ofText_all (Reader.inherited_within allowed) room
    (fun _ _ _ h => Reader.within_ofSymbol allowed h)

theorem Value.within_ofSource (allowed : ProcId → Prop) {room : Nat} {source : Text} {v : Value}
    (h : Value.ofSource room source = .ok v) : v.Within allowed :=
  Program.within_ofText allowed room source v (Program.single_mem h)

end RationalLisp
