import RationalLisp.Proofs.ReadingBack
import RationalLisp.Proofs.Showing

/-!
# Printing and reading back

A value that has been printed is read back as itself exactly if it is readable: it holds no
procedures, the names in it read as atoms, and the point does not stand where it would announce the
end of a chain.

## Implementation notes

Where a point is taken for the mark in front of the last tail, the value that is read has fewer
cells than the one that was printed, so the two differ.
-/

namespace RationalLisp

namespace Value

open Reader

/-- The names of the atoms in a value. -/
def atoms : Value → List Text
  | .atom name => [name]
  | .cell head tail => head.atoms ++ tail.atoms
  | _ => []

/-- The point is not the head of a cell that is the tail of another one. -/
def PointFree : Value → Prop
  | .cell head tail => head.PointFree ∧ tail.PointFree ∧ ∀ rest, tail ≠ .cell (.atom ".") rest
  | _ => True

/-- What can be printed and read back. -/
structure Readable (v : Value) : Prop where
  procs : v.procs = []
  names : ∀ name ∈ v.atoms, name.IsName
  points : v.PointFree

theorem plain_iff (v : Value) :
    v.Plain ↔ v.procs = [] ∧ v.Printable ∧ ∀ name ∈ v.atoms, name.IsName := by
  induction v with
  | cell head tail ihhead ihtail =>
    simp only [Plain, procs, Printable, atoms, ihhead, ihtail, List.append_eq_nil_iff,
      List.mem_append, or_imp, forall_and]
    tauto
  | _ => simp [Plain, procs, Printable, atoms]

/-! ### The part of the point -/

theorem PointFree.reread_eq {v : Value} (h : v.PointFree) :
    v.reread = some v ∧ ∀ items, (∀ rest, v ≠ .cell (.atom ".") rest) →
      v.rereadTail items = some (chain items.reverse v) := by
  induction v with
  | null => simp [reread, rereadTail, ofList]
  | cell head tail ihhead ihtail =>
    obtain ⟨hhead, htail, hfirst⟩ := h
    obtain ⟨hreread, -⟩ := ihhead hhead
    obtain ⟨-, hrest⟩ := ihtail htail
    constructor
    · rw [reread, hreread, Option.bind_some, hrest [head] hfirst]
      rfl
    · intro items hpoint
      have hne : head ≠ .atom "." := by
        rintro rfl
        exact hpoint tail rfl
      rw [rereadTail, if_neg hne, hreread, Option.bind_some, hrest (head :: items) hfirst,
        chain_reverse_cons]
  | _ => simp [reread, rereadTail]

/-- The number of cells of a value. -/
def cells : Value → Nat
  | .cell head tail => head.cells + tail.cells + 1
  | _ => 0

theorem cells_chain (xs : List Value) (last : Value) :
    (chain xs last).cells = (chain xs .null).cells + last.cells := by
  induction xs with
  | nil => simp [chain, cells]
  | cons x xs ih =>
    simp only [chain, cells, ih]
    omega

/-- Reading never gives more cells than have been printed, and fewer if a point has been taken for
the mark in front of a tail. -/
structure Shrinks (v : Value) : Prop where
  value : ∀ {u}, v.reread = some u → u.cells ≤ v.cells ∧ (u.cells = v.cells → v.PointFree)
  tail : ∀ {items u}, v.rereadTail items = some u →
    u.cells ≤ (chain items.reverse v).cells ∧
      (u.cells = (chain items.reverse v).cells →
        v.PointFree ∧ ∀ rest, v ≠ .cell (.atom ".") rest)
  point : ∀ {items u}, v.rereadPoint items = some u →
    u.cells < (chain items.reverse (.cell (.atom ".") v)).cells

theorem Shrinks.cell {head tail : Value} (hhead : head.Shrinks) (htail : tail.Shrinks) :
    (cell head tail).Shrinks := by
  constructor
  · intro u hu
    rw [reread] at hu
    obtain ⟨head', hhead', hu⟩ := Option.bind_eq_some_iff.mp hu
    obtain ⟨hle, heq⟩ := hhead.value hhead'
    obtain ⟨hle', heq'⟩ := htail.tail hu
    simp only [List.reverse_singleton, chain, cells] at hle' heq' ⊢
    refine ⟨by omega, fun hcells => ?_⟩
    obtain ⟨htailFree, hfirst⟩ := heq' (by omega)
    exact ⟨heq (by omega), htailFree, hfirst⟩
  · intro items u hu
    rw [rereadTail] at hu
    by_cases hpoint : head = .atom "."
    · rw [if_pos hpoint] at hu
      have hlt := htail.point hu
      rw [hpoint]
      exact ⟨hlt.le, fun hcells => absurd hcells hlt.ne⟩
    · rw [if_neg hpoint] at hu
      obtain ⟨head', hhead', hu⟩ := Option.bind_eq_some_iff.mp hu
      obtain ⟨hle, heq⟩ := hhead.value hhead'
      obtain ⟨hle', heq'⟩ := htail.tail hu
      rw [chain_reverse_cons, cells_chain, cells] at hle' heq'
      rw [cells_chain, cells]
      refine ⟨by omega, fun hcells => ?_⟩
      obtain ⟨htailFree, hfirst⟩ := heq' (by omega)
      refine ⟨⟨heq (by omega), htailFree, hfirst⟩, fun rest hrest => ?_⟩
      cases hrest
      exact hpoint rfl
  · intro items u hu
    cases tail with
    | null =>
      rw [rereadPoint] at hu
      obtain ⟨last, hlast, rfl⟩ := Option.map_eq_some_iff.mp hu
      obtain ⟨hle, -⟩ := hhead.value hlast
      rw [cells_chain, cells_chain items.reverse (.cell _ _)]
      simp only [cells]
      omega
    | _ => simp [rereadPoint] at hu

theorem shrinks (v : Value) : v.Shrinks := by
  induction v with
  | cell head tail ihhead ihtail => exact ihhead.cell ihtail
  | _ =>
    constructor
    · simp [reread, PointFree]
    · simp +contextual [rereadTail, PointFree, ofList, eq_comm]
    · simp [rereadPoint]

/-- Only without a point in the wrong place do the tokens of a value read as the value. -/
theorem reread_eq_self_iff (v : Value) : v.reread = some v ↔ v.PointFree :=
  ⟨fun h => (v.shrinks.value h).2 rfl, fun h => h.reread_eq.1⟩

/-! ### Names -/

theorem inherited_names : Inherited fun v => ∀ name ∈ v.atoms, name.IsName where
  null := by simp [atoms]
  num := by simp [atoms]
  quote := by
    simp only [atoms, List.forall_mem_singleton]
    exact ⟨.of_all (by decide) (by decide), by decide, by decide, by decide⟩
  cell head tail hhead htail := by
    intro name hname
    obtain hname | hname := List.mem_append.mp hname
    · exact hhead name hname
    · exact htail name hname

/-- The names of all atoms that are read from source text read as atoms. -/
theorem names_of_ofSource {room : Nat} {source : Text} {v : Value}
    (h : ofSource room source = .ok v) : ∀ name ∈ v.atoms, name.IsName := by
  refine Program.ofText_all inherited_names room ?_ v (Program.single_mem h)
  intro symbol hmem u hu
  have hsymbol : symbol.IsSymbol := Tokens.isSymbol_of_mem_scanOnto (by simp) hmem
  obtain ⟨b, rfl⟩ | ⟨q, rfl⟩ | ⟨rfl, htrue, hfalse, hnumeral⟩ := ofSymbol_cases hu
  · simp [atoms]
  · simp [atoms]
  · simp only [atoms, List.forall_mem_singleton]
    exact ⟨hsymbol, htrue, hfalse, hnumeral⟩

/-- Nothing that is read from source text holds a procedure. -/
theorem procs_of_ofSource {room : Nat} {source : Text} {v : Value}
    (h : ofSource room source = .ok v) : v.procs = [] :=
  List.eq_nil_iff_forall_not_mem.mpr (within_ofSource (fun _ => False) h)

end Value

/-- A value that can be printed, and whose printed form is not nested too deep to be read, is read
back as itself if and only if it is readable. -/
theorem read_back_iff_readable (table : Procedures) (space room : Nat) (e : Value) (t : Text)
    (hwrite : e.write table space = .ok t) (hroom : e.nesting ≤ room) :
    Value.ofSource room t = .ok e ↔ e.Readable := by
  obtain ⟨hprintable, htext⟩ := Value.printable_of_write hwrite
  have hplain : e.procs = [] → (∀ name ∈ e.atoms, name.IsName) → e.Plain :=
    fun hprocs hnames => (Value.plain_iff e).mpr ⟨hprocs, hprintable, hnames⟩
  constructor
  · intro hread
    have hprocs := Value.procs_of_ofSource hread
    have hnames := Value.names_of_ofSource hread
    rw [← htext, (hplain hprocs hnames).ofSource_text table hroom] at hread
    exact ⟨hprocs, hnames, (Value.reread_eq_self_iff e).mp hread⟩
  · intro h
    rw [← htext, (hplain h.procs h.names).ofSource_text table hroom]
    exact (Value.reread_eq_self_iff e).mpr h.points

/-- The point as an atom in the places where it can stand. -/
theorem read_back_points :
    Value.ofSource 1 "(. a . .)" =
      .ok (.cell (.atom ".") (.cell (.atom "a") (.atom "."))) := by
  have hpoint : Text.IsName "." := Value.isName_point
  have ha : Text.IsName "a" := ⟨.of_all (by decide) (by decide), by decide, by decide, by decide⟩
  refine (read_back_iff_readable #[] 1 1 _ _ ?_ ?_).mpr ⟨rfl, ?_, ?_⟩
  · simp [Value.write, Value.writeTail, Value.writeLeaf, Value.text]
    rfl
  · simp [Value.nesting]
  · simp [Value.atoms, hpoint, ha]
  · simp [Value.PointFree, Text.ofString, CodePoint.ofChar_inj]

end RationalLisp
