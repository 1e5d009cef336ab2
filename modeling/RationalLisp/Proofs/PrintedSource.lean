import RationalLisp.Proofs.RoundTrip
import RationalLisp.Proofs.Showing

/-!
# Printing what has been read

Whatever the reader makes of source text holds no procedures and only names that are read as atoms,
so its printed form is read back as itself, unless a point has come to stand where it announces the
end of a chain. The reader can put it there: after a quote mark, and at the head of a list that is
the tail of another list.

## Implementation notes

A string literal is a single token, but it is printed as a quoted list. This is why the printed form
may be nested two levels deeper than the source text.
-/

namespace RationalLisp

namespace Value

/-! ### Nesting -/

theorem nesting_chain_le {n : Nat} {items : List Value} {last : Value}
    (hitems : ∀ v ∈ items, v.nesting ≤ n) (hlast : last.nesting ≤ n + 1) :
    (chain items last).nesting ≤ n + 1 := by
  induction items with
  | nil => exact hlast
  | cons v items ih =>
    have hv : v.nesting ≤ n := hitems v List.mem_cons_self
    have hrest : (chain items last).nesting ≤ n + 1 :=
      ih fun u hu => hitems u (List.mem_cons_of_mem v hu)
    rw [chain, nesting]
    omega

theorem nesting_quoted (v : Value) : v.quoted.nesting = v.nesting + 1 := by
  simp only [quoted, ofList, chain, nesting]
  omega

theorem nesting_ofText_le (t : Text) : (ofText t).nesting ≤ 1 := by
  apply nesting_chain_le _ (by simp [nesting])
  intro v hv
  obtain ⟨c, -, rfl⟩ := List.mem_map.mp hv
  simp [ofCodePoint, nesting]

/-- Values are nested at most two levels deeper than the source text they are read from. -/
theorem graded_nesting : Reader.Graded fun room v => v.nesting ≤ room + 2 where
  quoted := by
    intro room v hv
    rw [nesting_quoted]
    omega
  list hitems := nesting_chain_le hitems (by simp [nesting])
  chain hitems hlast := nesting_chain_le hitems (Nat.le_succ_of_le hlast)
  string := by
    intro room t
    have ht := nesting_ofText_le t
    rw [nesting_quoted]
    omega

theorem nesting_of_ofSource {room : Nat} {source : Text} {v : Value}
    (h : ofSource room source = .ok v) : v.nesting ≤ room + 2 := by
  refine Program.ofText_graded graded_nesting room ?_ v (Program.single_mem h)
  intro name _ u hu room
  obtain ⟨b, rfl⟩ | ⟨q, rfl⟩ | ⟨rfl, -⟩ := Reader.ofSymbol_cases hu
  all_goals simp [nesting]

/-- What has been read is plain as soon as its numbers can be printed. -/
theorem plain_of_ofSource {room : Nat} {source : Text} {v : Value}
    (h : ofSource room source = .ok v) (hprintable : v.Printable) : v.Plain :=
  (plain_iff v).mpr ⟨procs_of_ofSource h, hprintable, names_of_ofSource h⟩

end Value

/-- Let a value be read from source text, and let it have a printed form. With room for two more
levels of nesting, the printed form is read as the same value if and only if the point is nowhere
the head of a cell that is the tail of another one. -/
theorem printed_source_reads_back (table : Procedures) (room : Nat) (source : Text) (e : Value)
    (t : Text) (hread : Value.ofSource room source = .ok e) (space : Nat)
    (hwrite : e.write table space = .ok t) (room' : Nat) (hroom : room + 2 ≤ room') :
    Value.ofSource room' t = .ok e ↔ e.PointFree := by
  obtain ⟨hprintable, rfl⟩ := Value.printable_of_write hwrite
  have hplain : e.Plain := Value.plain_of_ofSource hread hprintable
  have hnesting : e.nesting ≤ room' := (Value.nesting_of_ofSource hread).trans hroom
  rw [hplain.ofSource_text table hnesting]
  exact Value.reread_eq_self_iff e

namespace PrintedSource

/-- What `(. 'a "" . (c))` is read as: the point is its first element, and its tail is a list. -/
def mixed : Value :=
  .ofList [.atom ".", .quoted (.atom "a"), .quoted (.ofText ""), .atom "c"]

/-- What a quoted point is read as. -/
def quotedPoint : Value := .quoted (.atom ".")

theorem ofSource_quotedPoint : Value.ofSource 1 "'." = .ok quotedPoint := by decide +kernel

theorem write_quotedPoint : quotedPoint.write #[] 1 = .ok (Text.ofString "(quote .)") := by cbv

/-- However much room there is, the list of `quote` and a point is not read as such. -/
theorem ofSource_show_quotedPoint (room : Nat) :
    Value.ofSource room "(quote .)" ≠ .ok quotedPoint := by
  intro hread
  obtain ⟨hprintable, htext⟩ := Value.printable_of_write write_quotedPoint
  have hplain : quotedPoint.Plain := Value.plain_of_ofSource ofSource_quotedPoint hprintable
  cases room with
  | zero =>
    have hdeep : Value.ofSource 0 "(quote .)" = .error .outOfDepth := by decide +kernel
    rw [hdeep] at hread
    exact nomatch hread
  | succ room =>
    have hnesting : quotedPoint.nesting ≤ room + 1 := by
      rw [quotedPoint, Value.nesting_quoted]
      exact Nat.succ_le_succ (Nat.zero_le room)
    rw [← htext, hplain.ofSource_text #[] hnesting, Value.reread_eq_self_iff] at hread
    exact hread.2.2 .null rfl

end PrintedSource

open PrintedSource

/-- A quotation, a string, a point in front and a list as a tail. -/
theorem printed_source_mixed :
    Value.ofSource 2 "(. 'a \"\" . (c))" = .ok mixed ∧
    mixed.write #[] 2 = .ok (Text.ofString "(. (quote a) (quote ()) c)") ∧
    Value.ofSource 4 "(. (quote a) (quote ()) c)" = .ok mixed := by
  have hread : Value.ofSource 2 "(. 'a \"\" . (c))" = .ok mixed := by decide +kernel
  have hwrite : mixed.write #[] 2 = .ok (Text.ofString "(. (quote a) (quote ()) c)") := by cbv
  refine ⟨hread, hwrite, ?_⟩
  refine (printed_source_reads_back #[] 2 _ mixed _ hread 2 hwrite 4 le_rfl).mpr ?_
  simp [mixed, Value.ofList, Value.chain, Value.quoted, Value.ofText, Value.PointFree,
    Text.ofString, CodePoint.ofChar_inj]

/-- A string literal needs no room, its printed form needs room for two levels. -/
example :
    (Value.ofSource 0 "\"\"").toOption.map (Value.write #[] 1) =
        some (.ok (Text.ofString "(quote ())")) ∧
      Value.ofSource 1 "(quote ())" = .error .outOfDepth := by cbv

/-- Not everything that is read is read back from its printed form, whatever room there is: a quoted
point is printed as a list in which the point announces a tail. -/
theorem printed_source_may_not_read_back :
    ¬ ∀ (table : Procedures) (room : Nat) (source : Text) (e : Value) (space : Nat) (t : Text),
      Value.ofSource room source = .ok e → e.write table space = .ok t →
        ∃ room', Value.ofSource room' t = .ok e := by
  intro h
  obtain ⟨room, hroom⟩ := h #[] 1 "'." quotedPoint 1 _ ofSource_quotedPoint write_quotedPoint
  exact ofSource_show_quotedPoint room hroom

end RationalLisp
