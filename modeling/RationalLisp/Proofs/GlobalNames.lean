import RationalLisp.Proofs.BigSteps
import RationalLisp.Proofs.OrderlyStores

/-!
# Global names

The primitives and the procedures that a program defines for all to use have their names in the
global frame. Closures over that frame find them from inside their own scope, as long as no
parameter has the same name. A name keeps its meaning while procedures are added, other names are
bound and scopes are entered.
-/

namespace RationalLisp

/-- A longer table has the same procedures in the places of the shorter one. -/
theorem Procedures.get_of_prefix {table table' : Procedures} (h : table.toList <+: table'.toList)
    {id : ProcId} (hid : id < table.size) : table'.get id = table.get id := by
  obtain ⟨more, hmore⟩ := h
  have hlist : table'.toList[id]? = table.toList[id]? := by
    rw [← hmore]
    exact List.getElem?_append_left hid
  unfold Procedures.get
  rw [Array.getD_eq_getD_getElem?, Array.getD_eq_getD_getElem?, ← Array.getElem?_toList,
    ← Array.getElem?_toList, hlist]

namespace Store

variable {s t u : Store} {name : Text} {p : Procedure} {frame : Frame}

theorem get?_bindAt_self {id : FrameId} (h : id < s.frames.size) (name : Text) (v : Value) :
    ((s.bindAt id name v).frame id).get? name = some v := by
  have hframe : (s.bindAt id name v).frame id = (s.frame id).set name v := by
    simp only [Store.frame, bindAt, Array.getD_eq_getD_getElem?, Array.getElem?_modify, if_true,
      Array.getElem?_eq_getElem h]
    rfl
  rw [hframe, Frame.get?_set_self]

theorem get?_bindAt_of_ne {id other : FrameId} {n : Text} (h : name ≠ n) (v : Value) :
    ((s.bindAt id name v).frame other).get? n = (s.frame other).get? n := by
  obtain hsame | hset := s.frame_bindAt id name v other
  · rw [hsame]
  · rw [hset, Frame.get?_set_of_ne v _ h]

theorem lookup?_enter {v : Value} (h : frame.get? name = some v) (base : Stack) :
    (s.enter frame base).lookup? name = some v := by
  change (s.enter frame base).lookupIn name (s.frames.size :: base) = some v
  rw [lookupIn, frame_enter_size, h]

/-! ### Definitions -/

/-- In the global frame the name stands for the procedure. -/
def Defines (s : Store) (name : Text) (p : Procedure) : Prop :=
  ∃ id, id < s.procedures.size ∧ (s.frame 0).get? name = some (.proc id) ∧
    s.procedures.get id = p

/-- Give a new procedure a name in the global frame. -/
def define (s : Store) (name : Text) (p : Procedure) : Store :=
  (s.allocate p).bindAt 0 name (.proc s.procedures.size)

namespace Defines

/-- A name keeps its meaning as long as it is not bound again. -/
theorem mono (h : s.Defines name p) (htable : s.procedures.toList <+: t.procedures.toList)
    (hname : (t.frame 0).get? name = (s.frame 0).get? name) : t.Defines name p := by
  obtain ⟨id, hid, hget, hp⟩ := h
  refine ⟨id, Nat.lt_of_lt_of_le hid htable.length_le, hname.trans hget, ?_⟩
  rw [Procedures.get_of_prefix htable hid, hp]

/-- There is a global frame. -/
theorem frames_pos (h : s.Defines name p) : 0 < s.frames.size := by
  obtain ⟨id, -, hget, -⟩ := h
  by_contra hnone
  rw [frame_of_size_le (Nat.le_of_not_lt hnone)] at hget
  exact nomatch hget

theorem standsFor (h : s.Defines name p) (hstack : s.stack = [0]) : s.StandsFor name p := by
  obtain ⟨id, -, hget, hp⟩ := h
  refine ⟨id, ?_, hp⟩
  rw [lookup?, hstack, lookupIn, hget]

theorem enter (h : s.Defines name p) (frame : Frame) (base : Stack) :
    (s.enter frame base).Defines name p := by
  refine h.mono List.prefix_rfl ?_
  rw [frame_enter_of_ne h.frames_pos.ne]

/-- Inside a scope over the global frame, a global name stands for what it stands for outside,
unless it is a name of the scope. -/
theorem standsFor_enter (h : s.Defines name p) (hframe : frame.get? name = none) :
    (s.enter frame [0]).StandsFor name p := by
  obtain ⟨id, -, hget, hp⟩ := h.enter frame [0]
  refine ⟨id, ?_, hp⟩
  change (s.enter frame [0]).lookupIn name [s.frames.size, 0] = some (.proc id)
  rw [lookupIn, frame_enter_size, hframe, lookupIn, hget]

end Defines

/-! ### Binding global names -/

/-- On the way to the second store, only the given names have been bound in the global frame, and
only procedures have been added. -/
structure BindsOnly (names : List Text) (s t : Store) : Prop where
  stack : t.stack = s.stack
  size : t.frames.size = s.frames.size
  procedures : s.procedures.toList <+: t.procedures.toList
  others : ∀ name, name ∉ names → (t.frame 0).get? name = (s.frame 0).get? name

namespace BindsOnly

variable {names names' : List Text}

theorem refl (s : Store) : s.BindsOnly [] s := ⟨rfl, rfl, List.prefix_rfl, fun _ _ => rfl⟩

theorem trans (h : BindsOnly names s t) (h' : BindsOnly names' t u) :
    BindsOnly (names ++ names') s u where
  stack := h'.stack.trans h.stack
  size := h'.size.trans h.size
  procedures := h.procedures.trans h'.procedures
  others name hname := by
    rw [List.mem_append, not_or] at hname
    rw [h'.others name hname.2, h.others name hname.1]

theorem defines (h : BindsOnly names s t) (hname : name ∉ names) (hs : s.Defines name p) :
    t.Defines name p :=
  hs.mono h.procedures (h.others name hname)

theorem bindAt (s : Store) (id : FrameId) (name : Text) (v : Value) :
    BindsOnly [name] s (s.bindAt id name v) where
  stack := rfl
  size := size_bindAt s id name v
  procedures := List.prefix_rfl
  others _ hn := get?_bindAt_of_ne (Ne.symm (List.ne_of_not_mem_cons hn)) v

theorem define (s : Store) (name : Text) (p : Procedure) :
    BindsOnly [name] s (s.define name p) where
  stack := rfl
  size := size_bindAt (s.allocate p) 0 name _
  procedures := by
    change s.procedures.toList <+: (s.procedures.push p).toList
    simp
  others _ hn := get?_bindAt_of_ne (s := s.allocate p) (Ne.symm (List.ne_of_not_mem_cons hn)) _

end BindsOnly

theorem defines_define (h : 0 < s.frames.size) (name : Text) (p : Procedure) :
    (s.define name p).Defines name p := by
  refine ⟨s.procedures.size, ?_, get?_bindAt_self (s := s.allocate p) h name _, ?_⟩
  · change s.procedures.size < (s.procedures.push p).size
    simp
  · change Procedures.get (s.procedures.push p) s.procedures.size = p
    rw [Procedures.get_push, if_pos rfl]

/-! ### Added frames -/

/-- The second store is the first one with frames added to it. -/
def Adds (s t : Store) : Prop := ∃ more : Array Frame, t = { s with frames := s.frames ++ more }

namespace Adds

theorem refl (s : Store) : s.Adds s := ⟨#[], by simp⟩

/-- What happens in a scope that has been left again adds the frame of the scope. -/
theorem leave {base : Stack} (h : (s.enter frame base).Adds t) : s.Adds t.leave := by
  obtain ⟨more, rfl⟩ := h
  refine ⟨#[frame] ++ more, ?_⟩
  rw [← Array.append_assoc, ← Array.push_eq_append]
  rfl

end Adds

end Store

/-! ### Primitives -/

/-- The forms are in the table from the start, each in its own place. -/
theorem Procedures.get_formId (f : Form) :
    let forms := (Form.all.map fun f => Procedure.ofPrimitive (.form f)).toArray
    Store.formId f < forms.size ∧
      Procedures.get forms (Store.formId f) = .ofPrimitive (.form f) := by
  cases f with
  | lambda k =>
    obtain ⟨computed, evaluates⟩ := k
    cases computed <;> cases evaluates <;> decide
  | _ => decide

namespace Run

open Store

variable {s : Store}

/-- Binding one primitive after the other gives each of them its name. -/
theorem bindPrimitives_defines {ps : List Primitive} (hnodup : (ps.map Primitive.name).Nodup)
    (hframes : 0 < s.frames.size)
    (hforms : (Form.all.map fun f => Procedure.ofPrimitive (.form f)) <+: s.procedures.toList) :
    ∃ t, bindPrimitives 0 ps s = .ok () t ∧ s.BindsOnly (ps.map Primitive.name) t ∧
      ∀ p ∈ ps, t.Defines p.name (.ofPrimitive p) := by
  induction ps generalizing s with
  | nil => exact ⟨s, rfl, .refl s, by simp⟩
  | cons p ps ih =>
    obtain ⟨hfresh, hnodup⟩ := List.nodup_cons.mp hnodup
    -- a form has its place in the table, a builtin gets a new one
    obtain ⟨u, hu, hbinds, hp⟩ : ∃ u, bindPrimitives 0 (p :: ps) s = bindPrimitives 0 ps u ∧
        s.BindsOnly [p.name] u ∧ u.Defines p.name (.ofPrimitive p) := by
      cases p with
      | form f =>
        obtain ⟨hplace, hget⟩ := Procedures.get_formId f
        refine ⟨s.bindAt 0 (Primitive.form f).name (.proc (formId f)), rfl, .bindAt s 0 _ _,
          formId f, ?_, get?_bindAt_self hframes _ _, ?_⟩
        · exact Nat.lt_of_lt_of_le hplace hforms.length_le
        · rw [← hget]
          exact Procedures.get_of_prefix hforms hplace
      | builtin b =>
        exact ⟨s.define (Primitive.builtin b).name (.ofPrimitive (.builtin b)), rfl,
          .define s _ _, defines_define hframes _ _⟩
    obtain ⟨t, ht, hrest, hps⟩ := ih hnodup (hbinds.size ▸ hframes) (hforms.trans hbinds.procedures)
    refine ⟨t, hu.trans ht, hbinds.trans hrest, ?_⟩
    intro q hq
    obtain rfl | hq := List.mem_cons.mp hq
    · exact hrest.defines hfresh hp
    · exact hps q hq

/-- After registration every primitive has its name, in a global frame that is all of the stack. -/
theorem register_defines (journal : Journal) :
    ∃ t, register (.initial journal) = .ok () t ∧ t.stack = [0] ∧ 0 < t.frames.size ∧
      ∀ p ∈ Primitive.all, t.Defines p.name (.ofPrimitive p) := by
  have hnodup : (Primitive.all.map Primitive.name).Nodup := by decide +kernel
  obtain ⟨t, ht, hbinds, hps⟩ :=
    bindPrimitives_defines (s := (Store.initial journal).push []) hnodup Nat.one_pos List.prefix_rfl
  exact ⟨t, (register_initial journal).trans ht, hbinds.stack, hbinds.size ▸ Nat.one_pos, hps⟩

end Run

end RationalLisp
