import RationalLisp.Proofs.Concatenation
import RationalLisp.Proofs.GlobalNames
import RationalLisp.Proofs.Growth

/-!
# What the prelude defines

The prelude is a row of definitions, each of which makes a closure over the global frame and gives
it a name there. When a session has been started with it, the global frame has the primitives and
these closures under their names. A later state of the session still has those whose names have not
been bound again.
-/

namespace RationalLisp

/-! ### Definitions -/

/-- A name for a closure, with the parameters and the body of the closure. -/
structure Definition where
  name : Text
  params : List Text
  body : Value
  deriving DecidableEq

namespace Definition

/-- The expression that makes the closure and gives it the name. -/
def expr (d : Definition) : Value :=
  .call "let!" [.quoted (.atom d.name), .call "lambda" [.ofList (d.params.map .atom), d.body]]

/-- The closure, over the global frame. -/
def procedure (d : Definition) : Procedure := .closure true (.ofNames d.params) d.body [0]

end Definition

theorem Value.atomNames?_map_atom (names : List Text) :
    atomNames? (names.map .atom) = some names := by
  induction names with
  | nil => rfl
  | cons name names ih => simp [atomNames?, ih]

theorem Params.ofValue?_names (names : List Text) :
    ofValue? (.ofList (names.map .atom)) = some (.ofNames names) := by
  have hlist : Value.ofList (names.map .atom) ≠ .atom marker := by
    cases names <;> exact Value.noConfusion
  simp [ofValue?, hlist, Value.atomNames?_map_atom]

namespace Run

open Store

variable {host : Host} {s : Store}

/-- The names that definitions are written with. -/
def definingNames : List Text := ["let!", "lambda", "quote"]

/-- Definitions can be evaluated: the names that they are written with have their meaning, and the
global frame is all of the stack. -/
structure Defining (s : Store) : Prop where
  stack : s.stack = [0]
  bind : s.Defines "let!" (.ofPrimitive (.form .bindInner))
  lambda : s.Defines "lambda" (.ofPrimitive (.form (.lambda ⟨false, true⟩)))
  quote : s.Defines "quote" (.ofPrimitive (.form .quote))

theorem Defining.bindsOnly {t : Store} {names : List Text} (hs : Defining s)
    (h : s.BindsOnly names t) (hnames : ∀ name ∈ definingNames, name ∉ names) : Defining t where
  stack := h.stack.trans hs.stack
  bind := h.defines (hnames _ (by decide)) hs.bind
  lambda := h.defines (hnames _ (by decide)) hs.lambda
  quote := h.defines (hnames _ (by decide)) hs.quote

/-- An expression is given a name in the global frame. -/
theorem eval_let (hs : Defining s) {depth : Nat} {name : Text} {e v : Value} {t : Store}
    (he : eval host (depth + 2) e s = .ok v t) (ht : t.stack = [0]) :
    eval host (depth + 3) (.call "let!" [.quoted (.atom name), e]) s =
      .ok v (t.bindAt 0 name v) := by
  have hname : eval host (depth + 2) (.quoted (.atom name)) s = .ok (.atom name) s :=
    eval_quoted (hs.quote.standsFor hs.stack) depth (.atom name)
  have hoperands : evalAll (eval host (depth + 2)) [.quoted (.atom name), e] s =
      .ok [.atom name, v] t := (bind_of_ok hname).trans (bind_of_ok (bind_of_ok he))
  have hbind : bindInnermost name v t = .ok () (t.bindAt 0 name v) := by
    rw [Simulation.bindInnermost_eq, ht]
  refine (eval_call (hs.bind.standsFor hs.stack) rfl (depth + 1)).trans ?_
  exact (bind_of_ok hoperands).trans (bind_of_ok hbind)

/-- A definition defines its name. -/
theorem eval_definition (hs : Defining s) (depth : Nat) (d : Definition) :
    eval host (depth + 3) d.expr s =
      .ok (.proc s.procedures.size) (s.define d.name d.procedure) := by
  refine eval_let hs ?_ hs.stack
  refine (eval_call (hs.lambda.standsFor hs.stack) rfl depth).trans ?_
  change (Form.lambda ⟨false, true⟩).run host (inner host (depth + 1))
    [.ofList (d.params.map .atom), d.body] s = _
  simp only [Form.run, Params.ofValue?_names]
  rw [Definition.procedure, ← hs.stack]
  rfl

/-- Definitions with different names define all of them. -/
theorem sequence_definitions (host : Host) (hs : Defining s) (depth : Nat) (last : Value)
    (ds : List Definition) (hnodup : (ds.map Definition.name).Nodup)
    (hnames : ∀ name ∈ definingNames, name ∉ ds.map Definition.name) :
    ∃ v t, sequence (eval host (depth + 3)) last (ds.map Definition.expr) s = .ok v t ∧
      s.BindsOnly (ds.map Definition.name) t ∧ ∀ d ∈ ds, t.Defines d.name d.procedure := by
  induction ds generalizing s last with
  | nil => exact ⟨last, s, rfl, .refl s, by simp⟩
  | cons d ds ih =>
    obtain ⟨hfresh, hnodup⟩ := List.nodup_cons.mp hnodup
    have hbinds := BindsOnly.define s d.name d.procedure
    have hnext : Defining (s.define d.name d.procedure) := by
      refine hs.bindsOnly hbinds fun name hname hmem => hnames name hname ?_
      rw [List.mem_singleton.mp hmem]
      exact List.mem_cons_self
    obtain ⟨v, t, ht, hrest, hds⟩ := ih hnext (.proc s.procedures.size) hnodup
      fun name hname hmem => hnames name hname (List.mem_cons_of_mem _ hmem)
    refine ⟨v, t, (bind_of_ok (eval_definition hs depth d)).trans ht, hbinds.trans hrest, ?_⟩
    intro d' hd'
    obtain rfl | hd' := List.mem_cons.mp hd'
    · exact hrest.defines hfresh (defines_define hs.bind.frames_pos _ _)
    · exact hds d' hd'

end Run

/-! ### The prelude -/

namespace Prelude

/-- The list of the operands. -/
def list : Definition := ⟨"list", ["*"], .atom "args"⟩

/-- The number of elements of a list. -/
def length : Definition :=
  ⟨"length", ["xs"],
    .call "if" [.call "null?" [.atom "xs"], .num 0,
      .call "+" [.num 1, .call "length" [.call "cdr" [.atom "xs"]]]]⟩

/-- The list of the results of a procedure on the elements of a list. -/
def map : Definition :=
  ⟨"map", ["f", "xs"],
    .call "if" [.call "null?" [.atom "xs"], .quoted .null,
      .call "cons" [.call "f" [.call "car" [.atom "xs"]],
        .call "map" [.atom "f", .call "cdr" [.atom "xs"]]]]⟩

/-- The result of combining the elements of a list with a first value, from left to right. -/
def foldl : Definition :=
  ⟨"foldl", ["f", "acc", "xs"],
    .call "if" [.call "null?" [.atom "xs"], .atom "acc",
      .call "foldl" [.atom "f", .call "f" [.atom "acc", .call "car" [.atom "xs"]],
        .call "cdr" [.atom "xs"]]]⟩

/-- The elements of a list in front of a tail. -/
def append : Definition :=
  ⟨"append", ["xs", "ys"],
    .call "if" [.call "null?" [.atom "xs"], .atom "ys",
      .call "cons" [.call "car" [.atom "xs"],
        .call "append" [.call "cdr" [.atom "xs"], .atom "ys"]]]⟩

/-- The definitions of the prelude. -/
def definitions : List Definition :=
  [list,
    ⟨"id", ["x"], .atom "x"⟩,
    ⟨"not", ["x"], .call "if" [.call "=" [.atom "x", .bool false], .bool true, .bool false]⟩,
    length, map, foldl, append,
    ⟨"newline", [], .call "print" [.quoted (.ofText "\n")]⟩,
    ⟨"println", ["s"], .call "begin" [.call "print" [.atom "s"], .call "newline" []]⟩]

set_option maxRecDepth 4000 in
/-- The text of the prelude is read as its definitions. -/
theorem ofText_source {room : Nat} (h : 6 ≤ room) :
    Program.ofText room source = ⟨definitions.map Definition.expr, none⟩ := by
  have hsource : Program.ofText 6 source = ⟨definitions.map Definition.expr, none⟩ := by
    -- as a list of characters the text is taken apart much faster
    rw [Text.ofString, show source = String.ofList _ from rfl, String.toList_ofList]
    decide +kernel
  have hmore := Program.prolongs_ofText h source
  rw [hsource] at hmore
  exact hmore.eq_of_faultless rfl

end Prelude

/-- The directory of the prelude holds the prelude that comes with the interpreter. -/
def Host.HasPrelude (host : Host) : Prop :=
  ∃ root, host.preludeRoot = .ok root ∧
    host.readSource (root ++ Path.ofText Prelude.fileName) = .ok Prelude.source

namespace Prelude

/-- A host that has a file of the given contents in the place of the prelude. -/
def hostWith (content : Bytes) : Host :=
  ⟨[([("lib" : Text)], .directory), ([("lib" : Text), fileName], .file content)],
    ⟨.slash, []⟩, ⟨.slash, [("lib" : Text)]⟩, [], 5000⟩

/-- A host on which the prelude has been put in its place. -/
def installed : Host := hostWith (Utf8.encode source)

theorem readSource_hostWith {content : Bytes} {text : Text} (h : Utf8.decode? content = some text)
    (hreturns : ('\r' : CodePoint) ∉ text) :
    (hostWith content).readSource (⟨.slash, [("lib" : Text)]⟩ ++ Path.ofText fileName) =
      .ok text := by
  have hpath : (⟨.slash, [("lib" : Text)]⟩ ++ Path.ofText fileName : Path) =
      ⟨.slash, [("lib" : Text), fileName]⟩ := by decide
  have hpossible : (⟨.slash, [("lib" : Text), fileName]⟩ : Path).isImpossible = false := by
    decide +kernel
  have hentry : (hostWith content).entry ⟨.slash, [("lib" : Text), fileName]⟩ =
      .ok (.file content) := rfl
  rw [hpath]
  simp [Host.readSource, hpossible, hentry, h, Text.unixLines_eq_self hreturns]

set_option maxRecDepth 4000 in
theorem hasPrelude_installed : installed.HasPrelude := by
  refine ⟨⟨.slash, [("lib" : Text)]⟩, rfl, ?_⟩
  have hdecode : Utf8.decode? (Utf8.encode source) = some (Text.ofString source) := by
    rw [Text.ofString, show source = String.ofList _ from rfl, String.toList_ofList]
    decide +kernel
  have hreturns : ('\r' : CodePoint) ∉ Text.ofString source := by
    rw [Text.ofString, show source = String.ofList _ from rfl, String.toList_ofList]
    decide +kernel
  exact readSource_hostWith hdecode hreturns

end Prelude

/-- A file that can be read is there. -/
theorem Host.isPresent_of_readSource {host : Host} {p : Path} {source : Text}
    (h : host.readSource p = .ok source) : host.isPresent p = .ok true := by
  unfold Host.readSource at h
  unfold Host.isPresent Host.leadsTo
  cases himpossible : p.isImpossible with
  | true => simp [himpossible] at h
  | false =>
    cases hentry : host.entry p with
    | error fault => simp [himpossible, hentry] at h
    | ok entry => rfl

/-- The primitives and the definitions have their names in the global frame. -/
structure Store.Offers (ps : List Primitive) (ds : List Definition) (s : Store) : Prop where
  primitive : ∀ p ∈ ps, s.Defines p.name (.ofPrimitive p)
  definition : ∀ d ∈ ds, s.Defines d.name d.procedure

namespace Store.Offers

variable {ps : List Primitive} {ds : List Definition} {s t : Store}

theorem enter (h : s.Offers ps ds) (frame : Frame) (base : Stack) :
    (s.enter frame base).Offers ps ds where
  primitive p hp := (h.primitive p hp).enter frame base
  definition d hd := (h.definition d hd).enter frame base

/-- What has been offered is offered as long as none of the names is bound again. -/
theorem grows (h : s.Offers ps ds) (hgrows : s.Grows t) {ps' : List Primitive}
    {ds' : List Definition} (hps : ps' ⊆ ps) (hds : ds' ⊆ ds)
    (hnames : ∀ name ∈ ps'.map Primitive.name ++ ds'.map Definition.name,
      (t.frame 0).get? name = (s.frame 0).get? name) : t.Offers ps' ds' where
  primitive p hp := by
    have hname := hnames p.name (List.mem_append_left _ (List.mem_map_of_mem hp))
    exact (h.primitive p (hps hp)).mono hgrows.procedures hname
  definition d hd := by
    have hname := hnames d.name (List.mem_append_right _ (List.mem_map_of_mem hd))
    exact (h.definition d (hds hd)).mono hgrows.procedures hname

end Store.Offers

namespace Session

open Run Store

variable {host : Host}

/-- With a prelude in its place, running it is to run its text. -/
theorem runPrelude_of_readSource {root : Path} {text : Text} (hroot : host.preludeRoot = .ok root)
    (hread : host.readSource (root ++ Path.ofText Prelude.fileName) = .ok text) (s : Store) :
    ∃ journal, runPrelude host s =
      (Run.evalText host host.depth text >>= fun _ => pure ()) (s.withJournal journal) := by
  have hthere : ofExcept host.preludeRoot = pure root := by
    rw [hroot]
    rfl
  have hpresent : ofExcept (host.isPresent (root ++ Path.ofText Prelude.fileName)) = pure true := by
    rw [Host.isPresent_of_readSource hread]
    rfl
  have hsource : Run.source host (inner host host.depth) (root ++ Path.ofText Prelude.fileName) =
      Run.evalText host host.depth text := by
    unfold Run.source
    rw [hread]
    rfl
  refine ⟨s.journal.record "silence.modules.source_loader" .debug
    (("Loading prelude from " : Text) ++ (root ++ Path.ofText Prelude.fileName).toText), ?_⟩
  rw [runPrelude, hthere, pure_bind, hpresent, pure_bind, if_pos rfl, hsource]
  rfl

/-- With the prelude in its place, a session is opened from a store in which definitions can be
evaluated, by running the text of the prelude. -/
theorem start_eq_evalText (hprelude : host.HasPrelude)
    (hlimit : host.recursionLimit ≤ Host.greatestRecursionLimit) (journal : Journal) :
    ∃ s t, Defining t ∧ t.Offers Primitive.all [] ∧
      runPrelude host s = (Run.evalText host host.depth Prelude.source >>= fun _ => pure ()) t ∧
      start host true (.initial journal) = loadPrelude host s := by
  obtain ⟨root, hroot, hread⟩ := hprelude
  obtain ⟨s, hs, hstack, -, hps⟩ := register_defines journal
  obtain ⟨journal', hrun⟩ := runPrelude_of_readSource hroot hread s
  refine ⟨s, s.withJournal journal', ⟨hstack, hps (.form .bindInner) (by decide),
    hps (.form (.lambda ⟨false, true⟩)) (by decide), hps (.form .quote) (by decide)⟩,
    ⟨hps, fun _ hd => absurd hd List.not_mem_nil⟩, hrun, ?_⟩
  rw [start_of_register hs, opening, if_neg (Nat.not_lt.mpr hlimit)]
  rfl

/-- Where the text of the prelude can be read, it makes its definitions. -/
theorem evalText_prelude (host : Host) {t : Store} (hdefining : Defining t)
    (hps : t.Offers Primitive.all []) {depth : Nat} (hdepth : 6 ≤ depth) :
    ∃ v s, Run.evalText host depth Prelude.source t = .ok v s ∧
      s.Offers Primitive.all Prelude.definitions := by
  obtain ⟨room, rfl⟩ : ∃ room, depth = room + 3 := ⟨depth - 3, by omega⟩
  obtain ⟨v, s, hrun, hbinds, hds⟩ := sequence_definitions host hdefining room .null
    Prelude.definitions (by decide +kernel) (by decide +kernel)
  refine ⟨v, s, ?_, fun p hp => ?_, hds⟩
  · rw [Run.evalText, Prelude.ofText_source hdepth]
    exact bind_of_ok hrun
  · have hother : ∀ p ∈ Primitive.all, p.name ∉ Prelude.definitions.map Definition.name := by
      decide +kernel
    exact hbinds.defines (hother p hp) (hps.primitive p hp)

/-- Where there is room for it, a session starts with the prelude and has all primitives and all
definitions of the prelude. -/
theorem start_offers (hprelude : host.HasPrelude)
    (hlimit : host.recursionLimit ≤ Host.greatestRecursionLimit) (hdepth : 6 ≤ host.depth)
    (journal : Journal) :
    ∃ s, start host true (.initial journal) = .ok () s ∧
      s.Offers Primitive.all Prelude.definitions := by
  obtain ⟨s, t, hdefining, hps, hrun, hstart⟩ := start_eq_evalText hprelude hlimit journal
  obtain ⟨v, u, htext, hoffers⟩ := evalText_prelude host hdefining hps hdepth
  have hdone : runPrelude host s = .ok () u := hrun.trans (bind_of_ok htext)
  refine ⟨u, ?_, hoffers⟩
  rw [hstart, loadPrelude, orIfMissing_of_ne (by simp [hdone]), hdone]

/-- A session that has started with the prelude has all primitives and all definitions of the
prelude: more room for the start would not have changed it. -/
theorem offers_of_start (hprelude : host.HasPrelude) {journal : Journal} {s : Store}
    (h : start host true (.initial journal) = .ok () s) :
    s.Offers Primitive.all Prelude.definitions := by
  have hlimit : host.recursionLimit ≤ Host.greatestRecursionLimit := by
    by_contra hlimit
    obtain ⟨t, ht, -⟩ := register_defines journal
    rw [start_of_register ht, opening, if_pos (Nat.lt_of_not_le hlimit)] at h
    cases h
  obtain ⟨r, t, hdefining, hps, hrun, hstart⟩ := start_eq_evalText hprelude hlimit journal
  have huncut : ¬ Result.CutOff (Run.evalText host host.depth Prelude.source t) := by
    rintro ⟨u, hcut⟩
    have hfailed : runPrelude host r = .error .outOfDepth u := hrun.trans (bind_of_error hcut)
    rw [hstart, loadPrelude, orIfMissing_of_ne (by simp [hfailed]), hfailed] at h
    cases h
  obtain ⟨v, u, htext, hoffers⟩ :=
    evalText_prelude host hdefining hps (le_max_right host.depth 6)
  rw [(Run.prolongs_evalText host (le_max_left _ _) _).eq_of_not_cutOff huncut] at htext
  have hdone : runPrelude host r = .ok () u := hrun.trans (bind_of_ok htext)
  rw [hstart, loadPrelude, orIfMissing_of_ne (by simp [hdone]), hdone] at h
  cases h
  exact hoffers

/-- The steps of a session lose nothing. -/
theorem after_grows (steps : List (Host × Step)) (s : Store) : s.Grows (after steps s) := by
  induction steps generalizing s with
  | nil => exact .refl s
  | cons step steps ih =>
    have hstep : s.Grows (Result.store (step.2.run step.1 s)) :=
      grows_of_simulates (Simulation.growth.simulates_step (fun _ _ => trivial) step.1 step.2
        fun _ _ _ _ => trivial) s
    exact hstep.trans (ih _)

/-- Between its steps, a session that was started with the prelude offers all that has not been
bound again since. -/
theorem offers_after (hprelude : host.HasPrelude) {journal : Journal} {s : Store}
    (hstart : start host true (.initial journal) = .ok () s) (steps : List (Host × Step))
    {ps : List Primitive} {ds : List Definition} (hps : ps ⊆ Primitive.all)
    (hds : ds ⊆ Prelude.definitions)
    (hnames : ∀ name ∈ ps.map Primitive.name ++ ds.map Definition.name,
      ((after steps s).frame 0).get? name = (s.frame 0).get? name) :
    (after steps s).stack = [0] ∧ (after steps s).Offers ps ds := by
  constructor
  · have hstack := start_stack host true journal
    rw [hstart] at hstack
    exact (after_sameScopes steps s).stack.trans hstack
  · exact (offers_of_start hprelude hstart).grows (after_grows steps s) hps hds hnames

end Session

end RationalLisp
