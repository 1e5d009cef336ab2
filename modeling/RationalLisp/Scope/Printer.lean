import RationalLisp.Scope.Store

/-! # Printed form of stacks

The values of a stack are shown with room for some levels of lists in lists. -/

namespace RationalLisp.Run

/-- The bindings of a frame with their printed values. -/
def displayBindings (room : Nat) : Frame → Run (List (Text × Text))
  | [] => pure []
  | (name, v) :: rest => do
    let t ← display room v
    return (name, t) :: (← displayBindings room rest)

/-- The printed form of a frame. -/
def displayFrame (room : Nat) (frame : Frame) : Run Text := do
  let bindings ← displayBindings room frame
  let texts := bindings.map fun (name, t) => name ++ (": " : Text) ++ t
  return ("\x7b" : Text) ++ List.intercalate (", " : Text) texts ++ ("\x7d" : Text)

/-- The printed forms of the frames of a stack. -/
def displayFrames (room : Nat) : Stack → Run (List Text)
  | [] => pure []
  | id :: rest => do
    let t ← displayFrame room ((← get).frame id)
    return t :: (← displayFrames room rest)

/-- The full printed form of a stack: all its frames, innermost first. -/
def displayStack (room : Nat) (stack : Stack) : Run Text := do
  let texts ← displayFrames room stack
  return ("<EnvironmentStack: " : Text) ++ List.intercalate (" -> " : Text) texts ++ (">" : Text)

/-- The short printed form of a stack: its innermost frame, and whether there are others. -/
def displayInnermost (room : Nat) : Stack → Run Text
  | [] => pure []
  | id :: rest => do
    let t ← displayFrame room ((← get).frame id)
    return if rest = [] then t else t ++ (" -> ..." : Text)

end RationalLisp.Run
