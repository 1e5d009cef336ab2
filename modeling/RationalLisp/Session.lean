import RationalLisp.Eval
import RationalLisp.Prelude

/-! # Sessions

A session starts with the primitives in a global frame, and with the prelude if it is asked for.
Whatever is evaluated after that shares this frame, so definitions stay. -/

namespace RationalLisp

namespace Session

/-- Evaluate an expression. -/
def evaluate (host : Host) (e : Value) : Run Value := Run.eval host host.depth e

/-- Evaluate the expressions of a text in turn. -/
def evalText (host : Host) (source : Text) : Run Value := Run.evalText host host.depth source

/-- Evaluate the expressions of a file in turn. -/
def evalFile (host : Host) (path : Text) : Run Value := do
  evalText host (← Run.ofExcept (host.readSource (.ofText path)))

/-- Find the prelude and run it. -/
def runPrelude (host : Host) : Run Unit := do
  let root ← Run.ofExcept host.preludeRoot
  let core := root ++ Path.ofText Prelude.fileName
  if ← Run.ofExcept (host.isPresent core) then
    Run.log "silence.modules.source_loader" .debug
      (("Loading prelude from " : Text) ++ core.toText)
    let _ ← Run.source host (Run.inner host host.depth) core
  else throw (.inaccessible .missing)

/-- Run the prelude. A prelude that is not there is only worth a warning, and so is anything else
that it misses on the way. -/
def loadPrelude (host : Host) : Run Unit :=
  Run.orIfMissing (runPrelude host)
    (Run.log "silence.interpreter" .warning
      ("Prelude requested but not found; continuing without it" : Text))

/-- Start a session, unless the nesting limit that is set is too large a number. -/
def start (host : Host) (prelude : Bool) : Run Unit := do
  Run.register
  if Host.greatestRecursionLimit < host.recursionLimit then throw .limitTooLarge
  if prelude then loadPrelude host

end Session

end RationalLisp
