import RationalLisp.Text

/-! # Tapes

A tape is text that grows at its end. It is kept back to front, so that writing costs only what is
written. The lemma `Tape.text_write` says what writing does to the text on the tape. -/

namespace RationalLisp

/-- A text that is written piece by piece. -/
structure Tape where
  /-- The code points on the tape, the last one first. -/
  reversed : Text
  deriving DecidableEq

namespace Tape

/-- The tape with nothing on it. -/
def empty : Tape := ⟨[]⟩

/-- The text on a tape. -/
def text (tape : Tape) : Text := tape.reversed.reverse

/-- Write a text to the end of a tape. -/
def write (tape : Tape) (t : Text) : Tape := ⟨t.reverseAux tape.reversed⟩

@[simp] theorem text_empty : empty.text = [] := rfl

@[simp] theorem text_write (tape : Tape) (t : Text) : (tape.write t).text = tape.text ++ t := by
  simp [text, write, List.reverseAux_eq]

end Tape

end RationalLisp
