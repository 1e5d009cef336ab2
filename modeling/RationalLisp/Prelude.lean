import RationalLisp.Text

/-! # The prelude

Procedures that every program wants, written in the language itself. -/

namespace RationalLisp.Prelude

/-- The name of the file that holds a prelude. -/
def fileName : Text := "core.sil"

/-- The prelude that comes with the interpreter. -/
def source : String := r#"; Core procedures, defined with primitives only.
; Loaded by Interpreter(prelude=True) into the global frame.

(let! 'list (lambda (*) args))
(let! 'id (lambda (x) x))
(let! 'not (lambda (x) (if (= x #f) #t #f)))

(let! 'length
  (lambda (xs)
    (if (null? xs) 0 (+ 1 (length (cdr xs))))))

(let! 'map
  (lambda (f xs)
    (if (null? xs) '() (cons (f (car xs)) (map f (cdr xs))))))

(let! 'foldl
  (lambda (f acc xs)
    (if (null? xs) acc (foldl f (f acc (car xs)) (cdr xs)))))

(let! 'append
  (lambda (xs ys)
    (if (null? xs) ys (cons (car xs) (append (cdr xs) ys)))))

(let! 'newline (lambda () (print "\n")))
(let! 'println (lambda (s) (begin (print s) (newline))))
"#

end RationalLisp.Prelude
