import Mathlib.Logic.Basic

/-! # Python exceptions

The exceptions raised by the modelled Python code, with their class and message. -/

namespace LMCache

inductive PyErrorKind where
  | runtimeError
  | assertionError
  | indexError
  | keyError
  | valueError
  | zeroDivisionError
  | attributeError
  | structError
  | unicodeDecodeError
deriving DecidableEq, Repr

structure PyError where
  kind : PyErrorKind
  message : String
deriving DecidableEq, Repr

theorem exists_of_bind_eq_ok {A B : Type} {x : Except PyError A} {f : A → Except PyError B} {b : B}
    (h : (x >>= f) = .ok b) : ∃ a, x = .ok a ∧ f a = .ok b := by
  cases x with
  | error e => nomatch h
  | ok a => exact ⟨a, rfl, h⟩

end LMCache
