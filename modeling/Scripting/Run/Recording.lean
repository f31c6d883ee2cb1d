import Scripting.Run.Machine

/-!
# A host of prepared answers

Prints into a record, and answers from lists prepared beforehand. Behind their end the input is empty
and a random number is the greatest one allowed.
-/

namespace Scripting

/-- What was printed so far, and the answers still to give. -/
structure Recording where
  printed : List String
  inputs : List String
  randoms : List Int32

namespace Recording

/-- The record before a run. -/
def ofAnswers (inputs : List String) (randoms : List Int32) : Recording := ⟨[], inputs, randoms⟩

/-- Prints into the record and answers from the lists. -/
def host : Host Recording where
  print s r := { r with printed := r.printed ++ [s] }
  input r :=
    match r.inputs with
    | s :: rest => (s, { r with inputs := rest })
    | [] => ("", r)
  random max r :=
    match r.randoms with
    | n :: rest => (n, { r with randoms := rest })
    | [] => (max - 1, r)

end Recording

end Scripting
