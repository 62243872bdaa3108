import Rebac.Language.Trace
import Rebac.Language.Trivia

/-!
# Parsers

A parser reads from the front of a text and gives what it read and the rest, or
fails.  In both cases it leaves a trace of the rules it ran.  Alternatives are
ordered: the second is tried only if the first fails, and from where the first
started.  A repetition reads as often as it can.

Parsers do not skip white space and comments by themselves.  The grammar says
where trivia may stand.
-/

namespace Rebac.Language

/-- The outcome of a parser: what was read with the rest of the text, if it
succeeded, and the rules that ran. -/
structure Outcome (α : Type) where
  /-- What was read, and the rest of the text. -/
  result : Option (α × List Char)
  /-- The rules that ran, in order. -/
  trace : List Trace

/-- A parser of values. -/
def Parser (α : Type) : Type := List Char → Outcome α

variable {α β : Type}

namespace Parser

/-- Reads nothing and gives a value. -/
def succeed (a : α) : Parser α := fun text => ⟨some (a, text), []⟩

/-- Reads with one parser and goes on with the parser its value selects. -/
def andThen (p : Parser α) (f : α → Parser β) : Parser β := fun text =>
  match p text with
  | ⟨none, t⟩ => ⟨none, t⟩
  | ⟨some (a, rest), t⟩ =>
      let o := f a rest
      ⟨o.result, t ++ o.trace⟩

/-- Reads with the first parser, or if it fails with the second. -/
def orElse (p q : Parser α) : Parser α := fun text =>
  match p text with
  | ⟨some x, t⟩ => ⟨some x, t⟩
  | ⟨none, t⟩ =>
      let o := q text
      ⟨o.result, t ++ o.trace⟩

instance : Monad Parser where
  pure := succeed
  bind := andThen

/-- Fails. -/
def fail : Parser α := fun _ => ⟨none, []⟩

/-- Runs a parser as a rule of the grammar. -/
def rule (r : Rule) (p : Parser α) : Parser α := fun text =>
  let o := p text
  ⟨o.result, [.run r text.length o.result.isSome o.trace]⟩

/-- Skips white space and comments. -/
def skip : Parser Unit := fun text => ⟨some ((), trivia text), []⟩

/-- The rest of a text that begins with the given characters. -/
def dropPrefix? : List Char → List Char → Option (List Char)
  | [], text => some text
  | _ :: _, [] => none
  | c :: cs, d :: text => if c = d then dropPrefix? cs text else none

/-- Reads the given characters. -/
def literal (s : String) : Parser Unit := fun text =>
  ⟨(dropPrefix? s.toList text).map ((), ·), []⟩

/-- Succeeds without reading if the text does not begin with the given
characters. -/
def notBefore (s : String) : Parser Unit := fun text =>
  ⟨if (dropPrefix? s.toList text).isSome then none else some ((), text), []⟩

/-- Reads with a parser if it succeeds. -/
def optional (p : Parser α) : Parser (Option α) :=
  orElse (do return some (← p)) (succeed none)

/-- Reads with a parser as often as it succeeds, and at most so many times. -/
def manyUpTo (p : Parser α) : Nat → Parser (List α)
  | 0 => succeed []
  | n + 1 => orElse (do return (← p) :: (← manyUpTo p n)) (succeed [])

/-- Reads with a parser as often as it succeeds.  A parser that reads something
succeeds at most once for each character. -/
def many (p : Parser α) : Parser (List α) := fun text => manyUpTo p (text.length + 1) text

/-- Reads with a parser as often as it succeeds, with trivia in between. -/
def manySpaced (p : Parser α) : Parser (List α) :=
  orElse (do return (← p) :: (← many (do skip; p))) (succeed [])

end Parser

end Rebac.Language
