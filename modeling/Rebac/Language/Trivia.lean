/-!
# White space and comments

Between any two elements of a schema text may stand spaces, tabs, carriage
returns, line feeds and comments.  A comment runs from `//` to the end of the
line, or from `/*` to the first `*/` after it.  A `/*` without a `*/` is no
comment.
-/

namespace Rebac.Language

/-- Whether a character is white space. -/
def isBlank (c : Char) : Bool := c = ' ' ∨ c = '\t' ∨ c = '\r' ∨ c = '\n'

/-- Where the skipping of white space and comments stands. -/
inductive Skipping where
  /-- Outside of comments. -/
  | outside
  /-- In a comment that ends with the line. -/
  | line
  /-- In a comment that ends with `*/`.  If that never comes, the text goes on
  from `start`. -/
  | block (start : List Char)

/-- Skips white space and comments, beginning in a given state. -/
def skipFrom : Skipping → List Char → List Char
  | .outside, [] => []
  | .outside, '/' :: '/' :: r => skipFrom .line r
  | .outside, '/' :: '*' :: r => skipFrom (.block ('/' :: '*' :: r)) r
  | .outside, c :: r => if isBlank c then skipFrom .outside r else c :: r
  | .line, [] => []
  | .line, c :: r => if c = '\n' then skipFrom .outside r else skipFrom .line r
  | .block start, [] => start
  | .block _, '*' :: '/' :: r => skipFrom .outside r
  | .block start, _ :: r => skipFrom (.block start) r

/-- The text after leading white space and comments. -/
def trivia (text : List Char) : List Char := skipFrom .outside text

/-! ## The first character -/

theorem trivia_blank {c : Char} (h : isBlank c = true) (r : List Char) :
    trivia (c :: r) = trivia r := by
  have hne : c ≠ '/' := by
    rintro rfl
    simp [isBlank] at h
  rw [trivia, skipFrom, if_pos h, trivia]
  all_goals
    rintro _ rfl
    exact absurd rfl hne

theorem trivia_cons {c : Char} (hblank : isBlank c = false) (hslash : c ≠ '/') (r : List Char) :
    trivia (c :: r) = c :: r := by
  rw [trivia, skipFrom]
  · simp [hblank]
  all_goals
    rintro _ rfl
    exact absurd rfl hslash

theorem trivia_line (r : List Char) : trivia ('/' :: '/' :: r) = skipFrom .line r := by
  rw [trivia, skipFrom]

theorem trivia_block (r : List Char) :
    trivia ('/' :: '*' :: r) = skipFrom (.block ('/' :: '*' :: r)) r := by
  rw [trivia, skipFrom]

/-- A `/` that begins no comment is left. -/
theorem trivia_slash {r : List Char} (hline : r.head? ≠ some '/') (hblock : r.head? ≠ some '*') :
    trivia ('/' :: r) = '/' :: r := by
  rw [trivia, skipFrom]
  · simp [isBlank]
  · rintro r' - rfl
    exact hline rfl
  · rintro r' - rfl
    exact hblock rfl

end Rebac.Language
