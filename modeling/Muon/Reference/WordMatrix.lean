import Mathlib.Algebra.Group.Int.Defs
import Mathlib.Algebra.Group.Nat.Defs
import Mathlib.Tactic.Common

/-!
# Matrices of sixteen words

BLAKE2b and ChaCha20 work on a 4 by 4 matrix of words: a round mixes the four
columns and then the four diagonals.  The matrix is kept by columns, and
`diagonals` turns it so that its columns are the diagonals.
-/

namespace Muon
namespace Reference

/-- One column of the matrix. -/
structure Column where
  a : Nat
  b : Nat
  c : Nat
  d : Nat

/-- The four columns. -/
structure WordMatrix where
  first : Column
  second : Column
  third : Column
  fourth : Column

namespace WordMatrix

/-- The matrix whose columns are the diagonals. -/
def diagonals (m : WordMatrix) : WordMatrix where
  first := ⟨m.first.a, m.second.b, m.third.c, m.fourth.d⟩
  second := ⟨m.second.a, m.third.b, m.fourth.c, m.first.d⟩
  third := ⟨m.third.a, m.fourth.b, m.first.c, m.second.d⟩
  fourth := ⟨m.fourth.a, m.first.b, m.second.c, m.third.d⟩

/-- The matrix whose diagonals are the columns. -/
def columns (m : WordMatrix) : WordMatrix where
  first := ⟨m.first.a, m.fourth.b, m.third.c, m.second.d⟩
  second := ⟨m.second.a, m.first.b, m.fourth.c, m.third.d⟩
  third := ⟨m.third.a, m.second.b, m.first.c, m.fourth.d⟩
  fourth := ⟨m.fourth.a, m.third.b, m.second.c, m.first.d⟩

example (m : WordMatrix) : m.diagonals.columns = m := rfl

/-- The words, row by row. -/
def words (m : WordMatrix) : List Nat :=
  [m.first.a, m.second.a, m.third.a, m.fourth.a, m.first.b, m.second.b, m.third.b,
    m.fourth.b, m.first.c, m.second.c, m.third.c, m.fourth.c, m.first.d, m.second.d,
    m.third.d, m.fourth.d]

end WordMatrix

end Reference
end Muon
