import RoutineSpec.Reading
import RoutineSpec.WellFormed

/-! # Analysis

Scanning, reading and checking a source text in one go.
-/

namespace RoutineSpec

/-- All that is known about a source text with a program in it. -/
structure Analysis where
  program : Tree
  /-- What was repaired in the source. -/
  diagnostics : List Diagnostic
  /-- What is wrong with the program. -/
  violations : List Violation

namespace Analysis

/-- Nothing at all is reported. -/
def isClean (analysis : Analysis) : Bool :=
  analysis.diagnostics.isEmpty && analysis.violations.isEmpty

/-- The analysis of a program that has been read. -/
def ofReading (reading : Reading) : Analysis :=
  ⟨reading.program, reading.diagnostics, reading.program.violations⟩

/-- Scan, read and check a source text. -/
def ofSource (policy : DecimalPolicy) (source : String) : Except ReadFailure Analysis :=
  (Reading.ofSource policy source).map ofReading

end Analysis

end RoutineSpec
