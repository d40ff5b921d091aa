import FlowDesugar.Definition
import FlowDesugar.Text.Lines

/-!
# Statistics

What a run did: its definitions, the number of its problems, and how long its phases took. Durations
are counted in nanoseconds and shown in seconds with nine places.
-/

namespace FlowDesugar

/-- The phases timed so far with their nanoseconds, in order of first appearance. -/
structure Timings where
  entries : List (String × Nat) := []
deriving DecidableEq, Repr

namespace Timings

/-- Replaces the time of a phase where it stands, or adds the phase at the end. -/
def recordIn (phase : String) (nanoseconds : Nat) : List (String × Nat) → List (String × Nat)
  | [] => [(phase, nanoseconds)]
  | (name, time) :: entries =>
    if name = phase then (name, nanoseconds) :: entries
    else (name, time) :: recordIn phase nanoseconds entries

/-- Notes how long a phase took. -/
def record (timings : Timings) (phase : String) (nanoseconds : Nat) : Timings :=
  ⟨recordIn phase nanoseconds timings.entries⟩

/-- The time of a phase. -/
def get? (timings : Timings) (phase : String) : Option Nat :=
  (timings.entries.find? fun entry => entry.1 = phase).map Prod.snd

/-- A duration in seconds. -/
def secondsText (nanoseconds : Nat) : String :=
  let whole := Number.naturalText (nanoseconds / 1000000000)
  let places := Text.padLeft '0' 9 (Number.naturalText (nanoseconds % 1000000000))
  Text.padLeft ' ' 14 (whole ++ "." ++ places) ++ "s"

/-- The width of the phases' column: the bytes of the longest name and one more. -/
def nameWidth (timings : Timings) : Nat :=
  (timings.entries.map fun entry => entry.1.utf8ByteSize).foldl max 0 + 1

/-- A line for each phase. `duration` words its time. -/
def textWith (duration : Nat → String) (timings : Timings) : String :=
  String.join (timings.entries.map fun (phase, nanoseconds) =>
    Text.padRight timings.nameWidth phase ++ ": " ++ duration nanoseconds ++ "\n")

end Timings

/-- What a run did. -/
structure Statistics where
  definitions : List DefinitionSummary := []
  diagnostics : Nat := 0
  timings : Timings := {}
deriving DecidableEq, Repr

namespace Statistics

/-- A count in its column. -/
def countText (count : Nat) : String :=
  Text.padLeft ' ' 10 (Number.naturalText count)

/-- The line of a definition. -/
def definitionText (definition : DefinitionSummary) : String :=
  "  " ++ definition.keyword ++ " " ++ definition.name
    ++ (if definition.hasScript then " (script)\n" else " (no script)\n")

/-- The statistics as text. `duration` words the times. -/
def textWith (duration : Nat → String) (statistics : Statistics) : String :=
  "Definitions    : " ++ countText statistics.definitions.length ++ "\n"
    ++ "Diagnostics    : " ++ countText statistics.diagnostics ++ "\n\n"
    ++ String.join (statistics.definitions.map definitionText) ++ "\n"
    ++ statistics.timings.textWith duration ++ "\n"

end Statistics

end FlowDesugar
