import FlowDesugar.Diagnostic.Render
import FlowDesugar.Run

/-!
# The command line

The program runs, which is where the desugared tree is printed, and then shows its diagnostics and,
if asked, statistics. It ends with `0` if there were no problems, with `1` if there were, and with
`2` if it could not reach its end.
-/

namespace FlowDesugar

/-- The words the program has for arguments it does not run with. -/
def Options.Refusal.message : Options.Refusal → String
  | .missingTree => "error: no TREE is given"
  | .missingValue => "error: an option lacks its value"
  | .unknownArgument => "error: an argument is not known"
  | .repeated => "error: an option is given more than once"
  | .invalidValue => "error: an export format is not known"
  | .help => "usage: procsugar [-k KEYWORD]... [-c CONFIG] [-B] [-s SOURCE] [-f FORMAT] [-x EXPORT]"
      ++ " [-o OUTPUT] [-S] TREE"
  | .version => "procsugar"

/-- Whether a refusal answers a question of the user's. -/
def Options.Refusal.isAnswer (refusal : Options.Refusal) : Bool :=
  refusal = .help || refusal = .version

/-- What the program shows after its run, and how it ends. -/
structure Execution where
  exitCode : Nat
  /-- What is to be told to the user, in order. -/
  diagnostics : List Diagnostic
  /-- Where diagnostics point to. -/
  source : Option SourceText
  /-- The statistics, if they are asked for. -/
  statistics : Option Statistics

namespace Execution

/-- Runs the program. -/
def ofOptions {m : Type → Type} [Monad m] (host : Host m) (options : Options) : m Execution := do
  let (result, session) ← (Run.perform host options).run {}
  let statistics := if options.statistics then some session.statistics else none
  match result with
  | .ok result =>
    return ⟨result.exitCode, result.diagnostics, session.source, statistics⟩
  | .error error =>
    let diagnostic := error.diagnostic session.registry.sourceMap session.source
    return ⟨2, [diagnostic], session.source, statistics⟩

/-- The heading of the statistics. -/
def banner : String :=
  "\n~~~~~~~~~~\nSTATISTICS\n~~~~~~~~~~\n\n"

/-- What is told to the user. `duration` words the times of the statistics. -/
def messagesWith (duration : Nat → String) (execution : Execution) : String :=
  let shown := String.join (execution.diagnostics.map (Diagnostic.render execution.source))
  match execution.statistics with
  | none => shown
  | some statistics => shown ++ banner ++ statistics.textWith duration ++ "\n"

end Execution

end FlowDesugar
