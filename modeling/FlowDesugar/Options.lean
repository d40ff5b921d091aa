import FlowDesugar.OutputFormat

/-!
# Options

The arguments of the command line. An option has a short name, which may stand in a bundle behind
one dash, and a long one behind two. The value of an option follows it as the next argument, behind
an equals sign, or, after a short name, directly. Two dashes alone end the options; one dash alone
is an ordinary value.

An option that ends without a value waits for one; another option or the end of the line leaves it
without.
-/

namespace FlowDesugar

/-- What a run is asked to do. -/
structure Options where
  /-- Keywords besides those of the settings. -/
  keywords : List String := []
  /-- The settings file. -/
  config : Option String := none
  /-- Whether settings files are left alone. -/
  batch : Bool := false
  /-- The file with the source text. -/
  source : Option String := none
  /-- The format of the tree. -/
  format : String := "json"
  /-- How the result is written. -/
  exportAs : OutputFormat := .pretty
  /-- The file the result is written to. -/
  output : Option String := none
  /-- Whether statistics are shown. -/
  statistics : Bool := false
  /-- The file with the tree. -/
  tree : String
deriving DecidableEq, Repr

namespace Options

/-- Whether the tree is read from the input. -/
def readsInput (options : Options) : Bool :=
  options.tree = "-"

/-- The options that take a value. -/
inductive Setting where
  | keyword
  | config
  | source
  | format
  | exportAs
  | output
deriving DecidableEq, Repr

/-- The options that take none. -/
inductive Switch where
  | batch
  | statistics
  | help
  | version
deriving DecidableEq, Repr

/-- An option. -/
inductive Choice where
  | setting (setting : Setting)
  | switch (switch : Switch)
deriving DecidableEq, Repr

namespace Choice

/-- The option of a short name. -/
def ofShort? : Char → Option Choice
  | 'k' => some (.setting .keyword)
  | 'c' => some (.setting .config)
  | 's' => some (.setting .source)
  | 'f' => some (.setting .format)
  | 'x' => some (.setting .exportAs)
  | 'o' => some (.setting .output)
  | 'B' => some (.switch .batch)
  | 'S' => some (.switch .statistics)
  | 'h' => some (.switch .help)
  | 'V' => some (.switch .version)
  | _ => none

/-- The option of a long name. -/
def ofLong? (name : String) : Option Choice :=
  [("keyword", Choice.setting .keyword), ("config", .setting .config), ("source", .setting .source),
    ("format", .setting .format), ("export", .setting .exportAs), ("output", .setting .output),
    ("batch", .switch .batch), ("statistics", .switch .statistics), ("help", .switch .help),
    ("version", .switch .version)].lookup name

end Choice

/-- Why no options come of the arguments. -/
inductive Refusal where
  /-- No tree is named. -/
  | missingTree
  /-- An option lacks its value. -/
  | missingValue
  /-- An option does not exist, or a second tree is named. -/
  | unknownArgument
  /-- An option other than a keyword is given twice. -/
  | repeated
  /-- An export format does not exist. -/
  | invalidValue
  /-- Help is asked for. -/
  | help
  /-- The version is asked for. -/
  | version
deriving DecidableEq, Repr

/-- What the arguments read so far have given. -/
structure Given where
  /-- The options used, in order. -/
  uses : List Choice := []
  /-- The values given, in order. -/
  values : List (Setting × String) := []
  tree : Option String := none
  /-- The option that waits for its value. -/
  waiting : Option Setting := none
  /-- Whether the options have ended. -/
  ended : Bool := false

namespace Given

/-- Gives a setting a value, for which it no longer waits. -/
def give (given : Given) (setting : Setting) (value : String) : Given :=
  { given with values := given.values ++ [(setting, value)], waiting := none }

/-- Uses a setting, with a value or waiting for one. Equals signs before the value do not belong to
it. -/
def useSetting (given : Given) (setting : Setting) (value : Option (List Char)) : Given :=
  let given := { given with uses := given.uses ++ [Choice.setting setting] }
  match value with
  | some value => given.give setting (String.ofList (value.dropWhile (· = '=')))
  | none => { given with waiting := some setting }

/-- Uses a switch. The first question for help or the version is answered at once. -/
def useSwitch (given : Given) : Switch → Except Refusal Given
  | .help => .error .help
  | .version => .error .version
  | switch => .ok { given with uses := given.uses ++ [.switch switch], waiting := none }

/-- Reads an argument that belongs to no option. -/
def positional (given : Given) (arg : String) : Except Refusal Given :=
  match given.tree with
  | none => .ok { given with tree := some arg }
  | some _ => .error .unknownArgument

/-- Reads a long option, without its dashes. A value given to a switch is of no account. -/
def long (given : Given) (cs : List Char) : Except Refusal Given :=
  let name := cs.takeWhile (· ≠ '=')
  let value := match cs.dropWhile (· ≠ '=') with
    | [] => none
    | _ :: value => some value
  match Choice.ofLong? (String.ofList name) with
  | none => .error .unknownArgument
  | some (.setting setting) => .ok (given.useSetting setting value)
  | some (.switch switch) => given.useSwitch switch

/-- Reads a bundle of short options. A setting takes the rest of the bundle as its value. -/
def short (given : Given) : List Char → Except Refusal Given
  | [] => .ok given
  | c :: cs =>
    match Choice.ofShort? c with
    | none => .error .unknownArgument
    | some (.setting setting) =>
      .ok (given.useSetting setting (if cs.isEmpty then none else some cs))
    | some (.switch switch) => do
      let given ← given.useSwitch switch
      given.short cs

/-- Reads an argument. -/
def read (given : Given) (arg : String) : Except Refusal Given :=
  if given.ended then given.positional arg
  else if arg = "--" then .ok { given with ended := true }
  else match arg.toList with
    | '-' :: '-' :: cs => given.long (cs.dropWhile (· = '-'))
    | '-' :: c :: cs => given.short (c :: cs)
    | _ => match given.waiting with
      | some setting => .ok (given.give setting arg)
      | none => given.positional arg

/-- The values given to a setting, in order. -/
def valuesOf (given : Given) (setting : Setting) : List String :=
  (given.values.filter fun entry => entry.1 = setting).map Prod.snd

/-- Whether a setting has neither a value nor a default. -/
def lacks (given : Given) (setting : Setting) : Bool :=
  setting ≠ .format && setting ≠ .exportAs && (given.valuesOf setting).isEmpty

/-- Whether a setting that lacks a value is among the options used. -/
def leavesOpen (given : Given) : Bool :=
  given.uses.any fun choice => match choice with
    | .setting setting => given.lacks setting
    | .switch _ => false

/-- Whether an option other than a keyword is used twice. -/
def repeats (given : Given) : Bool :=
  given.uses.any fun choice => choice ≠ .setting .keyword && 1 < given.uses.count choice

/-- The options that the arguments amount to. -/
def finish (given : Given) : Except Refusal Options := do
  match given.tree with
  | none => throw .missingTree
  | some tree =>
    if given.leavesOpen then throw .missingValue
    let exportNames := given.valuesOf .exportAs
    if exportNames.any fun name => (OutputFormat.ofName? name).isNone then throw .invalidValue
    if given.repeats then throw .repeated
    return {
      keywords := given.valuesOf .keyword
      config := (given.valuesOf .config).head?
      batch := given.uses.contains (.switch .batch)
      source := (given.valuesOf .source).head?
      format := (given.valuesOf .format).headD "json"
      exportAs := (exportNames.head?.bind OutputFormat.ofName?).getD .pretty
      output := (given.valuesOf .output).head?
      statistics := given.uses.contains (.switch .statistics)
      tree }

end Given

/-- Reads the arguments of the command line, from left to right. -/
def parse (args : List String) : Except Refusal Options := do
  let given ← args.foldlM Given.read {}
  given.finish

end Options

end FlowDesugar
