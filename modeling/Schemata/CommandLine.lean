import Schemata.Configuration.Basic
import Schemata.Instantiation.Run
import Schemata.Node.Saved
/-!
# Command line

`Request.ofArguments?` reads arguments, `Request.run` answers a request, and `report` does both.  Files and environment
are given as values, so everything here is a function of what it is given.

    module FILE                      instantiates the definitions of a file as one module
    eval FILE --entry NAME           instantiates one definition; with --display in type notation
    cycles FILE                      tells about cyclic references

Before or after these, `--config PATH` names a configuration file and `--compact` asks for compact output.
-/
namespace Schemata

/-! ## Requests -/

/-- What is asked for. -/
inductive Task where
  | assemble (file : String)
  | evaluate (file entry : String) (display : Bool)
  | cycles (file : String)
  deriving DecidableEq, Repr

/-- **A request.** -/
structure Request where
  config : Option String
  compact : Bool
  task : Task
  deriving DecidableEq, Repr

/-! ## Arguments -/

/-- The options that there are. -/
inductive Switch where
  | config | compact | entry | display
  deriving DecidableEq, Repr

namespace Switch

def takesValue : Switch → Bool
  | .config | .entry => true
  | .compact | .display => false

def long : Switch → String
  | .config => "config"
  | .compact => "compact"
  | .entry => "entry"
  | .display => "display"

def short? : Switch → Option Char
  | .config => some 'c'
  | .entry => some 'e'
  | _ => none

def everywhere : List Switch := [.config, .compact]

def evaluation : List Switch := [.entry, .display, .config, .compact]

end Switch

/-- What arguments have given so far. -/
structure Given where
  switches : List (Switch × String) := []
  operands : List String := []

namespace Given

def value? (g : Given) (switch : Switch) : Option String := g.switches.lookup switch

def has (g : Given) (switch : Switch) : Bool := (g.value? switch).isSome

/-- One more option, which may be given only once. -/
def add? (g : Given) (switch : Switch) (value : String) : Option Given :=
  if g.has switch then none else some { g with switches := (switch, value) :: g.switches }

end Given

/-- An option as it is spelled in one argument: which one, and the value in the same argument, if any. -/
def spelled? (allowed : List Switch) (argument : String) : Option (Switch × Option String) :=
  match argument.toList with
  | '-' :: '-' :: cs => do
    let (name, rest) := cs.span (· != '=')
    let switch ← allowed.find? (·.long == String.ofList name)
    return (switch, if rest.isEmpty then none else some (String.ofList (rest.drop 1)))
  | '-' :: c :: cs => do
    let switch ← allowed.find? (·.short? == some c)
    match cs with
    | [] => return (switch, none)
    | '=' :: value => return (switch, some (String.ofList value))
    | value => return (switch, some (String.ofList value))
  | _ => none

/-- Whether an argument looks like an option; a single dash does not. -/
def looksLikeOption (argument : String) : Bool := argument.startsWith "-" && argument != "-"

/-- **Reads options and operands**; `pending` is an option that still wants its value.  With `stop`, the first operand
and what follows it are left over; after two dashes there are operands only. -/
def gather? (allowed : List Switch) (stop : Bool) (pending : Option Switch) (g : Given) :
    List String → Option (Given × List String)
  | [] => if pending.isSome then none else some (g, [])
  | argument :: rest =>
    match pending with
    | some switch =>
      if looksLikeOption argument then none
      else (g.add? switch argument).bind fun g => gather? allowed stop none g rest
    | none =>
      if argument = "--" then
        if stop then none else some ({ g with operands := g.operands ++ rest }, [])
      else if looksLikeOption argument then
        match spelled? allowed argument with
        | none => none
        | some (switch, none) =>
          if switch.takesValue then gather? allowed stop (some switch) g rest
          else (g.add? switch "").bind fun g => gather? allowed stop none g rest
        | some (switch, some value) =>
          if switch.takesValue then (g.add? switch value).bind fun g => gather? allowed stop none g rest
          else none
      else if stop then some (g, argument :: rest)
      else gather? allowed stop none { g with operands := g.operands ++ [argument] } rest

namespace Request

def task? (word : String) (g : Given) : Option Task :=
  match g.operands with
  | [file] =>
    if file.isEmpty then none
    else if word = "module" then some (.assemble file)
    else if word = "eval" then (g.value? .entry).map fun entry => .evaluate file entry (g.has .display)
    else if word = "cycles" then some (.cycles file)
    else none
  | _ => none

/-- **The request that arguments spell.**  A value given after the task wins over one given before it. -/
def ofArguments? (arguments : List String) : Option Request := do
  match ← gather? Switch.everywhere true none {} arguments with
  | (before, word :: rest) =>
    let allowed := if word = "eval" then Switch.evaluation else Switch.everywhere
    let (after, _) ← gather? allowed false none {} rest
    let task ← task? word after
    if before.value? .config = some "" ∨ after.value? .config = some "" then none
    return {
      config := (after.value? .config).or (before.value? .config)
      compact := before.has .compact || after.has .compact
      task }
  | _ => none

end Request

/-! ## Answers -/

/-- Why a request is not answered. -/
inductive Failure where
  | configuration
  | unreadable (file : String)
  | unparsable (file : String)
  | undefinedEntry (entry file : String)
  | instantiation (error : InstantiationError)
  /-- The nesting of steps went beyond all bounds. -/
  | exhausted

def Failure.message : Failure → String
  | .configuration => "failed to load configuration"
  | .unreadable file => "failed to read " ++ file
  | .unparsable file => "failed to parse " ++ file
  | .undefinedEntry entry file => "definition '" ++ entry ++ "' not found in " ++ file
  | .instantiation error => error.message
  | .exhausted => "instantiation is nested too deep"

/-- The result of an outcome, or the failure that it is. -/
def Outcome.answer {α : Type} : Outcome α → Except Failure α
  | .done a => .ok a
  | .failed error => .error (.instantiation error)
  | .exhausted => .error .exhausted

def contextIn (read : String → Option String) (file : String) : Except Failure Context :=
  match read file with
  | none => .error (.unreadable file)
  | some text =>
    match loadContext? text with
    | none => .error (.unparsable file)
    | some context => .ok context

/-- Lines, each with its end. -/
def ofLines (lines : List String) : String := String.join (lines.map (· ++ "\n"))

/-- **What there is to tell about cycles** in a context. -/
def cycleLines (context : Context) : List String :=
  let graph := ReferenceGraph.ofContext context
  let undefinedNames := graph.names.length - context.length
  let groups := graph.groups
  let cyclicNames := context.names.filter (isCyclic context)
  ["📊 " ++ toString context.length ++ " definitions, " ++ toString graph.edgeCount ++ " reference edges"]
    ++ (if 0 < undefinedNames then
          ["⚠\uFE0F  " ++ toString undefinedNames ++ " referenced name(s) not defined in the file"] else [])
    ++ (if groups.isEmpty then ["✅ No reference cycles"]
        else ("🔁 " ++ toString groups.length ++ " reference cycle(s):")
          :: groups.map fun names => "   " ++ " <-> ".intercalate names)
    ++ (if cyclicNames.isEmpty then []
        else "📦 Packaged as cyclic bundles:"
          :: cyclicNames.map fun name => "   " ++ name ++ " -> " ++ ", ".intercalate (graph.references name))

def Task.run (read : String → Option String) (limits : Limits) (format : Format) : Task → Except Failure String
  | .assemble file => do
    let context ← contextIn read file
    let assembled ← (instantiateModule limits context).answer
    return ofLines [(contextToJson assembled).render format]
  | .evaluate file entry display => do
    let context ← contextIn read file
    if !context.has entry then throw (.undefinedEntry entry file)
    let n ← (instantiate limits context (.reference entry)).answer
    return ofLines [if display then n.display else n.toJson.render format]
  | .cycles file => do return ofLines (cycleLines (← contextIn read file))

/-- **Answers a request.** -/
def Request.run (read : String → Option String) (environment : List (String × String)) (r : Request) :
    Except Failure String :=
  match Configuration.load? read r.config environment with
  | none => .error .configuration
  | some configuration =>
    r.task.run read configuration.limits (if r.compact then .compact else configuration.format)

/-- **What a run of the command line leaves**: an exit code, and text for the two streams. -/
structure Report where
  code : Nat
  output : String
  errors : String
  deriving DecidableEq, Repr

def usage : String :=
  "usage: [-c PATH] [--compact] module FILE | eval FILE -e NAME [--display] | cycles FILE\n"

/-- **Runs the command line.** -/
def report (read : String → Option String) (environment : List (String × String)) (arguments : List String) : Report :=
  match Request.ofArguments? arguments with
  | none => ⟨2, "", usage⟩
  | some request =>
    match request.run read environment with
    | .ok output => ⟨0, output, ""⟩
    | .error failure => ⟨1, "", "Error: " ++ failure.message ++ "\n"⟩

def Request.files (r : Request) (environment : List (String × String)) : List String :=
  let named := match r.task with
    | .assemble file | .evaluate file _ _ | .cycles file => file
  named :: Configuration.candidates r.config environment

end Schemata
