import MatrixCalculator.Session
import MatrixCalculator.Terminal.File
import MatrixCalculator.Terminal.Listing

namespace MatrixCalculator.Terminal

structure State where
  session : Session
  shown : String
  logged : String

/-- Steps of a terminal, which end early at a fault and keep what was shown up to it. -/
abbrev Shell := EStateM Fault State

/-- How much a caller leaves room for: the evaluations open inside one another and the levels of a
listed tree. -/
structure Room where
  levels : Nat := Evaluation.maxDepth
  listed : Nat := maxListed

/-- The room on each way to the session: for lines typed at the prompt, for the lines of a script,
and for those of a script that a command runs. -/
structure Rooms where
  typed : Room := {}
  script : Room := {}
  command : Room := {}

/-- What is typed: a line, or a request to interrupt. -/
inductive Typed where
  | line (text : String)
  | interrupt

def resultMark : String := "=> "

def errorMark : String := "! "

def startupText : String :=
  "Little Mat Calculator 0.1.0 [Python V] on S\nType .help to get help"

def usage : List String :=
  ["", "Little Mat Calculator", "", "Usage:", "    mcalc [<script>]", "", "Arguments:",
    "    <script>", "        Path to a file of calculator statements to evaluate. Lines",
    "        starting with '#' are ignored.", "",
    "Or run with no arguments to enter interactive mode (REPL).", "", "Options:",
    "    -h, --help", "        Show this help message and exit."]

def commandHelp : List String :=
  ["AVAILABLE INTERPRETER COMMANDS", "    .quit            exits the interpreter",
    "    .evalf <path>    evaluates the file at <path>",
    "    .vars            lists the variables of this session",
    "    .help            displays this message", "", "HELP ON THE CALCULATOR SYNTAX",
    "    Numbers, variables and matrices combine with + - * / and ^.",
    "    Matrices are written row by row: [1, 2; 3, 4]. A newline also ends a row.",
    "    Assign with `name = expression`. Statements are separated by newlines",
    "    or `;`. An unfinished statement continues on the next line.", ""]

namespace Shell

def write (text : String) : Shell Unit := modify fun t => { t with shown := t.shown ++ text }

def writeLine (text : String) : Shell Unit := write (text ++ "\n")

def writeLines (lines : List String) : Shell Unit := lines.forM writeLine

def session : Shell Session := return (← get).session

def setSession (s : Session) : Shell Unit := modify fun t => { t with session := s }

def log (note : Note) : Shell Unit :=
  modify fun t => { t with logged := t.logged ++ "DEBUG:matcalc.session:" ++ note.text ++ "\n" }

def display (reply : Reply) : Shell Unit :=
  let mark := if reply.isError then errorMark else resultMark
  writeLines ((Text.lines reply.output).map fun line => mark ++ line)

/-- Lists the tokens and the trees of a text. -/
def inspect (source : String) (listed : Nat := maxListed) : Shell Unit := do
  let tokens := tokenize source
  writeLines (tokenLines tokens ++ ["\nAST:\n"])
  match parseProgram tokens with
  | .complete nodes _ =>
    nodes.forM fun node => do
      match treeLines node listed with
      | .ok lines => writeLines lines
      | .error f => throw f
  | outcome => writeLine (outcomeListing outcome)
  writeLine " "

/-- Passes a line to the session and shows its reply: whether there was no error. -/
def feed (line : String) (room : Room := {}) : Shell Bool := do
  let s ← session
  if s.settings.debug then
    inspect (if s.isIdle then line else s.pendingSource ++ "\n" ++ line) room.listed
  let turn := s.evaluate line room.levels
  setSession turn.session
  if s.settings.debug then turn.note.forM log
  match turn.reply with
  | .ok reply =>
    display reply
    return !reply.isError
  | .error f => throw f

/-- Evaluates the lines of a script, which is not to end within a statement. -/
def runLines (path : String) (lines : List String) (room : Room := {}) : Shell Bool := do
  let ok ← lines.foldlM (fun ok line => return (← feed line room) && ok) true
  let s ← session
  if s.isIdle then return ok
  else
    writeLine s!"{errorMark}SyntaxError: unexpected end of file in {path}"
    setSession s.dropPending
    return false

/-- Evaluates a script; one that cannot be read is reported. -/
def runFile (files : String → File) (path : String) (room : Room := {}) : Shell Bool := do
  if path.toList.contains '\x00' then throw .nullInPath
  match readText files path with
  | .ok source => runLines path (scriptLines source) room
  | .error e =>
    writeLine e.report
    return false

def variableLines (s : Session) : Except Fault (List String) :=
  let sorted := s.env.bindings.mergeSort fun a b => a.1 ≤ b.1
  sorted.mapM fun b => do
    let text ← b.2.render? s.settings.precision
    return s!"    {b.1} = {text}"

def scriptPath? (command : String) : Option String :=
  if command.startsWith ".evalf " then some (Text.trim (command.drop 7).toString) else none

def obey (files : String → File) (command : String) (room : Room := {}) : Shell Bool := do
  if command == ".quit" then return false
  match scriptPath? command with
  | some path => discard (runFile files path room)
  | none =>
    if command == ".help" then
      writeLines (commandHelp ++ [Builtin.helpText])
    else if command == ".vars" then
      match variableLines (← session) with
      | .ok lines => writeLines lines
      | .error f => throw f
    else writeLine "No such command. Type .help for help"
  return true

/-- Takes what was typed at the prompt: whether to go on after it. A line that starts with a point
is a command, unless a statement is pending. -/
def take (files : String → File) (typed : Typed) (rooms : Rooms := {}) : Shell Bool :=
  match typed with
  | .line text => do
    let s ← session
    let command := Text.trim text
    if s.isIdle && command.startsWith "." then obey files command rooms.command
    else
      discard (feed text rooms.typed)
      return true
  | .interrupt => do
    let s ← session
    if s.isIdle then
      writeLine "\nInterrupted."
      return false
    else
      setSession s.dropPending
      writeLine ""
      return true

def ask : Shell Unit := do write (← session).prompt

def converse (files : String → File) (typed : List Typed) (rooms : Rooms := {}) : Shell Unit :=
  match typed with
  | [] => do
    ask
    writeLine ""
  | typed :: more => do
    ask
    if ← take files typed rooms then converse files more rooms

def interactive (files : String → File) (typed : List Typed) (rooms : Rooms := {}) :
    Shell Unit := do
  writeLine startupText
  converse files typed rooms

end Shell

inductive Command where
  | dialogue
  | help
  | script (path : String)
  | misuse

def Command.ofArgs : List String → Command
  | [] => .dialogue
  | [arg] => if arg == "-h" || arg == "--help" then .help else .script arg
  | _ => .misuse

/-- What a run of the program showed and logged, and its status unless a fault ended it. -/
structure Finished where
  status : Except Fault Nat
  shown : String
  logged : String

def finish (settings : Settings) (shell : Shell Nat) : Finished :=
  match shell ⟨Session.new settings, "", ""⟩ with
  | .ok status t => ⟨.ok status, t.shown, t.logged⟩
  | .error f t => ⟨.error f, t.shown, t.logged⟩

def perform (files : String → File) (typed : List Typed) (command : Command)
    (rooms : Rooms := {}) : Shell Nat :=
  match command with
  | .dialogue => do
    Shell.interactive files typed rooms
    return 0
  | .help => do
    Shell.writeLines usage
    return 0
  | .script path => do
    let ok ← Shell.runFile files path rooms.script
    return if ok then 0 else 1
  | .misuse => do
    Shell.writeLines usage
    return 1

def settingsComplaint (e : SettingsError) : String := s!"ConfigError: {e.message}"

/-- Runs the program with its arguments: without any a dialogue, with a path a script. -/
def run (files : String → File) (lookup : String → Option String) (args : List String)
    (typed : List Typed) (rooms : Rooms := {}) : Finished :=
  match Settings.ofVariables lookup with
  | .error e => ⟨.ok 2, settingsComplaint e ++ "\n", ""⟩
  | .ok settings => finish settings (perform files typed (Command.ofArgs args) rooms)

end MatrixCalculator.Terminal
