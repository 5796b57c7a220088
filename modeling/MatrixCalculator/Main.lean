import MatrixCalculator.Terminal.Shell

namespace MatrixCalculator.Terminal

def fileAt (path : String) : IO File := do
  try
    return .bytes (← IO.FS.readBinFile path).toList
  catch
    | .inappropriateType none _ _ => return .directory
    | .inappropriateType (some _) _ _ => return .belowFile
    | .invalidArgument _ _ _ => return .nameTooLong
    | _ => return .missing

/-- Takes a step and passes on what it shows and logs. -/
def act {α : Type} (step : Shell α) (s : Session) : IO (Except Fault α × Session) := do
  let (result, t) : Except Fault α × State := match step ⟨s, "", ""⟩ with
    | .ok a t => (.ok a, t)
    | .error f t => (.error f, t)
  (← IO.getStderr).putStr t.logged
  let out ← IO.getStdout
  out.putStr t.shown
  out.flush
  return (result, t.session)

def abort (f : Fault) : IO UInt32 := do
  IO.eprintln f.message
  return 1

def typedLine (line : String) : String := (line.dropEndWhile (· == '\n')).toString

partial def dialogue (s : Session) : IO UInt32 := do
  let (_, s) ← act Shell.ask s
  let line ← (← IO.getStdin).getLine
  if line.isEmpty then
    discard (act (Shell.writeLine "") s)
    return 0
  let text := typedLine line
  let file ← match Shell.scriptPath? (Text.trim text) with
    | some path => fileAt path
    | none => pure .missing
  match ← act (Shell.take (fun _ => file) (.line text)) s with
  | (.ok true, s) => dialogue s
  | (.ok false, _) => return 0
  | (.error f, _) => abort f

def start (s : Session) (command : Command) : IO UInt32 := do
  match command with
  | .dialogue =>
    let (_, s) ← act (Shell.writeLine startupText) s
    dialogue s
  | command =>
    let file ← match command with
      | .script path => fileAt path
      | _ => pure .missing
    match ← act (perform (fun _ => file) [] command) s with
    | (.ok status, _) => return status.toUInt32
    | (.error f, _) => abort f

end MatrixCalculator.Terminal

open MatrixCalculator in
def main (args : List String) : IO UInt32 := do
  let given ← Settings.variableNames.mapM fun name => return (name, ← IO.getEnv name)
  match Settings.ofVariables fun name => (given.lookup name).join with
  | .ok settings => Terminal.start (Session.new settings) (Terminal.Command.ofArgs args)
  | .error e =>
    IO.println (Terminal.settingsComplaint e)
    return 2
