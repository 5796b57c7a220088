import MatrixCalculator.Evaluation
import MatrixCalculator.Language.Program
import MatrixCalculator.Settings

namespace MatrixCalculator

/-- What a session answers to a fragment: text to show, and the prompt for the next fragment. -/
structure Reply where
  output : String
  prompt : String
  isError : Bool

inductive Note where
  | waiting (idle : Bool) (fragments : Nat)
  | unreadable (e : Error)
  | failed (e : Error)

def Note.text : Note → String
  | .waiting idle fragments =>
    let state := if idle then "idle" else "awaiting"
    s!"{state} -> awaiting ({fragments} fragments)"
  | .unreadable e => s!"malformed input: {e.message}"
  | .failed e => s!"evaluation failed: {e.message}"

structure Session where
  settings : Settings
  env : Environment
  buffer : List String

/-- The reply to a fragment, unless a fault came in between, and the session after it. -/
structure Turn where
  reply : Except Fault Reply
  session : Session
  note : Option Note

namespace Session

def standbyPrompt : String := "> "

def pendingPrompt : String := ". "

def constants : Environment := ⟨Builtin.constants.map fun c => (c.1, .scalar c.2)⟩

def new (settings : Settings) : Session := ⟨settings, constants, []⟩

def isIdle (s : Session) : Bool := s.buffer.isEmpty

def prompt (s : Session) : String := if s.isIdle then standbyPrompt else pendingPrompt

def pendingSource (s : Session) : String := "\n".intercalate s.buffer

def dropPending (s : Session) : Session := { s with buffer := [] }

/-- Drops pending input and all variables but the constants. -/
def reset (s : Session) : Session := new s.settings

def reply (lines : List String) (isError : Bool) : Reply :=
  ⟨"\n".intercalate lines, standbyPrompt, isError⟩

def failing (s : Session) (lines : List String) (e : Error) : Turn :=
  ⟨.ok (reply (lines ++ [e.report]) true), s, some (.failed e)⟩

/-- Executes statements in order, up to the first that fails, after those that gave `lines`. -/
def runFrom (s : Session) (lines : List String) (nodes : List Node)
    (levels : Nat := Evaluation.maxDepth) : Turn :=
  match nodes with
  | [] => ⟨.ok (reply lines false), s, none⟩
  | node :: nodes =>
    match Evaluation.execute s.env s.settings.tolerance levels node with
    | .ok (v, env) =>
      match v.render? s.settings.precision with
      | .ok text => runFrom { s with env } (lines ++ [text]) nodes levels
      | .error f => ⟨.error f, { s with env }, none⟩
    | .error (.error e) => s.failing lines e
    | .error (.fault .nestedEvaluation) => s.failing lines ⟨.tooDeep, some node.line⟩
    | .error (.fault f) => ⟨.error f, s, none⟩

def run (s : Session) (nodes : List Node) (levels : Nat := Evaluation.maxDepth) : Turn :=
  s.runFrom [] nodes levels

/-- What the outcome of reading the pending fragments makes of the session. -/
def transition (s : Session) (outcome : Outcome (List Node))
    (levels : Nat := Evaluation.maxDepth) : Turn :=
  match outcome with
  | .incomplete =>
    ⟨.ok ⟨"", pendingPrompt, false⟩, s, some (.waiting s.isIdle s.buffer.length)⟩
  | .malformed line column reason =>
    let e : Error := ⟨.unreadable reason.text (some line) (some column), none⟩
    ⟨.ok (reply [e.report] true), s.dropPending, some (.unreadable e)⟩
  | .complete nodes _ => s.dropPending.run nodes levels
  | .broken b => ⟨.error (.breakdown b), s, none⟩

def refuse (s : Session) (text : String) : Turn := ⟨.error (.unknownOutcome text), s, none⟩

/-- Takes one fragment of text. Its statements may open so many evaluations inside one another. -/
def evaluate (s : Session) (fragment : String) (levels : Nat := Evaluation.maxDepth) : Turn :=
  let s := { s with buffer := s.buffer ++ [fragment] }
  s.transition (parse s.pendingSource) levels

end Session
end MatrixCalculator
