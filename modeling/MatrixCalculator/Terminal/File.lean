import MatrixCalculator.Text.Lines
import MatrixCalculator.Text.Utf8

namespace MatrixCalculator.Terminal

/-- What stands at a path. -/
inductive File where
  | bytes (content : List UInt8)
  | directory
  | missing
  | belowFile
  | nameTooLong

inductive FileError where
  | missing (path : String)
  | directory (path : String)
  | belowFile (path : String)
  | nameTooLong (path : String)
  | undecodable (m : Text.Utf8.Malformed)

def FileError.report : FileError → String
  | .missing path =>
    s!"FileNotFoundError: [Errno 2] No such file or directory: {Text.quoted path}"
  | .directory path => s!"IsADirectoryError: [Errno 21] Is a directory: {Text.quoted path}"
  | .belowFile path => s!"NotADirectoryError: [Errno 20] Not a directory: {Text.quoted path}"
  | .nameTooLong path => s!"OSError: [Errno 36] File name too long: {Text.quoted path}"
  | .undecodable m => s!"UnicodeDecodeError: {m.message}"

/-- The text of a file: UTF-8, with line feeds for all carriage returns. -/
def readText (files : String → File) (path : String) : Except FileError String :=
  match files path with
  | .missing => .error (.missing path)
  | .directory => .error (.directory path)
  | .belowFile => .error (.belowFile path)
  | .nameTooLong => .error (.nameTooLong path)
  | .bytes content =>
    match Text.Utf8.decode content with
    | .ok cs => .ok (String.ofList (Text.unifyNewlines cs))
    | .error m => .error (.undecodable m)

end MatrixCalculator.Terminal
