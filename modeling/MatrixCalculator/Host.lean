import MatrixCalculator.Session

namespace MatrixCalculator

structure Host where
  default? : Option Session

namespace Host

def start : Host := ⟨none⟩

/-- Opens the default session anew. -/
def restart (_ : Host) : Host := ⟨some (Session.new Settings.default)⟩

def evaluate (h : Host) (fragment : String) : Except Fault Reply × Host :=
  let turn := (h.default?.getD (Session.new Settings.default)).evaluate fragment
  (turn.reply, ⟨some turn.session⟩)

end Host
end MatrixCalculator
