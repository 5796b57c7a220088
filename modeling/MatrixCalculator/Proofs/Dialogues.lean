import MatrixCalculator.Proofs.Levels
import MatrixCalculator.Terminal.Shell

namespace MatrixCalculator

namespace Text

theorem linesFrom_of_not_break {c : Char} (hc : isLineBreak c = false) (line rest : List Char) :
    linesFrom line (c :: rest) = linesFrom (c :: line) rest := by
  rw [linesFrom]
  · rw [hc, if_neg Bool.false_ne_true]
  · rintro _ rfl
    contradiction

theorem linesFrom_newline (line rest : List Char) :
    linesFrom line ('\n' :: rest) = line.reverse :: linesFrom [] rest := by
  rw [linesFrom]
  · rfl
  · simp

theorem linesFrom_append {cs : List Char} (hcs : ∀ c ∈ cs, isLineBreak c = false)
    (line rest : List Char) :
    linesFrom line (cs ++ rest) = linesFrom (cs.reverse ++ line) rest := by
  induction cs generalizing line with
  | nil => rfl
  | cons c cs ih =>
    obtain ⟨hc, hcs⟩ := List.forall_mem_cons.mp hcs
    rw [List.cons_append, linesFrom_of_not_break hc, ih hcs, List.reverse_cons, List.append_assoc]
    rfl

/-- No character of the text breaks a line. -/
def Unbroken (s : String) : Prop := Spelled (isLineBreak · = false) s

theorem Unbroken.lines_append {s : String} (h : Unbroken s) (rest : String) :
    lines (s ++ "\n" ++ rest) = s :: lines rest := by
  have hchars : (s ++ "\n" ++ rest).toList = s.toList ++ '\n' :: rest.toList := by simp
  rw [lines, hchars, linesFrom_append h, linesFrom_newline, List.append_nil, List.reverse_reverse,
    List.map_cons, String.ofList_toList]
  rfl

/-- The first character of a text that is not blank. -/
def firstMark? (s : String) : Option Char := s.toList.find? fun c => !isBlank c

theorem head?_dropWhile (p : Char → Bool) (cs : List Char) :
    (cs.dropWhile p).head? = cs.find? fun c => !p c := by
  induction cs with
  | nil => rfl
  | cons c cs ih =>
    by_cases hc : p c = true
    · rw [List.dropWhile_cons_of_pos hc, ih, List.find?_cons_of_neg (by simp [hc])]
    · rw [List.dropWhile_cons_of_neg hc, List.find?_cons_of_pos (by simpa using hc)]
      rfl

theorem head?_trimChars (p : Char → Bool) (cs : List Char) :
    (trimChars p cs).head? = cs.find? fun c => !p c := by
  rw [← head?_dropWhile, trimChars]
  cases hcs : cs.dropWhile p with
  | nil => rfl
  | cons c rest =>
    -- The first character is not of the class, so dropping from the end stops before it.
    have hc : p c = false := by
      have h := List.head?_dropWhile_not p cs
      rwa [hcs] at h
    have hdrop : (rest.reverse ++ [c]).dropWhile p = rest.reverse.dropWhile p ++ [c] := by
      rw [List.dropWhile_append]
      split
      · rename_i hnil
        rw [List.isEmpty_iff.mp hnil, List.dropWhile_cons_of_neg (by simp [hc])]
        rfl
      · rfl
    rw [List.reverse_cons, hdrop, List.reverse_append]
    rfl

theorem startsWith_trim (s : String) :
    (trim s).startsWith "." = true ↔ firstMark? s = some '.' := by
  have htrim : (trim s).toList = trimChars isBlank s.toList := String.toList_ofList
  rw [String.startsWith_string_iff, htrim, firstMark?, ← head?_trimChars]
  cases trimChars isBlank s.toList with
  | nil => simp
  | cons c rest => simp [eq_comm]

end Text

namespace Terminal

/-- The text that the output of a reply is shown as, each of its lines with its mark. -/
def displayed (r : Reply) : String :=
  let mark := if r.isError then errorMark else resultMark
  String.join ((Text.lines r.output).map fun line => mark ++ line ++ "\n")

/-- The step shows the text, does nothing else, and ends in this way. -/
def Shows {α : Type} (x : Shell α) (text : String) : Except Fault α → Prop
  | .ok a => ∀ t, x t = .ok a { t with shown := t.shown ++ text }
  | .error f => ∀ t, x t = .error f { t with shown := t.shown ++ text }

namespace Shows

variable {α β : Type}

theorem pure (a : α) : Shows (Pure.pure a) "" (.ok a) := by
  intro t
  rw [String.append_empty]
  rfl

theorem throw (f : Fault) : Shows (MonadExcept.throw f : Shell α) "" (.error f) := by
  intro t
  rw [String.append_empty]
  rfl

theorem write (text : String) : Shows (Shell.write text) text (.ok ()) := fun _ => rfl

theorem writeLine (text : String) : Shows (Shell.writeLine text) (text ++ "\n") (.ok ()) :=
  write _

theorem bind {x : Shell α} {f : α → Shell β} {a : α} {text text' : String} {r : Except Fault β}
    (hx : Shows x text (.ok a)) (hf : Shows (f a) text' r) : Shows (x >>= f) (text ++ text') r := by
  cases r with
  | ok b =>
    intro t
    show EStateM.bind x f t = _
    rw [EStateM.bind, hx t]
    dsimp only
    rw [hf, String.append_assoc]
  | error e =>
    intro t
    show EStateM.bind x f t = _
    rw [EStateM.bind, hx t]
    dsimp only
    rw [hf, String.append_assoc]

theorem bind_error {x : Shell α} {f : Fault} {text : String} (hx : Shows x text (.error f))
    (k : α → Shell β) : Shows (x >>= k) text (.error f) := by
  intro t
  show EStateM.bind x k t = _
  rw [EStateM.bind, hx t]

theorem writeLines (lines : List String) :
    Shows (Shell.writeLines lines) (String.join (lines.map (· ++ "\n"))) (.ok ()) := by
  induction lines with
  | nil => exact pure ()
  | cons line lines ih =>
    rw [List.map_cons, String.join_cons]
    exact bind (writeLine line) ih

theorem display (r : Reply) : Shows (Shell.display r) (displayed r) (.ok ()) := by
  have h := writeLines ((Text.lines r.output).map fun line =>
    (if r.isError then errorMark else resultMark) ++ line)
  rw [List.map_map] at h
  exact h

end Shows

open Shell

/-- Before a line is evaluated this text lists how it is read, if there is room for so many levels
or more, unless there is no debugging. -/
def Lists (limit : Nat) (s : Session) (line listed : String) : Prop :=
  if s.settings.debug then
    ∀ limit', limit ≤ limit' → Shows (inspect (s.sourceWith line) limit') listed (.ok ())
  else listed = ""

def logText (levels : Nat) (s : Session) (line : String) : String :=
  if s.settings.debug then
    ((s.evaluate line levels).note.map fun note =>
      "DEBUG:matcalc.session:" ++ note.text ++ "\n").getD ""
  else ""

theorem inspected_eq (s : Session) (line : String) :
    (if s.isIdle then line else s.pendingSource ++ "\n" ++ line) = s.sourceWith line := by
  unfold Session.isIdle Session.sourceWith Session.pendingSource
  split
  · rename_i hidle
    rw [List.isEmpty_iff.mp hidle, List.nil_append, String.intercalate_singleton]
  · rename_i hpending
    have hne : s.buffer ≠ [] := by simpa using hpending
    rw [String.intercalate_append_of_ne_nil hne (by simp), String.intercalate_singleton]

/-- The rest of feeding a line, behind what is listed. -/
def answer (levels : Nat) (s : Session) (line : String) : Shell Bool := do
  setSession (s.evaluate line levels).session
  if s.settings.debug then (s.evaluate line levels).note.forM log
  match (s.evaluate line levels).reply with
  | .ok reply =>
    display reply
    return !reply.isError
  | .error f => throw f

theorem feed_eq (line : String) (room : Room) (t : State) : feed line room t =
    (do
      if t.session.settings.debug then inspect (t.session.sourceWith line) room.listed
      answer room.levels t.session line) t := by
  rw [← inspected_eq]
  rfl

section

variable {s : Session} {line : String} {levels : Nat}

theorem answer_of_reply {r : Reply} (hreply : (s.evaluate line levels).reply = .ok r) (t : State) :
    answer levels s line t = .ok (!r.isError)
      ⟨(s.evaluate line levels).session, t.shown ++ displayed r,
        t.logged ++ logText levels s line⟩ := by
  have hdisplay : ∀ t, (do display r; return !r.isError : Shell Bool) t =
      .ok (!r.isError) { t with shown := t.shown ++ displayed r } := by
    intro t
    show EStateM.bind (display r) _ t = _
    rw [EStateM.bind, Shows.display r t]
    rfl
  unfold answer logText
  rw [hreply]
  dsimp only
  by_cases hdebug : s.settings.debug = true
  · rw [if_pos hdebug, if_pos hdebug]
    cases (s.evaluate line levels).note with
    | none =>
      refine (hdisplay _).trans ?_
      rw [Option.map_none, Option.getD_none, String.append_empty]
    | some note =>
      refine (hdisplay _).trans ?_
      dsimp only [Option.map_some, Option.getD_some]
      rw [String.append_assoc, String.append_assoc, String.append_assoc]
  · rw [if_neg hdebug, if_neg hdebug]
    refine (hdisplay _).trans ?_
    rw [String.append_empty]

theorem answer_of_fault {f : Fault} (hreply : (s.evaluate line levels).reply = .error f)
    (t : State) : ∃ t', answer levels s line t = .error f t' := by
  unfold answer
  rw [hreply]
  dsimp only
  by_cases hdebug : s.settings.debug = true
  · rw [if_pos hdebug]
    cases (s.evaluate line levels).note <;> exact ⟨_, rfl⟩
  · rw [if_neg hdebug]
    exact ⟨_, rfl⟩

end

/-- The tree has more levels than can be listed. -/
def Unlistable (limit : Nat) (node : Node) : Prop := (node.below? limit).isSome = true

theorem treeLines_cases (limit : Nat) (node : Node) :
    (∃ lines, ∀ limit', limit ≤ limit' → treeLines node limit' = .ok lines) ∨
      Unlistable limit node ∧
        ∃ operator, treeLines node limit = .error (.nestedListing operator) := by
  cases hbelow : node.below? limit with
  | none =>
    refine .inl ⟨[node.listing, "    " ++ node.render], fun limit' hle => ?_⟩
    rw [treeLines, Node.below?_of_le hle hbelow]
  | some deep =>
    refine .inr ⟨by rw [Unlistable, hbelow]; rfl, deep.startsWithOperator, ?_⟩
    rw [treeLines, hbelow]

def listTree (limit : Nat) (node : Node) : Shell Unit :=
  match treeLines node limit with
  | .ok lines => writeLines lines
  | .error f => throw f

theorem listTree_cases (limit : Nat) (node : Node) : ∃ text,
    (∀ limit', limit ≤ limit' → Shows (listTree limit' node) text (.ok ())) ∨
      ∃ operator, Shows (listTree limit node) text (.error (.nestedListing operator)) ∧
        Unlistable limit node := by
  rcases treeLines_cases limit node with ⟨lines, hlines⟩ | ⟨hdeep, operator, hlines⟩
  · refine ⟨String.join (lines.map (· ++ "\n")), .inl fun limit' hle => ?_⟩
    rw [listTree, hlines limit' hle]
    exact .writeLines lines
  · refine ⟨"", .inr ⟨operator, ?_, hdeep⟩⟩
    rw [listTree, hlines]
    exact .throw _

theorem listTrees_cases (limit : Nat) (nodes : List Node) : ∃ text,
    (∀ limit', limit ≤ limit' → Shows (nodes.forM (listTree limit')) text (.ok ())) ∨
      ∃ operator, Shows (nodes.forM (listTree limit)) text (.error (.nestedListing operator)) ∧
        ∃ node ∈ nodes, Unlistable limit node := by
  induction nodes with
  | nil => exact ⟨_, .inl fun _ _ => .pure ()⟩
  | cons node nodes ih =>
    obtain ⟨_, hfirst | ⟨operator, hfirst, hdeep⟩⟩ := listTree_cases limit node
    · obtain ⟨_, hlater | ⟨operator, hlater, deep, hmem, hdeep⟩⟩ := ih
      · exact ⟨_, .inl fun limit' hle => (hfirst limit' hle).bind (hlater limit' hle)⟩
      · exact ⟨_, .inr ⟨operator, (hfirst limit le_rfl).bind hlater, deep,
          List.mem_cons_of_mem _ hmem, hdeep⟩⟩
    · exact ⟨_, .inr ⟨operator, hfirst.bind_error _, node, List.mem_cons_self, hdeep⟩⟩

/-- Listing a text ends well, unless it has a statement with too many levels. -/
theorem inspect_cases (limit : Nat) (source : String) : ∃ text,
    (∀ limit', limit ≤ limit' → Shows (inspect source limit') text (.ok ())) ∨
      ∃ operator, Shows (inspect source limit) text (.error (.nestedListing operator)) ∧
        ∃ nodes rest, parse source = .complete nodes rest ∧
          ∃ node ∈ nodes, Unlistable limit node := by
  unfold inspect parse
  dsimp only
  have hhead := Shows.writeLines (tokenLines (tokenize source) ++ ["\nAST:\n"])
  cases hparse : parseProgram (tokenize source) with
  | complete nodes rest =>
    obtain ⟨text, htrees | ⟨operator, htrees, hdeep⟩⟩ := listTrees_cases limit nodes
    · exact ⟨_, .inl fun limit' hle => hhead.bind ((htrees limit' hle).bind (.writeLine " "))⟩
    · exact ⟨_, .inr ⟨operator, hhead.bind (htrees.bind_error _), nodes, rest, rfl, hdeep⟩⟩
  | _ => exact ⟨_, .inl fun _ _ => hhead.bind ((Shows.writeLine _).bind (.writeLine " "))⟩

section

variable {s : Session} {line : String}

theorem feed_of_reply {room : Room} {listed : String} {r : Reply}
    (hlisted : Lists room.listed s line listed)
    (hreply : (s.evaluate line room.levels).reply = .ok r) {t : State} (ht : t.session = s) :
    feed line room t = .ok (!r.isError) ⟨(s.evaluate line room.levels).session,
      t.shown ++ (listed ++ displayed r), t.logged ++ logText room.levels s line⟩ := by
  rw [feed_eq, ht]
  unfold Lists at hlisted
  by_cases hdebug : s.settings.debug = true
  · rw [if_pos hdebug] at hlisted
    rw [if_pos hdebug]
    show EStateM.bind (inspect _ _) _ t = _
    rw [EStateM.bind, hlisted room.listed le_rfl t]
    dsimp only
    rw [answer_of_reply hreply, String.append_assoc]
  · rw [if_neg hdebug] at hlisted
    rw [if_neg hdebug, hlisted, String.empty_append]
    exact answer_of_reply hreply t

/-- A line ends in a fault if it cannot be listed or gets no reply. -/
theorem feed_cases (room : Room) (s : Session) (line : String) :
    (∃ listed r, Lists room.listed s line listed ∧
      (s.evaluate line room.levels).reply = .ok r) ∨
    (∃ f, (s.evaluate line room.levels).reply = .error f ∧
      ∀ t : State, t.session = s → ∃ t', feed line room t = .error f t') ∨
    (s.settings.debug = true ∧ ∃ nodes rest, parse (s.sourceWith line) = .complete nodes rest ∧
      (∃ node ∈ nodes, Unlistable room.listed node) ∧ ∃ operator, ∀ t : State, t.session = s →
        ∃ t', feed line room t = .error (.nestedListing operator) t') := by
  by_cases hdebug : s.settings.debug = true
  · obtain ⟨listed, hlisted | ⟨operator, hlisted, nodes, rest, hparse, hdeep⟩⟩ :=
      inspect_cases room.listed (s.sourceWith line)
    · cases hreply : (s.evaluate line room.levels).reply with
      | ok r => exact .inl ⟨listed, r, by rwa [Lists, if_pos hdebug], rfl⟩
      | error f =>
        refine .inr (.inl ⟨f, rfl, fun t ht => ?_⟩)
        obtain ⟨t', ht'⟩ := answer_of_fault hreply { t with shown := t.shown ++ listed }
        refine ⟨t', ?_⟩
        rw [feed_eq, ht, if_pos hdebug]
        show EStateM.bind (inspect _ _) _ t = _
        rw [EStateM.bind, hlisted room.listed le_rfl t]
        exact ht'
    · refine .inr (.inr ⟨hdebug, nodes, rest, hparse, hdeep, operator, fun t ht => ?_⟩)
      rw [feed_eq, ht, if_pos hdebug]
      exact ⟨_, hlisted.bind_error _ t⟩
  · cases hreply : (s.evaluate line room.levels).reply with
    | ok r => exact .inl ⟨"", r, by rw [Lists, if_neg hdebug], rfl⟩
    | error f =>
      refine .inr (.inl ⟨f, rfl, fun t ht => ?_⟩)
      obtain ⟨t', ht'⟩ := answer_of_fault hreply t
      refine ⟨t', ?_⟩
      rw [feed_eq, ht, if_neg hdebug]
      exact ht'

end

/-- A line that was fed to a session: the prompt for it, what was listed before it was evaluated,
the reply, and what was logged. -/
structure Exchange where
  prompt : String
  listed : String
  reply : Reply
  logged : String

def Exchange.shown (e : Exchange) : String := e.listed ++ displayed e.reply

/-- The lines are fed one after the other with this room, and all get a reply. -/
inductive Feeds (room : Room) : Session → List String → List Exchange → Session → Prop where
  | nil (s : Session) : Feeds room s [] [] s
  | cons {s s' : Session} {line listed : String} {lines : List String} {r : Reply}
      {exchanges : List Exchange} (hlisted : Lists room.listed s line listed)
      (hreply : (s.evaluate line room.levels).reply = .ok r)
      (later : Feeds room (s.evaluate line room.levels).session lines exchanges s') :
      Feeds room s (line :: lines)
        (⟨s.prompt, listed, r, logText room.levels s line⟩ :: exchanges) s'

def feedLines (lines : List String) (room : Room) (ok : Bool) : Shell Bool :=
  lines.foldlM (fun ok line => return (← feed line room) && ok) ok

section

variable {room : Room} {t t' : State}

theorem feedLines_cons {line : String} {lines : List String} {ok ok' : Bool}
    (h : feed line room t = .ok ok' t') :
    feedLines (line :: lines) room ok t = feedLines lines room (ok' && ok) t' := by
  show EStateM.bind (EStateM.bind (feed line room) _) _ t = _
  rw [EStateM.bind, EStateM.bind, h]
  rfl

theorem feedLines_cons_of_error {line : String} {lines : List String} {ok : Bool} {f : Fault}
    (h : feed line room t = .error f t') :
    feedLines (line :: lines) room ok t = .error f t' := by
  show EStateM.bind (EStateM.bind (feed line room) _) _ t = _
  rw [EStateM.bind, EStateM.bind, h]

end

namespace Feeds

variable {room : Room} {s s' : Session} {lines : List String} {exchanges : List Exchange}

theorem cons_of_evaluate {line : String} {r : Reply} {note : Option Note} {next : Session}
    (hdebug : s.settings.debug = false)
    (heval : s.evaluate line room.levels = ⟨.ok r, next, note⟩)
    (later : Feeds room next lines exchanges s') :
    Feeds room s (line :: lines) (⟨s.prompt, "", r, ""⟩ :: exchanges) s' := by
  have hlists : Lists room.listed s line "" := by rw [Lists, if_neg (by simp [hdebug])]
  have hreply : (s.evaluate line room.levels).reply = .ok r := by rw [heval]
  have hlog : logText room.levels s line = "" := if_neg (by simp [hdebug])
  have hfeeds := Feeds.cons hlists hreply (by rw [heval]; exact later)
  rwa [hlog] at hfeeds

theorem feedLines_eq (h : Feeds room s lines exchanges s') (ok : Bool) {t : State}
    (ht : t.session = s) : feedLines lines room ok t =
      .ok (exchanges.all (fun e => !e.reply.isError) && ok) ⟨s',
        t.shown ++ String.join (exchanges.map Exchange.shown),
        t.logged ++ String.join (exchanges.map Exchange.logged)⟩ := by
  induction h generalizing ok t with
  | nil s =>
    subst ht
    rw [List.map_nil, List.map_nil, String.join_nil, String.append_empty, String.append_empty]
    rfl
  | @cons s s' line listed lines r exchanges hlisted hreply later ih =>
    rw [feedLines_cons (feed_of_reply hlisted hreply ht), ih _ rfl]
    simp only [List.all_cons, List.map_cons, String.join_cons, String.append_assoc,
      Exchange.shown, Bool.and_left_comm, Bool.and_assoc]

end Feeds

section

variable {path : String} {room : Room} {t t' : State}

theorem runLines_eq {lines : List String} {ok : Bool}
    (h : feedLines lines room true t = .ok ok t') (hidle : t'.session.isIdle = true) :
    runLines path lines room t = .ok ok t' := by
  show EStateM.bind (feedLines lines room true) _ t = _
  rw [EStateM.bind, h]
  show (if t'.session.isIdle then _ else _ : Shell Bool) t' = _
  rw [if_pos hidle]
  rfl

theorem runLines_of_error {lines : List String} {f : Fault}
    (h : feedLines lines room true t = .error f t') :
    runLines path lines room t = .error f t' := by
  show EStateM.bind (feedLines lines room true) _ t = _
  rw [EStateM.bind, h]

theorem runFile_eq {files : String → File} {source : String} (hpath : '\x00' ∉ path.toList)
    (hread : readText files path = .ok source) (room : Room) :
    runFile files path room = runLines path (scriptLines source) room := by
  unfold runFile
  rw [if_neg (by simpa using hpath), hread]

theorem Feeds.runFile_eq {s s' : Session} {files : String → File} {source : String}
    {exchanges : List Exchange} (h : Feeds room s (scriptLines source) exchanges s')
    (hidle : s'.isIdle = true) (hpath : '\x00' ∉ path.toList)
    (hread : readText files path = .ok source) : runFile files path room ⟨s, "", ""⟩ =
      .ok (exchanges.all fun e => !e.reply.isError) ⟨s',
        String.join (exchanges.map Exchange.shown),
        String.join (exchanges.map Exchange.logged)⟩ := by
  have hfed := h.feedLines_eq true (t := ⟨s, "", ""⟩) rfl
  rw [Bool.and_true, String.empty_append, String.empty_append] at hfed
  rw [Terminal.runFile_eq hpath hread, runLines_eq hfed hidle]

end

/-- No line is a command: none that starts with a point comes where nothing is pending. -/
def NoCommand (s : Session) (lines : List String) (levels : Nat := Evaluation.maxDepth) : Prop :=
  ∀ before line later, lines = before ++ line :: later →
    (s.submit before levels).2.isIdle = true → Text.firstMark? line ≠ some '.'

namespace NoCommand

variable {s : Session} {line : String} {lines : List String} {levels : Nat}

theorem head (h : NoCommand s (line :: lines) levels) :
    (s.isIdle && (Text.trim line).startsWith ".") = false := by
  by_contra hcommand
  obtain ⟨hidle, hpoint⟩ := Bool.and_eq_true_iff.mp (Bool.not_eq_false _ ▸ hcommand)
  exact h [] line lines rfl hidle ((Text.startsWith_trim line).mp hpoint)

theorem tail (h : NoCommand s (line :: lines) levels) :
    NoCommand (s.evaluate line levels).session lines levels :=
  fun before next later hlines => h (line :: before) next later (by rw [hlines]; rfl)

end NoCommand

section

variable (files : String → File) {rooms : Rooms} {line : String} {t : State}

theorem take_eq {ok : Bool} {t' : State}
    (hcommand : (t.session.isIdle && (Text.trim line).startsWith ".") = false)
    (h : feed line rooms.typed t = .ok ok t') : take files (.line line) rooms t = .ok true t' := by
  show (if (t.session.isIdle && (Text.trim line).startsWith ".") = true then _ else _ : Shell Bool)
    t = _
  rw [hcommand, if_neg Bool.false_ne_true]
  show EStateM.bind (EStateM.map _ (feed line rooms.typed)) _ t = _
  rw [EStateM.bind, EStateM.map, h]
  rfl

end

theorem Feeds.converse_eq (rooms : Rooms) {s s' : Session} {lines : List String}
    {exchanges : List Exchange} (h : Feeds rooms.typed s lines exchanges s')
    (hcommands : NoCommand s lines rooms.typed.levels) (files : String → File) {t : State}
    (ht : t.session = s) : converse files (lines.map .line) rooms t =
      .ok () ⟨s', t.shown ++ (String.join (exchanges.map fun e => e.prompt ++ e.shown) ++
        (s'.prompt ++ "\n")), t.logged ++ String.join (exchanges.map Exchange.logged)⟩ := by
  induction h generalizing t with
  | nil s =>
    subst ht
    rw [List.map_nil, List.map_nil, List.map_nil, String.join_nil, String.append_empty,
      String.empty_append, ← String.append_assoc]
    rfl
  | @cons s s' line listed lines r exchanges hlisted hreply later ih =>
    have hfeed := feed_of_reply (t := { t with shown := t.shown ++ s.prompt }) hlisted hreply ht
    have htake := take_eq files (by rw [ht]; exact hcommands.head) hfeed
    have hask : ask t = .ok () { t with shown := t.shown ++ s.prompt } := by
      rw [← ht]
      rfl
    rw [List.map_cons, converse]
    show EStateM.bind ask _ t = _
    rw [EStateM.bind, hask]
    show EStateM.bind (take files (.line line) rooms) _ _ = _
    rw [EStateM.bind, htake]
    show converse files (lines.map .line) rooms _ = _
    rw [ih hcommands.tail rfl]
    simp only [List.map_cons, String.join_cons, String.append_assoc, Exchange.shown]

/-- Where the script leaves room for one evaluation less, a line may take more than it has. -/
theorem interactive_ne_script_levels :
    (∃ t, runFile (fun _ => .bytes "x\n".toUTF8.toList) "s" { levels := 1 }
        ⟨.new .default, "", ""⟩ = .ok false t ∧
      t.shown = "! RecursionError: Expression nested too deeply to evaluate on line 1\n") ∧
    ∃ t, interactive (fun _ => .missing) [.line "x"] { typed := { levels := 2 } }
        ⟨.new .default, "", ""⟩ = .ok () t ∧
      t.shown = startupText ++ "\n> ! UnboundVariable: Undefined variable 'x' on line 1\n> \n" := by
  have hread : readText (fun _ => .bytes "x\n".toUTF8.toList) "s" = .ok "x\n" := by cbv
  have hlines : scriptLines "x\n" = ["x"] := by cbv
  have hparse : parse ((Session.new .default).sourceWith "x") = .complete [.ident "x" 1] [] := by
    show parse "x" = _
    rw [parse_eq]
    cbv
  have hscript : Feeds { levels := 1 } (.new .default) ["x"]
      [⟨"> ", "", Session.reply
        ["RecursionError: Expression nested too deeply to evaluate on line 1"] true, ""⟩]
      (.new .default) := by
    have heval : ∃ note, (Session.new .default).evaluate "x" 1 = ⟨.ok (Session.reply
        ["RecursionError: Expression nested too deeply to evaluate on line 1"] true),
        .new .default, note⟩ := by
      rw [Session.evaluate_of_readable hparse]
      exact ⟨_, rfl⟩
    obtain ⟨note, heval⟩ := heval
    exact .cons_of_evaluate rfl heval (.nil _)
  have htyped : Feeds { levels := 2 } (.new .default) ["x"]
      [⟨"> ", "", Session.reply ["UnboundVariable: Undefined variable 'x' on line 1"] true, ""⟩]
      (.new .default) := by
    have heval : ∃ note, (Session.new .default).evaluate "x" 2 = ⟨.ok (Session.reply
        ["UnboundVariable: Undefined variable 'x' on line 1"] true), .new .default, note⟩ := by
      rw [Session.evaluate_of_readable hparse]
      exact ⟨_, rfl⟩
    obtain ⟨note, heval⟩ := heval
    exact .cons_of_evaluate rfl heval (.nil _)
  have hrun := (hlines ▸ hscript).runFile_eq rfl (by decide) hread
  have hcommands : NoCommand (.new .default) ["x"] 2 := by
    intro before line later hlines _
    rcases before with _ | ⟨_, before⟩
    · obtain rfl := (List.cons.inj hlines).1
      decide
    · simp at hlines
  have hconverse := htyped.converse_eq { typed := { levels := 2 } } hcommands (fun _ => .missing)
    (t := ⟨.new .default, startupText ++ "\n", ""⟩) rfl
  exact ⟨⟨_, hrun, by decide⟩, _, hconverse, by decide⟩

end Terminal

end MatrixCalculator
