import Mathlib
import MatrixCalculator.Proofs.Dialogues
import MatrixCalculator.Proofs.Spacing

namespace MatrixCalculator

namespace Text

/-- The text with a newline for every line break. -/
def withNewlines (s : String) : String :=
  String.ofList (s.toList.map fun c => if isLineBreak c then '\n' else c)

theorem withNewlines_eq_self {s : String}
    (h : ∀ c ∈ s.toList, isLineBreak c = true → c = '\n') : withNewlines s = s := by
  have hmap : s.toList.map (fun c => if isLineBreak c then '\n' else c) = s.toList.map id := by
    refine List.map_congr_left fun c hc => ?_
    split
    · rename_i hbreak
      exact (h c hc hbreak).symm
    · rfl
  rw [withNewlines, hmap, List.map_id, String.ofList_toList]

theorem linesFrom_nil {line : List Char} (h : line ≠ []) : linesFrom line [] = [line.reverse] := by
  rw [linesFrom]
  exact h

theorem linesFrom_of_break {c : Char} (hc : isLineBreak c = true) (hreturn : c ≠ '\r')
    (line rest : List Char) : linesFrom line (c :: rest) = line.reverse :: linesFrom [] rest := by
  rw [linesFrom]
  · rw [hc, if_pos rfl]
  · rintro _ rfl
    contradiction

/-- The lines of a text make it up again, with an empty one at the end if nothing stands behind the
last break. -/
theorem exists_intercalate_linesFrom (line : List Char) {cs : List Char} (h : '\r' ∉ cs) :
    ∃ last, (last = [] ∨ last = [[]]) ∧ linesFrom line cs ++ last ≠ [] ∧
      ['\n'].intercalate (linesFrom line cs ++ last) =
        line.reverse ++ cs.map fun c => if isLineBreak c then '\n' else c := by
  induction cs generalizing line with
  | nil =>
    cases line with
    | nil => exact ⟨[[]], .inr rfl, by simp [linesFrom], by simp [linesFrom]⟩
    | cons c line => exact ⟨[], .inl rfl, by simp [linesFrom], by simp [linesFrom]⟩
  | cons c cs ih =>
    rw [List.mem_cons, not_or] at h
    obtain ⟨hreturn, hcs⟩ := h
    rw [List.map_cons]
    by_cases hc : isLineBreak c = true
    · obtain ⟨last, hlast, hne, hjoin⟩ := ih [] hcs
      refine ⟨last, hlast, ?_, ?_⟩
      · simp [linesFrom_of_break hc (Ne.symm hreturn)]
      · rw [linesFrom_of_break hc (Ne.symm hreturn), List.cons_append,
          List.intercalate_cons_of_ne_nil hne, hjoin, if_pos hc, List.append_assoc]
        rfl
    · obtain ⟨last, hlast, hne, hjoin⟩ := ih (c :: line) hcs
      rw [linesFrom_of_not_break (Bool.eq_false_of_not_eq_true hc)]
      refine ⟨last, hlast, hne, ?_⟩
      rw [hjoin, if_neg hc, List.reverse_cons, List.append_assoc]
      rfl

theorem exists_intercalate_lines {s : String} (h : '\r' ∉ s.toList) :
    ∃ last, (last = [] ∨ last = [""]) ∧ "\n".intercalate (lines s ++ last) = withNewlines s := by
  obtain ⟨last, hlast, _, hjoin⟩ := exists_intercalate_linesFrom [] h
  refine ⟨last.map String.ofList, ?_, ?_⟩
  · rcases hlast with rfl | rfl
    · exact .inl rfl
    · exact .inr rfl
  · have hchars : (lines s ++ last.map String.ofList).map String.toList =
        linesFrom [] s.toList ++ last := by
      simp [lines, Function.comp_def]
    have htext : (withNewlines s).toList =
        s.toList.map fun c => if isLineBreak c then '\n' else c := String.toList_ofList
    rw [← String.toList_inj, String.toList_intercalate, hchars, htext]
    exact hjoin

theorem not_break_of_mem_linesFrom {line cs : List Char} (h : ∀ c ∈ line, isLineBreak c = false) :
    ∀ l ∈ linesFrom line cs, ∀ c ∈ l, isLineBreak c = false := by
  fun_induction linesFrom line cs with
  | case1 => simp
  | case2 line hline => simpa using h
  | case3 line rest ih => exact List.forall_mem_cons.mpr ⟨by simpa using h, ih (by simp)⟩
  | case4 line c rest _ hc ih => exact List.forall_mem_cons.mpr ⟨by simpa using h, ih (by simp)⟩
  | case5 line c rest _ hc ih =>
    exact ih (List.forall_mem_cons.mpr ⟨Bool.eq_false_of_not_eq_true hc, h⟩)

theorem unbroken_of_mem_lines {s : String} : ∀ line ∈ lines s, Unbroken line := by
  intro line hline
  obtain ⟨cs, hcs, rfl⟩ := List.mem_map.mp hline
  exact spelled_ofList.mpr (not_break_of_mem_linesFrom (by simp) cs hcs)

theorem lines_intercalate {ls : List String} (h : ∀ l ∈ ls, Unbroken l) (hne : ∀ l ∈ ls, l ≠ "") :
    lines ("\n".intercalate ls) = ls := by
  induction ls with
  | nil => rfl
  | cons l ls ih =>
    obtain ⟨hl, hls⟩ := List.forall_mem_cons.mp h
    obtain ⟨hnel, hnels⟩ := List.forall_mem_cons.mp hne
    cases ls with
    | nil =>
      have hfrom := linesFrom_append hl [] []
      rw [List.append_nil, List.append_nil, linesFrom_nil (by simpa using hnel),
        List.reverse_reverse] at hfrom
      rw [String.intercalate_singleton, lines, hfrom, List.map_singleton, String.ofList_toList]
    | cons next ls =>
      rw [String.intercalate_cons_of_ne_nil (by simp), hl.lines_append, ih hls hnels]

theorem return_notMem_unifyNewlines (cs : List Char) : '\r' ∉ unifyNewlines cs := by
  fun_induction unifyNewlines cs with
  | case1 => simp
  | case2 rest ih => simpa using ih
  | case3 rest _ ih => simpa using ih
  | case4 c rest _ hc ih => simpa [Ne.symm hc] using ih

end Text

theorem Thinned.filter {p : String → Bool} {ls : List String}
    (h : ∀ line ∈ ls, p line = false → Silent line) : Thinned ls (ls.filter p) := by
  induction ls with
  | nil => exact .nil
  | cons line ls ih =>
    obtain ⟨hline, hls⟩ := List.forall_mem_cons.mp h
    by_cases hp : p line = true
    · rw [List.filter_cons_of_pos hp]
      exact .keep line (ih hls)
    · rw [List.filter_cons_of_neg hp]
      exact .drop (hline (Bool.eq_false_of_not_eq_true hp)) (ih hls)

theorem Thinned.append_silent {ls ms last : List String} (h : Thinned ls ms)
    (hlast : ∀ line ∈ last, Silent line) : Thinned (ls ++ last) ms := by
  induction h with
  | nil =>
    induction last with
    | nil => exact .nil
    | cons line last ih =>
      obtain ⟨hline, hlast⟩ := List.forall_mem_cons.mp hlast
      exact .drop hline (ih hlast)
  | keep line h ih => exact .keep line ih
  | drop hline h ih => exact .drop hline ih

/-- A script without its annotated lines does what its whole text does. -/
theorem thinned_scriptLines {source : String} {last : List String}
    (hlast : last = [] ∨ last = [""]) :
    Thinned (Text.lines source ++ last) (Terminal.scriptLines source) := by
  refine Thinned.append_silent (Thinned.filter fun line hline hmark => ?_) fun line hline => ?_
  · refine silent_comment (by simpa using hmark) fun hnewline => ?_
    have hbreak := Text.unbroken_of_mem_lines line hline '\n' hnewline
    contradiction
  · obtain rfl : line = "" := by
      rcases hlast with rfl | rfl <;> simp_all
    exact silent_empty

theorem OfNumber.not_break {c : Char} (h : OfNumber c) : Text.isLineBreak c = false := by
  rcases h with hdigit | hmark
  · have hrange := toNat_of_isDigit hdigit
    simp [Text.isLineBreak]
    omega
  · have hmarks : ∀ c ∈ ['.', 'e', '+', '-'], Text.isLineBreak c = false := by
      simp [Text.isLineBreak]
    exact hmarks c hmark

theorem Value.unbroken_render (precision : Nat) (v : Value) :
    Text.Unbroken (v.render precision) :=
  Value.spelled_render (by decide) fun x _ =>
    spelled_numberText_of (fun _ hc => hc.not_break) (by decide) precision x

namespace Session

theorem unbroken_of_executed? {s s' : Session} {nodes : List Node} {levels : Nat}
    {texts : List String} (h : s.executed? nodes levels = some (texts, s')) :
    ∀ text ∈ texts, Text.Unbroken text := by
  induction nodes generalizing s texts with
  | nil =>
    obtain ⟨rfl, rfl⟩ := Prod.mk.inj (Option.some.inj h)
    simp
  | cons node nodes ih =>
    obtain ⟨v, env, text, later, _, htext, hlater, rfl⟩ := executed?_cons h
    refine List.forall_mem_cons.mpr ⟨?_, ih hlater⟩
    unfold Value.render? at htext
    split at htext
    · contradiction
    · obtain rfl := Except.ok.inj htext
      exact v.unbroken_render _

theorem parse_sourceWith_new (settings : Settings) {text : String} {outcome : Outcome (List Node)}
    (h : parse text = outcome) : parse ((new settings).sourceWith text) = outcome := by
  have hsource : (new settings).sourceWith text = text := String.intercalate_singleton
  rw [hsource, h]

end Session

namespace Terminal

open Shell

theorem return_notMem_of_readText {files : String → File} {path source : String}
    (h : readText files path = .ok source) : '\r' ∉ source.toList := by
  unfold readText at h
  split at h
  case h_5 content =>
    split at h
    · obtain rfl := Except.ok.inj h
      rw [String.toList_ofList]
      exact Text.return_notMem_unifyNewlines _
    · contradiction
  all_goals contradiction

theorem takes_scriptLines {s s' : Session} {source : String} {nodes : List Node}
    {rest : List Token} {levels : Nat} {texts : List String} (hreturn : '\r' ∉ source.toList)
    (hbuffer : s.buffer = []) (hparse : parse (Text.withNewlines source) = .complete nodes rest)
    (h : s.executed? nodes levels = some (texts, s')) :
    ∃ groups, s.Takes levels (scriptLines source) groups s' ∧ groups.flatten = texts := by
  obtain ⟨last, hlast, hjoin⟩ := Text.exists_intercalate_lines hreturn
  rw [← hjoin] at hparse
  obtain ⟨nodes', rest', hparse', halike⟩ :=
    complete_of_thinned (thinned_scriptLines hlast) hparse
  rw [Session.executed?_congr halike, ← Session.dropPending_of_buffer hbuffer] at h
  have hfragments : parse ("\n".intercalate (s.buffer ++ scriptLines source)) =
      .complete nodes' rest' := by
    rw [hbuffer]
    exact hparse'
  exact Session.takes_of_complete hfragments h fun _ => hbuffer

theorem displayed_reply {texts : List String} (h : ∀ text ∈ texts, Text.Unbroken text)
    (hne : ∀ text ∈ texts, text ≠ "") {r : Reply} (hr : r.isError = false)
    (houtput : r.output = "\n".intercalate texts) :
    displayed r = String.join (texts.map fun text => resultMark ++ text ++ "\n") := by
  rw [displayed, houtput, Text.lines_intercalate h hne, hr]
  rfl

theorem displayed_groups {exchanges : List Exchange} {groups : List (List String)}
    (houtputs : exchanges.map (fun e => e.reply.output) = groups.map "\n".intercalate)
    (herrors : ∀ e ∈ exchanges, e.reply.isError = false)
    (h : ∀ text ∈ groups.flatten, Text.Unbroken text) (hne : ∀ text ∈ groups.flatten, text ≠ "") :
    String.join (exchanges.map fun e => displayed e.reply) =
      String.join (groups.flatten.map fun text => resultMark ++ text ++ "\n") := by
  induction groups generalizing exchanges with
  | nil =>
    obtain rfl := List.map_eq_nil_iff.mp houtputs
    rfl
  | cons group groups ih =>
    obtain ⟨e, exchanges, rfl, houtput, houtputs⟩ := List.map_eq_cons_iff.mp houtputs
    obtain ⟨herror, herrors⟩ := List.forall_mem_cons.mp herrors
    rw [List.flatten_cons] at h hne ⊢
    obtain ⟨hgroup, hgroups⟩ := List.forall_mem_append.mp h
    obtain ⟨hnegroup, hnegroups⟩ := List.forall_mem_append.mp hne
    rw [List.map_cons, String.join_cons, displayed_reply hgroup hnegroup herror houtput,
      ih houtputs herrors hgroups hnegroups, List.map_append, String.join_append]

/-- Lines that a session takes are fed to it, unless one cannot be listed. -/
theorem feeds_of_takes {room : Room} {s s' : Session} {lines : List String}
    {groups : List (List String)} (h : s.Takes room.levels lines groups s') :
    (∃ exchanges, Feeds room s lines exchanges s' ∧
      exchanges.map (fun e => e.reply.output) = groups.map "\n".intercalate ∧
      ∀ e ∈ exchanges, e.reply.isError = false ∧ (s.settings.debug = false → e.listed = "")) ∨
    s.settings.debug = true ∧ ∃ operator, ∀ ok (t : State), t.session = s →
      ∃ t', feedLines lines room ok t = .error (.nestedListing operator) t' := by
  induction h with
  | nil s => exact .inl ⟨[], .nil s, rfl, by simp⟩
  | @cons s s' line lines group groups r hreply hr houtput later ih =>
    have hsettings := (s.evaluate_steps line room.levels).1
    rcases feed_cases room s line with
      ⟨listed, r', hlisted, hreply'⟩ | ⟨f, hfault, _⟩ | ⟨hdebug, _, _, _, _, operator, hfault⟩
    · obtain rfl : r' = r := Except.ok.inj (hreply'.symm.trans hreply)
      rcases ih with ⟨exchanges, hfeeds, houtputs, hexchanges⟩ | ⟨hdebug, operator, hfault⟩
      · refine .inl ⟨_, .cons hlisted hreply hfeeds, ?_, List.forall_mem_cons.mpr ⟨⟨hr, ?_⟩, ?_⟩⟩
        · rw [List.map_cons, List.map_cons, houtputs, houtput]
        · intro hdebug
          rwa [Lists, if_neg (by simp [hdebug])] at hlisted
        · rwa [hsettings] at hexchanges
      · refine .inr ⟨hsettings ▸ hdebug, operator, fun ok t ht => ?_⟩
        rw [feedLines_cons (feed_of_reply hlisted hreply ht)]
        exact hfault _ _ rfl
    · rw [hreply] at hfault
      contradiction
    · refine .inr ⟨hdebug, operator, fun ok t ht => ?_⟩
      obtain ⟨t', ht'⟩ := hfault t ht
      exact ⟨t', feedLines_cons_of_error ht'⟩

/-- A script without line breaks other than newlines means the same as its whole text, and any other
script the same as its text with newlines for them: if that is a program without errors, the script
has none, shows the same values and leaves the session in the same state. It is to have room for as
many open evaluations. With debugging it also lists the text, unless a statement has too many
levels. -/
theorem runFile_eq_evaluate (room : Room) {settings : Settings} {files : String → File}
    {path source : String} {nodes : List Node} {rest : List Token} {r : Reply} {levels : Nat}
    (hlevels : levels ≤ room.levels) (hpath : '\x00' ∉ path.toList)
    (hread : readText files path = .ok source)
    (hparse : parse (Text.withNewlines source) = .complete nodes rest)
    (hreply : ((Session.new settings).evaluate (Text.withNewlines source) levels).reply = .ok r)
    (hr : r.isError = false) :
    ((∀ c ∈ source.toList, Text.isLineBreak c = true → c = '\n') →
      Text.withNewlines source = source) ∧
    ((∃ (exchanges : List Exchange) (t : State),
      runFile files path room ⟨.new settings, "", ""⟩ = .ok true t ∧
      t.session = ((Session.new settings).evaluate (Text.withNewlines source) levels).session ∧
      t.shown = String.join (exchanges.map Exchange.shown) ∧
      String.join (exchanges.map fun e => displayed e.reply) = displayed r ∧
      (settings.debug = false → t.shown = displayed r)) ∨
    settings.debug = true ∧ ∃ operator t,
      runFile files path room ⟨.new settings, "", ""⟩ = .error (.nestedListing operator) t) := by
  refine ⟨Text.withNewlines_eq_self, ?_⟩
  have hwhole := Session.parse_sourceWith_new settings hparse
  obtain ⟨texts, s', hexecuted⟩ : ∃ texts s',
      (Session.new settings).executed? nodes levels = some (texts, s') := by
    rw [Session.evaluate_of_readable hwhole] at hreply
    exact Session.exists_executed? hreply hr
  have heval := Session.evaluate_of_complete hwhole hexecuted
  rw [heval] at hreply ⊢
  obtain rfl := Except.ok.inj hreply
  obtain ⟨groups, htakes, rfl⟩ :=
    takes_scriptLines (return_notMem_of_readText hread) rfl hparse
      (Session.executed?_of_le hlevels hexecuted)
  have hidle : s'.isIdle = true := by
    rw [Session.isIdle, (Session.executes_of_executed? hexecuted).2.2]
    rfl
  rcases feeds_of_takes htakes with ⟨exchanges, hfeeds, houtputs, hexchanges⟩ |
    ⟨hdebug, operator, hfault⟩
  · have hrun := hfeeds.runFile_eq hidle hpath hread
    have hall : exchanges.all (fun e => !e.reply.isError) = true :=
      List.all_eq_true.mpr fun e he => by rw [(hexchanges e he).1]; rfl
    rw [hall] at hrun
    have hunbroken := Session.unbroken_of_executed? hexecuted
    have hne := (Session.executes_of_executed? hexecuted).2.1
    have hshown : String.join (exchanges.map fun e => displayed e.reply) =
        displayed (Session.reply groups.flatten false) := by
      rw [displayed_groups houtputs (fun e he => (hexchanges e he).1) hunbroken hne,
        displayed_reply hunbroken hne rfl rfl]
    refine .inl ⟨exchanges, _, hrun, rfl, rfl, hshown, fun hdebug => ?_⟩
    rw [← hshown]
    show String.join _ = String.join _
    congr 1
    refine List.map_congr_left fun e he => ?_
    rw [Exchange.shown, (hexchanges e he).2 hdebug, String.empty_append]
  · obtain ⟨t, ht⟩ := hfault true ⟨.new settings, "", ""⟩ rfl
    refine .inr ⟨hdebug, operator, t, ?_⟩
    rw [runFile_eq hpath hread, runLines_of_error ht]

/-- An annotation within a matrix, an empty line, and a newline at the end. -/
theorem runFile_eq_evaluate_matrix : ∃ nodes rest r,
    readText (fun _ => .bytes "x = [pi;\n# a\ne]\n\nx\n".toUTF8.toList) "s" =
      .ok "x = [pi;\n# a\ne]\n\nx\n" ∧
    Text.withNewlines "x = [pi;\n# a\ne]\n\nx\n" = "x = [pi;\n# a\ne]\n\nx\n" ∧
    parse "x = [pi;\n# a\ne]\n\nx\n" = .complete nodes rest ∧
    ((Session.new .default).evaluate "x = [pi;\n# a\ne]\n\nx\n").reply = .ok r ∧
    r.isError = false ∧
    ∃ t, runFile (fun _ => .bytes "x = [pi;\n# a\ne]\n\nx\n".toUTF8.toList) "s" {}
        ⟨.new .default, "", ""⟩ = .ok true t ∧
      t.session = ((Session.new .default).evaluate "x = [pi;\n# a\ne]\n\nx\n").session ∧
      t.shown = displayed r := by
  have hread : readText (fun _ => .bytes "x = [pi;\n# a\ne]\n\nx\n".toUTF8.toList) "s" =
      .ok "x = [pi;\n# a\ne]\n\nx\n" := by cbv
  have hnewlines : Text.withNewlines "x = [pi;\n# a\ne]\n\nx\n" = "x = [pi;\n# a\ne]\n\nx\n" := by
    cbv
  have hparse : parse "x = [pi;\n# a\ne]\n\nx\n" =
      .complete [.assign "x" (.matrix [[.ident "pi" 1], [.ident "e" 3]] 1) 1, .ident "x" 5] [] := by
    rw [parse_eq]
    cbv
  obtain ⟨texts, s', h⟩ : ∃ texts s', (Session.new .default).dropPending.executed?
      [.assign "x" (.matrix [[.ident "pi" 1], [.ident "e" 3]] 1) 1, .ident "x" 5] =
        some (texts, s') := ⟨_, _, rfl⟩
  have hreply : ((Session.new .default).evaluate "x = [pi;\n# a\ne]\n\nx\n").reply =
      .ok (Session.reply texts false) := by
    rw [Session.evaluate_of_complete (Session.parse_sourceWith_new .default hparse) h]
  have hscript := (runFile_eq_evaluate {} le_rfl (by decide) hread (hnewlines.symm ▸ hparse)
    (hnewlines.symm ▸ hreply) rfl).2
  rcases hscript with ⟨exchanges, t, hrun, hsession, _, _, hshown⟩ | ⟨hdebug, _⟩
  · exact ⟨_, _, _, hread, hnewlines, hparse, hreply, rfl, t, hrun, hnewlines ▸ hsession,
      hshown rfl⟩
  · contradiction

/-- A form feed within a comment ends the line in a script, but not the comment in a text. -/
theorem runFile_ne_evaluate_formFeed : ∃ nodes rest r t,
    readText (fun _ => .bytes "1 # a\x0cb".toUTF8.toList) "s" = .ok "1 # a\x0cb" ∧
    parse "1 # a\x0cb" = .complete nodes rest ∧
    ((Session.new .default).evaluate "1 # a\x0cb").reply = .ok r ∧ r.isError = false ∧
    displayed r = "=> 1\n" ∧
    runFile (fun _ => .bytes "1 # a\x0cb".toUTF8.toList) "s" {} ⟨.new .default, "", ""⟩ =
      .ok false t ∧ t.shown = "=> 1\n! UnboundVariable: Undefined variable 'b' on line 1\n" := by
  have hread : readText (fun _ => .bytes "1 # a\x0cb".toUTF8.toList) "s" =
      .ok "1 # a\x0cb" := by cbv
  have hlines : scriptLines "1 # a\x0cb" = ["1 # a", "b"] := by cbv
  have hnumber : ∀ (text : String) (comment : List Char), Piece.cut text.toList =
      [⟨.numeral, '1', []⟩, ⟨.blank, ' ', []⟩, ⟨.comment, '#', comment⟩] →
      parse text = .complete [.number 1 1] [] := by
    intro text comment hcut
    have hprogram : ∀ (x : Float) (column : Nat),
        parseProgram [⟨.number x, 1, 1⟩, ⟨.endOfInput, 1, column⟩] =
          .complete [.number x 1] [] := by
      intro x column
      rw [parseProgram_eq (.cons (by simp) (.last rfl))]
      cbv
    rw [parse, tokenize, hcut]
    exact hprogram 1 _
  have htext : (Value.scalar 1).render? Settings.default.precision = .ok "1" :=
    congrArg Except.ok (by decide)
  have hexecuted : (Session.new .default).dropPending.executed? [.number 1 1] =
      some (["1"], .new .default) := by
    refine (Option.bind_some ..).trans ?_
    refine (congrArg (fun r => Option.bind (Except.toOption r) _) htext).trans ?_
    rfl
  have heval : ∀ (text : String) (comment : List Char), Piece.cut text.toList =
      [⟨.numeral, '1', []⟩, ⟨.blank, ' ', []⟩, ⟨.comment, '#', comment⟩] →
      (Session.new .default).evaluate text =
        ⟨.ok (Session.reply ["1"] false), .new .default, none⟩ := fun text comment hcut =>
    Session.evaluate_of_complete (Session.parse_sourceWith_new .default (hnumber text comment hcut))
      hexecuted
  have hwhole := hnumber "1 # a\x0cb" [' ', 'a', '\x0c', 'b'] (by cbv)
  have hfirst := heval "1 # a" [' ', 'a'] (by cbv)
  have hparse : parse "b" = .complete [.ident "b" 1] [] := by
    rw [parse_eq]
    cbv
  obtain ⟨note, hsecond⟩ : ∃ note, (Session.new .default).evaluate "b" =
      ⟨.ok ⟨"UnboundVariable: Undefined variable 'b' on line 1", "> ", true⟩, .new .default,
        note⟩ := by
    rw [Session.evaluate_of_readable (Session.parse_sourceWith_new .default hparse)]
    exact ⟨_, rfl⟩
  have hfeeds : Feeds {} (.new .default) ["1 # a", "b"] [⟨"> ", "", Session.reply ["1"] false, ""⟩,
      ⟨"> ", "", ⟨"UnboundVariable: Undefined variable 'b' on line 1", "> ", true⟩, ""⟩]
      (.new .default) :=
    .cons_of_evaluate rfl hfirst (.cons_of_evaluate rfl hsecond (.nil _))
  exact ⟨_, _, _, _, hread, hwhole, by rw [heval _ _ (by cbv)], rfl, by decide,
    (hlines ▸ hfeeds).runFile_eq rfl (by decide) hread, by decide⟩

end Terminal

end MatrixCalculator
