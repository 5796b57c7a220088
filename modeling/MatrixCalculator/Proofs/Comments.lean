import Mathlib
import MatrixCalculator.Proofs.Composition
import MatrixCalculator.Proofs.Scripts

namespace MatrixCalculator

/-- The verdicts are the same up to places: both texts lack input, are malformed for the same
reason, or are programs whose trees differ in nothing but their lines. -/
inductive Outcome.Alike : Outcome (List Node) → Outcome (List Node) → Prop where
  | incomplete : Alike .incomplete .incomplete
  | malformed {line column line' column' : Nat} (reason : Reason) :
      Alike (.malformed line column reason) (.malformed line' column' reason)
  | complete {nodes nodes' : List Node} (h : nodes.map Node.unlined = nodes'.map Node.unlined) :
      Alike (.complete nodes []) (.complete nodes' [])

theorem parse_alike {s t : String} (h : (parse s).outline = (parse t).outline) :
    (parse s).Alike (parse t) := by
  -- The outline tells the verdicts apart and keeps the reason and the trees.
  cases hs : parse s with
  | complete nodes rest =>
    obtain rfl := rest_of_parse hs
    cases ht : parse t with
    | complete nodes' rest' =>
      obtain rfl := rest_of_parse ht
      rw [hs, ht] at h
      exact .complete (Outcome.complete.inj h).1
    | _ =>
      rw [hs, ht] at h
      contradiction
  | incomplete =>
    cases ht : parse t with
    | incomplete => exact .incomplete
    | _ =>
      rw [hs, ht] at h
      contradiction
  | malformed line column reason =>
    cases ht : parse t with
    | malformed line' column' reason' =>
      rw [hs, ht] at h
      obtain ⟨_, _, rfl⟩ := Outcome.malformed.inj h
      exact .malformed reason
    | _ =>
      rw [hs, ht] at h
      contradiction
  | broken b => exact absurd hs (parse_ne_broken s b)

theorem parse_alike_of_thinned {ls ms : List String} (h : Thinned ls ms) :
    (parse ("\n".intercalate ls)).Alike (parse ("\n".intercalate ms)) :=
  parse_alike (outline_parse_thinned h)

theorem thinned_comments {lines : List String} (h : ∀ line ∈ lines, '\n' ∉ line.toList) :
    Thinned lines (lines.filter fun line => line.toList.head? != some '#') := by
  apply Thinned.filter
  intro line hline hmark
  exact silent_comment (by simpa using hmark) (h line hline)

/-- Comment lines are invisible. Lines that are joined, and a whole script that is broken by
newlines alone, come to the same verdict as without those that start with `#`. -/
theorem parse_without_comments :
    (∀ lines : List String, (∀ line ∈ lines, '\n' ∉ line.toList) →
      (parse ("\n".intercalate lines)).Alike
        (parse ("\n".intercalate (lines.filter fun line => line.toList.head? != some '#')))) ∧
    ∀ source : String, (∀ c ∈ source.toList, Text.isLineBreak c = true → c = '\n') →
      (parse source).Alike (parse ("\n".intercalate (Terminal.scriptLines source))) := by
  refine ⟨fun lines h => parse_alike_of_thinned (thinned_comments h), fun source h => ?_⟩
  have hreturn : '\r' ∉ source.toList := by
    intro hmem
    exact absurd (h '\r' hmem (by decide)) (by decide)
  obtain ⟨last, hlast, hjoin⟩ := Text.exists_intercalate_lines hreturn
  rw [Text.withNewlines_eq_self h] at hjoin
  have hthinned : Thinned (Text.lines source ++ last) (Terminal.scriptLines source) :=
    thinned_scriptLines hlast
  have halike := parse_alike_of_thinned hthinned
  rwa [hjoin] at halike

/-- Comments before the value of an assignment, behind a comma of a matrix and within a call. -/
theorem parse_without_comments_open :
    (∀ line ∈ ["m =", "# a", "[x,", "#", "f(", "# b", ")]"], '\n' ∉ line.toList) ∧
    (parse "m =\n# a\n[x,\n#\nf(\n# b\n)]").Alike (parse "m =\n[x,\nf(\n)]") ∧
    parse "m =\n# a\n[x,\n#\nf(\n# b\n)]" =
      .complete [.assign "m" (.matrix [[.ident "x" 3, .call "f" [] 5]] 3) 1] [] ∧
    (∀ c ∈ "f(\n# a\n)".toList, Text.isLineBreak c = true → c = '\n') ∧
    (parse "f(\n# a\n)").Alike (parse "f(\n)") := by
  have hlines : ∀ line ∈ ["m =", "# a", "[x,", "#", "f(", "# b", ")]"], '\n' ∉ line.toList := by
    simp
  have hall : "\n".intercalate ["m =", "# a", "[x,", "#", "f(", "# b", ")]"] =
      "m =\n# a\n[x,\n#\nf(\n# b\n)]" := by cbv
  have hkept : "\n".intercalate (["m =", "# a", "[x,", "#", "f(", "# b", ")]"].filter
      fun line => line.toList.head? != some '#') = "m =\n[x,\nf(\n)]" := by cbv
  have hbreaks : ∀ c ∈ "f(\n# a\n)".toList, Text.isLineBreak c = true → c = '\n' := by
    simp [Text.isLineBreak]
  have hscript : "\n".intercalate (Terminal.scriptLines "f(\n# a\n)") = "f(\n)" := by cbv
  have hwithout := parse_without_comments.1 _ hlines
  rw [hall, hkept] at hwithout
  exact ⟨hlines, hwithout, by cbv, hbreaks, hscript ▸ parse_without_comments.2 _ hbreaks⟩

end MatrixCalculator
