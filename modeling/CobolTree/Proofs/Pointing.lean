import CobolTree.Proofs.Conversion.Refusals
import CobolTree.Proofs.Production.Pointing

/-!
All diagnostics point into the text. What the parser reports points into the text, and so does the
remark at its end that reports were dropped (`Parsed.pointsInto`); what the conversion reports is
told by rereadings, each of them at a boundary of characters (`Accounts.pointsInto`). So every
diagnostic of an analysed text, and of an expanded text, points into it
(`Analysis.pointsInto_ofStream`).
-/

namespace CobolTree

namespace Parsed

/-- Every diagnostic that is kept points into the text, as does the remark that others are not. -/
theorem pointsInto (settings : Settings) (stream : Stream) :
    ∀ diagnostic ∈ (ofText settings stream.text).diagnostics, diagnostic.PointsInto stream := by
  have outcome := Production.points_programUnits settings _ stream.reaches_start
  intro diagnostic mem
  rw [ofText] at mem
  simp only [keep] at mem
  split at mem
  · exact outcome.reports diagnostic mem
  · split at mem
    · exact outcome.reports diagnostic mem
    · rcases List.mem_append.mp mem with kept | remark
      · exact outcome.reports diagnostic (List.mem_of_mem_take kept)
      · rw [List.mem_singleton.mp remark]
        exact Problem.pointsInto_atPosition outcome.next rfl

end Parsed

/-- A refusal is reported at one place of the text, and nowhere else. -/
theorem Rereading.Refused.pointsInto {rereading : Rereading} {stream : Stream} {start : Nat}
    {reason : String} {report : Diagnostic} (h : rereading.Refused stream start reason report) :
    report.PointsInto stream := by
  constructor
  case range =>
    rw [h.range]
    exact Option.isSome_of_eq_some h.boundary
  case position => exact h.position
  case related =>
    rw [h.related]
    exact List.forall_mem_nil _

theorem Accounts.pointsInto {stream : Stream} {rereadings : List Rereading}
    {forest : List LocatedTree} {rules : List RuleTree} {reports : List Diagnostic}
    (h : Accounts stream rereadings forest rules reports) :
    ∀ diagnostic ∈ reports, diagnostic.PointsInto stream := by
  intro diagnostic mem
  obtain ⟨rereading, among, same⟩ := List.mem_filterMap.mp (h.reports.mem_iff.mp mem)
  obtain ⟨start, text, holds⟩ := h.holds rereading among
  obtain ⟨failure, -, refused⟩ := holds.refused diagnostic same
  exact refused.pointsInto

namespace Analysis

theorem pointsInto_ofStream (settings : Settings) (stream : Stream) :
    ∃ analysis, ofStream settings stream = .ok analysis ∧
      ∀ diagnostic ∈ analysis.diagnostics, diagnostic.PointsInto stream := by
  obtain ⟨analysis, analysed, parsed, -⟩ := exists_contexts settings stream
  obtain ⟨other, again, ⟨rereadings, accounts⟩, -⟩ := accountsFor_ofStream settings stream
  rw [analysed] at again
  cases again
  refine ⟨analysis, analysed, ?_⟩
  rw [diagnostics, List.forall_mem_append, parsed]
  exact ⟨Parsed.pointsInto settings stream, accounts.pointsInto⟩

/-- Every diagnostic of every analysed text, and of every expanded text, points into the text: its
range and those of all related places begin and end at boundaries of characters of the text, and
its position is the line, the column and the byte offset at which its range begins. -/
theorem diagnostics_pointInto (settings : Settings) :
    (∀ text, ∃ analysis, ofText settings text = .ok analysis ∧
      ∀ diagnostic ∈ analysis.diagnostics, diagnostic.PointsInto (.ofText text)) ∧
    ∀ document, ∃ analysis, ofDocument settings document = .ok analysis ∧
      ∀ diagnostic ∈ analysis.diagnostics, diagnostic.PointsInto (.ofDocument document) :=
  ⟨fun text => pointsInto_ofStream settings (.ofText text),
    fun document => pointsInto_ofStream settings (.ofDocument document)⟩

end Analysis

end CobolTree
