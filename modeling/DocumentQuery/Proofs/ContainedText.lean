import DocumentQuery.Engine
import DocumentQuery.Proofs.DocumentLinks
import DocumentQuery.Proofs.LowerCaseContext
import DocumentQuery.Proofs.QueryAnswers

namespace DocumentQuery

open Document Query

/-- The document of an element `p` that holds one text. -/
def textElement (text : String) : Document :=
  ⟨#[{ kind := .document, children := [1] },
    { kind := .element ⟨"p", none, none, .empty⟩, parent := some 0, children := [2] },
    { kind := .text text, parent := some 1 }]⟩

theorem built_textElement (text : String) : (textElement text).Built := by
  have hp := @Built.grow _ _ 0 .blank (.element ⟨"p", none, none, .empty⟩) (by decide) rfl
  exact @Built.grow _ _ 1 hp (.text text) (by decide) rfl

theorem textContent_textElement (text : String) :
    (textElement text).textContent 1 = text.toList := by
  have hdescendants : (textElement text).descendants 1 = [2] := rfl
  have htext : (textElement text).text? 2 = some text := rfl
  have hnone : (textElement text).text? 1 = none := rfl
  rw [textContent, hnone, hdescendants]
  simp [htext]

namespace PseudoClass

variable {ctx : QueryContext} {x : NodeId} {text : String}

theorem decides_contains (ctx : QueryContext) (text : String) (x : NodeId) :
    (PseudoClass.holds ctx ⟨.contains, .text text⟩ x).Decides
      (lowerCase (unquoted text.toList) <:+: lowerCase (ctx.document.textContent x)) :=
  decides_pure occursIn_eq_true_iff

theorem decides_containsExactly (ctx : QueryContext) (text : String) (x : NodeId) :
    (PseudoClass.holds ctx ⟨.containsExactly, .text text⟩ x).Decides
      (ctx.document.textContent x = unquoted text.toList) :=
  decides_pure beq_iff_eq

/-- A text is found in the text content of a node where each of its capital sigmas has the form
that it has in the text alone, so always where it is all of the content. A text is found wherever
it stands, in any document, exactly if it has no open sigma. -/
theorem contains_finds_occurrences (text : String) :
    (∀ ctx x, ctx.document.textContent x = unquoted text.toList →
      (PseudoClass.holds ctx ⟨.containsExactly, .text text⟩ x).Decides True ∧
      (PseudoClass.holds ctx ⟨.contains, .text text⟩ x).Decides True) ∧
    (∀ ctx x before after,
      ctx.document.textContent x = before ++ unquoted text.toList ++ after →
      SigmasKept before (unquoted text.toList) after →
      (PseudoClass.holds ctx ⟨.contains, .text text⟩ x).Decides True) ∧
    (HasOpenSigma (unquoted text.toList) ↔
      ∃ ctx x, ctx.document.Built ∧ ctx.document.isElement x = true ∧
        unquoted text.toList <:+: ctx.document.textContent x ∧
        (PseudoClass.holds ctx ⟨.contains, .text text⟩ x).Decides False) := by
  refine ⟨fun ctx x hc => ⟨?_, ?_⟩, fun ctx x before after hc hk => ?_, ?_⟩
  · exact (decides_containsExactly ctx text x).congr (iff_true_intro hc)
  · have hfound : lowerCase (unquoted text.toList) <:+: lowerCase (ctx.document.textContent x) := by
      rw [hc]
    exact (decides_contains ctx text x).congr (iff_true_intro hfound)
  · have hfound := infix_lowerCase_of_sigmasKept hk
    rw [← hc] at hfound
    exact (decides_contains ctx text x).congr (iff_true_intro hfound)
  · constructor
    · intro hopen
      have hmissed := mt infix_lowerCase_iff.mp (not_not.mpr hopen)
      obtain ⟨before, after, hmissed⟩ : ∃ before after, ¬lowerCase (unquoted text.toList) <:+:
          lowerCase (before ++ unquoted text.toList ++ after) := by
        simpa using hmissed
      let content := String.ofList (before ++ unquoted text.toList ++ after)
      let ctx := ({} : Engine).context (textElement content) 0
      have hcontent : ctx.document.textContent 1 = before ++ unquoted text.toList ++ after := by
        rw [show ctx.document = textElement content from rfl, textContent_textElement,
          String.toList_ofList]
      refine ⟨ctx, 1, built_textElement content, rfl, ⟨before, after, hcontent.symm⟩, ?_⟩
      rw [← hcontent] at hmissed
      exact (decides_contains ctx text 1).congr (iff_false_intro hmissed)
    · rintro ⟨ctx, x, -, -, ⟨before, after, hc⟩, hnot⟩
      by_contra hclosed
      have hfound := infix_lowerCase_iff.mpr hclosed before after
      rw [hc] at hfound
      have hyes := (decides_contains ctx text x {}).mpr hfound
      exact (hnot {}).mp hyes

/-- The last sigma of a word is final before a blank, but not before a letter. -/
theorem contains_sigma_at_wordEnd :
    (PseudoClass.holds (({} : Engine).context (textElement "Η ΟΔΟΣ ΜΟΥ") 0)
      ⟨.contains, .text "'ΟΔΟΣ'"⟩ 1).Decides True ∧
    ∃ ctx x, ctx.document.Built ∧ ctx.document.isElement x = true ∧
      "ΟΔΟΣ".toList <:+: ctx.document.textContent x ∧
      (PseudoClass.holds ctx ⟨.contains, .text "'ΟΔΟΣ'"⟩ x).Decides False := by
  have hquotes : unquoted "'ΟΔΟΣ'".toList = "ΟΔΟΣ".toList := by decide +kernel
  obtain ⟨-, hfound, hopen⟩ := contains_finds_occurrences "'ΟΔΟΣ'"
  rw [hquotes] at hfound hopen
  constructor
  · apply hfound _ 1 "Η ".toList " ΜΟΥ".toList
    · have hcontent : "Η ΟΔΟΣ ΜΟΥ".toList = "Η ".toList ++ "ΟΔΟΣ".toList ++ " ΜΟΥ".toList := by
        decide +kernel
      exact (textContent_textElement "Η ΟΔΟΣ ΜΟΥ").trans hcontent
    · rw [sigmasKept_iff]
      decide +kernel
  · apply hopen.mp
    exact ⟨"ΟΔΟ".toList, [], by decide +kernel, .inr ⟨rfl, by decide +kernel⟩⟩

end PseudoClass

end DocumentQuery
