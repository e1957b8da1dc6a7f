import Outdent.Proofs.Marker.Relayout
import Outdent.Proofs.Written.Fitting
import Outdent.Proofs.Written.Parsing
import Outdent.Proofs.Written.Settled
/-! # Reading the result of a rewrite

The result of rewriting a script is the rewritten script, which is read as the rewritten tree where
it keeps to the rules of writing scripts. A template that loses its tag can break them. -/
namespace Outdent.Marker.Reference

open Outdent.Syntax Outdent.Edit

section
variable {d : Document} {resolution : Option Resolution} {r : Rewritten} {s : Written.Script}

theorem code_of_script (hs : s.IsReadable) (htext : d.text = s.text)
    (h : d.rewrite resolution = .ok (some r)) : r.code = s.rewritten.text := by
  obtain ⟨id, text⟩ := d
  obtain rfl : text = s.text := htext
  have hfit := Written.module_fits s
  obtain ⟨ha, hcode⟩ := code_eq_outcome (Written.parse_text hs id) hfit h
  have hrender := module_renders hfit
  have howns : Owns (edits s.module) ⟨0, Text.byteLength s.text⟩ (edits s.module) :=
    ⟨fun _ he => he, fun _ he _ _ _ => he⟩
  rw [hcode, ← Written.textOfModule_module]
  exact (hrender.eq _ ha hrender.neutral howns).symm

theorem module_of_script {m : Module} (hs : s.IsReadable) (htext : d.text = s.text)
    (hparse : d.parse = .ok m) : m = s.module := by
  obtain ⟨id, text⟩ := d
  obtain rfl : text = s.text := htext
  exact Except.ok.inj (hparse.symm.trans (Written.parse_text hs id))

theorem readsAs_of_script (hs : s.IsReadable) (htext : d.text = s.text)
    (hr : s.rewritten.IsReadable) (h : d.rewrite resolution = .ok (some r)) :
    ReadsAs ⟨r.id, r.code⟩ (rewrittenModule nowhere s.module) := by
  rw [code_of_script hs htext h]
  exact ⟨s.rewritten.module, Written.parse_text hr r.id, Written.form_module_rewritten s⟩

/-- A rewrite changes nothing but the usages of the marker: the rewritten tree lies over the result,
and every stretch that no edit touches stands there as it did. The result of rewriting a script is
the rewritten script. It is read as the rewritten tree if it is a script again: what is left of a
segment can stand there without a tag, and a statement ends where the next one starts. That is so
without backslashes in tagged templates and with semicolons behind all statements. -/
theorem rewrite_reads_as_rewritten {m : Module} (hparse : d.parse = .ok m) (hfit : m.Fits d.text)
    (h : d.rewrite resolution = .ok (some r)) : r.id = d.id ∧
      (rewrittenModule (shiftSpan (edits m) d.text) m).Fits r.code ∧
      (∀ s : Span, s.isValidIn d.text = true →
        (∀ e ∈ edits m, ∀ o, e.range.Covers o → ¬ s.Covers o) →
        Text.slice (shift (edits m) d.text s.start) (shift (edits m) d.text s.stop) r.code =
          Text.slice s.start s.stop d.text) ∧
      ∀ s : Written.Script, s.IsReadable → d.text = s.text → r.code = s.rewritten.text ∧
        (s.rewritten.IsReadable → ReadsAs ⟨r.id, r.code⟩ (rewrittenModule nowhere m)) ∧
        (s.isSettled = true → ReadsAs ⟨r.id, r.code⟩ (rewrittenModule nowhere m)) := by
  obtain ⟨hid, hfits, hkept⟩ := rewrite_lays_out hparse hfit h
  refine ⟨hid, hfits, hkept, fun s hs htext => ?_⟩
  have hmodule : m = s.module := module_of_script hs htext hparse
  have hreads : s.rewritten.IsReadable → ReadsAs ⟨r.id, r.code⟩ (rewrittenModule nowhere m) :=
    fun hr => hmodule ▸ readsAs_of_script hs htext hr h
  exact ⟨code_of_script hs htext h, hreads, fun hsettled =>
    hreads (Written.isReadable_rewritten hs hsettled)⟩

end

/-- A component in a hole of a marked template, behind an import that names the marker. -/
def nestedUsages : Written.Script :=
  let blank : Written.Space := .blank ' ' (by decide)
  let lineFeed : Written.Space := .lineBreak '\n' (by decide)
  let marker : Written.Variable := ⟨⟨"d".toList, by decide⟩, by decide⟩
  let css : Written.Variable := ⟨⟨"css".toList, by decide⟩, by decide⟩
  let component : Written.Expression :=
    .tagged (.tagged (.template (.last [])) (.last " b ".toList)) (.last [])
  ⟨[⟨[], .imported ⟨[blank], by simp⟩ marker ⟨[blank], by simp⟩ [blank]
        ⟨'"', "rollup-plugin-dedent".toList, by decide, by decide⟩, true⟩,
      ⟨[lineFeed], .constant ⟨[blank], by simp⟩ css [blank] (.spaced [blank] (.tagged
        (.named marker) (.hole "\n  a ".toList component (.last "\n".toList))) []), false⟩,
      ⟨[lineFeed], .plain (.call (.named ⟨⟨"render".toList, by decide⟩, by decide⟩)
        (.last (.named css))), true⟩], [lineFeed]⟩

theorem rewrite_reads_as_rewritten_nestedUsages :
    let d : Document := ⟨"src/index.ts", nestedUsages.text⟩
    d.text = ("import d from \"rollup-plugin-dedent\";\nconst css = d`\n  a " ++
      "$\x7b``` b ```\x7d\n`\nrender(css);\n").toList ∧
    ∃ m r, d.parse = .ok m ∧ m.Fits d.text ∧ d.rewrite none = .ok (some r) ∧
      r.code = "\nconst css = `a$\x7b`b`\x7d`\nrender(css);\n".toList ∧
      ReadsAs ⟨r.id, r.code⟩ (rewrittenModule nowhere m) := by
  intro d
  have hreadable : nestedUsages.IsReadable ∧ nestedUsages.rewritten.IsReadable := by
    decide +kernel
  have hfits : (match d.parse with
      | .ok m => decide (m.Fits d.text)
      | .error _ => false) = true := by decide +kernel
  have hrewrite : d.rewrite none = .ok (some ⟨"src/index.ts",
      "\nconst css = `a$\x7b`b`\x7d`\nrender(css);\n".toList, none,
        ⟨1, 1, 1, 3⟩⟩) := by decide +kernel
  refine ⟨by decide +kernel, ?_⟩
  cases hparse : d.parse with
  | error fault => simp [hparse] at hfits
  | ok m =>
    have hfit : m.Fits d.text := by simpa [hparse] using hfits
    obtain ⟨-, -, -, hscript⟩ := rewrite_reads_as_rewritten hparse hfit hrewrite
    exact ⟨m, _, rfl, hfit, hrewrite, rfl, (hscript nestedUsages hreadable.1 rfl).2.1 hreadable.2⟩

/-- A template whose tag admits an escape that a template without a tag does not. -/
def loneEscape : Document := ⟨"src/index.ts", "dedent`\\u\x7bzz\x7d`".toList⟩

theorem not_readsAs_loneEscape : ∃ m r, loneEscape.parse = .ok m ∧
    loneEscape.rewrite none = .ok (some r) ∧
      ¬ ReadsAs ⟨r.id, r.code⟩ (rewrittenModule nowhere m) := by
  have hrewrite : loneEscape.rewrite none =
      .ok (some ⟨"src/index.ts", "`\\u\x7bzz\x7d`".toList, none, ⟨0, 1, 0, 1⟩⟩) := by decide +kernel
  have hfault : (match (Document.mk "src/index.ts" "`\\u\x7bzz\x7d`".toList).parse with
      | .ok _ => true
      | .error _ => false) = false := by decide +kernel
  obtain ⟨m, -, hparse, -⟩ := Document.rewrite_eq_some_iff.mp hrewrite
  refine ⟨m, _, hparse, hrewrite, ?_⟩
  rintro ⟨m', hread, -⟩
  have hread : (Document.mk "src/index.ts" "`\\u\x7bzz\x7d`".toList).parse = .ok m' := hread
  rw [hread] at hfault
  contradiction

end Outdent.Marker.Reference
