import Stencil.Proofs.Batch.AllOrNothing
import Stencil.Proofs.Compile.Kinds
import Stencil.Proofs.Script.Module

/-! # What an artifact holds

The file that a run has written can be read: its text is JSON in which the records of the templates
stand by their names, or a module that exports the templates under their names, all in order.
-/

namespace Stencil

open FileTree (Stores)

/-- What is stored as a text is read back as the text. -/
theorem FileTree.Stores.readText {t t' : FileTree} {p : Path} {text : String}
    (h : Stores t p text.toUTF8 t') : (t'.files.readText p).run = .ok text := by
  have bytes : t'.files.read p = .ok text.toUTF8 := h.read
  have decoded : String.fromUTF8? text.toUTF8 = some text := by
    simp only [String.fromUTF8?, String.toUTF8_eq_toByteArray, dif_pos text.isValidUTF8]
    rfl
  simp only [Files.readText, bytes, bind, pure, Id.run, decoded]

/-- A text holds exactly these templates under their names, in order. As JSON it is an object of their
records, and the reader makes the bundle of it unless it is nested deeper than the reader goes. As a
script it is a module that exports them, unless an escape tears a marker in it. -/
def Format.Holds (format : Format) (text : String) (b : Bundle) : Prop :=
  match format with
  | .json =>
      (∃ records, Json.Writes text.toList (.object records) ∧ Bundle.entries? records = some b) ∧
        (Bundle.read? text = some b ↔ b.toJson.nesting ≤ Json.maxDepth)
  | .script =>
      (∀ entry ∈ b, entry.2.Untorn) → Script.module? text =
        some (Script.defaultRuntime, b.map fun (name, t) => (name, t.plainForm))

namespace Batch

/-- The text that is made of templates with names and kinds of their own holds them. -/
theorem holds_artifactText (format : Format) {b : Bundle} (distinct : (b.map Prod.fst).Nodup)
    (canonical : ∀ entry ∈ b, entry.2.Canonical) : format.Holds (artifactText format b) b := by
  cases format with
  | json =>
      refine ⟨⟨_, Json.writes_pretty b.toJson b.textual_toJson 0, Bundle.entries?_toJson canonical⟩, ?_⟩
      have read := Bundle.read?_print distinct canonical
      rw [artifactText, read]
      split <;> simp_all
  | script => exact Script.module?_moduleWith Script.defaultRuntime b

end Batch

end Stencil
