import Stencil.Compiled.Artifact
import Stencil.Proofs.Json.Reading

/-! # Artifacts reload

The artifact of a template is read back as the template, and the artifact of a bundle as the
bundle with the same order of names, exactly if the JSON is nested no deeper than the reader
goes. All render kinds have to be canonical, as they are in what is compiled and what is read.
-/

namespace Stencil

open Json

/-! ## Fields -/

namespace Binding

variable {key : String} {j : Json} {fields : List (String × Json)}

theorem single?_of_not_mem (h : key ∉ fields.map Prod.fst) : single? key fields = some none := by
  have none_there : fields.filter (·.1 == key) = [] :=
    List.filter_eq_nil_iff.2 fun field mem => by
      rw [beq_iff_eq]
      rintro rfl
      exact h (List.mem_map_of_mem mem)
  simp [single?, none_there]

/-- A binding with a canonical kind is read back. -/
theorem ofJson?_toJson (b : Binding) (canonical : b.kind.IsCanonical) :
    ofJson? b.toJson = some b := by
  obtain ⟨kind, key, attr, block⟩ := b
  have same : RenderKind.ofTag kind.tag = kind := canonical
  cases attr <;> cases block <;>
    simp [toJson, ofJson?, optionalField, text?, optionalText?, single?, textOf?, optionalTextOf?,
      same]

end Binding

namespace Skeleton

theorem texts?_map_string (parts : List String) : texts? (parts.map Json.string) = some parts := by
  induction parts with
  | nil => rfl
  | cons part parts ih => simp [texts?, ih, Binding.textOf?]

theorem ofJson?_toJson (s : Skeleton) : ofJson? s.toJson = some s := by
  cases s with
  | plain markup => rfl
  | split parts => simp [toJson, ofJson?, texts?_map_string]

end Skeleton

namespace CompiledTemplate

/-! ## Canonical templates -/

mutual

/-- All render kinds of a template and of those in it are canonical. -/
def Canonical : CompiledTemplate → Prop
  | ⟨slots, _, _⟩ => CanonicalSlots slots

def CanonicalSlots : List (List (Reference CompiledTemplate)) → Prop
  | [] => True
  | slot :: slots => CanonicalSlot slot ∧ CanonicalSlots slots

def CanonicalSlot : List (Reference CompiledTemplate) → Prop
  | [] => True
  | r :: rs => CanonicalReference r ∧ CanonicalSlot rs

def CanonicalReference : Reference CompiledTemplate → Prop
  | .binding b => b.kind.IsCanonical
  | .template t => t.Canonical

end

/-- The fields of a template's JSON. -/
def fieldsOf (t : CompiledTemplate) : List (String × Json) :=
  [("refs", .array (slotsToJson t.slots)), ("html", t.skeleton.toJson)] ++
    Binding.optionalField "expr" t.expression

theorem toJson_eq (t : CompiledTemplate) : t.toJson = .object t.fieldsOf := by
  obtain ⟨slots, skeleton, expression⟩ := t
  rw [toJson, fieldsOf]

theorem known_fieldsOf (t : CompiledTemplate) : ∀ key ∈ t.fieldsOf.map Prod.fst, key ∈ fieldNames := by
  obtain ⟨slots, skeleton, expression⟩ := t
  cases expression <;> simp [fieldsOf, Binding.optionalField, fieldNames]

/-- A template does not read as a binding, which has a tag. -/
theorem binding_ofJson?_toJson (t : CompiledTemplate) : Binding.ofJson? t.toJson = none := by
  have untagged : "tp" ∉ t.fieldsOf.map Prod.fst := fun mem => absurd (known_fieldsOf t _ mem) (by decide)
  simp [toJson_eq, Binding.ofJson?, Binding.text?, Binding.single?_of_not_mem untagged]

/-! ## Reading back -/

mutual

theorem ofJson?_toJson : (t : CompiledTemplate) → t.Canonical → ofJson? t.toJson = some t
  | ⟨slots, skeleton, expression⟩, canonical => by
      have read := slotList?_slotsToJson slots canonical
      cases expression <;>
        simp [toJson, ofJson?, Binding.optionalField, draft?, Draft.finish?, slotsOf?, read, Skeleton.ofJson?_toJson,
          Binding.optionalTextOf?]

theorem slotList?_slotsToJson : (slots : List (List (Reference CompiledTemplate))) →
    CanonicalSlots slots → slotList? (slotsToJson slots) = some slots
  | [], _ => by rw [slotsToJson, slotList?]
  | slot :: slots, canonical => by
      simp [slotsToJson, slotList?, slotOf?, referenceList?_slotToJson slot canonical.1,
        slotList?_slotsToJson slots canonical.2]

theorem referenceList?_slotToJson : (slot : List (Reference CompiledTemplate)) →
    CanonicalSlot slot → referenceList? (slotToJson slot) = some slot
  | [], _ => by rw [slotToJson, referenceList?]
  | .binding b :: rs, canonical => by
      simp [slotToJson, referenceToJson, referenceList?, referenceOf?, Binding.ofJson?_toJson b canonical.1,
        referenceList?_slotToJson rs canonical.2]
  | .template t :: rs, canonical => by
      simp [slotToJson, referenceToJson, referenceList?, referenceOf?, binding_ofJson?_toJson t,
        ofJson?_toJson t canonical.1, referenceList?_slotToJson rs canonical.2]

end

/-! ## The artifact of a template -/

theorem textual_optionalField (key : String) (text : Option String) :
    TextualFields (Binding.optionalField key text) := by
  cases text <;> simp [Binding.optionalField, TextualFields, Textual]

theorem textualFields_append {fields more : List (String × Json)} (h : TextualFields fields)
    (hm : TextualFields more) : TextualFields (fields ++ more) := by
  induction fields with
  | nil => exact hm
  | cons field fields ih => exact ⟨h.1, ih h.2⟩

theorem textualAll_map_string (parts : List String) : TextualAll (parts.map Json.string) := by
  induction parts with
  | nil => trivial
  | cons part parts ih => exact ⟨trivial, ih⟩

theorem textual_skeleton : (s : Skeleton) → s.toJson.Textual
  | .plain _ => trivial
  | .split parts => textualAll_map_string parts

theorem textual_binding (b : Binding) : b.toJson.Textual := by
  refine textualFields_append (textualFields_append ?_ (textual_optionalField _ _))
    (textual_optionalField _ _)
  exact ⟨trivial, trivial, trivial⟩

mutual

theorem textual_toJson : (t : CompiledTemplate) → t.toJson.Textual
  | ⟨slots, skeleton, expression⟩ =>
      textualFields_append ⟨textual_slots slots, textual_skeleton skeleton, trivial⟩
        (textual_optionalField _ expression)

theorem textual_slots : (slots : List (List (Reference CompiledTemplate))) →
    TextualAll (slotsToJson slots)
  | [] => trivial
  | slot :: slots => ⟨textual_slot slot, textual_slots slots⟩

theorem textual_slot : (slot : List (Reference CompiledTemplate)) → TextualAll (slotToJson slot)
  | [] => trivial
  | .binding b :: rs => ⟨textual_binding b, textual_slot rs⟩
  | .template t :: rs => ⟨textual_toJson t, textual_slot rs⟩

end

/-- Any text that writes the JSON of a template reads as the template, if it is not nested too
deep. -/
theorem read?_written {t : CompiledTemplate} {text : String} (canonical : t.Canonical)
    (h : Writes text.toList t.toJson) :
    read? text = if t.toJson.nesting ≤ Json.maxDepth then some t else none := by
  rw [toJson_eq] at h
  rw [read?, record?_written h (known_fieldsOf t), ← toJson_eq]
  split
  · exact ofJson?_toJson t canonical
  · rfl

end CompiledTemplate

namespace Bundle

/-- The JSON of a bundle: the templates as fields. -/
def toJson (b : Bundle) : Json := .object (b.map fun (name, t) => (name, t.toJson))

theorem put_of_not_mem {name : String} (t : CompiledTemplate) {b : Bundle}
    (h : name ∉ b.map Prod.fst) : put name t b = b ++ [(name, t)] := by
  induction b with
  | nil => rfl
  | cons entry b ih =>
      obtain ⟨other, u⟩ := entry
      rw [List.map_cons, List.mem_cons, not_or] at h
      rw [put, if_neg (Ne.symm h.1), ih h.2]
      rfl

/-- Templates with different names are put one behind the other. -/
theorem ofList_of_nodup {b : Bundle} (h : (b.map Prod.fst).Nodup) : ofList b = b := by
  suffices loop : ∀ entries before : Bundle, ((before ++ entries).map Prod.fst).Nodup →
      entries.foldl (fun bundle (name, t) => put name t bundle) before = before ++ entries from
    loop b [] h
  intro entries
  induction entries with
  | nil => intro before _; simp
  | cons entry entries ih =>
      intro before nodup
      obtain ⟨name, t⟩ := entry
      have out : name ∉ before.map Prod.fst := by
        rw [List.map_append, List.nodup_append] at nodup
        exact fun mem => nodup.2.2 name mem name (by simp) rfl
      rw [List.foldl_cons]
      dsimp only
      rw [put_of_not_mem t out, ih]
      · simp
      · simpa using nodup

theorem entries?_toJson {b : Bundle} (canonical : ∀ entry ∈ b, entry.2.Canonical) :
    entries? (b.map fun (name, t) => (name, t.toJson)) = some b := by
  induction b with
  | nil => rfl
  | cons entry b ih =>
      obtain ⟨name, t⟩ := entry
      simp [entries?, CompiledTemplate.ofJson?_toJson t (canonical _ (List.mem_cons_self ..)),
        ih fun entry mem => canonical entry (List.mem_cons_of_mem _ mem)]

theorem textual_toJson (b : Bundle) : b.toJson.Textual := by
  induction b with
  | nil => trivial
  | cons entry b ih => exact ⟨CompiledTemplate.textual_toJson entry.2, ih⟩

theorem known_toJson (b : Bundle) :
    ∀ field ∈ b.map fun (name, t) => (name, t.toJson), Known CompiledTemplate.fieldNames field := by
  intro field mem
  obtain ⟨⟨name, t⟩, -, rfl⟩ := List.mem_map.1 mem
  exact ⟨t.fieldsOf, t.toJson_eq, t.known_fieldsOf⟩

/-- The artifact of a bundle reads as the bundle, if it is not nested too deep. -/
theorem read?_print {b : Bundle} (nodup : (b.map Prod.fst).Nodup)
    (canonical : ∀ entry ∈ b, entry.2.Canonical) :
    read? b.print = if b.toJson.nesting ≤ Json.maxDepth then some b else none := by
  have h : Writes b.print.toList b.toJson := writes_pretty b.toJson (textual_toJson b) 0
  rw [read?, records?_written h (known_toJson b)]
  by_cases deep : b.toJson.nesting ≤ Json.maxDepth
  · simp only [toJson] at deep
    simp [toJson, deep, entries?_toJson canonical, ofList_of_nodup nodup]
  · simp only [toJson] at deep
    simp [toJson, deep]

end Bundle

/-! ## Reloading -/

/-- What has been saved is what is loaded, exactly if its JSON is nested no deeper than the reader
goes: a template from both forms of its artifact, and a bundle with its names in order. -/
theorem artifacts_reload :
    (∀ t : CompiledTemplate, t.Canonical →
      (CompiledTemplate.read? t.print = some t ∧ CompiledTemplate.read? t.pretty = some t ↔
        t.toJson.nesting ≤ Json.maxDepth)) ∧
    ∀ b : Bundle, (b.map Prod.fst).Nodup → (∀ entry ∈ b, entry.2.Canonical) →
      (Bundle.read? b.print = some b ↔ b.toJson.nesting ≤ Json.maxDepth) := by
  refine ⟨fun t canonical => ?_, fun b nodup canonical => ?_⟩
  · have line := CompiledTemplate.read?_written canonical (writes_print _ t.textual_toJson)
    have lines := CompiledTemplate.read?_written canonical (writes_pretty _ t.textual_toJson 0)
    rw [CompiledTemplate.print, CompiledTemplate.pretty, line, lines]
    split <;> simp_all
  · rw [Bundle.read?_print nodup canonical]
    split <;> simp_all

/-- A list of items, each with a text and a name in an attribute. -/
def CompiledTemplate.sample : CompiledTemplate where
  slots := [
    [.binding { kind := .literal, key := "title", attr := some "class" },
      .template {
        slots := [[.binding { kind := .custom "up\t", key := "name", attr := some "title" },
          .binding { kind := .fragment, key := "it.text", block := some "it" }]]
        skeleton := .plain "<li title=\"\" data-poirot>\n</li>"
        expression := some "items it" }],
    []]
  skeleton := .split ["<ul class=\"a\\b\" ", "><br ", "></ul>"]
  expression := none

theorem artifacts_reload_sample :
    (CompiledTemplate.read? CompiledTemplate.sample.print = some .sample ∧
      CompiledTemplate.read? CompiledTemplate.sample.pretty = some .sample) ∧
    Bundle.read? (Bundle.print [("zeta", .sample), ("\u0001alpha", .sample)]) =
      some [("zeta", .sample), ("\u0001alpha", .sample)] := by
  have canonical : CompiledTemplate.sample.Canonical := by
    simp [CompiledTemplate.sample, CompiledTemplate.Canonical, CompiledTemplate.CanonicalSlots,
      CompiledTemplate.CanonicalSlot, CompiledTemplate.CanonicalReference]
    decide
  refine ⟨(artifacts_reload.1 .sample canonical).2 (by decide), ?_⟩
  exact (artifacts_reload.2 [("zeta", .sample), ("\u0001alpha", .sample)] (by decide)
    (by simp [canonical])).2 (by decide)

/-! ## Too deep -/

namespace CompiledTemplate

/-- A value inside `n` lists, one in the other. -/
def tower : Nat → CompiledTemplate
  | 0 => {
      slots := [[.binding { kind := .escaped, key := "x" }]]
      skeleton := .plain "<p data-poirot></p>"
      expression := none }
  | n + 1 => {
      slots := [[.template (tower n)]]
      skeleton := .plain "<p data-poirot></p>"
      expression := some "xs" }

theorem canonical_tower : (n : Nat) → (tower n).Canonical
  | 0 => ⟨⟨rfl, trivial⟩, trivial⟩
  | n + 1 => ⟨⟨canonical_tower n, trivial⟩, trivial⟩

/-- Every list adds an object, an array of slots and a slot. -/
theorem nesting_tower (n : Nat) : (tower n).toJson.nesting = 3 * n + 4 := by
  induction n with
  | zero => decide
  | succ n ih =>
      simp [tower, toJson, slotsToJson, slotToJson, referenceToJson, Skeleton.toJson,
        Binding.optionalField, nesting, nestingFields, nestingAll, ih]
      omega

end CompiledTemplate

/-- A template whose JSON is as deep as the reader goes reloads, but a bundle puts it one level
deeper, where it is refused. -/
theorem bundle_too_deep :
    (CompiledTemplate.tower 41).Canonical ∧
      (CompiledTemplate.tower 41).toJson.nesting ≤ Json.maxDepth ∧
      CompiledTemplate.read? (CompiledTemplate.tower 41).print = some (CompiledTemplate.tower 41) ∧
      Bundle.read? (Bundle.print [("t", CompiledTemplate.tower 41)]) = none := by
  have canonical := CompiledTemplate.canonical_tower 41
  have deep := CompiledTemplate.nesting_tower 41
  have within : (CompiledTemplate.tower 41).toJson.nesting ≤ Json.maxDepth := by
    simp [deep, Json.maxDepth]
  refine ⟨canonical, within, ?_, ?_⟩
  · rw [CompiledTemplate.print, CompiledTemplate.read?_written canonical
      (writes_print _ (CompiledTemplate.textual_toJson _)), if_pos within]
  · have beyond : ¬(Bundle.toJson [("t", CompiledTemplate.tower 41)]).nesting ≤ Json.maxDepth := by
      simp [Bundle.toJson, nesting, nestingFields, deep, Json.maxDepth]
    rw [Bundle.read?_print (by decide) (by simpa using canonical), if_neg beyond]

end Stencil
