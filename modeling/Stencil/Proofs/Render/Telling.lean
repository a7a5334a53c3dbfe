import Stencil.Proofs.Render.Building
import Stencil.Proofs.Render.Settling

/-! # Rendering with calls left out

A rendering that tells what it does: the handlers that it calls, each in the document that it is
called in, and the regions that it comes to. Cues say of one call after the other, in the order in
which they are reached, whether it is made or left out; everything else is done as ever. Without
cues all calls are made, and the telling is the rendering itself.
-/

namespace Stencil

open Edit

/-! ## Deeds -/

/-- What a rendering does with a template, one thing at a time. -/
inductive Deed where
  /-- The handler of a binding is called with a value. -/
  | call (b : BoundBinding) (value : Value) (before : Document)
  /-- A region is come to, and its source has a value or none. -/
  | visit (region : Region) (value : Option Value)

namespace Deed

/-- The error with which a call fails. -/
def failure? : Deed → Option HandlerError
  | call b value before =>
      match b.handler b.target value before with
      | .ok _ _ => none
      | .error e _ => some e
  | visit _ _ => none

/-- The error of the document with which a call fails. -/
def dom? (x : Deed) : Option DomError :=
  match x.failure? with
  | some (.dom e) => some e
  | _ => none

/-- Whether nothing fails. -/
def succeeds (x : Deed) : Bool := x.failure?.isNone

/-- The cue by which a call that fails is left out. -/
def cue? : Deed → Option Bool
  | call b value before => some (call b value before).succeeds
  | visit _ _ => none

/-- What is noted. -/
def events : Deed → List Event
  | call b value before =>
      .called b.binding.kind.tag b.target value ::
        match (call b value before).failure? with
        | none | some (.dom _) => []
        | some e => [.failed b.binding.key value e]
  | visit region value => region.events value

/-- The line for the logger: one for a call that fails, unless it ends the rendering, and one for a
region whose source has a value that is neither null nor an array. -/
def report? : Deed → Option LogEntry
  | call b value before =>
      match (call b value before).failure? with
      | none | some (.dom _) => none
      | some e => some {
          level := .error
          text := "Failed to render value " ++ value.shown ++ " for '" ++ b.binding.key ++ "': " ++
            e.message }
  | visit region value =>
      match value with
      | none | some .null | some (.array _) => none
      | some other => some {
          level := .error
          text := "Failed to render iteration '" ++ region.iteration.source ++
            "': expected an array, found " ++ other.shown }

theorem filterMap_events (x : Deed) : x.events.filterMap Event.entry? = x.report?.toList := by
  cases x with
  | call b value before =>
      rw [events, report?]
      cases (call b value before).failure? with
      | none => rfl
      | some e => cases e <;> rfl
  | visit region value =>
      cases value with
      | none => rfl
      | some value => cases value <;> rfl

/-- The lines that are noted are those of the deeds. -/
theorem filterMap_flatMap_events (deeds : List Deed) :
    (deeds.flatMap events).filterMap Event.entry? = deeds.filterMap report? := by
  induction deeds with
  | nil => rfl
  | cons x deeds ih =>
      rw [List.flatMap_cons, List.filterMap_append, filterMap_events, ih, List.filterMap_cons]
      cases x.report? <;> rfl

end Deed

theorem Event.level_of_entry {e : Event} {entry : LogEntry} (h : e.entry? = some entry) :
    entry.level = .error := by
  cases e with
  | called tag target value => cases h
  | failed key value e | notIterable source value =>
      cases h
      rfl

/-- A logger takes all that is noted, at any level. -/
theorem taken_entries (level : Level) (events : List Event) :
    Log.taken level (events.filterMap Event.entry?) = events.filterMap Event.entry? := by
  refine List.filter_eq_self.2 fun entry mem => ?_
  obtain ⟨e, -, noted⟩ := List.mem_filterMap.1 mem
  rw [Event.level_of_entry noted]
  cases level <;> rfl

/-! ## Telling -/

/-- What a telling works on. -/
structure Tale where
  document : Document
  /-- Whether the next calls are made. Beyond these all are. -/
  cues : List Bool := []
  /-- What has been done, in order. -/
  deeds : List Deed := []

/-- A computation that tells what it does. -/
abbrev Telling : Type → Type := EStateM TemplateError Tale

namespace Telling

variable {α : Type}

/-- A change of the document as a part of a telling. -/
def build (b : Build α) : Telling α := fun s =>
  match b s.document with
  | .ok a document => .ok a { s with document }
  | .error e document => .error e { s with document }

/-- Takes a deed down. -/
def mark (x : Deed) : Telling Unit := modify fun s => { s with deeds := s.deeds ++ [x] }

/-- Whether the next call is to be made. -/
def cue : Telling Bool := fun s =>
  match s.cues with
  | [] => .ok true s
  | made :: cues => .ok made { s with cues }

/-- The outcome of a telling in a document with some cues. -/
def run (body : Telling α) (cues : List Bool) (d : Document) : Except TemplateError α × Tale :=
  match body { document := d, cues } with
  | .ok a s => (.ok a, s)
  | .error e s => (.error e, s)

theorem build_ok {b : Build α} {a : α} {s : Tale} {d : Document} (run : b s.document = .ok a d) :
    build b s = .ok a { s with document := d } := by
  rw [build, run]

end Telling

namespace BoundBinding

/-- Calls the handler of a binding. -/
def attempt (b : BoundBinding) (value : Value) : Telling (Except HandlerError Unit) := fun s =>
  match b.handler b.target value s.document with
  | .ok _ document => .ok (.ok ()) { s with document }
  | .error e document => .ok (.error e) { s with document }

/-- Writes a value, if the call is made. -/
def tell (b : BoundBinding) (value : Value) : Telling Unit := do
  if ← Telling.cue then
    Telling.mark (.call b value (← get).document)
    match ← b.attempt value with
    | .error (.dom e) => throw (.dom e)
    | _ => pure ()

/-- A call that is made is taken down. -/
theorem tell_made {b : BoundBinding} {value : Value} {s s' : Tale}
    (cued : Telling.cue s = .ok true s') :
    b.tell value s = match b.handler b.target value s'.document with
      | .ok _ document =>
          .ok () { s' with document, deeds := s'.deeds ++ [.call b value s'.document] }
      | .error (.dom e) document =>
          .error (.dom e) { s' with document, deeds := s'.deeds ++ [.call b value s'.document] }
      | .error _ document =>
          .ok () { s' with document, deeds := s'.deeds ++ [.call b value s'.document] } := by
  have marked : b.tell value s = (b.attempt value >>= fun answer => match answer with
      | .error (.dom e) => throw (.dom e)
      | _ => pure ()) { s' with deeds := s'.deeds ++ [.call b value s'.document] } := bind_ok cued
  rw [marked]
  cases run : b.handler b.target value s'.document with
  | ok u document =>
      have answered : b.attempt value { s' with deeds := s'.deeds ++ [.call b value s'.document] } =
          .ok (.ok ()) { s' with document, deeds := s'.deeds ++ [.call b value s'.document] } := by
        rw [attempt, run]
      exact bind_ok answered
  | error e document =>
      have answered : b.attempt value { s' with deeds := s'.deeds ++ [.call b value s'.document] } =
          .ok (.error e) { s' with document, deeds := s'.deeds ++ [.call b value s'.document] } := by
        rw [attempt, run]
      rw [bind_ok answered]
      cases e <;> rfl

/-- A call that is left out changes nothing. -/
theorem tell_left_out {b : BoundBinding} {value : Value} {s s' : Tale}
    (cued : Telling.cue s = .ok false s') : b.tell value s = .ok () s' := bind_ok cued

end BoundBinding

/-- The means of a telling. -/
def Telling.means : Means Telling where
  build := Telling.build
  apply := BoundBinding.tell
  come region value := Telling.mark (.visit region value)

/-- Renders into a copy of a pattern. -/
def Pattern.tell (env : Environment) (scope : Scope) (live : Instance) (p : Pattern) :
    Telling Unit := Telling.means.write env scope live p

/-- Renders a context into the live tree, and gives its root. -/
def Template.tell (t : Template) (context : Value) : Telling NodeId := do
  Pattern.tell t.environment (.ofContext context) t.live t.pattern
  return t.live.root

/-! ## A rendering and its telling -/

/-- A rendering that goes through, with its telling: no document refuses, and the same comes about
when the calls that fail are left out. -/
structure Performs (body : Rendering Unit) (told : Telling Unit) (d d' : Document)
    (deeds : List Deed) : Prop where
  calm : ∀ x ∈ deeds, x.dom? = none
  render : ∀ history, body { document := d, history } =
    .ok () { document := d', history := (deeds.flatMap Deed.events).reverse ++ history }
  tell : ∀ before, told { document := d, deeds := before } =
    .ok () { document := d', deeds := before ++ deeds }
  omitted : ∀ cues before,
    told { document := d, cues := deeds.filterMap Deed.cue? ++ cues, deeds := before } =
      .ok () { document := d', cues, deeds := before ++ deeds.filter Deed.succeeds }

/-- A rendering that a document ends by refusing, with its telling. -/
structure Aborts (body : Rendering Unit) (told : Telling Unit) (d d' : Document)
    (deeds : List Deed) (e : DomError) : Prop where
  last : ∃ front x, deeds = front ++ [x] ∧ (∀ y ∈ front, y.dom? = none) ∧ x.dom? = some e
  render : ∀ history, body { document := d, history } =
    .error (.dom e) { document := d', history := (deeds.flatMap Deed.events).reverse ++ history }
  tell : ∀ before, told { document := d, deeds := before } =
    .error (.dom e) { document := d', deeds := before ++ deeds }

section Together

variable {α : Type} {body next : Rendering Unit} {told further : Telling Unit}
  {d d' d'' : Document} {deeds more : List Deed} {e : DomError}

theorem reverse_flatMap_append (deeds more : List Deed) (history : List Event) :
    (more.flatMap Deed.events).reverse ++ ((deeds.flatMap Deed.events).reverse ++ history) =
      ((deeds ++ more).flatMap Deed.events).reverse ++ history := by
  rw [List.flatMap_append, List.reverse_append, List.append_assoc]

namespace Performs

theorem nothing (d : Document) : Performs (pure ()) (pure ()) d d [] where
  calm := List.forall_mem_nil _
  render _ := rfl
  tell before := by
    rw [List.append_nil]
    rfl
  omitted cues before := by
    rw [List.filter_nil, List.append_nil]
    rfl

theorem seq (h : Performs body told d d' deeds) (k : Performs next further d' d'' more) :
    Performs (body >>= fun _ => next) (told >>= fun _ => further) d d'' (deeds ++ more) where
  calm := List.forall_mem_append.2 ⟨h.calm, k.calm⟩
  render history := by
    rw [bind_ok (h.render history), k.render, reverse_flatMap_append]
  tell before := by
    rw [bind_ok (h.tell before), k.tell, List.append_assoc]
  omitted cues before := by
    rw [List.filterMap_append, List.append_assoc, bind_ok (h.omitted _ before), k.omitted,
      List.filter_append, List.append_assoc]

theorem aborts (h : Performs body told d d' deeds) (k : Aborts next further d' d'' more e) :
    Aborts (body >>= fun _ => next) (told >>= fun _ => further) d d'' (deeds ++ more) e where
  last := by
    obtain ⟨front, x, rfl, calm, refused⟩ := k.last
    exact ⟨deeds ++ front, x, (List.append_assoc ..).symm, List.forall_mem_append.2 ⟨h.calm, calm⟩,
      refused⟩
  render history := by
    rw [bind_ok (h.render history), k.render, reverse_flatMap_append]
  tell before := by
    rw [bind_ok (h.tell before), k.tell, List.append_assoc]

/-- What is done with something that has been built. -/
theorem build {b : Build α} {a : α} {k : α → Rendering Unit} {k' : α → Telling Unit}
    (run : b d = .ok a d') (h : Performs (k a) (k' a) d' d'' deeds) :
    Performs (Rendering.build b >>= k) (Telling.build b >>= k') d d'' deeds where
  calm := h.calm
  render history := by
    rw [bind_ok (Rendering.build_ok (c := { document := d, history }) run)]
    exact h.render history
  tell before := by
    rw [bind_ok (Telling.build_ok (s := { document := d, deeds := before }) run)]
    exact h.tell before
  omitted cues before := by
    rw [bind_ok (Telling.build_ok (s := { document := d, cues := _, deeds := before }) run)]
    exact h.omitted cues before

/-- An edit is no deed. -/
theorem edit {edit : Edit Unit} (run : edit d = .ok () d') :
    Performs (Rendering.means.edit edit) (Telling.means.edit edit) d d' [] where
  calm := List.forall_mem_nil _
  render history := Rendering.edit_ok (c := { document := d, history }) run
  tell before := by
    rw [List.append_nil]
    exact Telling.build_ok (s := { document := d, deeds := before }) (Build.edit_ok run)
  omitted cues before := by
    rw [List.filter_nil, List.append_nil]
    exact Telling.build_ok (s := { document := d, cues, deeds := before }) (Build.edit_ok run)

/-- A region is come to, which may be worth a note. -/
theorem come (d : Document) (region : Region) (value : Option Value) :
    Performs (Rendering.means.come region value) (Telling.means.come region value) d d
      [.visit region value] where
  calm := List.forall_mem_singleton.2 rfl
  render history := by
    cases value with
    | none => rfl
    | some value => cases value <;> rfl
  tell _ := rfl
  omitted _ _ := rfl

end Performs

namespace Aborts

theorem seq (h : Aborts body told d d' deeds e) (next : Rendering Unit) (further : Telling Unit) :
    Aborts (body >>= fun _ => next) (told >>= fun _ => further) d d' deeds e where
  last := h.last
  render history := bind_error (h.render history)
  tell before := bind_error (h.tell before)

theorem build {b : Build α} {a : α} {k : α → Rendering Unit} {k' : α → Telling Unit}
    (run : b d = .ok a d') (h : Aborts (k a) (k' a) d' d'' deeds e) :
    Aborts (Rendering.build b >>= k) (Telling.build b >>= k') d d'' deeds e where
  last := h.last
  render history := by
    rw [bind_ok (Rendering.build_ok (c := { document := d, history }) run)]
    exact h.render history
  tell before := by
    rw [bind_ok (Telling.build_ok (s := { document := d, deeds := before }) run)]
    exact h.tell before

end Aborts

/-! ## Calls -/

variable {b : BoundBinding} {value : Value}

/-- A call that succeeds. -/
theorem Performs.call (run : b.handler b.target value d = .ok () d') :
    Performs (b.apply value) (b.tell value) d d' [.call b value d] := by
  have fine : (Deed.call b value d).failure? = none := by rw [Deed.failure?, run]
  refine ⟨List.forall_mem_singleton.2 (by rw [Deed.dom?, fine]), fun history => ?_, fun before => ?_,
    fun cues before => ?_⟩
  · rw [BoundBinding.apply_ok (c := { document := d, history }) run, List.flatMap_singleton,
      Deed.events, fine]
    rfl
  · rw [BoundBinding.tell_made (s := { document := d, deeds := before }) rfl, run]
  · have cue : (Deed.call b value d).cue? = some true := by rw [Deed.cue?, Deed.succeeds, fine]; rfl
    have kept : [Deed.call b value d].filter Deed.succeeds = [.call b value d] := by
      rw [List.filter_cons, Deed.succeeds, fine]
      rfl
    rw [List.filterMap_cons, cue, kept]
    dsimp only [List.filterMap_nil, List.cons_append, List.nil_append]
    rw [BoundBinding.tell_made (s := { document := d, cues := true :: cues, deeds := before }) rfl, run]

/-- A call that fails and changes nothing. -/
theorem Performs.refused {e : HandlerError} (run : b.handler b.target value d = .error e d)
    (other : ∀ x, e ≠ .dom x) : Performs (b.apply value) (b.tell value) d d [.call b value d] := by
  have failed : (Deed.call b value d).failure? = some e := by rw [Deed.failure?, run]
  refine ⟨List.forall_mem_singleton.2 ?_, fun history => ?_, fun before => ?_, fun cues before => ?_⟩
  · rw [Deed.dom?, failed]
    cases e with
    | dom x => exact (other x rfl).elim
    | notInvokable | refused => rfl
  · rw [BoundBinding.apply_error (c := { document := d, history }) run, List.flatMap_singleton,
      Deed.events, failed]
    cases e with
    | dom x => exact (other x rfl).elim
    | notInvokable | refused => rfl
  · rw [BoundBinding.tell_made (s := { document := d, deeds := before }) rfl, run]
    cases e with
    | dom x => exact (other x rfl).elim
    | notInvokable | refused => rfl
  · have cue : (Deed.call b value d).cue? = some false := by rw [Deed.cue?, Deed.succeeds, failed]; rfl
    have dropped : [Deed.call b value d].filter Deed.succeeds = [] := by
      rw [List.filter_cons, Deed.succeeds, failed]
      rfl
    rw [List.filterMap_cons, cue, dropped, List.append_nil]
    exact BoundBinding.tell_left_out rfl

/-- A call in which the document refuses. -/
theorem Aborts.call (run : b.handler b.target value d = .error (.dom e) d') :
    Aborts (b.apply value) (b.tell value) d d' [.call b value d] e := by
  have failed : (Deed.call b value d).failure? = some (.dom e) := by rw [Deed.failure?, run]
  refine ⟨⟨[], _, rfl, List.forall_mem_nil _, by rw [Deed.dom?, failed]⟩, fun history => ?_,
    fun before => ?_⟩
  · rw [BoundBinding.apply_error (c := { document := d, history }) run, List.flatMap_singleton,
      Deed.events, failed]
    rfl
  · rw [BoundBinding.tell_made (s := { document := d, deeds := before }) rfl, run]

end Together

end Stencil
