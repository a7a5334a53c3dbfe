import Stencil.Proofs.Compile.Template
import Stencil.Proofs.Document.Refusal

/-! # Refused compilations

A compilation that is refused stops with its tree partly rewritten. What is outside of the tree
is as it was all the same.
-/

namespace Stencil.Compile

open Markup NodeTree View

variable {α β γ δ : Type} {w w₁ w₂ : Workbench} {S T : NodeId → Prop}

/-! ## What is left alone -/

/-- The nodes in use that are not among `T` are as they were. -/
def Kept (T : NodeId → Prop) (w w' : Workbench) : Prop :=
  ∀ x, ¬T x → w.document.view x ≠ none → w'.document.view x = w.document.view x

namespace Kept

theorem of_same (same : w₁.document = w.document) : Kept T w w₁ := fun _ _ _ => by rw [same]

theorem trans (first : Kept T w w₁) (second : Kept T w₁ w₂) : Kept T w w₂ := by
  intro x out live
  have still := first x out live
  rw [second x out (still ▸ live), still]

theorem mono (h : Kept S w w₁) (sub : ∀ x, S x → T x) : Kept T w w₁ := fun x out live =>
  h x (fun inside => out (sub x inside)) live

end Kept

/-- A node and the nodes `old` below it. -/
def Around (p : NodeId) (old : List NodeId) (x : NodeId) : Prop := x = p ∨ x ∈ old

theorem Grown.kept {p : NodeId} {g : Gap} {old : List NodeId} {us : List (NodeTree NodeId)}
    {trees : List (NodeTree Slot)} (h : Grown w w₁ p g old us trees) : Kept (Around p old) w w₁ := by
  intro x out live
  rw [Around, not_or] at out
  exact h.frame x out.1 out.2 live

/-- Where the computation is refused, it has changed nothing but nodes among `T`. -/
def Spares (T : NodeId → Prop) (m : Compile α) (w : Workbench) : Prop :=
  ∀ e w', m w = .error e w' → Kept T w w'

namespace Spares

variable {m : Compile α} {f : α → Compile γ} {plan : Except SyntaxError β}
  {post : α → β → Workbench → Prop}

theorem of_ok {a : α} (run : m w = .ok a w₁) : Spares T m w := by
  intro e w' refused
  rw [run] at refused
  cases refused

theorem mono (h : Spares S m w) (sub : ∀ x, S x → T x) : Spares T m w := fun e w' refused =>
  (h e w' refused).mono sub

theorem lift (text : Except SyntaxError α) : Spares T (Compile.lift text) w := by
  cases text with
  | ok a => exact .of_ok (a := a) rfl
  | error x =>
      intro e w' refused
      cases refused
      exact .of_same rfl

theorem edit {e : Edit α} (h : e.AtomicIn w.document) : Spares T (Compile.edit e) w := by
  cases run : e w.document with
  | ok a d => exact .of_ok (edit_ok run)
  | error x d =>
      intro y w' refused
      obtain rfl := h x d run
      rw [Compile.edit, run] at refused
      cases refused
      exact .of_same rfl

/-- A computation that comes to the same as another one elsewhere. -/
theorem via {m' : Compile α} (same : m w = m' w₁) (kept : Kept T w w₁) (h : Spares T m' w₁) :
    Spares T m w := by
  intro e w' refused
  rw [same] at refused
  exact kept.trans (h e w' refused)

/-- A step that is not refused. -/
theorem step {a : α} (run : m w = .ok a w₁) (kept : Kept T w w₁) (next : Spares T (f a) w₁) :
    Spares T (m >>= f) w :=
  .via (bind_ok run) kept next

/-- What a computation does that is refused can have happened in its first part or later. -/
theorem bind (spared : Spares T m w) (first : Follows m plan post w)
    (then_ : ∀ a b w₁, post a b w₁ → Kept T w w₁ ∧ Spares T (f a) w₁) : Spares T (m >>= f) w := by
  cases plan with
  | ok b =>
      obtain ⟨a, w₁, run, h⟩ := first
      obtain ⟨kept, next⟩ := then_ a b w₁ h
      exact .step run kept next
  | error x =>
      obtain ⟨w₁, run⟩ := first
      intro e w' refused
      rw [bind_error run] at refused
      cases refused
      exact spared _ _ run

/-- Steps that are not refused after the first part. -/
theorem andThen {after : γ → β → Workbench → Prop} (spared : Spares T m w)
    (first : Follows m plan post w) (whole : Follows (m >>= f) plan after w) :
    Spares T (m >>= f) w := by
  cases plan with
  | ok b =>
      obtain ⟨c, w₁, run, -⟩ := whole
      exact .of_ok run
  | error x =>
      obtain ⟨w₁, run⟩ := first
      intro e w' refused
      rw [bind_error run] at refused
      cases refused
      exact spared _ _ run

theorem trace {config : Config} {report : Unit → String} (h : ∀ steps, Spares T m { w with steps }) :
    Spares T (Compile.trace config report >>= fun _ => m) w := by
  obtain ⟨steps, run⟩ := trace_ok config report w
  exact .step run (.of_same rfl) (h steps)

theorem withHosts (h : Spares T m { w with hosts := {} }) : Spares T (Compile.withHosts m) w := by
  intro e w' refused
  have start : Compile.withHosts m w = (m >>= fun a => do
      modify fun inner => { inner with hosts := w.hosts }
      return a) { w with hosts := {} } := rfl
  rw [start] at refused
  cases run : m { w with hosts := {} } with
  | ok a w₁ =>
      rw [bind_ok run] at refused
      cases refused
  | error x w₁ =>
      rw [bind_error run] at refused
      cases refused
      exact h _ _ run

end Spares

/-! ## Directives -/

section Directives

variable {p x r : NodeId} {g : Gap} {rest : List NodeId} {q : Option NodeId} {kids : List NodeId}

theorem bindDirective_spares (s : Settings) (x : NodeId) (source : Source) (o : Occurrence)
    (attr : Option String) : Spares T (bindDirective s x source o attr) w := by
  unfold bindDirective
  refine .bind (.lift _) (.lift _ w) ?_
  rintro directive _ _ ⟨rfl, rfl⟩
  exact ⟨.of_same rfl, .trace fun steps => .of_ok (refer_ok ..)⟩

theorem bindAttribute_spares (s : Settings) (h : w.Sound) {tag name : String} {value : Value}
    {front more : List (String × Value)}
    (node : w.document.view x = some {
      data := .element tag (front ++ (name, value) :: more), parent := q, children := kids }) :
    Spares (· = x) (bindAttribute s x name) w := by
  unfold bindAttribute
  by_cases block : name = Marker.block
  · rw [if_pos block]
    exact .of_ok rfl
  · rw [if_neg block]
    have asked : ask (·.attribute? x name) w = .ok (some value.text) w := by
      refine ask_ok ?_
      rw [Document.known_attribute node, lookup_split (not_mem_front h.document node)]
      rfl
    refine .step asked (.of_same rfl) (.bind (.lift _) (.lift _ w) ?_)
    rintro first _ _ ⟨rfl, rfl⟩
    refine ⟨.of_same rfl, ?_⟩
    cases first with
    | none => exact .of_ok rfl
    | some o =>
        refine .trace fun steps => ?_
        refine .bind (bindDirective_spares s x _ o (some name))
          (bindDirective_follows s x _ o (some name) _) ?_
        intro _ b w₁ bound
        obtain ⟨d, run, -⟩ := Document.setAttributeValue_ok (bound.1 ▸ h.document)
          (bound.1 ▸ node) name (.string "")
        exact ⟨.of_same bound.1, .of_ok (edit_ok run)⟩

theorem bindEach_spares (s : Settings) (attributes front : List (String × Value)) (h : w.Sound)
    {tag : String}
    (node : w.document.view x = some {
      data := .element tag (front ++ attributes), parent := q, children := kids }) :
    Spares (· = x) ((attributes.map Prod.fst).forM (bindAttribute s x)) w := by
  induction attributes generalizing front w with
  | nil => exact .of_ok rfl
  | cons entry more ih =>
      obtain ⟨name, value⟩ := entry
      rw [List.map_cons, List.forM]
      refine .bind (bindAttribute_spares s h node) (bindAttribute_follows s h node) ?_
      rintro _ ⟨left, own⟩ w₁ ⟨dressed, node₁⟩
      exact ⟨fun y other _ => dressed.frame y other,
        ih (front ++ [(name, left)]) dressed.sound (by simpa using node₁)⟩

theorem bindAttributes_spares (s : Settings) (h : w.Sound) {tag : String}
    {own : List (String × Value)}
    (node : w.document.view x = some {
      data := .element tag own, parent := q, children := kids }) :
    Spares (· = x) (bindAttributes s x) w :=
  .step (ask_ok (Document.known_names node)) (.of_same rfl) (bindEach_spares s own [] h node)

theorem splitOff_spares (s : Settings) (source : Source) (o : Occurrence) (h : w.Sound)
    (host : w.document.view p = some (g.fill (r :: rest))) :
    Spares (Around p []) (splitOff s source p r o) w := by
  have element : ∀ {w : Workbench} {g : Gap}, w.Sound →
      w.document.view p = some (g.fill (r :: rest)) → Spares (Around p []) (do
        let wrapper ← edit (do
          let wrapper ← Document.createElement s.config.wrapperTag
          Document.insertBefore p wrapper r
          return wrapper)
        bindDirective s wrapper source o none) w := by
    intro w g h host
    obtain ⟨c, d, run, grown⟩ := insertElement_ok h host s.config.wrapperTag
    exact .step (edit_ok run) grown.kept (bindDirective_spares s c source o none)
  unfold splitOff
  by_cases empty : o.preamble.isEmpty
  · simp only [if_pos empty]
    exact element h host
  · simp only [if_neg empty]
    obtain ⟨c, d, run, first⟩ := insertText_ok h host o.preamble
    exact .step (edit_ok run) first.kept (element first.sound first.host_right)

theorem splitAll_spares (s : Settings) (source : Source) (found : List Occurrence) (h : w.Sound)
    (host : w.document.view p = some (g.fill (r :: rest))) :
    Spares (Around p [])
      (forIn found PUnit.unit fun o _ => do
        splitOff s source p r o
        pure (ForInStep.yield PUnit.unit)) w := by
  induction found generalizing w g with
  | nil => exact .of_ok rfl
  | cons o found ih =>
      rw [List.forIn_cons, bind_assoc]
      refine .bind (splitOff_spares s source o h host) (splitOff_follows s source o h host) ?_
      rintro _ trees w₁ ⟨us, grown⟩
      rw [pure_bind]
      exact ⟨grown.kept, ih grown.sound grown.host_right⟩

theorem splitText_spares (s : Settings) {value : String} (h : w.Sound)
    (host : w.document.view p = some (g.fill [r]))
    (node : w.document.view r = some { data := .text value, parent := some p, children := [] }) :
    Spares (Around p []) (splitText s r value) w := by
  unfold splitText
  refine .bind (.lift _) (.lift _ w) ?_
  rintro found _ _ ⟨rfl, rfl⟩
  refine ⟨.of_same rfl, ?_⟩
  by_cases none_found : found.isEmpty
  · simp only [if_pos none_found]
    exact .of_ok rfl
  · simp only [if_neg none_found]
    refine .trace fun steps => .step (ask_ok (Document.parent_eq_ok node)) (.of_same rfl) ?_
    have sound := h.traced steps
    refine .bind (splitAll_spares s _ found sound host) (splitAll_follows s _ found sound host) ?_
    rintro _ trees w₁ ⟨us, first⟩
    refine ⟨first.kept, ?_⟩
    have remove : ∀ {w : Workbench}, w.Sound → Spares (Around p []) (edit (Document.remove p r)) w :=
      fun h => .edit (Document.atomicIn_remove h.document p r)
    by_cases used : (Occurrence.trailing value).isEmpty
    · simp only [if_pos used]
      exact remove first.sound
    · simp only [if_neg used]
      obtain ⟨c, d, run, second⟩ := insertText_ok first.sound first.host_right _
      exact .step (edit_ok run) second.kept (remove second.sound)

end Directives

/-! ## Elements -/

section Elements

variable {p x : NodeId} {g : Gap} {name : String} {own : List (String × Value)} {slot : Slot}
  {kids : List (NodeTree NodeId)} {below : List NodeId} {q : Option NodeId}

theorem soleDirective_spares (s : Settings)
    (node : w.document.view x = some {
      data := .element name own, parent := q, children := kids.map label })
    (stands : w.document.view.StandAll (some x) kids) : Spares T (soleDirective s x) w := by
  refine .step (ask_ok (Document.children_eq_ok node)) (.of_same rfl) ?_
  match kids, stands with
  | [], _ => exact .of_ok rfl
  | _ :: _ :: _, _ => exact .of_ok rfl
  | [.node id data below], stands =>
      have asked : ask (·.data id) w = .ok data w := ask_ok (Document.data_eq_ok stands.1.1)
      refine .step asked (.of_same rfl) ?_
      cases data with
      | text value =>
          refine .bind (.lift _) (.lift (Occurrence.whole? (s.source value)) w) ?_
          rintro found _ _ ⟨rfl, rfl⟩
          exact ⟨.of_same rfl, .of_ok rfl⟩
      | _ => exact .of_ok rfl

theorem content_spares (s : Settings) {visit : NodeId → Compile Unit} (h : w.Sound)
    (node : w.document.view x = some {
      data := .element name own, parent := q, children := kids.map label })
    (stands : w.document.view.StandAll (some x) kids)
    (inner : Spares T ((kids.map label).forM visit) w) : Spares T (content s x visit) w := by
  refine .bind (soleDirective_spares s node stands) (soleDirective_follows s node stands) ?_
  rintro sole _ _ ⟨rfl, rfl⟩
  refine ⟨.of_same rfl, ?_⟩
  cases sole with
  | none => exact .step (ask_ok (Document.children_eq_ok node)) (.of_same rfl) inner
  | some found =>
      obtain ⟨source, o⟩ := found
      refine .bind (bindDirective_spares s x source o none) (bindDirective_follows s x source o none w) ?_
      intro _ b w₁ bound
      exact ⟨.of_same bound.1, .edit (Document.atomicIn_discardChildren (bound.1 ▸ h.document) x)⟩

theorem part_spares (s : Settings) {identity : String} {visit : NodeId → Compile Unit}
    {plan : Except SyntaxError Plan.Sketch} (sound : w.document.Sound)
    (marked : blockOf? own = some identity)
    (node : w.document.view x = some {
      data := .element name (own.filter fun entry => entry.1 == Marker.block), parent := none
      children := kids.map label })
    (stands : w.document.view.StandAll (some x) kids)
    (solid : ∀ sketch, plan = .ok sketch → Plan.Solid sketch.trees)
    (inner : ∀ w₁ : Workbench, w₁.Sound →
      w₁.document.view x = some {
        data := .element name [], parent := none, children := kids.map label } →
      w₁.document.view.StandAll (some x) kids → (∀ y, w₁.hosts.slotOf y = []) →
      Follows ((kids.map label).forM visit) plan
          (fun _ => Carried w₁ x (.inside (.element name []) none) (labelsAll kids)) w₁ ∧
        Spares (Around x (labelsAll kids)) ((kids.map label).forM visit) w₁) :
    Spares (Around x (labelsAll kids)) (part s x visit) w := by
  obtain ⟨w₁, sound₁, bare, node₁, stands₁, frame₁, body, same, begins⟩ :=
    bare_ok s visit sound marked node stands
  obtain ⟨follows, spared⟩ := inner w₁ sound₁ node₁ stands₁ bare
  rw [same]
  refine .withHosts (.via begins (fun y out _ => frame₁ y fun same => out (.inl same)) ?_)
  exact spared.andThen follows (emitted_follows identity solid (bare x) follows)

theorem extract_spares (s : Settings) {identity : String} {visit : NodeId → Compile Unit}
    {plan : Except SyntaxError Plan.Sketch} (o : Opened w w₁ p x g name own slot kids below)
    (marked : blockOf? own = some identity)
    (solid : ∀ sketch, plan = .ok sketch → Plan.Solid sketch.trees)
    (inner : ∀ w₂ : Workbench, w₂.Sound →
      w₂.document.view x = some {
        data := .element name [], parent := none, children := kids.map label } →
      w₂.document.view.StandAll (some x) kids → (∀ y, w₂.hosts.slotOf y = []) →
      Follows ((kids.map label).forM visit) plan
          (fun _ => Carried w₂ x (.inside (.element name []) none) (labelsAll kids)) w₂ ∧
        Spares (Around x (labelsAll kids)) ((kids.map label).forM visit) w₂) :
    Spares (Around p (x :: below)) (extract s x visit) w₁ := by
  obtain ⟨c, d, hosts, steps, fresh, rekeyed, sound, host, new, old, frame, begins⟩ :=
    extract_ok s visit o marked
  have stands := o.stands_exchanged fresh frame
  refine .via begins (fun y out live => ?_) ?_
  · rw [Around, List.mem_cons, not_or, not_or] at out
    exact frame y out.1 (fun same => live (same ▸ fresh)) out.2.1
  · let w : Workbench := { document := d, hosts, steps }
    have spared := part_spares (w := w) s sound marked old stands solid inner
    refine .bind (spared.mono ?_) (part_follows (w := w) s sound marked old stands solid
      fun w₂ sound node stands bare => (inner w₂ sound node stands bare).1) ?_
    · rintro y (rfl | deep)
      · exact .inr (List.mem_cons_self ..)
      · exact .inr (List.mem_cons_of_mem _ (o.inside y deep))
    · intro part sketch w₂ made
      refine ⟨fun y out live => ?_, .of_ok (refer_ok ..)⟩
      rw [Around, List.mem_cons, not_or, not_or] at out
      exact made.2.frame y out.2.1 (fun deep => out.2.2 (o.inside y deep)) live

end Elements

/-! ## Trees -/

/-- Where `visit` is refused at a tree of at most `fuel` levels, it has changed nothing but the
tree and the node above it. -/
def Sparing (visit : NodeId → Compile Unit) (fuel : Nat) : Prop :=
  ∀ t : NodeTree NodeId, t.height ≤ fuel → ∀ {w : Workbench} {p : NodeId} {g : Gap}, w.Sound →
    w.document.view p = some (g.fill [t.label]) → w.document.view.Stands (some p) t →
    (∀ x ∈ t.labels, w.hosts.slotOf x = []) → Spares (Around p t.labels) (visit t.label) w

namespace Sparing

variable {s : Settings} {visit : NodeId → Compile Unit} {fuel : Nat} {ts : List (NodeTree NodeId)}
  {p : NodeId} {g : Gap}

theorem all (sparing : Sparing visit fuel) (visits : Visits s visit fuel)
    (short : heightAll ts ≤ fuel) (h : w.Sound)
    (host : w.document.view p = some (g.fill (ts.map label)))
    (stands : w.document.view.StandAll (some p) ts)
    (bare : ∀ x ∈ labelsAll ts, w.hosts.slotOf x = []) :
    Spares (Around p (labelsAll ts)) ((ts.map label).forM visit) w := by
  induction ts generalizing w g with
  | nil => exact .of_ok rfl
  | cons t ts ih =>
      have beside := Beside.of_stands h host stands
      have levels := Nat.max_le.1 short
      have own : ∀ x, Around p t.labels x → Around p (labelsAll (t :: ts)) x := fun x =>
        .imp_right (List.mem_append_left _)
      have host₁ : w.document.view p = some ((g.left (ts.map label)).fill [t.label]) := by
        rw [host, Gap.fill_left]
        rfl
      have bare₁ : ∀ x ∈ t.labels, w.hosts.slotOf x = [] := fun x mem =>
        bare x (List.mem_append_left _ mem)
      refine .bind ((sparing t levels.1 h host₁ stands.1 bare₁).mono own)
        (visits t levels.1 h host₁ stands.1 bare₁) ?_
      rintro _ sketch w₁ ⟨us, first, -⟩
      obtain ⟨others, bare₂⟩ := beside.later first stands bare
      refine ⟨first.kept.mono own, ?_⟩
      exact (ih levels.2 first.sound first.host_right others bare₂).mono fun x =>
        .imp_right (List.mem_append_right _)

theorem children (sparing : Sparing visit fuel) (visits : Visits s visit fuel)
    (short : heightAll ts ≤ fuel) (h : w.Sound) {data : NodeData} {q : Option NodeId}
    (node : w.document.view p = some { data, parent := q, children := ts.map label })
    (stands : w.document.view.StandAll (some p) ts)
    (bare : ∀ x ∈ labelsAll ts, w.hosts.slotOf x = []) :
    Spares (Around p (labelsAll ts)) ((ts.map label).forM visit) w :=
  sparing.all visits short h (g := .inside data q) (by rwa [Gap.fill_inside]) stands bare

end Sparing

theorem visit_spares (s : Settings) (fuel : Nat) : Sparing (visit s fuel) fuel := by
  induction fuel with
  | zero =>
      intro t short
      cases t
      simp [height] at short
  | succ fuel ih =>
      intro t short w p g h host stands bare
      obtain ⟨id, data, children⟩ := t
      have levels : heightAll children ≤ fuel := Nat.le_of_succ_le_succ short
      have asked : ask (·.data id) w = .ok data w := ask_ok (Document.data_eq_ok stands.1)
      rw [label, visit]
      refine .step asked (.of_same rfl) ?_
      cases data with
      | text value =>
          obtain rfl := childless h stands rfl
          exact (splitText_spares s h host stands.1).mono fun x =>
            .imp_right fun mem => (List.not_mem_nil mem).elim
      | element name attributes =>
          have own : ∀ x, x = id → Around p (id :: labelsAll children) x := fun x same =>
            .inr (same ▸ List.mem_cons_self ..)
          have visits := visit_follows s fuel
          unfold enter
          simp only [bind_assoc]
          refine .trace fun steps => ?_
          have sound := h.traced steps
          refine .bind ((bindAttributes_spares s sound stands.1).mono own)
            (bindAttributes_follows s sound stands.1) ?_
          rintro _ ⟨kept, slot⟩ w₁ ⟨dressed, node₁⟩
          have opened := opened_of_dressed (x := id) h host stands bare dressed.untraced node₁
          refine ⟨fun x out _ => dressed.frame x fun same => out (own x same), ?_⟩
          cases opened.handled s (visit s fuel) with
          | block marked run =>
              refine .via run (.of_same rfl) (extract_spares s opened marked
                (fun _ => Plan.solid_ofTrees (s := s) children) ?_)
              intro w₂ sound node₂ stands₂ bare₂
              exact ⟨visits.children levels sound node₂ stands₂ fun x _ => bare₂ x,
                ih.children visits levels sound node₂ stands₂ fun x _ => bare₂ x⟩
          | @merged m identity w₂ unmarked sole first after run =>
              have low := Nat.le_trans
                (heightAll_children_le (List.mem_of_find?_eq_some first)) levels
              refine .via run (fun x out live => ?_) (extract_spares s after (blockOf?_putField ..)
                (fun _ => Plan.solid_ofTrees (s := s) m.children) ?_)
              · rw [Around, labels_node, List.mem_cons, not_or, not_or] at out
                have same := dressed.frame x out.2.1
                rw [after.frame x out.2.1 out.2.2 (same ▸ live), same]
              · intro w₃ sound node₃ stands₃ bare₃
                exact ⟨visits.children low sound node₃ stands₃ fun x _ => bare₃ x,
                  ih.children visits low sound node₃ stands₃ fun x _ => bare₃ x⟩
          | plain unmarked sole run =>
              refine .via run (.of_same rfl)
                (content_spares s opened.sound opened.node opened.stands ?_)
              have inner := ih.children visits levels opened.sound opened.node opened.stands
                opened.bare_kids
              refine inner.mono ?_
              rintro x (same | mem)
              · exact own x same
              · exact .inr (List.mem_cons_of_mem _ mem)
      | comment value | fragment | doctype value => exact .of_ok rfl

/-! ## Templates -/

section Templates

variable {q : Option NodeId} {id : NodeId} {name : String} {attributes : List (String × Value)}
  {children : List (NodeTree NodeId)}

theorem root_spares (s : Settings) {fuel : Nat} (short : heightAll children ≤ fuel) (h : w.Sound)
    (bare : ∀ x, w.hosts.slotOf x = [])
    (stands : w.document.view.Stands q (.node id (.element name attributes) children)) :
    Spares (Around id (labelsAll children)) (root s fuel id) w := by
  have below : ∀ x ∈ labelsAll children, x ≠ id := fun x mem same =>
    h.document.forest.not_mem_labelsAll stands.2 (same ▸ mem)
  have asked : ask (·.data id) w = .ok (.element name attributes) w :=
    ask_ok (Document.data_eq_ok stands.1)
  unfold root
  refine .step asked (.of_same rfl) ?_
  simp only [enter, bind_assoc]
  refine .trace fun steps => ?_
  have sound := h.traced steps
  refine .bind ((bindAttributes_spares s sound stands.1).mono fun _ => .inl)
    (bindAttributes_follows s sound stands.1) ?_
  rintro _ ⟨kept, slot⟩ w₁ ⟨dressed, node₁⟩
  have stands₁ : w₁.document.view.StandAll (some id) children :=
    standAll_congr _ children (fun x mem => dressed.frame x (below x mem)) stands.2
  refine ⟨fun x out _ => dressed.frame x fun same => out (.inl same),
    content_spares s dressed.sound node₁ stands₁ ?_⟩
  exact (visit_spares s fuel).children (visit_follows s fuel) short dressed.sound node₁ stands₁
    fun x mem => (dressed.others x (below x mem)).trans (bare x)

/-- A refused tree leaves everything outside of it as it was. -/
theorem compileNode_spares (config : Config) (title : String) (h : w.document.Sound)
    (read : w.document.tree id = .ok (.node id (.element name attributes) children)) :
    Spares (Around id (labelsAll children)) (compileNode config title id) w := by
  obtain ⟨n, node, -, stands⟩ := Document.stands_of_treeWithin h.forest _ id _ read
  have short := levels_le h stands
  have count : ∀ steps, ask (fun d => .ok d.slots.size) { w with steps } =
      .ok w.document.slots.size { w with steps } := fun _ => ask_ok rfl
  unfold compileNode
  refine .trace fun steps => .step (count steps) (.of_same rfl) (.withHosts ?_)
  have start : Workbench.Sound { w with hosts := {}, steps } :=
    ⟨h, Hosts.aligned_empty, fun there => by cases there⟩
  have bare : ∀ x, Hosts.slotOf {} x = [] := fun _ => rfl
  exact (root_spares _ short start bare stands).andThen (root_follows _ short start bare stands)
    (template_follows _ short start bare stands)

end Templates

end Stencil.Compile
