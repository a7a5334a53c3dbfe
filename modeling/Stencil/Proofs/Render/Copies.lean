import Stencil.Proofs.Document.Copying
import Stencil.Proofs.Render.Tidiness

/-! # Copies of tidy templates

A tidy template that has been built is wired: its prototypes stand apart from its live tree,
with a slot for each host and a part for each template in it. A wired pattern can be copied in
any state, and a copy is a settled tree of its own.
-/

namespace Stencil

open Markup NodeTree Document Edit View

/-! ## Wired patterns -/

namespace Pattern

mutual

/-- The prototypes of a pattern, those of its parts included. -/
def prototypes : Pattern → List NodeId
  | ⟨_, prototype, parts⟩ => prototype :: prototypesAll parts

def prototypesAll : List Pattern → List NodeId
  | [] => []
  | p :: ps => prototypes p ++ prototypesAll ps

end

/-- A tree stands in a view without a parent, or in a fragment. -/
def Stored (u : View) (P : NodeTree NodeId) : Prop :=
  ∃ p, u.Stands p P ∧ ∀ f, p = some f → ∃ n, u f = some n ∧ n.data = .fragment

mutual

/-- The prototype of a pattern is stored and tidy, there are a slot for each host and a part for
each template, and the parts are wired as well. -/
def Wired (u : View) : Pattern → Prop
  | ⟨compiled, prototype, parts⟩ =>
      (∃ P, Stored u P ∧ P.label = prototype ∧ P.Tidy compiled.slots ∧
        (hostsOf P).length = compiled.slots.length) ∧
      (∀ r ∈ compiled.slots.flatten, r.Wirable) ∧
      compiled.slots.flatten.countP Reference.isTemplate ≤ parts.length ∧
      WiredAll u parts

def WiredAll (u : View) : List Pattern → Prop
  | [] => True
  | p :: ps => Wired u p ∧ WiredAll u ps

end

variable {u v w : View}

theorem Stored.mono {P : NodeTree NodeId} (keeps : ∀ {x n}, u x = some n → w x = some n)
    (h : Stored u P) : Stored w P := by
  obtain ⟨p, stands, fragment⟩ := h
  refine ⟨p, stands.mono fun _ _ => keeps, fun f same => ?_⟩
  obtain ⟨n, node, data⟩ := fragment f same
  exact ⟨n, keeps node, data⟩

mutual

theorem Wired.mono (keeps : ∀ {x n}, u x = some n → w x = some n) :
    (p : Pattern) → p.Wired u → p.Wired w
  | ⟨_, _, parts⟩, ⟨⟨P, stored, facts⟩, wirable, enough, all⟩ =>
      ⟨⟨P, stored.mono keeps, facts⟩, wirable, enough, WiredAll.mono keeps parts all⟩

theorem WiredAll.mono (keeps : ∀ {x n}, u x = some n → w x = some n) :
    (ps : List Pattern) → WiredAll u ps → WiredAll w ps
  | [], _ => trivial
  | p :: ps, h => ⟨Wired.mono keeps p h.1, WiredAll.mono keeps ps h.2⟩

end

mutual

/-- The prototypes of a wired pattern stand. -/
theorem Wired.stand : (p : Pattern) → p.Wired u → ∀ x ∈ p.prototypes,
    ∃ q P, u.Stands q P ∧ P.label = x
  | ⟨_, _, parts⟩, ⟨⟨P, ⟨q, stands, _⟩, label, _⟩, _, _, all⟩ =>
      List.forall_mem_cons.2 ⟨⟨q, P, stands, label⟩, WiredAll.stand parts all⟩

theorem WiredAll.stand : (ps : List Pattern) → WiredAll u ps → ∀ x ∈ prototypesAll ps,
    ∃ q P, u.Stands q P ∧ P.label = x
  | [], _ => List.forall_mem_nil _
  | p :: ps, h => List.forall_mem_append.2 ⟨Wired.stand p h.1, WiredAll.stand ps h.2⟩

end

theorem wiredAll_append {ps qs : List Pattern} (h : WiredAll u ps) (k : WiredAll u qs) :
    WiredAll u (ps ++ qs) := by
  induction ps with
  | nil => exact k
  | cons p ps ih => exact ⟨h.1, ih h.2⟩

/-- A stored tree lies outside of the tree of an element that is not in it. -/
theorem Stored.avoid {tops : List NodeId} {P : NodeTree NodeId} {r : NodeId} {n : Node}
    (node : v r = some n) (solid : n.data ≠ .fragment) (f : Forest v)
    (apart : ¬Above v P.label r) (h : Stored (outside tops v) P) :
    Stored (outside (r :: tops) v) P := by
  obtain ⟨p, stands, fragment⟩ := h
  have whole : v.Stands p P := stands.mono fun _ _ there => (outside_eq_some.1 there).1
  have inFragment : ∀ f, p = some f → f ≠ r ∧ ¬Above v r f := by
    intro x same
    obtain ⟨m, there, data⟩ := fragment x same
    have there' := (outside_eq_some.1 there).1
    have other : x ≠ r := by
      rintro rfl
      rw [node] at there'
      cases there'
      exact solid data
    exact ⟨other, fun above => other (above.eq_of_top there' (f.fragment_parent there' data)).symm⟩
  have out : ∀ x, Above v P.label x → ¬Above v r x := by
    intro x own above
    rcases own.total above with lower | higher
    · exact apart lower
    · cases parent : p with
      | none =>
          rw [higher.eq_of_top whole.top parent] at apart
          exact apart .self
      | some x =>
          by_cases same : r = P.label
          · exact apart (same ▸ .self)
          · exact (inFragment x parent).2 (higher.of_parent whole.top parent same)
  have keeps : ∀ {x m}, ¬Above v r x → outside tops v x = some m → outside (r :: tops) v x = some m := by
    intro x m apart there
    rw [outside_eq_some] at there ⊢
    refine ⟨there.1, ?_⟩
    rintro ⟨a, mem, above⟩
    rcases List.mem_cons.1 mem with rfl | mem
    · exact apart above
    · exact there.2 ⟨a, mem, above⟩
  refine ⟨p, stands.congr fun x mem => ?_, fun f same => ?_⟩
  · obtain ⟨m, there⟩ := Option.ne_none_iff_exists'.1 (stands.live mem)
    rw [there, keeps (out x (whole.above mem)) there]
  · obtain ⟨m, there, data⟩ := fragment f same
    exact ⟨m, keeps (inFragment f same).2 there, data⟩

mutual

theorem Wired.avoid {tops : List NodeId} {r : NodeId} {n : Node} (node : v r = some n)
    (solid : n.data ≠ .fragment) (f : Forest v) :
    (p : Pattern) → (∀ x ∈ p.prototypes, ¬Above v x r) → p.Wired (outside tops v) →
      p.Wired (outside (r :: tops) v)
  | ⟨_, _, parts⟩, apart, ⟨⟨P, stored, label, facts⟩, wirable, enough, all⟩ =>
      ⟨⟨P, stored.avoid node solid f (label ▸ apart _ (List.mem_cons_self ..)), label, facts⟩, wirable,
        enough, WiredAll.avoid node solid f parts (fun x mem => apart x (List.mem_cons_of_mem _ mem)) all⟩

theorem WiredAll.avoid {tops : List NodeId} {r : NodeId} {n : Node} (node : v r = some n)
    (solid : n.data ≠ .fragment) (f : Forest v) :
    (ps : List Pattern) → (∀ x ∈ prototypesAll ps, ¬Above v x r) → WiredAll (outside tops v) ps →
      WiredAll (outside (r :: tops) v) ps
  | [], _, _ => trivial
  | p :: ps, apart, h =>
      ⟨Wired.avoid node solid f p (fun x mem => apart x (List.mem_append_left _ mem)) h.1,
        WiredAll.avoid node solid f ps (fun x mem => apart x (List.mem_append_right _ mem)) h.2⟩

end

end Pattern

/-! ## Copying -/

theorem Document.Steady.ready {d : Document} (h : d.Steady) : d.Ready :=
  ⟨h.sound.accounted, h.lenient⟩

theorem Document.Sound.planted {ι : Type} {d d' : Document} {t : NodeTree ι} {s : NodeTree NodeId}
    (h : d.Sound) (planted : Planted d d' none t s) (fits : t.Fits) : d'.Sound := by
  refine ⟨planted.trades.accounted, h.forest.plant planted.stands planted.nodup ?_ ?_ ?_⟩
  · rw [← fits_shape, planted.shape, fits_shape]
    exact fits
  · exact fun x mem => planted.trades.fresh x mem (by simp)
  · exact fun x out => planted.trades.frame x (by simp) out

theorem Document.Steady.planted {ι : Type} {d d' : Document} {t : NodeTree ι} {s : NodeTree NodeId}
    (h : d.Steady) (planted : Planted d d' none t s) (fits : t.Fits) : d'.Steady :=
  ⟨h.sound.planted planted fits, planted.trades.strict.trans h.lenient⟩

/-- A new tree stands beside, and more of its attributes have been changed. -/
theorem Instance.Settled.grown {i : Instance} {d d' : Document} {hosts : List NodeId}
    (h : i.Settled d.view) (steady : d.Steady) (grown : Grown hosts d d') : i.Settled d'.view := by
  obtain ⟨n, node⟩ := h.root
  obtain ⟨m, node', -⟩ := grown.links node
  refine h.congr ⟨m, node'⟩ (fun x k _ there => ?_) fun {a x} host => ?_
  · obtain ⟨l, there', element, -⟩ := grown.links there
    exact ⟨l, there', element⟩
  · obtain ⟨k, there, -⟩ := h.element x host
    exact grown.above_iff steady there

/-- A settled live tree has been built beside what was there. -/
structure Instance.New (i : Instance) (d d' : Document) : Prop where
  grown : Grown [] d d'
  settled : i.Settled d'.view
  fresh : d.view i.root = none
  root : ∃ n, d'.view i.root = some n ∧ n.parent = none

theorem Instance.New.kept {i : Instance} {d d' : Document} (h : i.New d d') (x : NodeId) (n : Node)
    (node : d.view x = some n) : d'.view x = some n := h.grown.others List.not_mem_nil node

namespace Environment

variable {env : Environment} {d d' : Document} {host : NodeId}

theorem dropMarker_dressed (env : Environment) {n : Node} (h : d.Steady)
    (node : d.view host = some n) (element : n.data.isElement = true) :
    ∃ d', env.dropMarker host d = .ok () d' ∧ Dressed [host] d d' := by
  unfold dropMarker
  cases env.keepMarkers with
  | true => exact ⟨d, rfl, .refl h _⟩
  | false =>
      obtain ⟨d', run, dressed⟩ := removeAttribute_dressed h node element Marker.host
      exact ⟨d', Build.edit_ok run, dressed⟩

/-- With a pattern for each template nothing has to be built. -/
theorem wireSlot_inherited (standard : env.handlers = .standard) (host : NodeId) (d : Document)
    {slot : List (Reference CompiledTemplate)} (wirable : ∀ r ∈ slot, r.Wirable)
    {inherited : List Pattern} (enough : slot.countP Reference.isTemplate ≤ inherited.length) :
    ∃ v, env.wireSlot inherited host slot d = .ok v d := by
  induction slot generalizing inherited with
  | nil =>
      rw [wireSlot]
      exact ⟨_, rfl⟩
  | cons r rs ih =>
      have first : ∃ v, env.wireReference inherited host r d = .ok v d := by
        have own := wirable r (List.mem_cons_self ..)
        cases r with
        | binding b =>
            obtain ⟨handler, found⟩ := own
            have bound : env.bind host b d = .ok { binding := b, target := b.target host, handler } d := by
              rw [Environment.bind, standard, found]
              rfl
            rw [wireReference, bind_ok bound]
            exact ⟨_, rfl⟩
        | template t =>
            obtain ⟨i, read⟩ := own
            cases inherited with
            | nil => simp [Reference.isTemplate] at enough
            | cons part others =>
                rw [wireReference_cons, bind_ok (region_ok read host)]
                exact ⟨_, rfl⟩
      obtain ⟨v, run⟩ := first
      have parts := (serves_wireReference standard run).parts
      have left : rs.countP Reference.isTemplate ≤ (inherited.drop v.parts.length).length := by
        rw [List.length_drop, parts]
        rw [List.countP_cons] at enough
        simp only [List.countP_cons, List.countP_nil]
        omega
      obtain ⟨w, others⟩ := ih (fun q mem => wirable q (List.mem_cons_of_mem r mem)) left
      rw [wireSlot, bind_ok run, bind_ok others]
      exact ⟨_, rfl⟩

theorem wireSlots_inherited (standard : env.handlers = .standard)
    {slots : List (List (Reference CompiledTemplate))} (wirable : ∀ r ∈ slots.flatten, r.Wirable)
    {inherited : List Pattern}
    (enough : slots.flatten.countP Reference.isTemplate ≤ inherited.length) {hosts : List NodeId}
    (same : hosts.length = slots.length) (size wired : Nat) (steady : d.Steady)
    (elements : ∀ x ∈ hosts, ∃ n, d.view x = some n ∧ n.data.isElement = true) :
    ∃ v d', env.wireSlots inherited size wired hosts slots d = .ok v d' ∧ Dressed hosts d d' := by
  induction slots generalizing hosts inherited wired d with
  | nil =>
      cases List.length_eq_zero_iff.1 same
      rw [wireSlots]
      exact ⟨_, d, rfl, .refl steady _⟩
  | cons slot slots ih =>
      cases hosts with
      | nil => cases same
      | cons host hosts =>
          rw [List.flatten_cons, List.countP_append] at enough
          rw [List.flatten_cons, List.forall_mem_append] at wirable
          have room : slot.countP Reference.isTemplate ≤ inherited.length := by omega
          obtain ⟨v, first⟩ := wireSlot_inherited standard host d wirable.1 room
          have parts := (serves_wireSlot standard first).parts
          obtain ⟨n, node, element⟩ := elements host (by simp)
          obtain ⟨d₁, dropped, dressed⟩ := dropMarker_dressed env steady node element
          have left : slots.flatten.countP Reference.isTemplate ≤
              (inherited.drop v.parts.length).length := by
            have own : (sitesAt host slot).countP (·.2.isTemplate) = slot.countP Reference.isTemplate := by
              rw [sitesAt, List.countP_map]
              rfl
            rw [List.length_drop, parts, own]
            omega
          obtain ⟨w, d', others, more⟩ := ih wirable.2 left (by simpa using same) (wired + 1)
            dressed.steady fun x mem => by
              obtain ⟨m, there, isElement⟩ := elements x (by simp [mem])
              obtain ⟨k, there', element', -⟩ := dressed.links there
              exact ⟨k, there', element'.trans isElement⟩
          rw [wireSlots, bind_ok first, bind_ok dropped, bind_ok others]
          exact ⟨_, d', rfl, (dressed.mono (by simp)).trans (more.mono (by simp))⟩

/-- A wired pattern can be copied: the copy is a new settled tree, and there is nothing else new. -/
theorem instantiate_new (standard : env.handlers = .standard) {p : Pattern} {u : View}
    (wired : p.Wired u) (keeps : ∀ {x n}, u x = some n → d.view x = some n) (steady : d.Steady) :
    ∃ i d', env.instantiate p d = .ok i d' ∧ i.New d d' ∧ Confined [i.root] d.view d'.view := by
  obtain ⟨⟨slots, skeleton, expression⟩, prototype, inherited⟩ := p
  obtain ⟨⟨P, ⟨p, stored, -⟩, rfl, tidy, length⟩, wirable, enough, -⟩ := wired
  have stands : d.view.Stands p P := stored.mono fun _ _ => keeps
  obtain ⟨C, d₁, copied, planted⟩ :=
    copyTree_ok steady.sound.accounted stands (steady.forest.nodup_labels P p stands)
  have steady₁ := steady.planted planted (steady.forest.fits_of_stands P p stands)
  have tidyC : C.Tidy slots := tidy_shape.1 (planted.shape ▸ tidy_shape.2 tidy)
  have count : (hostsOf C).length = slots.length := (length_hostsOf planted.shape).trans length
  obtain ⟨v, d', wires, dressed⟩ := wireSlots_inherited (d := d₁) standard wirable enough count
    slots.length 0 steady₁ fun x mem => (planted.stands.host mem).2
  have settled := settled_of_serves steady₁.forest planted.stands tidyC
    (serves_wireSlots standard wires).2
  have run : env.instantiate ⟨⟨slots, skeleton, expression⟩, P.label, inherited⟩ d =
      .ok (v.toInstance C.label) d' := by
    rw [env.instantiate_eq steady.sound, duplicate, bind_ok (Build.edit_ok copied),
      bind_ok ((env.wireHosts_stands inherited ⟨slots, skeleton, expression⟩ planted.stands
        planted.nodup).trans wires)]
    rfl
  obtain ⟨m, there, -, parent, -⟩ := dressed.links planted.stands.top
  refine ⟨v.toInstance C.label, d', run, ⟨?_, settled.grown steady₁ dressed.toGrown,
    planted.trades.fresh _ (label_mem_labels C) (by simp), m, there, parent⟩, ?_⟩
  · exact (Grown.of_planted planted steady₁).trans_new dressed.toGrown fun x mem =>
      planted.trades.fresh x (hostsOf_subset C mem) (by simp)
  · refine (confined_planted steady planted).trans
      (dressed.confined.lift (fun x mem => ?_) fun x mem => ?_)
    · exact inside_singleton.2 (planted.stands.host mem).1
    · obtain ⟨above, n, node, -⟩ := planted.stands.host mem
      exact inside_singleton.2 ((dressed.above_iff steady₁ node).2 above)

/-- It is all the same whether the root of a standing prototype is copied alone first. -/
theorem instantiateByParts_of_stands (env : Environment) {p : Pattern} {q : Option NodeId}
    {P : NodeTree NodeId} (stands : d.view.Stands q P) (label : P.label = p.prototype)
    (sound : d.Sound) : env.instantiateByParts p d = env.instantiate p d := by
  have same : Build.edit (copyByParts p.prototype) d = Build.edit (copyTree p.prototype) d := by
    rw [Build.edit, Build.edit, ← label, copyByParts_eq sound stands]
  exact bind_congr_run same _

theorem instantiateByParts_eq (env : Environment) {p : Pattern} {u : View} (wired : p.Wired u)
    (keeps : ∀ {x n}, u x = some n → d.view x = some n) (sound : d.Sound) :
    env.instantiateByParts p d = env.instantiate p d := by
  obtain ⟨compiled, prototype, inherited⟩ := p
  obtain ⟨⟨P, ⟨q, stored, -⟩, label, -⟩, -⟩ := wired
  exact env.instantiateByParts_of_stands (stored.mono fun _ _ => keeps) label sound

end Environment

end Stencil
