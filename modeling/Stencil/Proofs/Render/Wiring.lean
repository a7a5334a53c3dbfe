import Stencil.Proofs.Render.Searching
import Stencil.Proofs.Render.Writing

/-! # Wiring

The references of a template at the hosts of a copy are its sites. Wiring makes a binding or
a region of each site, and patterns for what is repeated, whose prototypes lie apart from the
copy.
-/

namespace Stencil

open Markup NodeTree Document Edit

/-! ## Sites -/

theorem filterMap_map_sublist {α β γ : Type} {f : α → Option β} {g : β → γ} {k : α → γ}
    (same : ∀ {a b}, f a = some b → g b = k a) (as : List α) :
    ((as.filterMap f).map g).Sublist (as.map k) := by
  induction as with
  | nil => exact .slnil
  | cons a as ih =>
      cases found : f a with
      | none =>
          rw [List.filterMap_cons_none found]
          exact ih.trans (List.sublist_cons_self ..)
      | some b =>
          rw [List.filterMap_cons_some found, List.map_cons, List.map_cons, same found]
          exact ih.cons_cons _

theorem Reference.isContent_eq (r : Reference CompiledTemplate) :
    r.isContent = r.attr?.isNone := by
  cases r <;> rfl

/-- A reference at its host. -/
abbrev Site : Type := NodeId × Reference CompiledTemplate

namespace Site

def target : Site → Target
  | (host, .binding b) => b.target host
  | (host, .template _) => .content host

/-- The binding of a site, with the standard handler for its kind. -/
def bound? : Site → Option BoundBinding
  | (host, .binding b) => some { binding := b, target := b.target host, handler := b.kind.handler }
  | (_, .template _) => none

/-- The region of a site, and what is repeated in it. -/
def plot? : Site → Option (Region × CompiledTemplate)
  | (_, .binding _) => none
  | (host, .template t) =>
      (Iteration.parse? (t.expression.getD "")).map fun iteration =>
        ({ container := host, iteration }, t)

theorem bound?_eq_some {site : Site} {b : BoundBinding} (h : site.bound? = some b) :
    site.2 = .binding b.binding ∧ b.target = b.binding.target site.1 ∧
      b.handler = b.binding.kind.handler := by
  obtain ⟨host, r⟩ := site
  cases r with
  | template t => cases h
  | binding c =>
      cases h
      exact ⟨rfl, rfl, rfl⟩

theorem plot?_eq_some {site : Site} {plot : Region × CompiledTemplate}
    (h : site.plot? = some plot) :
    site.2 = .template plot.2 ∧ plot.1.container = site.1 ∧
      Iteration.parse? (plot.2.expression.getD "") = some plot.1.iteration := by
  obtain ⟨host, r⟩ := site
  cases r with
  | binding c => cases h
  | template t =>
      obtain ⟨i, read, rfl⟩ := Option.map_eq_some_iff.1 h
      exact ⟨rfl, rfl, read⟩

theorem target_eq (host : NodeId) (r : Reference CompiledTemplate) :
    target (host, r) = (r.attr?.map (Target.attr host)).getD (.content host) := by
  cases r with
  | template t => rfl
  | binding b =>
      obtain ⟨kind, key, attr, block⟩ := b
      cases attr <;> rfl

theorem target_node (host : NodeId) (r : Reference CompiledTemplate) :
    (target (host, r)).node = host := by
  rw [target_eq]
  cases r.attr? <;> rfl

end Site

/-- The sites of a host with its slot. -/
def sitesAt (host : NodeId) (slot : List (Reference CompiledTemplate)) : List Site :=
  slot.map fun r => (host, r)

/-- The sites of hosts with their slots. -/
def sitesOf (hosts : List NodeId) (slots : List (List (Reference CompiledTemplate))) : List Site :=
  (hosts.zip slots).flatMap fun pair => sitesAt pair.1 pair.2

theorem sitesOf_cons (host : NodeId) (hosts : List NodeId)
    (slot : List (Reference CompiledTemplate)) (slots : List (List (Reference CompiledTemplate))) :
    sitesOf (host :: hosts) (slot :: slots) = sitesAt host slot ++ sitesOf hosts slots := rfl

theorem node_of_mem_sitesOf {hosts : List NodeId} {slots : List (List (Reference CompiledTemplate))}
    {site : Site} (mem : site ∈ sitesOf hosts slots) : site.target.node ∈ hosts := by
  obtain ⟨pair, zipped, listed⟩ := List.mem_flatMap.1 mem
  obtain ⟨r, -, rfl⟩ := List.mem_map.1 listed
  rw [Site.target_node]
  exact (List.of_mem_zip zipped).1

/-- A site is in a slot that fits its host. -/
theorem fits_of_mem_sitesOf {hosts : List (NodeTree NodeId)}
    {slots : List (List (Reference CompiledTemplate))} (fits : List.Forall₂ SlotFits hosts slots)
    {site : Site} (mem : site ∈ sitesOf (hosts.map label) slots) :
    ∃ H ∈ hosts, ∃ slot ∈ slots, SlotFits H slot ∧ site.2 ∈ slot ∧ site.1 = H.label := by
  induction fits with
  | nil => cases mem
  | @cons H slot hosts slots fit _ ih =>
      rw [List.map_cons, sitesOf_cons] at mem
      rcases List.mem_append.1 mem with first | others
      · obtain ⟨r, listed, rfl⟩ := List.mem_map.1 first
        exact ⟨H, by simp, slot, by simp, fit, listed, rfl⟩
      · obtain ⟨K, listed, slot', within, facts⟩ := ih others
        exact ⟨K, by simp [listed], slot', by simp [within], facts⟩

theorem CompiledTemplate.shaped_of_mem {slots : List (List (Reference CompiledTemplate))}
    (shaped : ShapedSlots slots) {slot : List (Reference CompiledTemplate)} (mem : slot ∈ slots)
    {r : Reference CompiledTemplate} (listed : r ∈ slot) : ShapedReference r := by
  have inside : ∀ slot, ShapedSlot slot → r ∈ slot → ShapedReference r := by
    intro slot shaped listed
    induction slot with
    | nil => cases listed
    | cons q qs ih =>
        rcases List.mem_cons.1 listed with rfl | others
        · exact shaped.1
        · exact ih shaped.2 others
  induction slots with
  | nil => cases mem
  | cons own slots ih =>
      rcases List.mem_cons.1 mem with rfl | others
      · exact inside slot shaped.1 listed
      · exact ih shaped.2 others

/-- The references of a slot write to different targets. -/
theorem nodup_sitesAt (host : NodeId) {slot : List (Reference CompiledTemplate)}
    (single : (slot.filter Reference.isContent).length ≤ 1)
    (distinct : (slot.filterMap Reference.attr?).Nodup) :
    ((sitesAt host slot).map Site.target).Nodup := by
  induction slot with
  | nil => exact List.nodup_nil
  | cons r rs ih =>
      have sites : (sitesAt host (r :: rs)).map Site.target =
          Site.target (host, r) :: (sitesAt host rs).map Site.target := rfl
      have listed : ∀ T, T ∈ (sitesAt host rs).map Site.target → ∃ q ∈ rs, Site.target (host, q) = T := by
        intro T mem
        obtain ⟨site, inside, rfl⟩ := List.mem_map.1 mem
        obtain ⟨q, own, rfl⟩ := List.mem_map.1 inside
        exact ⟨q, own, rfl⟩
      rw [sites, List.nodup_cons, Site.target_eq]
      cases attr : r.attr? with
      | some name =>
          rw [List.filterMap_cons_some attr] at distinct
          rw [List.filter_cons_of_neg (by simp [Reference.isContent_eq, attr])] at single
          obtain ⟨out, rest⟩ := List.nodup_cons.1 distinct
          refine ⟨fun mem => out ?_, ih single rest⟩
          obtain ⟨q, own, same⟩ := listed _ mem
          rw [Site.target_eq] at same
          cases other : q.attr? with
          | none =>
              rw [other] at same
              cases same
          | some n =>
              rw [other] at same
              cases same
              exact List.mem_filterMap.2 ⟨q, own, other⟩
      | none =>
          rw [List.filterMap_cons_none attr] at distinct
          rw [List.filter_cons_of_pos (by simp [Reference.isContent_eq, attr]),
            List.length_cons] at single
          have none_left : rs.filter Reference.isContent = [] := List.length_eq_zero_iff.1 (by omega)
          refine ⟨fun mem => ?_, ih (by omega) distinct⟩
          obtain ⟨q, own, same⟩ := listed _ mem
          rw [Site.target_eq] at same
          cases other : q.attr? with
          | some n =>
              rw [other] at same
              cases same
          | none =>
              have content : q ∈ rs.filter Reference.isContent :=
                List.mem_filter.2 ⟨own, by simp [Reference.isContent_eq, other]⟩
              rw [none_left] at content
              cases content

theorem nodup_sitesOf {hosts : List (NodeTree NodeId)}
    {slots : List (List (Reference CompiledTemplate))} (fits : List.Forall₂ SlotFits hosts slots)
    (distinct : (hosts.map label).Nodup) :
    ((sitesOf (hosts.map label) slots).map Site.target).Nodup := by
  induction fits with
  | nil => exact List.nodup_nil
  | @cons H slot hosts slots fit _ ih =>
      obtain ⟨out, rest⟩ := List.nodup_cons.1 distinct
      rw [List.map_cons, sitesOf_cons, List.map_append]
      refine List.nodup_append.2 ⟨nodup_sitesAt H.label fit.single fit.distinct, ih rest, ?_⟩
      rintro T first _ second rfl
      obtain ⟨site, listed, rfl⟩ := List.mem_map.1 first
      obtain ⟨r, -, rfl⟩ := List.mem_map.1 listed
      obtain ⟨other, inside, same⟩ := List.mem_map.1 second
      have node := node_of_mem_sitesOf inside
      rw [same, Site.target_node] at node
      exact out node

namespace CompiledTemplate

theorem parts_cons (slot : List (Reference CompiledTemplate))
    (slots : List (List (Reference CompiledTemplate))) (skeleton : Skeleton)
    (expression : Option String) :
    parts ⟨slot :: slots, skeleton, expression⟩ =
      parts ⟨[slot], skeleton, expression⟩ ++ parts ⟨slots, skeleton, expression⟩ := by
  simp [parts]

theorem plots_sitesAt (skeleton : Skeleton) (expression : Option String) (host : NodeId) :
    (slot : List (Reference CompiledTemplate)) → ShapedSlot slot →
    ((sitesAt host slot).filterMap Site.plot?).map Prod.snd = parts ⟨[slot], skeleton, expression⟩
  | [], _ => rfl
  | .binding b :: rs, shaped => plots_sitesAt skeleton expression host rs shaped.2
  | .template t :: rs, shaped => by
      have others := plots_sitesAt skeleton expression host rs shaped.2
      obtain ⟨i, read⟩ := ShapedReference.iteration shaped.1
      have first : Site.plot? (host, .template t) =
          some ({ container := host, iteration := i }, t) := by
        simp [Site.plot?, read]
      rw [sitesAt, List.map_cons, List.filterMap_cons_some first, List.map_cons]
      exact congrArg (t :: ·) others

/-- What is repeated at the sites of hosts are the parts of the template. -/
theorem plots_sitesOf (skeleton : Skeleton) (expression : Option String) :
    (slots : List (List (Reference CompiledTemplate))) → ShapedSlots slots →
    (hosts : List NodeId) → hosts.length = slots.length →
    ((sitesOf hosts slots).filterMap Site.plot?).map Prod.snd = parts ⟨slots, skeleton, expression⟩
  | [], _, [], _ => rfl
  | slot :: slots, shaped, host :: hosts, same => by
      have others := plots_sitesOf skeleton expression slots shaped.2 hosts (by simpa using same)
      rw [sitesOf_cons, List.filterMap_append, List.map_append, others, parts_cons,
        plots_sitesAt skeleton expression host slot shaped.1]

end CompiledTemplate

/-! ## Patterns -/

namespace Pattern

mutual

/-- The prototypes of a pattern and of its parts stand in a view, and are what the compiled
template says. -/
def Sound (u : View) : Pattern → Prop
  | ⟨compiled, prototype, parts⟩ =>
      (∃ p P, u.Stands p P ∧ P.labels.Nodup ∧ P.label = prototype ∧
        CompiledTemplate.treeOf? compiled.markup = some P.shape) ∧
      compiled.Shaped ∧
      parts.map (·.compiled) = compiled.parts ∧
      SoundAll u parts

def SoundAll (u : View) : List Pattern → Prop
  | [] => True
  | p :: ps => Sound u p ∧ SoundAll u ps

end

mutual

theorem Sound.mono {u w : View} (keeps : ∀ {x n}, u x = some n → w x = some n) :
    (p : Pattern) → p.Sound u → p.Sound w
  | ⟨_, _, parts⟩, ⟨⟨p, P, stands, facts⟩, shaped, same, all⟩ =>
      ⟨⟨p, P, stands.mono fun _ _ => keeps, facts⟩, shaped, same, SoundAll.mono keeps parts all⟩

theorem SoundAll.mono {u w : View} (keeps : ∀ {x n}, u x = some n → w x = some n) :
    (ps : List Pattern) → SoundAll u ps → SoundAll w ps
  | [], _ => trivial
  | p :: ps, h => ⟨Sound.mono keeps p h.1, SoundAll.mono keeps ps h.2⟩

end

theorem soundAll_append {u : View} {ps qs : List Pattern} (h : SoundAll u ps)
    (k : SoundAll u qs) : SoundAll u (ps ++ qs) := by
  induction ps with
  | nil => exact k
  | cons p ps ih => exact ⟨h.1, ih h.2⟩

end Pattern

/-! ## What wiring does -/

/-- A view with the nodes of another one beside. -/
def View.join (v u : View) : View := fun x => (v x).or (u x)

namespace View

variable {v u w : View} {x : NodeId} {n : Node}

theorem join_left (h : v x = some n) : v.join u x = some n := by
  simp [join, h]

theorem join_right (h : v x = none) : v.join u x = u x := by
  simp [join, h]

theorem join_eq_none : v.join u x = none ↔ v x = none ∧ u x = none :=
  Option.or_eq_none_iff

theorem join_assoc (v u w : View) : (v.join u).join w = v.join (u.join w) := by
  funext x
  exact Option.or_assoc

theorem join_none (v : View) : v.join (fun _ => none) = v := by
  funext x
  exact Option.or_none

end View

theorem Worn.enlarge {d : Document} {w u : View} {D : Dress} {C : NodeTree NodeId}
    {rest : List (NodeTree NodeId)} (h : Worn d w D C rest)
    (there : ∀ {x n}, u x = some n → d.view x = some n)
    (own : ∀ x ∈ C.labels, u x = none)
    (alien : ∀ x ∈ D.foreign C ++ labelsAll rest, u x = none) : Worn d (w.join u) D C rest :=
  { h with
    frame := fun {x n} joined => by
      cases old : w x with
      | some m =>
          rw [View.join_left old] at joined
          cases joined
          exact h.frame old
      | none =>
          rw [View.join_right old] at joined
          exact there joined
    own := fun x mem => by rw [View.join_right (h.own x mem), own x mem]
    alien := fun x mem =>
      ⟨(h.alien x mem).1, by rw [View.join_right (h.alien x mem).2, alien x mem]⟩ }

/-- Sites of a tree have been wired. The new prototypes lie apart from the frame and the tree;
patterns that are inherited are used before any is made. -/
structure Wires (w : View) (C : NodeTree NodeId) (u : View) (inherited : List Pattern)
    (sites : List Site) (v : Wiring) : Prop where
  apart : ∀ {x n}, u x = some n → w x = none ∧ x ∉ C.labels
  bindings : v.bindings = sites.filterMap Site.bound?
  regions : v.regions = (sites.filterMap Site.plot?).map Prod.fst
  parts : inherited = [] →
    v.parts.map (·.compiled) = (sites.filterMap Site.plot?).map Prod.snd ∧
      Pattern.SoundAll u v.parts

namespace Wires

variable {w u u' : View} {C : NodeTree NodeId} {inherited : List Pattern} {s t : List Site}
  {v v' : Wiring}

theorem nothing : Wires w C (fun _ => none) inherited [] {} :=
  ⟨by simp, rfl, rfl, fun _ => ⟨rfl, trivial⟩⟩

theorem append (h : Wires w C u inherited s v)
    (k : Wires (w.join u) C u' (inherited.drop v.parts.length) t v') :
    Wires w C (u.join u') inherited (s ++ t) (v ++ v') where
  apart {x n} joined := by
    cases old : u x with
    | some m => exact h.apart old
    | none =>
        rw [View.join_right old] at joined
        obtain ⟨out, alien⟩ := k.apart joined
        exact ⟨(View.join_eq_none.1 out).1, alien⟩
  bindings := by
    rw [List.filterMap_append, ← h.bindings, ← k.bindings]
    rfl
  regions := by
    rw [List.filterMap_append, List.map_append, ← h.regions, ← k.regions]
    rfl
  parts fresh := by
    obtain ⟨first, sound⟩ := h.parts fresh
    obtain ⟨second, more⟩ := k.parts (by rw [fresh, List.drop_nil])
    refine ⟨?_, Pattern.soundAll_append ?_ ?_⟩
    · rw [List.filterMap_append, List.map_append, ← first, ← second, ← List.map_append]
      rfl
    · exact Pattern.SoundAll.mono View.join_left _ sound
    · refine Pattern.SoundAll.mono (fun {x n} there => ?_) _ more
      rw [View.join_right (View.join_eq_none.1 (k.apart there).1).2, there]

end Wires

/-- A copy of a template as it is before anything is rendered into it: its markers are gone
unless they are kept. -/
structure Instance.Mounted (i : Instance) (keep : Bool) (t : CompiledTemplate) (D : Dress)
    (C : NodeTree NodeId) : Prop where
  root : i.root = C.label
  tree : CompiledTemplate.treeOf? t.markup = some C.shape
  bindings : i.bindings = .ofList ((sitesOf ((hostTrees C).map label) t.slots).filterMap Site.bound?)
  regions : i.regions =
    ((sitesOf ((hostTrees C).map label) t.slots).filterMap Site.plot?).map Prod.fst
  received : ∀ T, D.received T = {}
  unmarked : ∀ x, D.unmarked x = (!keep && decide (x ∈ (hostTrees C).map label))

/-- A compiled template has been built: its pattern is sound among new nodes, and its first
copy stands beside all that was there. -/
structure Materialized (keep : Bool) (t : CompiledTemplate) (d d' : Document) (p : Pattern)
    (i : Instance) (u : View) (D : Dress) (C : NodeTree NodeId) : Prop where
  fresh : ∀ {x n}, u x = some n → d.view x = none
  compiled : p.compiled = t
  sound : p.Sound u
  worn : Worn d' (d.view.join u) D C []
  mounted : i.Mounted keep t D C

end Stencil
