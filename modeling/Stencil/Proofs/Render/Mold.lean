import Stencil.Proofs.Render.Script
import Stencil.Proofs.Render.Tidiness

/-! # Molds

A mold is what a pattern amounts to for rendering: the tree that is copied, with its nodes
numbered in document order, and its slots. The bindings and regions of a copy, at these numbers,
are known from them, and so is the script of each rendering.
-/

namespace Stencil

open Markup NodeTree

/-! ## Hosts of relabelled trees -/

mutual

theorem hostsAt_map {ι κ : Type} (f : ι → κ) : (t : NodeTree ι) →
    hostsAt (t.map f) = (hostsAt t).map f
  | .node id data children => by
      have below := hostsAmong_mapAll f children
      cases data with
      | element name attributes =>
          simp only [NodeTree.map, hostsAt, below, List.map_append]
          cases hasMarker Marker.host attributes <;> cases hasMarker Marker.block attributes <;> rfl
      | text | comment | fragment | doctype => rfl

theorem hostsAmong_mapAll {ι κ : Type} (f : ι → κ) : (ts : List (NodeTree ι)) →
    hostsAmong (mapAll f ts) = (hostsAmong ts).map f
  | [] => rfl
  | t :: ts => by
      rw [mapAll, hostsAmong, hostsAmong, List.map_append, hostsAt_map f t, hostsAmong_mapAll f ts]

end

theorem hostsOf_map {ι κ : Type} (f : ι → κ) (t : NodeTree ι) :
    hostsOf (t.map f) = (hostsOf t).map f := by
  obtain ⟨id, data, children⟩ := t
  have below := hostsAmong_mapAll f children
  cases data with
  | element name attributes =>
      simp only [NodeTree.map, hostsOf, below, List.map_append]
      cases hasMarker Marker.host attributes <;> rfl
  | text | comment | fragment | doctype => rfl

theorem sitesOf_map (f : NodeId → NodeId) (hosts : List NodeId)
    (slots : List (List (Reference CompiledTemplate))) :
    sitesOf (hosts.map f) slots = (sitesOf hosts slots).map (Prod.map f id) := by
  simp [sitesOf, sitesAt, List.zip_map_left, List.flatMap_map, List.map_flatMap,
    Function.comp_def]

theorem Binding.target_map (b : Binding) (f : NodeId → NodeId) (host : NodeId) :
    b.target (f host) = (b.target host).map f := by
  obtain ⟨kind, key, attr, block⟩ := b
  cases attr <;> rfl

theorem Site.binding?_map (f : NodeId → NodeId) (site : Site) :
    Site.binding? (site.map f id) = site.binding?.map (·.map f) := by
  obtain ⟨host, r⟩ := site
  cases r with
  | template t => rfl
  | binding b => simp [Site.binding?, BoundBinding.map, Binding.target_map, Function.comp_def]

theorem Site.region?_map (f : NodeId → NodeId) (site : Site) :
    Site.region? (site.map f id) = site.region?.map (·.map f) := by
  obtain ⟨host, r⟩ := site
  cases r with
  | binding b => rfl
  | template t => simp [Site.region?, Region.map, Function.comp_def]

/-! ## Wired trees -/

/-- The hosts of a tree with the bindings and regions of their slots. -/
def Instance.wired (T : NodeTree NodeId) (slots : List (List (Reference CompiledTemplate))) :
    Instance where
  root := T.label
  bindings := .ofList ((sitesOf (hostsOf T) slots).filterMap Site.binding?)
  regions := (sitesOf (hostsOf T) slots).filterMap Site.region?

theorem Instance.wired_map (f : NodeId → NodeId) (T : NodeTree NodeId)
    (slots : List (List (Reference CompiledTemplate))) :
    (wired T slots).map f = wired (T.map f) slots := by
  simp only [wired, Instance.map, BindingTable.map_ofList, label_map, hostsOf_map, sitesOf_map,
    List.filterMap_map, List.map_filterMap, Function.comp_def, Site.binding?_map, Site.region?_map]

/-- What is wired is at hosts, with handlers from the standard registry. -/
theorem Instance.of_wired (T : NodeTree NodeId) (slots : List (List (Reference CompiledTemplate))) :
    (∀ x ∈ (wired T slots).places, x ∈ hostsOf T) ∧
      ∀ b ∈ (wired T slots).bindings, Registry.standard.get? b.binding.kind.tag = some b.handler := by
  have placed : ∀ site ∈ sitesOf (hostsOf T) slots, site.1 ∈ hostsOf T := by
    rintro ⟨x, r⟩ mem
    have node := node_of_mem_sitesOf mem
    rwa [Site.target_node] at node
  refine ⟨fun x mem => ?_, fun b mem => ?_⟩
  · rcases mem_places.1 mem with ⟨b, listed, rfl⟩ | ⟨r, listed, rfl⟩
    · obtain ⟨site, inside, found⟩ := List.mem_filterMap.1 (BindingTable.mem_ofList.1 listed)
      obtain ⟨-, target, -⟩ := Site.binding?_eq_some found
      have node : (b.binding.target site.1).node = site.1 :=
        Site.target_node site.1 (.binding b.binding)
      rw [target, node]
      exact placed site inside
    · obtain ⟨site, inside, found⟩ := List.mem_filterMap.1 listed
      obtain ⟨t, rfl⟩ := Site.region?_eq_some found
      exact placed _ inside
  · obtain ⟨site, -, found⟩ := List.mem_filterMap.1 (BindingTable.mem_ofList.1 mem)
    exact (Site.binding?_eq_some found).2.2

/-- The data of a node without the host marker. -/
def Markup.NodeData.unmarked : NodeData → NodeData
  | element tag own => element tag (own.filter (·.1 != Marker.host))
  | data => data

namespace Markup.NodeTree

variable {ι κ : Type} [DecidableEq ι] [DecidableEq κ]

/-- The tree without the markers of some hosts. -/
def unmark (hosts : List ι) (t : NodeTree ι) : NodeTree ι :=
  hosts.foldl (fun t x => t.revise x (redata .unmarked)) t

/-- The tree of a copy whose hosts have been wired. -/
def bare (keep : Bool) (t : NodeTree ι) : NodeTree ι := if keep then t else t.unmark (hostsOf t)

theorem labels_unmark (hosts : List ι) (t : NodeTree ι) : (t.unmark hosts).labels = t.labels := by
  induction hosts generalizing t with
  | nil => rfl
  | cons x hosts ih => exact (ih _).trans (labels_revise_redata x _ t)

theorem labels_bare (keep : Bool) (t : NodeTree ι) : (t.bare keep).labels = t.labels := by
  cases keep
  · exact labels_unmark _ t
  · rfl

theorem label_unmark (hosts : List ι) (t : NodeTree ι) : (t.unmark hosts).label = t.label := by
  induction hosts generalizing t with
  | nil => rfl
  | cons x hosts ih =>
      exact (ih _).trans (label_revise (fun s top => (by cases s; exact top : (redata _ s).label = x)) t)

theorem label_bare (keep : Bool) (t : NodeTree ι) : (t.bare keep).label = t.label := by
  cases keep
  · exact label_unmark _ t
  · rfl

theorem map_unmark {f : ι → κ} {hosts : List ι} {t : NodeTree ι} (inside : ∀ x ∈ hosts, x ∈ t.labels)
    (apart : ∀ x ∈ t.labels, ∀ y ∈ t.labels, f x = f y → x = y) :
    (t.unmark hosts).map f = (t.map f).unmark (hosts.map f) := by
  induction hosts generalizing t with
  | nil => rfl
  | cons x hosts ih =>
      have own := inside x (List.mem_cons_self ..)
      rw [unmark, List.foldl_cons, List.map_cons, unmark, List.foldl_cons,
        ← map_revise_redata f .unmarked t fun y mem => apart y mem x own]
      have labels := labels_revise_redata x .unmarked t
      exact ih (fun y mem => labels ▸ inside y (List.mem_cons_of_mem x mem)) (labels ▸ apart)

end Markup.NodeTree

theorem map_bare {f : NodeId → NodeId} {t : NodeTree NodeId} (keep : Bool)
    (apart : ∀ x ∈ t.labels, ∀ y ∈ t.labels, f x = f y → x = y) :
    (t.bare keep).map f = (t.map f).bare keep := by
  cases keep with
  | true => rfl
  | false =>
      rw [bare, if_neg (by simp), bare, if_neg (by simp), hostsOf_map,
        map_unmark (fun x mem => hostsOf_subset t mem) apart]

/-! ## Molds -/

/-- What the copies of a pattern have in common: the tree that is copied, its nodes numbered in
document order, with its slots, and the molds of the templates to be repeated. -/
structure Mold where
  /-- Whether copies keep their markers. -/
  keep : Bool
  tree : NodeTree NodeId
  slots : List (List (Reference CompiledTemplate))
  parts : List Mold

/-- What a region does with the value of its source, given what an item adds. -/
def Region.strokes (region : Region) (value : Option Value) (add : Value → List Stroke) :
    List Stroke :=
  match value with
  | none => []
  | some .null => [.change region.container (.set [])]
  | some (.array items) => .change region.container (.set []) :: items.flatMap add
  | some value => (Event.notIterable region.iteration.source value).lines.map .report

namespace Mold

/-- The copy at the numbers. -/
def live (m : Mold) : Instance := .wired m.tree m.slots

/-- The tree of a copy into which nothing has been written. -/
def sketch (m : Mold) : Sketch :=
  (m.tree.bare m.keep).map fun x => if x ∈ m.live.places then some x else none

/-- What an item adds to the content of a region, and reports. -/
def itemStrokes (host : NodeId) (m : Mold) (script : List Stroke) : List Stroke :=
  (reports script).map .report ++
    [.change host (.add ((m.sketch.draw script).children.map shape))]

mutual

/-- The script of a rendering. -/
def strokes (scope : Scope) : Mold → List Stroke
  | ⟨_, tree, slots, parts⟩ =>
      (Instance.wired tree slots).strokes scope ++
        regionStrokes scope (Instance.wired tree slots).regions parts

def regionStrokes (scope : Scope) (regions : List Region) : List Mold → List Stroke
  | [] => []
  | part :: parts =>
      match regions with
      | [] => []
      | region :: regions =>
          (region.strokes (scope.resolve? region.iteration.source) fun item =>
            itemStrokes region.container part
              (strokes (region.iteration.scopeFor item scope) part)) ++
            regionStrokes scope regions parts

end

theorem strokes_eq (scope : Scope) (m : Mold) : m.strokes scope =
    m.live.strokes scope ++ regionStrokes scope m.live.regions m.parts := by
  obtain ⟨keep, tree, slots, parts⟩ := m
  rw [strokes]
  rfl

/-- The mold that a tree and its slots make. -/
def of {ι : Type} (keep : Bool) (t : NodeTree ι) (slots : List (List (Reference CompiledTemplate)))
    (parts : List Mold) : Mold where
  keep := keep
  tree := t.number 0
  slots := slots
  parts := parts

theorem of_shape {ι κ : Type} {t : NodeTree ι} {s : NodeTree κ} (same : t.shape = s.shape)
    (keep : Bool) (slots : List (List (Reference CompiledTemplate))) (parts : List Mold) :
    of keep t slots parts = of keep s slots parts := by
  rw [of, of, number_eq_of_shape same]

end Mold

end Stencil
