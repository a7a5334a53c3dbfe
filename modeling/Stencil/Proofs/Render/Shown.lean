import Stencil.Proofs.Render.Wiring

/-! # What a dressed tree shows

A dressed tree whose hosts have received what their slots say has the shape of the tree of
the markup with its hosts filled.
-/

namespace Stencil

open Markup NodeTree

namespace Dress

/-- A host shows what it is filled with. -/
structure Shows (D : Dress) (keep : Bool) (host : NodeTree NodeId) (f : Filling) : Prop where
  unmarked : D.unmarked host.label = !keep
  value : ∀ name, D.value host.label name = f.attributes.lookup name
  content : (D.content host.label).map (List.map shape) = f.content

/-- A node shows what it is in the markup. -/
structure Plain (D : Dress) (id : NodeId) : Prop where
  unmarked : D.unmarked id = false
  value : ∀ name, D.value id name = none
  content : D.content id = none

variable {D : Dress} {keep : Bool}

theorem attributes_of_shows {id : NodeId} {own : List (String × Value)} {f : Filling}
    (unmarked : D.unmarked id = !keep) (value : ∀ name, D.value id name = f.attributes.lookup name) :
    D.attributes id own = f.dress keep own := by
  have kept : (fun entry : String × Value => !(D.unmarked id && entry.1 == Marker.host)) =
      fun entry => keep || entry.1 != Marker.host := by
    funext entry
    rw [unmarked]
    cases keep <;> simp [bne]
  simp only [attributes, Filling.dress, kept, value]

theorem data_of_plain {id : NodeId} (plain : D.Plain id) (data : NodeData) :
    D.data id data = data := by
  cases data with
  | element name own => simp [Dress.data, attributes, plain.unmarked, plain.value]
  | text | comment | fragment | doctype => rfl

mutual

/-- Filling a tree in document order takes one filling a host, and gives the shape of the
dressed tree. -/
theorem fill_shape (D : Dress) (keep : Bool) (p : Option NodeId) : (t : NodeTree NodeId) →
    (∀ q s, Within p t q s → hasMarker Marker.host s.data.attributes = false → D.Plain s.label) →
    t.data ≠ .fragment → t.Fits → (us : List (NodeTree NodeId)) → (fs : List Filling) →
    List.Forall₂ (D.Shows keep) (hostTrees t ++ us) fs →
    ∃ rest, Filling.fill keep t.shape fs = ((D.apply t).shape, rest) ∧
      List.Forall₂ (D.Shows keep) us rest
  | .node id data children, plain, solid, fits, us, fs, shows => by
      have inside := fillAll_shape D keep (some id) children
        (fun t listed q s within => plain q s ((Within.self.child listed).trans within)) fits.2.2 us
      cases data with
      | fragment => exact (solid rfl).elim
      | text | comment | doctype =>
          have empty : children = [] := by
            by_contra some_child
            exact Bool.noConfusion (fits.2.1 some_child)
          subst empty
          have own : D.Plain id := plain p _ .self rfl
          refine ⟨fs, ?_, shows⟩
          rw [apply, own.content]
          rfl
      | element name attributes =>
          rw [shape_node, Filling.fill, apply, shape_node]
          cases host : hasMarker Marker.host attributes with
          | true =>
              rw [hostTrees, if_pos host] at shows
              obtain ⟨f, fs, own, others, rfl⟩ := List.forall₂_cons_left_iff.1 shows
              obtain ⟨rest, filled, left⟩ := inside fs others
              refine ⟨rest, ?_, left⟩
              have worn : D.data id (.element name attributes) =
                  .element name (f.dress keep attributes) :=
                congrArg (NodeData.element name) (attributes_of_shows own.unmarked own.value)
              have shown : f.content = (D.content id).map (List.map shape) := own.content.symm
              dsimp only [List.headD_cons, List.tail_cons]
              rw [if_pos rfl, filled, worn, shown]
              cases D.content id <;> rfl
          | false =>
              rw [hostTrees, if_neg (by simp [host])] at shows
              obtain ⟨rest, filled, left⟩ := inside fs shows
              have own : D.Plain id := plain p _ .self host
              refine ⟨rest, ?_, left⟩
              dsimp only
              rw [if_neg (by simp), filled, data_of_plain own, own.content]
              rfl

theorem fillAll_shape (D : Dress) (keep : Bool) (p : Option NodeId) :
    (ts : List (NodeTree NodeId)) →
    (∀ t ∈ ts, ∀ q s, Within p t q s → hasMarker Marker.host s.data.attributes = false →
      D.Plain s.label) → FitAll ts →
    (us : List (NodeTree NodeId)) → (fs : List Filling) →
    List.Forall₂ (D.Shows keep) (hostTreesAmong ts ++ us) fs →
    ∃ rest, Filling.fillAll keep (ts.map shape) fs = ((D.applyAll ts).map shape, rest) ∧
      List.Forall₂ (D.Shows keep) us rest
  | [], _, _, us, fs, shows => ⟨fs, rfl, shows⟩
  | t :: ts, plain, fits, us, fs, shows => by
      rw [hostTreesAmong, List.append_assoc] at shows
      obtain ⟨mid, first, more⟩ := fill_shape D keep p t (plain t (by simp)) fits.1.1 fits.1.2
        _ fs shows
      obtain ⟨rest, others, left⟩ :=
        fillAll_shape D keep p ts (fun u mem => plain u (by simp [mem])) fits.2 us mid more
      refine ⟨rest, ?_, left⟩
      rw [List.map_cons, Filling.fillAll, first]
      dsimp only
      rw [others, applyAll, List.map_cons]

end

/-! ## What slots fill -/

theorem lookup_received_self (D : Dress) (host : NodeId) (name : String) :
    (D.received (.attr host name)).attributes.lookup name = D.value host name := by
  cases value : D.value host name <;> simp [received, value]

theorem lookup_received_of_ne (D : Dress) {T : Target} {name : String}
    (other : T ≠ .attr T.node name) : (D.received T).attributes.lookup name = none := by
  cases T with
  | content x => rfl
  | attr x n =>
      have apart : name ≠ n := by
        rintro rfl
        exact other rfl
      cases value : D.value x n with
      | none => simp [received, value]
      | some v => simp [received, value, List.lookup_cons, beq_false_of_ne apart]

theorem content_received_of_ne (D : Dress) {T : Target} (other : T ≠ .content T.node) :
    (D.received T).content = none := by
  cases T with
  | content x => exact (other rfl).elim
  | attr x n => rfl

theorem value_eq_none {host : NodeId} {name : String} (h : D.received (.attr host name) = {}) :
    D.value host name = none := by
  rw [← lookup_received_self, h]
  rfl

open CompiledTemplate

variable {m : Meaning} {host : NodeId}

/-- What a slot fills is what its targets have received. -/
theorem expandSlot_received (slot : List (Reference CompiledTemplate))
    (gained : ∀ r ∈ slot, D.received (Site.target (host, r)) = expandReference keep m r) :
    (∀ name, (expandSlot keep m slot).attributes.lookup name =
      if .attr host name ∈ (sitesAt host slot).map Site.target then D.value host name else none) ∧
    (expandSlot keep m slot).content =
      if .content host ∈ (sitesAt host slot).map Site.target then
        (D.content host).map (List.map shape) else none := by
  induction slot with
  | nil => exact ⟨fun _ => rfl, rfl⟩
  | cons r rs ih =>
      obtain ⟨values, content⟩ := ih fun q mem => gained q (List.mem_cons_of_mem r mem)
      have own := gained r (List.mem_cons_self ..)
      have node := Site.target_node host r
      have sites : (sitesAt host (r :: rs)).map Site.target =
          Site.target (host, r) :: (sitesAt host rs).map Site.target := rfl
      rw [expandSlot, Filling.append, ← own, sites]
      dsimp only
      refine ⟨fun name => ?_, ?_⟩
      · rw [List.lookup_append, values name]
        by_cases same : Site.target (host, r) = .attr host name
        · rw [same, lookup_received_self, if_pos List.mem_cons_self]
          split
          · exact Option.or_self
          · exact Option.or_none
        · rw [lookup_received_of_ne D (by rwa [node]), Option.none_or]
          simp only [List.mem_cons, Ne.symm same, false_or]
      · rw [content]
        by_cases same : Site.target (host, r) = .content host
        · rw [same, if_pos List.mem_cons_self]
          split
          · exact Option.or_self
          · exact Option.or_none
        · rw [content_received_of_ne D (by rwa [node]), Option.none_or]
          simp only [List.mem_cons, Ne.symm same, false_or]

/-- A host whose targets have received what its slot says shows it. -/
theorem shows_expandSlot {H : NodeTree NodeId} {slot : List (Reference CompiledTemplate)}
    (unmarked : D.unmarked H.label = !keep)
    (gained : ∀ r ∈ slot, D.received (Site.target (H.label, r)) = expandReference keep m r)
    (others : ∀ T, T.node = H.label → T ∉ (sitesAt H.label slot).map Site.target →
      D.received T = {}) :
    D.Shows keep H (expandSlot keep m slot) := by
  obtain ⟨values, content⟩ := expandSlot_received slot gained
  refine ⟨unmarked, fun name => ?_, ?_⟩
  · rw [values name]
    split
    · rfl
    · exact value_eq_none (others _ rfl ‹_›)
  · rw [content]
    split
    · rfl
    · have empty : D.content H.label = none := content_eq_none (others (.content H.label) rfl ‹_›)
      rw [empty]
      rfl

theorem shows_expandSlots {hosts : List (NodeTree NodeId)}
    {slots : List (List (Reference CompiledTemplate))}
    (same : hosts.length = slots.length) (distinct : (hosts.map label).Nodup)
    (unmarked : ∀ H ∈ hosts, D.unmarked H.label = !keep)
    (gained : ∀ site ∈ sitesOf (hosts.map label) slots,
      D.received site.target = expandReference keep m site.2)
    (others : ∀ T, T.node ∈ hosts.map label →
      T ∉ (sitesOf (hosts.map label) slots).map Site.target → D.received T = {}) :
    List.Forall₂ (D.Shows keep) hosts (expandSlots keep m slots) := by
  induction hosts generalizing slots with
  | nil =>
      cases slots with
      | nil => exact .nil
      | cons slot slots => cases same
  | cons H hosts ih =>
      cases slots with
      | nil => cases same
      | cons slot slots =>
          obtain ⟨out, rest⟩ := List.nodup_cons.1 distinct
          rw [List.map_cons, sitesOf_cons] at gained others
          rw [expandSlots]
          have apart : ∀ T : Target, T.node = H.label →
              T ∉ (sitesOf (hosts.map label) slots).map Site.target := by
            intro T own mem
            obtain ⟨site, listed, rfl⟩ := List.mem_map.1 mem
            exact out (own ▸ node_of_mem_sitesOf listed)
          have below : ∀ T : Target, T.node ∈ hosts.map label →
              T ∉ (sitesAt H.label slot).map Site.target := by
            intro T own mem
            obtain ⟨site, listed, rfl⟩ := List.mem_map.1 mem
            obtain ⟨r, -, rfl⟩ := List.mem_map.1 listed
            exact out (Site.target_node H.label r ▸ own)
          refine .cons (shows_expandSlot (unmarked H (by simp)) (fun r mem => ?_) fun T own fresh => ?_)
            (ih (by simpa using same) rest (fun K mem => unmarked K (by simp [mem]))
              (fun site mem => gained site (List.mem_append_right _ mem)) fun T own fresh => ?_)
          · exact gained (H.label, r) (List.mem_append_left _ (List.mem_map.2 ⟨r, mem, rfl⟩))
          · refine others T (by simp [own]) ?_
            rw [List.map_append, List.mem_append, not_or]
            exact ⟨fresh, apart T own⟩
          · refine others T (List.mem_cons_of_mem _ own) ?_
            rw [List.map_append, List.mem_append, not_or]
            exact ⟨below T own, fresh⟩

/-- A copy whose sites have received what they fill has the shape of the expansion. -/
theorem shape_expand {t : CompiledTemplate} {C : NodeTree NodeId}
    (tree : treeOf? t.markup = some C.shape) (fits : C.Fits) (nodup : C.labels.Nodup)
    (same : (hostTrees C).length = t.slots.length)
    (unmarked : ∀ x, D.unmarked x = (!keep && decide (x ∈ (hostTrees C).map label)))
    (gained : ∀ site ∈ sitesOf ((hostTrees C).map label) t.slots,
      D.received site.target = expandReference keep m site.2)
    (others : ∀ T, T ∉ (sitesOf ((hostTrees C).map label) t.slots).map Site.target →
      D.received T = {}) :
    (D.apply C).shape = t.expand keep m := by
  obtain ⟨slots, skeleton, expression⟩ := t
  have plain : ∀ q s, Within none C q s → hasMarker Marker.host s.data.attributes = false →
      D.Plain s.label := by
    intro q s inside unmarkable
    have out : s.label ∉ (hostTrees C).map label := by
      intro mem
      obtain ⟨H, listed, own⟩ := List.mem_map.1 mem
      obtain ⟨⟨r, within⟩, marked⟩ := marked_of_mem none C H listed
      obtain ⟨-, rfl⟩ := within_unique C none nodup within inside own
      rw [unmarkable] at marked
      cases marked
    have fresh : ∀ T : Target, T.node = s.label → D.received T = {} := by
      intro T own
      refine others T fun mem => out ?_
      obtain ⟨site, listed, rfl⟩ := List.mem_map.1 mem
      exact own ▸ node_of_mem_sitesOf listed
    exact ⟨by simp [unmarked, out], fun name => value_eq_none (fresh (.attr s.label name) rfl),
      content_eq_none (fresh (.content s.label) rfl)⟩
  have element : C.data ≠ .fragment := by
    intro fragment
    have first := List.find?_some tree
    rw [data_shape, fragment] at first
    cases first
  have shows : List.Forall₂ (D.Shows keep) (hostTrees C) (expandSlots keep m slots) := by
    refine shows_expandSlots same (nodup.sublist (hostTrees_sublist C)) (fun H mem => ?_) gained
      fun T _ => others T
    rw [unmarked, decide_eq_true (List.mem_map_of_mem mem), Bool.and_true]
  obtain ⟨rest, filled, -⟩ := fill_shape D keep none C plain element fits []
    (expandSlots keep m slots) (by rwa [List.append_nil])
  rw [expand, show treeOf? skeleton.markup = some C.shape from tree]
  dsimp only
  rw [filled]

end Dress

end Stencil
