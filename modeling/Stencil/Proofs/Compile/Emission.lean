import Stencil.Proofs.Compile.Growing

/-! # Static markup

Emitting a tree leaves the tree as it is: a copy is marked and written.
-/

namespace Stencil

open Markup NodeTree View

namespace Plan

/-- Only elements are hosts. -/
def Solid (ts : List (NodeTree Slot)) : Prop := ∀ t ∈ hostsAll ts, t.data.isElement = true

mutual

/-- The slots of the hosts are the references that are there, in document order. -/
theorem slots_hosts : (t : NodeTree Slot) →
    (hosts t).map label = t.labels.filter fun slot => !slot.isEmpty
  | .node slot data children => by
      rw [hosts, List.map_append, slots_hostsAll children]
      by_cases none_there : slot.isEmpty <;> simp [none_there, label]

theorem slots_hostsAll : (ts : List (NodeTree Slot)) →
    (hostsAll ts).map label = (labelsAll ts).filter fun slot => !slot.isEmpty
  | [] => rfl
  | t :: ts => by
      rw [hostsAll, List.map_append, slots_hosts t, slots_hostsAll ts]
      simp

end

end Plan

namespace Compile

/-- A record of a copy as it is when the copy has been marked as its original `x` asks for. -/
def marked (hosts : Hosts) (x : NodeId) (n : Node) : Node :=
  if (hosts.slotOf x).isEmpty then n else { n with data := Plan.markData n.data }

theorem children_marked (hosts : Hosts) (x : NodeId) (n : Node) :
    (marked hosts x n).children = n.children := by
  unfold marked
  split <;> rfl

theorem marked_congr {hosts hosts' : Hosts} {x : NodeId}
    (same : hosts.slotOf x = hosts'.slotOf x) : marked hosts x = marked hosts' x := by
  funext n
  simp [marked, same]

mutual

/-- Copies that are marked one by one make up the marked tree. -/
theorem stands_marked {v v' : View} {hosts : Hosts} : (t s : NodeTree NodeId) →
    (p : Option NodeId) → s.shape = t.shape → v.Stands p s →
    (∀ pair ∈ t.labels.zip s.labels, v' pair.2 = (v pair.2).map (marked hosts pair.1)) →
    ∃ c : NodeTree NodeId, c.label = s.label ∧ c.labels = s.labels ∧ v'.Stands p c ∧
      c.shape = Plan.mark (t.map hosts.slotOf)
  | .node x data ts, .node y data' ss, p, same, stands, copies => by
      simp only [shape_node, NodeTree.node.injEq, true_and] at same
      obtain ⟨rfl, below⟩ := same
      obtain ⟨cs, tops, labels, standing, shape⟩ :=
        standAll_marked ts ss (some y) below stands.2 fun pair mem => copies pair (by
          rw [labels_node, labels_node, List.zip_cons_cons]
          exact List.mem_cons_of_mem _ mem)
      have top := copies (x, y) (by simp)
      rw [stands.1] at top
      refine ⟨.node y (if (hosts.slotOf x).isEmpty then data' else Plan.markData data') cs, rfl,
        by simp [labels], ⟨?_, standing⟩, ?_⟩
      · rw [top, tops, Option.map_some, marked]
        split <;> rfl
      · rw [shape_node, shape, NodeTree.map, Plan.mark, mapAll_eq_map]

theorem standAll_marked {v v' : View} {hosts : Hosts} : (ts ss : List (NodeTree NodeId)) →
    (p : Option NodeId) → ss.map shape = ts.map shape → v.StandAll p ss →
    (∀ pair ∈ (labelsAll ts).zip (labelsAll ss), v' pair.2 = (v pair.2).map (marked hosts pair.1)) →
    ∃ cs : List (NodeTree NodeId), cs.map label = ss.map label ∧ labelsAll cs = labelsAll ss ∧
      v'.StandAll p cs ∧ cs.map shape = Plan.markAll (ts.map (NodeTree.map hosts.slotOf))
  | [], [], _, _, _, _ => ⟨[], rfl, rfl, trivial, rfl⟩
  | [], _ :: _, _, same, _, _ => by simp at same
  | _ :: _, [], _, same, _, _ => by simp at same
  | t :: ts, s :: ss, p, same, stands, copies => by
      simp only [List.map_cons, List.cons.injEq] at same
      have pairs : (labelsAll (t :: ts)).zip (labelsAll (s :: ss)) =
          t.labels.zip s.labels ++ (labelsAll ts).zip (labelsAll ss) := by
        rw [labelsAll_cons, labelsAll_cons,
          List.zip_append (length_labels_of_shape t s same.1).symm]
      rw [pairs] at copies
      obtain ⟨c, top, labels, standing, shape⟩ := stands_marked t s p same.1 stands.1
        fun pair mem => copies pair (List.mem_append_left _ mem)
      obtain ⟨cs, tops, more, others, shapes⟩ := standAll_marked ts ss p same.2 stands.2
        fun pair mem => copies pair (List.mem_append_right _ mem)
      exact ⟨c :: cs, by simp [top, tops], by simp [labels, more], ⟨standing, others⟩,
        by simp [Plan.markAll, shape, shapes]⟩

end

mutual

/-- The copy of a host is an element. -/
theorem element_of_host {v : View} {f : NodeId → Slot} : (t s : NodeTree NodeId) →
    (p : Option NodeId) → s.shape = t.shape → v.Stands p s → Plan.Solid [t.map f] →
    ∀ pair ∈ t.labels.zip s.labels, f pair.1 ≠ [] →
      ∃ tag own q kids, v pair.2 = some {
        data := .element tag own, parent := q, children := kids }
  | .node x data ts, .node y data' ss, p, same, stands, solid, pair, mem, filled => by
      simp only [shape_node, NodeTree.node.injEq, true_and] at same
      obtain ⟨rfl, below⟩ := same
      rw [labels_node, labels_node, List.zip_cons_cons] at mem
      rcases List.mem_cons.1 mem with first | mem
      · subst first
        have host : NodeTree.node (f x) data' (mapAll f ts) ∈
            Plan.hostsAll [(NodeTree.node x data' ts).map f] := by
          simp only [Plan.hostsAll, NodeTree.map, Plan.hosts]
          simp [filled]
        have element := solid _ host
        cases data' with
        | element tag own => exact ⟨tag, own, p, _, stands.1⟩
        | _ => cases element
      · refine element_of_hosts ts ss (some y) below stands.2 (fun u host => solid u ?_) pair mem
          filled
        simp only [Plan.hostsAll, NodeTree.map, Plan.hosts, List.append_nil, List.mem_append]
        exact .inr host

theorem element_of_hosts {v : View} {f : NodeId → Slot} : (ts ss : List (NodeTree NodeId)) →
    (p : Option NodeId) → ss.map shape = ts.map shape → v.StandAll p ss →
    Plan.Solid (mapAll f ts) →
    ∀ pair ∈ (labelsAll ts).zip (labelsAll ss), f pair.1 ≠ [] →
      ∃ tag own q kids, v pair.2 = some {
        data := .element tag own, parent := q, children := kids }
  | [], [], _, _, _, _, _, mem, _ => by cases mem
  | [], _ :: _, _, same, _, _, _, _, _ => by simp at same
  | _ :: _, [], _, same, _, _, _, _, _ => by simp at same
  | t :: ts, s :: ss, p, same, stands, solid, pair, mem, filled => by
      simp only [List.map_cons, List.cons.injEq] at same
      rw [labelsAll_cons, labelsAll_cons,
        List.zip_append (length_labels_of_shape t s same.1).symm, List.mem_append] at mem
      rcases mem with mem | mem
      · refine element_of_host t s p same.1 stands.1 (fun u host => solid u ?_) pair mem filled
        rw [mapAll, Plan.hostsAll, List.mem_append]
        simpa [Plan.hostsAll] using Or.inl host
      · refine element_of_hosts ts ss p same.2 stands.2 (fun u host => solid u ?_) pair mem filled
        rw [mapAll, Plan.hostsAll, List.mem_append]
        exact .inr host

end

/-- The references of `x` have been taken, and its copy `y` is marked if there were some. -/
structure Collected (w w₁ : Workbench) (x y : NodeId) : Prop where
  sound : w₁.document.Sound
  aligned : w₁.hosts.Aligned
  table : ∀ z, z ≠ x → w₁.hosts.slot? z = w.hosts.slot? z
  frame : ∀ z, z ≠ y → w₁.document.view z = w.document.view z
  copy : w₁.document.view y = (w.document.view y).map (marked w.hosts x)

theorem Collected.slotOf {w w₁ : Workbench} {x y z : NodeId} (c : Collected w w₁ x y)
    (other : z ≠ x) : w₁.hosts.slotOf z = w.hosts.slotOf z :=
  congrArg (Option.getD · []) (c.table z other)

theorem collect_ok {w : Workbench} (sound : w.document.Sound) (aligned : w.hosts.Aligned)
    {x y : NodeId}
    (filled : ∀ s, w.hosts.slot? x = some s → s ≠ [])
    (element : w.hosts.slotOf x ≠ [] → ∃ tag own q kids, w.document.view y = some {
      data := .element tag own, parent := q, children := kids }) (slots : List Slot) :
    ∃ w₁, collect slots x y w =
        .ok (slots ++ [w.hosts.slotOf x].filter fun slot => !slot.isEmpty) w₁ ∧
      Collected w w₁ x y := by
  have read : (get : Compile Workbench) w = .ok w w := rfl
  cases there : w.hosts.slot? x with
  | none =>
      have bare := Hosts.slotOf_eq_nil there
      refine ⟨w, ?_, sound, aligned, fun _ _ => rfl, fun _ _ => rfl, ?_⟩
      · rw [collect, bind_ok read, Hosts.takeSlot?_eq_none.2 (aligned.slot?_eq_none.1 there)]
        simp [bare]
      · cases w.document.view y <;> simp [marked, bare]
  | some slot =>
      have full := filled slot there
      have own := Hosts.slotOf_eq there
      obtain ⟨id, found, -⟩ := Hosts.find?_of_slot? there
      have taken := Hosts.takeSlot?_of_find? found
      obtain ⟨tag, attributes, q, kids, node⟩ := element (by rwa [own])
      obtain ⟨d, set, sound₁, node₁, frame₁⟩ :=
        Document.setAttributeValue_ok sound node Marker.host (.string "")
      refine ⟨{ w with document := d, hosts := w.hosts.emptied id }, ?_, sound₁, aligned.emptied id,
        fun z other => aligned.slot?_emptied_of_ne found other, frame₁, ?_⟩
      · have mark : edit (Document.setAttribute y Marker.host "")
            { w with hosts := w.hosts.emptied id } =
              .ok () { w with document := d, hosts := w.hosts.emptied id } := edit_ok set
        have change : (modify fun w' => { w' with hosts := w.hosts.emptied id } : Compile Unit) w =
            .ok () { w with hosts := w.hosts.emptied id } := rfl
        rw [collect, bind_ok read, taken]
        simp only [bind_ok change, bind_ok mark, pure_run]
        simp [own, full]
      · rw [node]
        simp [marked, own, full, node₁, Plan.markData]

/-- Trees that are visited beside their copies, none of them on a number of another. -/
structure Mirrored (w : Workbench) (ts ss : List (NodeTree NodeId)) : Prop where
  sound : w.document.Sound
  aligned : w.hosts.Aligned
  shape : ss.map NodeTree.shape = ts.map NodeTree.shape
  sources : (labelsAll ts).Nodup
  copies : (labelsAll ss).Nodup
  apart : ∀ x ∈ labelsAll ts, x ∉ labelsAll ss
  originals : ∀ t ∈ ts, ∃ p, w.document.view.Stands p t
  stands : ∀ s ∈ ss, ∃ p, w.document.view.Stands p s
  filled : ∀ x ∈ labelsAll ts, ∀ s, w.hosts.slot? x = some s → s ≠ []
  elements : ∀ pair ∈ (labelsAll ts).zip (labelsAll ss), w.hosts.slotOf pair.1 ≠ [] →
    ∃ tag own q kids, w.document.view pair.2 = some {
      data := .element tag own, parent := q, children := kids }

namespace Mirrored

variable {w w₁ : Workbench} {x y : NodeId} {data data' : NodeData}
  {us vs ts ss : List (NodeTree NodeId)}

theorem labelsAll_pop :
    labelsAll (.node x data us :: ts) = x :: labelsAll (us ++ ts) := by
  simp

/-- The trees of a list stand as before when the node that has changed is not among theirs. -/
theorem standing {q : Option NodeId} {t : NodeTree NodeId} (c : Collected w w₁ x y)
    (out : y ∉ t.labels) (stands : w.document.view.Stands q t) :
    w₁.document.view.Stands q t :=
  stands.congr fun z inside => c.frame z fun same => out (same ▸ inside)

theorem standing_below {q : Option NodeId} (c : Collected w w₁ x y)
    (out : y ∉ labelsAll (us ++ ts)) (own : w.document.view.StandAll q us)
    (rest : ∀ t ∈ ts, ∃ p, w.document.view.Stands p t) :
    ∀ t ∈ us ++ ts, ∃ p, w₁.document.view.Stands p t := by
  intro t mem
  have free : y ∉ t.labels := fun inside => out (labels_subset_labelsAll mem _ inside)
  rcases List.mem_append.1 mem with inside | beside
  · exact ⟨q, standing c free (standAll_iff.1 own t inside)⟩
  · obtain ⟨p, stands⟩ := rest t beside
    exact ⟨p, standing c free stands⟩

/-- When the pair at the top has been visited, the trees below it come before the others. -/
theorem next (m : Mirrored w (.node x data us :: ts) (.node y data' vs :: ss))
    (c : Collected w w₁ x y) : Mirrored w₁ (us ++ ts) (vs ++ ss) := by
  have shape := m.shape
  simp only [List.map_cons, shape_node, List.cons.injEq, NodeTree.node.injEq, true_and] at shape
  have sources := m.sources
  have copies := m.copies
  have apart := m.apart
  have elements := m.elements
  have filled := m.filled
  rw [labelsAll_pop] at sources copies filled
  rw [labelsAll_pop, labelsAll_pop] at apart elements
  rw [List.zip_cons_cons] at elements
  have newSource : ∀ z ∈ labelsAll (us ++ ts), z ≠ x := fun z mem same =>
    (List.nodup_cons.1 sources).1 (same ▸ mem)
  have newCopy : y ∉ labelsAll (vs ++ ss) := (List.nodup_cons.1 copies).1
  obtain ⟨p, original⟩ := m.originals _ (List.mem_cons_self ..)
  obtain ⟨q, stands⟩ := m.stands _ (List.mem_cons_self ..)
  exact {
    sound := c.sound
    aligned := c.aligned
    shape := by rw [List.map_append, List.map_append, shape.1.2, shape.2]
    sources := (List.nodup_cons.1 sources).2
    copies := (List.nodup_cons.1 copies).2
    apart := fun z mem inside => apart z (List.mem_cons_of_mem x mem) (List.mem_cons_of_mem y inside)
    originals := standing_below c
      (fun mem => apart y (List.mem_cons_of_mem x mem) (List.mem_cons_self ..)) original.2
      fun t mem => m.originals t (List.mem_cons_of_mem _ mem)
    stands := standing_below c newCopy stands.2 fun t mem => m.stands t (List.mem_cons_of_mem _ mem)
    filled := fun z mem slot there =>
      filled z (List.mem_cons_of_mem x mem) slot (c.table z (newSource z mem) ▸ there)
    elements := fun pair mem host => by
      obtain ⟨source, copy⟩ := List.of_mem_zip mem
      rw [c.slotOf (newSource _ source)] at host
      rw [c.frame _ fun same => newCopy (same ▸ copy)]
      exact elements pair (List.mem_cons_of_mem _ mem) host }

/-- The children of the pair that has been visited are what comes next. -/
theorem children (m : Mirrored w (.node x data us :: ts) (.node y data' vs :: ss))
    (c : Collected w w₁ x y) :
    ask (·.children x) w₁ = .ok (us.map label) w₁ ∧ ask (·.children y) w₁ = .ok (vs.map label) w₁ ∧
      ((us.map label).zip (vs.map label)).foldr List.cons ((ts.map label).zip (ss.map label)) =
        ((us ++ ts).map label).zip ((vs ++ ss).map label) := by
  obtain ⟨p, original⟩ := m.originals _ (List.mem_cons_self ..)
  obtain ⟨q, copy⟩ := m.stands _ (List.mem_cons_self ..)
  have other : x ≠ y := by
    rintro rfl
    exact m.apart x (by simp) (by simp)
  have shape := m.shape
  simp only [List.map_cons, shape_node, List.cons.injEq, NodeTree.node.injEq, true_and] at shape
  have level : (us.map label).length = (vs.map label).length := by
    simpa using (congrArg List.length shape.1.2).symm
  have marks := c.copy
  rw [copy.1] at marks
  refine ⟨ask_ok (Document.children_eq_ok ((c.frame x other).trans original.1)), ask_ok ?_, ?_⟩
  · rw [Document.children_eq_ok marks, children_marked]
  · rw [List.foldr_cons_eq_append', List.map_append, List.map_append, List.zip_append level]

end Mirrored

/-- The visit takes the references in document order and marks the copies of the hosts. -/
theorem gather_ok (fuel : Nat) (ts ss : List (NodeTree NodeId)) (w : Workbench) (slots : List Slot)
    (m : Mirrored w ts ss) (enough : (labelsAll ts).length ≤ fuel) :
    ∃ w', gather fuel slots ((ts.map label).zip (ss.map label)) w =
        .ok (slots ++ ((labelsAll ts).map w.hosts.slotOf).filter fun slot => !slot.isEmpty) w' ∧
      w'.document.Sound ∧
      (∀ x, x ∉ labelsAll ss → w'.document.view x = w.document.view x) ∧
      ∀ pair ∈ (labelsAll ts).zip (labelsAll ss),
        w'.document.view pair.2 = (w.document.view pair.2).map (marked w.hosts pair.1) := by
  induction fuel generalizing ts ss w slots with
  | zero =>
      cases ts with
      | nil => exact ⟨w, by simp [gather], m.sound, fun _ _ => rfl, by simp [labelsAll]⟩
      | cons t ts => cases t; simp at enough
  | succ fuel ih =>
      cases ts with
      | nil => exact ⟨w, by simp [gather], m.sound, fun _ _ => rfl, by simp [labelsAll]⟩
      | cons t ts =>
          cases ss with
          | nil => simpa using m.shape
          | cons s ss =>
              obtain ⟨x, data, us⟩ := t
              obtain ⟨y, data', vs⟩ := s
              have sources := m.sources
              have copies := m.copies
              have filled := m.filled
              have elements := m.elements
              rw [Mirrored.labelsAll_pop] at sources copies filled enough
              rw [Mirrored.labelsAll_pop, Mirrored.labelsAll_pop] at elements ⊢
              obtain ⟨w₁, run, c⟩ := collect_ok m.sound m.aligned
                (filled x (List.mem_cons_self ..)) (elements (x, y) (List.mem_cons_self ..)) slots
              obtain ⟨below, below', stack⟩ := m.children c
              obtain ⟨w', gathered, sound', frame, marks⟩ := ih (us ++ ts) (vs ++ ss) w₁
                (slots ++ [w.hosts.slotOf x].filter fun slot => !slot.isEmpty) (m.next c)
                (Nat.le_of_succ_le_succ enough)
              have owned : ∀ z ∈ labelsAll (us ++ ts), w₁.hosts.slotOf z = w.hosts.slotOf z :=
                fun z mem => c.slotOf fun same => (List.nodup_cons.1 sources).1 (same ▸ mem)
              have newCopy : y ∉ labelsAll (vs ++ ss) := (List.nodup_cons.1 copies).1
              refine ⟨w', ?_, sound', fun z out => ?_, fun pair mem => ?_⟩
              · rw [List.map_cons, List.map_cons, List.zip_cons_cons, gather]
                refine (bind_ok run).trans ((bind_ok below).trans ((bind_ok below').trans ?_))
                rw [stack, gathered, List.map_congr_left owned, List.append_assoc,
                  ← List.filter_append]
                rfl
              · rw [List.mem_cons, not_or] at out
                rw [frame z out.2, c.frame z out.1]
              · rcases List.mem_cons.1 mem with rfl | mem
                · exact (frame y newCopy).trans c.copy
                · obtain ⟨source, copy⟩ := List.of_mem_zip mem
                  have other : pair.2 ≠ y := fun same => newCopy (same ▸ copy)
                  rw [marks pair mem, c.frame _ other, marked_congr (owned _ source)]

variable {w : Workbench} {p : Option NodeId} {t : NodeTree NodeId}

/-- Emitting gives the compiled form of the tree, with its references, and leaves all nodes
as they are. The copy that has been written stands on numbers that were not in use. -/
theorem emit_ok (h : w.Sound) (stands : w.document.view.Stands p t)
    (solid : Plan.Solid [t.map w.hosts.slotOf]) (expression : Option String) :
    ∃ w' c, emit t.label expression w = .ok (Plan.emit (t.map w.hosts.slotOf) expression) w' ∧
      w'.document.Sound ∧ w'.document.view.Stands none c ∧
      c.shape = Plan.mark (t.map w.hosts.slotOf) ∧
      (∀ x ∈ c.labels, w.document.view x = none) ∧
      ∀ x, w.document.view x ≠ none → w'.document.view x = w.document.view x := by
  have nodup := h.document.forest.nodup_labels t p stands
  obtain ⟨s, d, copied, planted⟩ := Document.copyTree_ok h.document.accounted stands nodup
  have sound : d.Sound := by
    have kept := Document.keeps_copyTree t.label w.document h.document
    rwa [Edit.after_ok copied] at kept
  have fresh : ∀ x ∈ s.labels, w.document.view x = none := fun x mem =>
    planted.trades.fresh x mem (by simp)
  have old : ∀ x ∈ t.labels, x ∉ s.labels := fun x mem copy => stands.live mem (fresh x copy)
  have pairs : (labelsAll [t]).zip (labelsAll [s]) = t.labels.zip s.labels := by simp
  have original : d.view.Stands p t :=
    stands.congr fun x mem => planted.trades.frame x (by simp) (old x mem)
  have mirrored : Mirrored { w with document := d } [t] [s] := {
    sound
    aligned := h.aligned
    shape := by simp [planted.shape]
    sources := by simpa using nodup
    copies := by simpa using planted.nodup
    apart := by simpa using old
    originals := fun u mem => ⟨p, List.mem_singleton.1 mem ▸ original⟩
    stands := fun u mem => ⟨none, List.mem_singleton.1 mem ▸ planted.stands⟩
    filled := fun _ _ _ there => (h.live there).1
    elements := by
      rw [pairs]
      exact element_of_host t s none planted.shape planted.stands solid }
  obtain ⟨w', gathered, sound', frame, marks⟩ :=
    gather_ok d.slots.size [t] [s] { w with document := d } [] mirrored
      (by simpa using Document.length_labels_le original nodup)
  rw [pairs] at marks
  obtain ⟨c, top, labels, standing, shape⟩ :=
    stands_marked t s none planted.shape planted.stands marks
  have unlike : c.labels.Nodup := labels ▸ planted.nodup
  refine ⟨w', c, ?_, sound', standing, shape, labels ▸ fresh, fun x there => ?_⟩
  · have count : ask (fun d => .ok d.slots.size) { w with document := d } =
        .ok d.slots.size { w with document := d } := ask_ok rfl
    have written : ask (·.serialize s.label) w' = .ok (c.print false) w' := by
      refine ask_ok ?_
      rw [Document.serialize, ← top, Document.tree_of_stands standing unlike]
      rfl
    have markup : c.print false = (Plan.mark (t.map w.hosts.slotOf)).print false := by
      rw [← shape, NodeTree.shape, print_map]
    have slots : (t.labels.map w.hosts.slotOf).filter (fun slot => !slot.isEmpty) =
        (Plan.hosts (t.map w.hosts.slotOf)).map label := by
      rw [Plan.slots_hosts, labels_map]
    have gathered : gather d.slots.size [] [(t.label, s.label)] { w with document := d } =
        .ok ((Plan.hosts (t.map w.hosts.slotOf)).map label) w' := by
      simpa [← slots] using gathered
    unfold emit
    rw [bind_ok (edit_ok copied), bind_ok count, bind_ok gathered, bind_ok written, pure_run,
      Plan.emit, ← markup]
  · have out : x ∉ s.labels := fun mem => there (fresh x mem)
    rw [frame x (by simpa using out)]
    exact planted.trades.frame x (by simp) out

end Compile

/-! ## Copies -/

/-- A copy of the marked tree of a plan stands by itself, on numbers that were free, and so
does one for every part of the plan. -/
inductive Copied (v : View) (free : NodeId → Prop) : Plan → Prop where
  | intro {d : Plan} {c : NodeTree NodeId} (stands : v.Stands none c)
      (shape : c.shape = Plan.mark d.tree) (labels : ∀ x ∈ c.labels, free x)
      (parts : ∀ part ∈ d.parts, Copied v free part) : Copied v free d

/-- Copies last as long as the nodes on their numbers. -/
theorem Copied.mono {v v' : View} {free free' : NodeId → Prop} {d : Plan} (h : Copied v free d)
    (kept : ∀ x, free x → v x ≠ none → v' x = v x) (more : ∀ x, free x → free' x) :
    Copied v' free' d := by
  induction h with
  | intro stands shape labels _ ih =>
      have same := stands.congr fun x mem => kept x (labels x mem) (stands.live mem)
      exact .intro same shape (fun x mem => more x (labels x mem)) ih

end Stencil
