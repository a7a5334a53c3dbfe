import Mathlib.Data.List.Induction
import Mathlib.Logic.Function.Basic
import Stencil.Proofs.Render.Script

/-! # Drawing at one stroke

What a script makes of a tree can be told host by host: a host has received the values that are
written to it, in order, and its content is what the changes of it make of none. So strokes
whose effect is overwritten later can be left out of a script.
-/

namespace Stencil

open Markup NodeTree

/-! ## Writing attributes -/

theorem Value.putField_putField (key : String) (v w : Value) (entries : List (String × Value)) :
    putField key v (putField key w entries) = putField key v entries := by
  induction entries with
  | nil => simp [putField]
  | cons entry entries ih =>
      obtain ⟨k, old⟩ := entry
      by_cases same : k = key
      · simp [putField, same]
      · simp [putField, same, ih]

/-- Writes under different keys can change places, unless both keys are new. -/
theorem Value.putField_comm {key name : String} (other : key ≠ name) (v w : Value)
    {entries : List (String × Value)}
    (there : key ∈ entries.map Prod.fst ∨ name ∈ entries.map Prod.fst) :
    putField key v (putField name w entries) = putField name w (putField key v entries) := by
  induction entries with
  | nil => simp at there
  | cons entry entries ih =>
      obtain ⟨k, old⟩ := entry
      by_cases own : k = key
      · subst own
        simp [putField, other]
      · by_cases same : k = name
        · subst same
          simp [putField, own]
        · simp only [List.map_cons, List.mem_cons, Ne.symm own, Ne.symm same, false_or] at there
          simp [putField, own, same, ih there]

namespace Markup.NodeData

/-- The data after several writes. -/
def puts (writes : List (String × Value)) (data : NodeData) : NodeData :=
  writes.foldl (fun data w => data.put w.1 w.2) data

variable {A B : List (String × Value)} {w : String × Value} {data : NodeData} {name : String}

@[simp] theorem puts_append (A B : List (String × Value)) (data : NodeData) :
    data.puts (A ++ B) = (data.puts A).puts B :=
  List.foldl_append

/-- A write takes no name away. -/
theorem mem_put {key : String} (value : Value) (mem : name ∈ data.attributes.map Prod.fst) :
    name ∈ (data.put key value).attributes.map Prod.fst := by
  cases data with
  | element tag own =>
      show name ∈ (Value.putField key value own).map Prod.fst
      rw [Document.keys_putField]
      split
      · exact mem
      · exact List.mem_append_left _ mem
  | text | comment | fragment | doctype => exact mem

/-- A write is forgotten if there is a later one under its name, and at most one name is new. -/
theorem puts_cons_of_mem (later : w.1 ∈ B.map Prod.fst)
    (there : ∀ b ∈ w :: B, b.1 = name ∨ b.1 ∈ data.attributes.map Prod.fst) :
    data.puts (w :: B) = data.puts B := by
  induction B generalizing data with
  | nil => cases later
  | cons b B ih =>
      show ((data.put w.1 w.2).put b.1 b.2).puts B = (data.put b.1 b.2).puts B
      by_cases same : b.1 = w.1
      · rw [same]
        congr 1
        cases data with
        | element tag own => exact congrArg (element tag) (Value.putField_putField ..)
        | text | comment | fragment | doctype => rfl
      · have swap : (data.put w.1 w.2).put b.1 b.2 = (data.put b.1 b.2).put w.1 w.2 := by
          cases data with
          | element tag own =>
              refine congrArg (element tag) (Value.putField_comm same _ _ ?_)
              rcases there b (by simp) with new | old
              · exact .inr ((there w (by simp)).resolve_left fun also => same (new.trans also.symm))
              · exact .inl old
          | text | comment | fragment | doctype => rfl
        rw [swap]
        refine ih ((List.mem_cons.1 later).resolve_left fun h => same h.symm) fun c mem => ?_
        exact (there c (by rcases List.mem_cons.1 mem with rfl | mem <;> simp [*])).imp_right
          (mem_put _)

/-- Writes are forgotten if there are later ones under their names, and at most one name is new. -/
theorem puts_forget (name : String) (later : ∀ a ∈ A, a.1 ∈ B.map Prod.fst)
    (there : ∀ b ∈ A ++ B, b.1 = name ∨ b.1 ∈ data.attributes.map Prod.fst) :
    data.puts (A ++ B) = data.puts B := by
  induction A with
  | nil => rfl
  | cons a A ih =>
      have first : a.1 ∈ (A ++ B).map Prod.fst := by
        rw [List.map_append]
        exact List.mem_append_right _ (later a (by simp))
      refine (puts_cons_of_mem first there).trans ?_
      exact ih (fun x mem => later x (by simp [mem])) fun x mem => there x (List.mem_cons_of_mem a mem)

end Markup.NodeData

/-! ## Changing content -/

namespace Change

/-- The content after several changes. -/
def onAll (changes : List Change) (content : List (NodeTree Unit)) : List (NodeTree Unit) :=
  changes.foldl (fun content c => c.on content) content

variable {A B : List Change} {content : List (NodeTree Unit)}

@[simp] theorem onAll_append (A B : List Change) (content : List (NodeTree Unit)) :
    onAll (A ++ B) content = onAll B (onAll A content) :=
  List.foldl_append

/-- Whether a change shows a text. -/
def isText : Change → Bool
  | text _ => true
  | _ => false

/-- Whether a change gives the content up. -/
def isSet : Change → Bool
  | set _ => true
  | _ => false

/-- Texts that are shown leave at most one text node. -/
theorem onAll_texts (texts : ∀ c ∈ A, c.isText = true)
    (plain : content = [] ∨ ∃ words, content = [.node () (.text words) []]) :
    onAll A content = [] ∨ ∃ words, onAll A content = [.node () (.text words) []] := by
  induction A generalizing content with
  | nil => exact plain
  | cons c A ih =>
      refine ih (fun x mem => texts x (by simp [mem])) ?_
      have first := texts c (by simp)
      cases c with
      | set trees | add trees => cases first
      | text words => rcases plain with rfl | ⟨old, rfl⟩ <;> exact .inr ⟨words, rfl⟩

/-- The last of several texts is shown. -/
theorem onAll_forget_texts (texts : ∀ c ∈ A ++ B, c.isText = true) (some : B ≠ []) :
    onAll (A ++ B) [] = onAll B [] := by
  obtain ⟨c, B, rfl⟩ := List.exists_cons_of_ne_nil some
  rw [onAll_append]
  show onAll B (c.on (onAll A [])) = onAll B (c.on [])
  have plain := onAll_texts (A := A) (fun x mem => texts x (by simp [mem])) (.inl rfl)
  have first := texts c (by simp)
  cases c with
  | set trees | add trees => cases first
  | text words =>
      rcases plain with none | ⟨old, one⟩
      · rw [none]
      · rw [one]
        rfl

/-- Changes begin anew: the first of them, if there is one, gives the content up. -/
def Anew (changes : List Change) : Prop := ∀ c ∈ changes.head?, c.isSet = true

theorem Anew.nothing : Anew [] := nofun

theorem Anew.append (h : Anew A) (k : Anew B) : Anew (A ++ B) := by
  cases A with
  | nil => exact k
  | cons c A => exact h

/-- What is given up does not matter. -/
theorem Anew.forget (h : Anew B) (some : B ≠ []) (A : List Change) :
    onAll (A ++ B) [] = onAll B [] := by
  obtain ⟨c, B, rfl⟩ := List.exists_cons_of_ne_nil some
  have first := h c rfl
  rw [onAll_append]
  cases c with
  | set trees => rfl
  | text words | add trees => cases first

end Change

/-! ## The strokes at a host -/

/-- The write that a stroke does at a host. -/
def Stroke.write? (x : NodeId) : Stroke → Option (String × Value)
  | write host name value => if host = x then some (name, value) else none
  | _ => none

/-- The change that a stroke does at a host. -/
def Stroke.change? (x : NodeId) : Stroke → Option Change
  | change host c => if host = x then some c else none
  | _ => none

/-- The writes of a script at a host. -/
def writesAt (script : List Stroke) (x : NodeId) : List (String × Value) :=
  script.filterMap (Stroke.write? x)

/-- The changes of a script at a host. -/
def changesAt (script : List Stroke) (x : NodeId) : List Change :=
  script.filterMap (Stroke.change? x)

/-- What a script leaves in a host that has no content, if it changes that at all. -/
def contentAt (script : List Stroke) (x : NodeId) : Option (List (NodeTree Unit)) :=
  match changesAt script x with
  | [] => none
  | c :: changes => some (Change.onAll (c :: changes) [])

section

variable {script more : List Stroke} {x y : NodeId} {name : String} {value : Value} {c : Change}

@[simp] theorem writesAt_append : writesAt (script ++ more) x = writesAt script x ++ writesAt more x :=
  List.filterMap_append

@[simp] theorem changesAt_append :
    changesAt (script ++ more) x = changesAt script x ++ changesAt more x :=
  List.filterMap_append

/-- Strokes that do not write to a host leave what is written there. -/
theorem puts_writesAt_append (none : writesAt more x = []) :
    NodeData.puts (writesAt (script ++ more) x) = NodeData.puts (writesAt script x) := by
  rw [writesAt_append, none, List.append_nil]

theorem writesAt_write (host x : NodeId) (name : String) (value : Value) :
    writesAt [.write host name value] x = if host = x then [(name, value)] else [] := by
  rw [writesAt, List.filterMap_cons, Stroke.write?]
  split <;> simp_all

theorem mem_writesAt : (name, value) ∈ writesAt script x ↔ .write x name value ∈ script := by
  rw [writesAt, List.mem_filterMap]
  constructor
  · rintro ⟨k, mem, found⟩
    cases k with
    | write host own v =>
        obtain ⟨rfl, same⟩ := Option.ite_none_right_eq_some.1 found
        cases same
        exact mem
    | change | report => cases found
  · exact fun mem => ⟨_, mem, if_pos rfl⟩

theorem mem_changesAt : c ∈ changesAt script x ↔ .change x c ∈ script := by
  rw [changesAt, List.mem_filterMap]
  constructor
  · rintro ⟨k, mem, found⟩
    cases k with
    | change host own =>
        obtain ⟨rfl, same⟩ := Option.ite_none_right_eq_some.1 found
        cases same
        exact mem
    | write | report => cases found
  · exact fun mem => ⟨_, mem, if_pos rfl⟩

theorem changesAt_eq_nil : changesAt script x = [] ↔ ∀ c, .change x c ∉ script := by
  simp only [List.eq_nil_iff_forall_not_mem, mem_changesAt]

/-- A change of a host comes before the others. -/
theorem changesAt_cons (x : NodeId) (c : Change) (script : List Stroke) :
    changesAt (.change x c :: script) x = c :: changesAt script x := by
  simp [changesAt, Stroke.change?]

/-- The last change is done to what was left before. -/
theorem contentAt_change (script : List Stroke) (x : NodeId) (c : Change) :
    contentAt (script ++ [.change x c]) x = some (c.on ((contentAt script x).getD [])) := by
  have last : changesAt [.change x c] x = [c] := by
    simp [changesAt, Stroke.change?]
  rw [contentAt, contentAt, changesAt_append, last]
  cases changesAt script x with
  | nil => rfl
  | cons first changes =>
      exact congrArg some (Change.onAll_append (first :: changes) [c] [])

/-- Strokes that change other hosts leave a host as it is. -/
theorem contentAt_append (none : changesAt more x = []) :
    contentAt (script ++ more) x = contentAt script x := by
  rw [contentAt, contentAt, changesAt_append, none, List.append_nil]

theorem contentAt_of_ne_nil (some : changesAt script x ≠ []) :
    contentAt script x = .some (Change.onAll (changesAt script x) []) := by
  obtain ⟨c, changes, same⟩ := List.exists_cons_of_ne_nil some
  rw [contentAt, same]

/-- Later strokes hide what earlier ones have left in a host, if they change its content whenever
those do, and either texts alone are shown or the content is given up. -/
theorem contentAt_forget (still : changesAt more x = [] → changesAt script x = [])
    (hides : (∀ c ∈ changesAt (script ++ more) x, c.isText = true) ∨ Change.Anew (changesAt more x)) :
    contentAt (script ++ more) x = contentAt more x := by
  by_cases none : changesAt more x = []
  · rw [contentAt, contentAt, changesAt_append, none, still none, List.append_nil]
  · have some : changesAt (script ++ more) x ≠ [] := by
      rw [changesAt_append]
      exact List.append_ne_nil_of_right_ne_nil _ none
    rw [contentAt_of_ne_nil none, contentAt_of_ne_nil some, changesAt_append]
    rw [changesAt_append] at hides
    rcases hides with texts | anew
    · rw [Change.onAll_forget_texts texts none]
    · rw [anew.forget none]

end

/-! ## Ink -/

namespace Sketch

variable {data data' : NodeId → NodeData → NodeData}
  {content content' : NodeId → Option (List (NodeTree Unit))} {x : NodeId}

mutual

/-- The tree with other data and content at its hosts. -/
def ink (data : NodeId → NodeData → NodeData) (content : NodeId → Option (List (NodeTree Unit))) :
    Sketch → Sketch
  | .node none own children => .node none own (inkAll data content children)
  | .node (some x) own children =>
      .node (some x) (data x own)
        (((content x).map unnumbered).getD (inkAll data content children))

def inkAll (data : NodeId → NodeData → NodeData)
    (content : NodeId → Option (List (NodeTree Unit))) : List Sketch → List Sketch
  | [] => []
  | s :: ss => ink data content s :: inkAll data content ss

end

mutual

theorem ink_self : (s : Sketch) → s.ink (fun _ own => own) (fun _ => none) = s
  | .node none own children => by rw [ink, inkAll_self children]
  | .node (some x) own children => by rw [ink, Option.map_none, Option.getD_none, inkAll_self children]

theorem inkAll_self : (ss : List Sketch) → inkAll (fun _ own => own) (fun _ => none) ss = ss
  | [] => rfl
  | s :: ss => by rw [inkAll, ink_self s, inkAll_self ss]

end

mutual

/-- What is made of a tree depends on its hosts. -/
theorem ink_congr (p : Option (Option NodeId)) : (s : Sketch) →
    (∀ q t x, Within p s q t → t.label = some x →
      data x t.data = data' x t.data ∧ content x = content' x) →
    s.ink data content = s.ink data' content'
  | .node none own children, same => by
      rw [ink, ink, inkAll_congr (some none) children fun c mem q t x inside =>
        same q t x ((Within.self.child mem).trans inside)]
  | .node (some x) own children, same => by
      obtain ⟨first, second⟩ := same p _ x .self rfl
      rw [ink, ink, ← second, inkAll_congr (some (some x)) children fun c mem q t y inside =>
        same q t y ((Within.self.child mem).trans inside)]
      exact congrArg (fun own => NodeTree.node (some x) own _) first

theorem inkAll_congr (p : Option (Option NodeId)) : (ss : List Sketch) →
    (∀ c ∈ ss, ∀ q t x, Within p c q t → t.label = some x →
      data x t.data = data' x t.data ∧ content x = content' x) →
    inkAll data content ss = inkAll data' content' ss
  | [], _ => rfl
  | s :: ss, same => by
      rw [inkAll, inkAll, ink_congr p s (same s (by simp)),
        inkAll_congr p ss fun c mem => same c (by simp [mem])]

end

theorem reviseAll_unnumbered (f : Sketch → Sketch) (trees : List (NodeTree Unit)) :
    reviseAll (some x) f (unnumbered trees) = unnumbered trees := by
  refine reviseAll_of_not_mem f _ fun mem => ?_
  cases labels_unnumbered mem

mutual

/-- A write at a host that occurs once. -/
theorem revise_ink_redata (g : NodeData → NodeData) : (s : Sketch) →
    s.labels.count (some x) ≤ 1 →
    (s.ink data content).revise (some x) (redata g) =
      s.ink (Function.update data x (g ∘ data x)) content
  | .node none own children, once => by
      rw [labels_node, List.count_cons] at once
      rw [ink, ink, revise, if_neg nofun, reviseAll_inkAll_redata g children (by omega)]
  | .node (some y) own children, once => by
      rw [labels_node, List.count_cons] at once
      by_cases same : y = x
      · subst same
        rw [ink, ink, revise, if_pos rfl, Function.update_self]
        have alone : some y ∉ labelsAll children := by
          rw [← List.count_eq_zero]
          simpa using once
        have others : inkAll data content children =
            inkAll (Function.update data y (g ∘ data y)) content children := by
          refine inkAll_congr none children fun c mem q t z inside label => ⟨?_, rfl⟩
          rw [Function.update_of_ne]
          rintro rfl
          have listed := labels_subset_labelsAll mem _ inside.label_mem
          rw [label] at listed
          exact alone listed
        rw [others]
        rfl
      · have other : some y ≠ some x := fun h => same (Option.some.inj h)
        rw [ink, ink, revise, if_neg other, Function.update_of_ne same]
        cases content y with
        | some trees => rw [Option.map_some, Option.getD_some, Option.getD_some, reviseAll_unnumbered]
        | none =>
            rw [Option.map_none, Option.getD_none, Option.getD_none,
              reviseAll_inkAll_redata g children (by omega)]

theorem reviseAll_inkAll_redata (g : NodeData → NodeData) : (ss : List Sketch) →
    (labelsAll ss).count (some x) ≤ 1 →
    reviseAll (some x) (redata g) (inkAll data content ss) =
      inkAll (Function.update data x (g ∘ data x)) content ss
  | [], _ => rfl
  | s :: ss, once => by
      rw [labelsAll_cons, List.count_append] at once
      rw [inkAll, inkAll, reviseAll, revise_ink_redata g s (by omega),
        reviseAll_inkAll_redata g ss (by omega)]

end

mutual

/-- A change of the content of a host that has none. -/
theorem revise_ink_refill (c : Change) (p : Option (Option NodeId)) : (s : Sketch) →
    (∀ q t, Within p s q t → t.label = some x → t.children = []) →
    (s.ink data content).revise (some x) (refill c) =
      s.ink data (Function.update content x (some (c.on ((content x).getD []))))
  | .node none own children, empty => by
      rw [ink, ink, revise, if_neg nofun, reviseAll_inkAll_refill c (some none) children
        fun s mem q t inside => empty q t ((Within.self.child mem).trans inside)]
  | .node (some y) own children, empty => by
      by_cases same : y = x
      · subst same
        obtain rfl : children = [] := empty p _ .self rfl
        rw [ink, ink, revise, if_pos rfl, Function.update_self, refill, Option.map_some,
          Option.getD_some]
        cases content y with
        | some trees =>
            rw [Option.map_some, Option.getD_some, Option.getD_some, map_shape_unnumbered]
        | none => rfl
      · have other : some y ≠ some x := fun h => same (Option.some.inj h)
        rw [ink, ink, revise, if_neg other, Function.update_of_ne same]
        cases content y with
        | some trees => rw [Option.map_some, Option.getD_some, Option.getD_some, reviseAll_unnumbered]
        | none =>
            rw [Option.map_none, Option.getD_none, Option.getD_none,
              reviseAll_inkAll_refill c (some (some y)) children fun s mem q t inside =>
                empty q t ((Within.self.child mem).trans inside)]

theorem reviseAll_inkAll_refill (c : Change) (p : Option (Option NodeId)) : (ss : List Sketch) →
    (∀ s ∈ ss, ∀ q t, Within p s q t → t.label = some x → t.children = []) →
    reviseAll (some x) (refill c) (inkAll data content ss) =
      inkAll data (Function.update content x (some (c.on ((content x).getD [])))) ss
  | [], _ => rfl
  | s :: ss, empty => by
      rw [inkAll, inkAll, reviseAll, revise_ink_refill c p s (empty s (by simp)),
        reviseAll_inkAll_refill c p ss fun t mem => empty t (by simp [mem])]

end

/-- Drawing a script is done at one stroke, where hosts occur once and have no content if that
is changed. -/
theorem draw_eq_ink {s : Sketch} {script : List Stroke} (once : ∀ x, s.labels.count (some x) ≤ 1)
    (empty : ∀ x c, .change x c ∈ script →
      ∀ q t, Within none s q t → t.label = some x → t.children = []) :
    s.draw script = s.ink (fun x => NodeData.puts (writesAt script x)) (contentAt script) := by
  induction script using List.reverseRecOn with
  | nil => exact (ink_self s).symm
  | append_singleton script k ih =>
      rw [draw_append, ih fun x c mem => empty x c (by simp [mem])]
      cases k with
      | report entry =>
          have written : (fun x => NodeData.puts (writesAt (script ++ [.report entry]) x)) =
              fun x => NodeData.puts (writesAt script x) :=
            funext fun x => puts_writesAt_append rfl
          have changed : contentAt (script ++ [.report entry]) = contentAt script :=
            funext fun x => contentAt_append rfl
          rw [written, changed]
          rfl
      | write host name value =>
          refine (revise_ink_redata (.put name value) s (once host)).trans ?_
          have changed : contentAt (script ++ [.write host name value]) = contentAt script :=
            funext fun x => contentAt_append rfl
          rw [changed]
          congr 1
          funext x
          by_cases same : x = host
          · subst same
            rw [Function.update_self, writesAt_append, writesAt_write, if_pos rfl]
            exact funext fun own => (NodeData.puts_append _ [(name, value)] own).symm
          · rw [Function.update_of_ne same, puts_writesAt_append]
            rw [writesAt_write, if_neg (Ne.symm same)]
      | change host c =>
          refine (revise_ink_refill c none s (empty host c (by simp))).trans ?_
          have written : (fun x => NodeData.puts (writesAt (script ++ [.change host c]) x)) =
              fun x => NodeData.puts (writesAt script x) :=
            funext fun x => puts_writesAt_append rfl
          rw [written]
          congr 1
          funext x
          by_cases same : x = host
          · subst same
            rw [Function.update_self, contentAt_change]
          · rw [Function.update_of_ne same, contentAt_append]
            simp [changesAt, Stroke.change?, Ne.symm same]

/-- Earlier strokes are forgotten if they leave no trace at any host. -/
theorem draw_forgets {s : Sketch} {A B : List Stroke} (once : ∀ x, s.labels.count (some x) ≤ 1)
    (empty : ∀ x c, .change x c ∈ A ++ B →
      ∀ q t, Within none s q t → t.label = some x → t.children = [])
    (same : ∀ q t x, Within none s q t → t.label = some x →
      t.data.puts (writesAt (A ++ B) x) = t.data.puts (writesAt B x) ∧
        contentAt (A ++ B) x = contentAt B x) :
    s.draw (A ++ B) = s.draw B := by
  rw [draw_eq_ink once empty, draw_eq_ink once fun x c mem => empty x c (by simp [mem])]
  exact ink_congr none s same

end Sketch

end Stencil
