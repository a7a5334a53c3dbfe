import Stencil.Text.Tiles
import Stencil.Text.Cut

/-! # Patterns

Patterns that are matched by backtracking. A pattern lists the ways in which it takes something
off the beginning of a text in the order in which they are tried, and what it matches is the
first way in which the patterns behind it match too. A run of characters is taken as long as
possible if what follows cannot begin inside it.
-/

namespace Stencil.Text

/-- Every way to take something off the beginning of a text, with the text behind it. -/
def Pattern (α : Type) : Type := List Char → List (α × List Char)

namespace Pattern

variable {α β : Type}

/-- What is matched at the beginning of a text. -/
def first? (p : Pattern α) : Reader α := fun cs => (p cs).head?

/-- Takes nothing. -/
def done (a : α) : Pattern α := fun cs => [(a, cs)]

/-- One pattern behind the other. -/
def bind (p : Pattern α) (f : α → Pattern β) : Pattern β := fun cs =>
  (p cs).flatMap fun (a, rest) => f a rest

/-- One pattern before the other is tried. -/
def orElse (p q : Pattern α) : Pattern α := fun cs => p cs ++ q cs

/-- The characters themselves. -/
def exactly (text : List Char) : Pattern (List Char) := fun cs =>
  match after? text cs with
  | some rest => [(text, rest)]
  | none => []

/-- The characters themselves, or nothing. -/
def atMost (text : List Char) : Pattern (List Char) := orElse (exactly text) (done [])

/-- One character of a class. -/
def one (p : Char → Bool) : Pattern Char
  | [] => []
  | c :: cs => if p c then [(c, cs)] else []

/-- Any number of characters of a class, more of them before fewer. -/
def many (p : Char → Bool) : Pattern (List Char)
  | [] => [([], [])]
  | c :: cs =>
      if p c then ((many p cs).map fun (run, rest) => (c :: run, rest)) ++ [([], c :: cs)]
      else [([], c :: cs)]

/-- One character of a class or more. -/
def atLeastOne (p : Char → Bool) : Pattern (List Char) :=
  (one p).bind fun c => (many p).bind fun run => done (c :: run)

variable {p : Pattern α} {f : α → Pattern β} {cs rest : List Char}

theorem first?_done (a : α) (cs : List Char) : (done a).first? cs = some (a, cs) := rfl

theorem first?_bind (p : Pattern α) (f : α → Pattern β) (cs : List Char) :
    (p.bind f).first? cs = (p cs).findSome? fun (a, rest) => (f a).first? rest :=
  List.head?_flatMap

theorem first?_orElse_bind (p q : Pattern α) (f : α → Pattern β) (cs : List Char) :
    ((orElse p q).bind f).first? cs = ((p.bind f).first? cs).or ((q.bind f).first? cs) := by
  rw [first?_bind, first?_bind, first?_bind, orElse, List.findSome?_append]

theorem done_bind (a : α) (f : α → Pattern β) : (done a).bind f = f a :=
  funext fun _ => List.append_nil _

theorem bind_assoc {γ : Type} (p : Pattern α) (f : α → Pattern β) (g : β → Pattern γ) :
    (p.bind f).bind g = p.bind fun a => (f a).bind g :=
  funext fun _ => List.flatMap_assoc

/-- What is made of a match does not change what is matched. -/
theorem first?_bind_done (p : Pattern α) (g : α → β) (cs : List Char) :
    (p.bind fun a => done (g a)).first? cs = (p.first? cs).map fun (a, rest) => (g a, rest) := by
  have ways : (p.bind fun a => done (g a)) cs = (p cs).map fun (a, rest) => (g a, rest) :=
    List.map_eq_flatMap.symm
  rw [first?, ways, List.head?_map, first?]

theorem first?_exactly_bind (text : List Char) (f : List Char → Pattern β) (cs : List Char) :
    ((exactly text).bind f).first? cs = (after? text cs).bind (f text).first? := by
  rw [first?_bind, exactly]
  cases after? text cs with
  | none => rfl
  | some rest => exact List.findSome?_singleton

theorem first?_one_bind_cons {isIn : Char → Bool} {f : Char → Pattern β} (c : Char) (cs : List Char) :
    ((one isIn).bind f).first? (c :: cs) = if isIn c then (f c).first? cs else none := by
  rw [first?_bind, one]
  split
  · exact List.findSome?_singleton
  · rfl

theorem first?_one_bind_nil {isIn : Char → Bool} {f : Char → Pattern β} :
    ((one isIn).bind f).first? [] = none :=
  rfl

section Runs

variable {isIn : Char → Bool} {f : List Char → Pattern β} {c : Char} {cs : List Char}

theorem many_bind_nil : (many isIn).bind f [] = f [] [] := List.append_nil _

theorem many_bind_cons (inside : isIn c = true) :
    (many isIn).bind f (c :: cs) = (many isIn).bind (fun run => f (c :: run)) cs ++ f [] (c :: cs) := by
  rw [Pattern.bind, many, if_pos inside, List.flatMap_append, List.flatMap_map]
  exact congrArg (_ ++ ·) (List.append_nil _)

theorem many_bind_outside (outside : ¬isIn c = true) : (many isIn).bind f (c :: cs) = f [] (c :: cs) := by
  rw [Pattern.bind, many, if_neg outside]
  exact List.append_nil _

/-- A run is as long as possible if nothing that follows begins inside it. -/
theorem first?_many_bind (ends : ∀ run c rest, isIn c = true → (f run).first? (c :: rest) = none)
    (cs : List Char) :
    ((many isIn).bind f).first? cs = (f (cs.takeWhile isIn)).first? (cs.dropWhile isIn) := by
  induction cs generalizing f with
  | nil => rw [first?, many_bind_nil, first?]; rfl
  | cons c cs ih =>
      by_cases inside : isIn c = true
      · have further := ih (f := fun run => f (c :: run)) fun run => ends (c :: run)
        have here := ends [] c cs inside
        rw [first?] at further here
        rw [first?, many_bind_cons inside, List.head?_append, further, here, Option.or_none,
          List.takeWhile_cons_of_pos inside, List.dropWhile_cons_of_pos inside]
      · rw [first?, many_bind_outside inside, List.takeWhile_cons_of_neg inside,
          List.dropWhile_cons_of_neg inside, first?]

theorem first?_atLeastOne_bind (ends : ∀ run c rest, isIn c = true → (f run).first? (c :: rest) = none)
    (cs : List Char) : ((atLeastOne isIn).bind f).first? cs =
      if cs.takeWhile isIn = [] then none
      else (f (cs.takeWhile isIn)).first? (cs.dropWhile isIn) := by
  rw [atLeastOne, bind_assoc]
  simp only [bind_assoc, done_bind]
  cases cs with
  | nil => exact first?_one_bind_nil
  | cons c cs =>
      rw [first?_one_bind_cons]
      split
      · rename_i inside
        rw [first?_many_bind fun run => ends (c :: run), List.takeWhile_cons_of_pos inside,
          List.dropWhile_cons_of_pos inside, if_neg (List.cons_ne_nil _ _)]
      · rename_i outside
        rw [List.takeWhile_cons_of_neg outside, if_pos rfl]

theorem first?_atLeastOne_outside (outside : ¬isIn c = true) :
    ((atLeastOne isIn).bind f).first? (c :: cs) = none := by
  rw [atLeastOne, bind_assoc, first?_one_bind_cons, if_neg outside]

end Runs

end Pattern

end Stencil.Text
