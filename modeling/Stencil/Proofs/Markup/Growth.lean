import Stencil.Proofs.Document.Standing
import Stencil.Proofs.Markup.Parse

/-! # Grown trees

Whatever tokens are read, every tree that grows from them fits a document: no fragment is
in it, only elements have children, and the attribute names of an element are distinct.
-/

namespace Stencil.Markup

open NodeTree

namespace OpenElement

/-- An open element with distinct attribute names and children that fit. -/
def Fits (e : OpenElement) : Prop :=
  View.AttributesDistinct (.element e.name e.attributes) ∧ FitAll e.children

theorem Fits.close {e : OpenElement} (h : e.Fits) : e.close.data ≠ .fragment ∧ e.close.Fits := by
  refine ⟨nofun, h.1, fun _ => rfl, fitAll_iff.2 fun t mem => ?_⟩
  exact fitAll_iff.1 h.2 t (List.mem_reverse.1 mem)

end OpenElement

namespace Growth

/-! ## Open elements -/

/-- The names of the open elements, innermost first. -/
def names (g : Growth) : List String := g.opened.map OpenElement.name

theorem names_add (g : Growth) (t : NodeTree Unit) : (g.add t).names = g.names := by
  cases hg : g.opened <;> simp [add, names, hg]

theorem names_closeTop (g : Growth) : g.closeTop.names = g.names.tail := by
  cases hg : g.opened with
  | nil => simp [closeTop, names, hg]
  | cons top rest =>
      simp only [closeTop, hg, names_add]
      simp [names, hg]

theorem names_reportTop (g : Growth) : g.reportTop.names = g.names := by
  unfold reportTop
  split
  · rfl
  · split <;> rfl

theorem names_close (g : Growth) (n : Nat) : (g.close n).names = g.names.drop n := by
  induction n generalizing g with
  | zero => rfl
  | succ n ih => rw [close, ih, names_closeTop, List.drop_tail]

theorem names_abandon (g : Growth) (n : Nat) : (g.abandon n).names = g.names.drop n := by
  induction n generalizing g with
  | zero => rfl
  | succ n ih => rw [abandon, ih, names_closeTop, names_reportTop, List.drop_tail]

/-- In the end no element is open. -/
theorem opened_abandon (g : Growth) : (g.abandon g.opened.length).opened = [] := by
  have none_left : (g.abandon g.opened.length).names = [] := by
    rw [names_abandon]
    simp [names]
  exact List.map_eq_nil_iff.1 none_left

/-- The open elements that a tag ends are those before the first that it does not end. -/
theorem names_ended (g : Growth) (p : String → Bool) :
    (g.close (g.opened.takeWhile fun e => p e.name).length).names = g.names.dropWhile p := by
  have split : g.opened.drop (g.opened.takeWhile fun e => p e.name).length =
      g.opened.dropWhile fun e => p e.name := by
    conv => lhs; arg 2; rw [← List.takeWhile_append_dropWhile (p := fun e => p e.name) (l := g.opened)]
    exact List.drop_left
  rw [names_close, names, ← List.map_drop, split, List.dropWhile_map]
  rfl

/-- What the closing of the innermost element keeps, the closing of several keeps. -/
theorem close_keeps {P : Growth → Prop} (closeTop : ∀ {g : Growth}, P g → P g.closeTop) {g : Growth}
    (h : P g) (n : Nat) : P (g.close n) := by
  induction n generalizing g with
  | zero => exact h
  | succ n ih => exact ih (closeTop h)

theorem abandon_keeps {P : Growth → Prop} (closeTop : ∀ {g : Growth}, P g → P g.closeTop)
    (reportTop : ∀ {g : Growth}, P g → P g.reportTop) {g : Growth} (h : P g) (n : Nat) :
    P (g.abandon n) := by
  induction n generalizing g with
  | zero => exact h
  | succ n ih => exact ih (closeTop (reportTop h))

/-! ## Trees that fit -/

/-- All trees grown so far, closed or not, fit. -/
structure Fits (g : Growth) : Prop where
  opened : ∀ e ∈ g.opened, e.Fits
  outer : FitAll g.outer

theorem fits_start : start.Fits := ⟨by simp [start], trivial⟩

variable {g : Growth}

theorem Fits.add (h : g.Fits) {t : NodeTree Unit} (solid : t.data ≠ .fragment) (fits : t.Fits) :
    (g.add t).Fits := by
  cases hg : g.opened with
  | nil =>
      simp only [Growth.add, hg]
      exact ⟨by simp, ⟨solid, fits⟩, h.outer⟩
  | cons top rest =>
      have own := h.opened
      rw [hg] at own
      refine ⟨?_, by simpa [Growth.add, hg] using h.outer⟩
      intro e mem
      simp only [Growth.add, hg, List.mem_cons] at mem
      rcases mem with rfl | mem
      · exact ⟨(own top (by simp)).1, ⟨solid, fits⟩, (own top (by simp)).2⟩
      · exact own e (by simp [mem])

theorem Fits.closeTop (h : g.Fits) : g.closeTop.Fits := by
  cases hg : g.opened with
  | nil => simpa [Growth.closeTop, hg] using h
  | cons top rest =>
      have own := h.opened
      rw [hg] at own
      have closed := (own top (by simp)).close
      have rested : ({ g with opened := rest } : Growth).Fits :=
        ⟨fun e mem => own e (List.mem_cons_of_mem _ mem), h.outer⟩
      simp only [Growth.closeTop, hg]
      exact rested.add closed.1 closed.2

theorem Fits.close (h : g.Fits) (n : Nat) : (g.close n).Fits :=
  close_keeps (P := Fits) Fits.closeTop h n

theorem Fits.reportTop (h : g.Fits) : g.reportTop.Fits := by
  unfold Growth.reportTop
  split
  · exact h
  · split
    · exact h
    · exact ⟨h.opened, h.outer⟩

theorem Fits.abandon (h : g.Fits) (n : Nat) : (g.abandon n).Fits :=
  abandon_keeps (P := Fits) Fits.closeTop Fits.reportTop h n

/-- Of repeated attribute names the first counts, so that all are distinct. -/
theorem firstAttributes_nodup (attributes : List (String × String)) :
    ((firstAttributes attributes).map Prod.fst).Nodup := by
  unfold firstAttributes
  refine List.foldlRecOn (motive := fun kept : List (String × Value) => (kept.map Prod.fst).Nodup)
    attributes _ List.nodup_nil ?_
  intro kept h entry _
  dsimp only
  split
  · exact h
  · rename_i new
    rw [List.map_append, List.nodup_append]
    refine ⟨h, by simp, ?_⟩
    rintro name mem _ hb rfl
    obtain ⟨old, there, rfl⟩ := List.mem_map.1 mem
    rw [List.map_singleton, List.mem_singleton] at hb
    exact new (List.any_eq_true.2 ⟨old, there, by simpa using hb⟩)

/-- A leaf that is no element fits. -/
theorem fits_leaf {data : NodeData} (plain : data.attributes = []) :
    (NodeTree.node () data []).Fits :=
  ⟨by simp [View.AttributesDistinct, plain], fun none_child => (none_child rfl).elim, trivial⟩

theorem fits_step (h : g.Fits) (token : Token) : (g.step token).Fits := by
  cases hl : token.lexeme with
  | text value =>
      simp only [Growth.step, hl]
      exact h.add nofun (fits_leaf rfl)
  | comment value =>
      simp only [Growth.step, hl]
      exact h.add nofun (fits_leaf rfl)
  | doctype value =>
      simp only [Growth.step, hl]
      exact h.add nofun (fits_leaf rfl)
  | openTag name attributes selfClosing =>
      simp only [Growth.step, hl]
      have closed := h.close (g.opened.takeWhile fun e => (TagRules.of e.name).isClosedBy name).length
      have distinct := firstAttributes_nodup attributes
      split
      · exact closed.add nofun ⟨distinct, fun _ => rfl, trivial⟩
      · refine ⟨fun e mem => ?_, closed.outer⟩
        rcases List.mem_cons.1 mem with rfl | mem
        · exact ⟨distinct, trivial⟩
        · exact closed.opened e mem
  | closeTag name =>
      simp only [Growth.step, hl]
      split
      · exact ⟨h.opened, h.outer⟩
      · split
        · exact (h.abandon _).closeTop
        · exact ⟨h.opened, h.outer⟩

theorem fits_run (h : g.Fits) (tokens : List Token) : (tokens.foldl Growth.step g).Fits := by
  induction tokens generalizing g with
  | nil => exact h
  | cons token tokens ih => exact ih (fits_step h token)

end Growth

/-- The trees of any markup fit a document. -/
theorem fitAll_parse (markup : String) : FitAll (parse markup).1 := by
  have grown := (Growth.fits_run Growth.fits_start (tokenize markup).1).abandon
    ((tokenize markup).1.foldl Growth.step Growth.start).opened.length
  simp only [parse]
  exact fitAll_iff.2 fun t mem => fitAll_iff.1 grown.outer t (List.mem_reverse.1 mem)

end Stencil.Markup
