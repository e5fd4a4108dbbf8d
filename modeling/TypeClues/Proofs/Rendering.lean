import TypeClues.Proofs.Texts
import TypeClues.Qualified.Render

/-!
# Texts and what they stand for

An application is written without parentheses of its own, so its text is read from the right: the
last parenthesis closes the argument, and the one that matches it opens it. As long as names have no
parentheses and atoms do not look like variables, a text stands for one term only. The text of a
type is cut at the arrow and at the commas, so there names have to do without these as well. A
single constraint `true` looks like none.
-/
namespace TypeClues

def Avoids (chars : List Char) (name : String) : Prop := ∀ c ∈ chars, c ∉ name.toList

-- named, since looking through all characters there are would decide this as well
instance (chars : List Char) (name : String) : Decidable (Avoids chars name) :=
  List.decidableBAll (fun c => c ∉ name.toList) chars

namespace Term
variable {chars : List Char} {t u : Term}

/-- No name in the term has one of these characters, and no atom begins with an at sign. -/
def Legible (chars : List Char) : Term → Prop
  | .atom a => Avoids chars a ∧ a.toList.head? ≠ some '@'
  | .app f x => f.Legible chars ∧ x.Legible chars
  | .var v => Avoids chars v

instance Legible.decidable (chars : List Char) : (t : Term) → Decidable (t.Legible chars)
  | .atom a => inferInstanceAs (Decidable (Avoids chars a ∧ a.toList.head? ≠ some '@'))
  | .app f x =>
    have := decidable chars f
    have := decidable chars x
    inferInstanceAs (Decidable (f.Legible chars ∧ x.Legible chars))
  | .var v => inferInstanceAs (Decidable (Avoids chars v))

theorem Legible.mono {chars' : List Char} (h : t.Legible chars) (hs : chars' ⊆ chars) :
    t.Legible chars' := by
  induction t with
  | atom a => exact ⟨fun c hc => h.1 c (hs hc), h.2⟩
  | var v => exact fun c hc => h c (hs hc)
  | app f x hf hx => exact ⟨hf h.1, hx h.2⟩

theorem toList_render_atom (a : String) : (atom a).render.toList = a.toList := rfl

theorem toList_render_var (v : String) : (var v).render.toList = '@' :: v.toList := by
  rw [render, String.toList_append]
  rfl

theorem toList_render_app (f x : Term) :
    (app f x).render.toList = f.render.toList ++ [' '] ++ '(' :: (x.render.toList ++ [')']) := by
  simp [render, String.toList_append]

theorem Legible.not_mem_render {c : Char} (h : t.Legible chars) (hc : c ∈ chars)
    (hm : c ∉ ['@', ' ', '(', ')']) : c ∉ t.render.toList := by
  simp only [List.mem_cons, List.not_mem_nil, or_false, not_or] at hm
  obtain ⟨hat, hblank, hopen, hclose⟩ := hm
  induction t with
  | atom a => exact h.1 c hc
  | var v => simpa [toList_render_var, hat] using h c hc
  | app f x hf hx => simp [toList_render_app, hf h.1, hx h.2, hblank, hopen, hclose]

theorem Legible.matched_render (h : t.Legible ['(', ')']) : Matched t.render.toList := by
  induction t with
  | atom a => exact matched_of_not_mem (h.1 '(' (by simp)) (h.1 ')' (by simp))
  | var v =>
    rw [toList_render_var]
    have ho : '(' ∉ v.toList := h '(' (by simp)
    have hc : ')' ∉ v.toList := h ')' (by simp)
    exact matched_of_not_mem (by simp [ho]) (by simp [hc])
  | app f x hf hx =>
    rw [toList_render_app]
    exact ((hf h.1).append (matched_of_not_mem (by decide) (by decide))).append (hx h.2).enclosed

theorem close_mem_render_app (f x : Term) : ')' ∈ (app f x).render.toList := by
  simp [toList_render_app]

theorem Legible.render_atom_ne_var {a v : String} (h : (atom a).Legible chars) :
    (atom a).render.toList ≠ (var v).render.toList := by
  intro he
  apply h.2
  rw [← toList_render_atom, he, toList_render_var]
  rfl

theorem Legible.render_atom_ne_app {a : String} {f x : Term} (h : (atom a).Legible ['(', ')']) :
    (atom a).render.toList ≠ (app f x).render.toList := by
  intro he
  have hc := close_mem_render_app f x
  rw [← he] at hc
  exact h.1 ')' (by simp) hc

theorem Legible.render_var_ne_app {v : String} {f x : Term} (h : (var v).Legible ['(', ')']) :
    (var v).render.toList ≠ (app f x).render.toList := by
  intro he
  have hc := close_mem_render_app f x
  rw [← he, toList_render_var] at hc
  exact h ')' (by simp) (List.mem_of_ne_of_mem (by decide) hc)

/-- The argument of an application is what the last parenthesis closes. -/
theorem Legible.render_app_inj {f x g y : Term} (hx : x.Legible ['(', ')'])
    (hy : y.Legible ['(', ')']) (h : (app f x).render.toList = (app g y).render.toList) :
    f.render.toList = g.render.toList ∧ x.render.toList = y.render.toList := by
  -- without the last parenthesis both texts end in a matched one, where they are cut
  simp only [toList_render_app, ← List.cons_append, ← List.append_assoc] at h
  obtain ⟨hf, ha⟩ := hx.matched_render.append_inj hy.matched_render (List.append_cancel_right h)
  exact ⟨List.append_cancel_right hf, ha⟩

theorem Legible.eq_of_render_eq (ht : t.Legible ['(', ')']) (hu : u.Legible ['(', ')'])
    (h : t.render.toList = u.render.toList) : t = u := by
  induction t generalizing u with
  | atom a =>
    cases u with
    | atom b => exact congrArg atom (String.toList_inj.1 h)
    | var w => exact absurd h ht.render_atom_ne_var
    | app g y => exact absurd h ht.render_atom_ne_app
  | var v =>
    cases u with
    | atom b => exact absurd h.symm hu.render_atom_ne_var
    | var w =>
      rw [toList_render_var, toList_render_var] at h
      exact congrArg var (String.toList_inj.1 (List.cons.inj h).2)
    | app g y => exact absurd h ht.render_var_ne_app
  | app f x hf hx =>
    cases u with
    | atom b => exact absurd h.symm hu.render_atom_ne_app
    | var w => exact absurd h.symm hu.render_var_ne_app
    | app g y =>
      obtain ⟨hfun, harg⟩ := ht.2.render_app_inj hu.2 h
      rw [hf ht.1 hu.1 hfun, hx ht.2 hu.2 harg]

end Term

namespace Qualified
variable {p q : Qualified} {l m : List Term}

/-- The marks in the text of a type that divide it. -/
def marks : List Char := ['(', ')', ',', '=']

/-- No name has a mark, and no atom begins with an at sign. -/
def Legible (q : Qualified) : Prop := ∀ t ∈ q.terms, t.Legible marks

instance (q : Qualified) : Decidable q.Legible :=
  inferInstanceAs (Decidable (∀ t ∈ q.terms, t.Legible marks))

def listed (l : List Term) : List Char :=
  [',', ' '].intercalate (l.map fun t => t.render.toList)

@[simp] theorem listed_singleton (t : Term) : listed [t] = t.render.toList := by simp [listed]

theorem listed_cons_cons (t u : Term) (l : List Term) :
    listed (t :: u :: l) = t.render.toList ++ ',' :: ' ' :: listed (u :: l) := by
  simp [listed, List.intercalate_cons_cons]

theorem equals_not_mem_listed (hl : ∀ t ∈ l, t.Legible marks) : '=' ∉ listed l := by
  induction l with
  | nil => simp [listed]
  | cons t l ih =>
    have ht : '=' ∉ t.render.toList :=
      (hl t List.mem_cons_self).not_mem_render (by decide) (by decide)
    cases l with
    | nil => simpa using ht
    | cons u l => simp [listed_cons_cons, ht, ih fun v hv => hl v (List.mem_cons_of_mem t hv)]

/-- A list of terms without commas in them is cut at the commas. -/
theorem listed_inj (hl : ∀ t ∈ l, t.Legible marks) (hm : ∀ t ∈ m, t.Legible marks)
    (hl₀ : l ≠ []) (hm₀ : m ≠ []) (h : listed l = listed m) : l = m := by
  induction l generalizing m with
  | nil => exact absurd rfl hl₀
  | cons t l ih =>
    obtain ⟨u, m, rfl⟩ := List.exists_cons_of_ne_nil hm₀
    have ht := hl t List.mem_cons_self
    have hu := hm u List.mem_cons_self
    have htc : ',' ∉ t.render.toList := ht.not_mem_render (by decide) (by decide)
    have huc : ',' ∉ u.render.toList := hu.not_mem_render (by decide) (by decide)
    have heq : t.render.toList = u.render.toList → t = u :=
      (ht.mono (by decide)).eq_of_render_eq (hu.mono (by decide))
    cases l with
    | nil =>
      cases m with
      | nil => rw [heq (by simpa using h)]
      | cons u' m =>
        rw [listed_singleton, listed_cons_cons] at h
        exact absurd (by simp [h]) htc
    | cons t' l =>
      cases m with
      | nil =>
        rw [listed_singleton, listed_cons_cons] at h
        exact absurd (by simp [← h]) huc
      | cons u' m =>
        rw [listed_cons_cons, listed_cons_cons] at h
        obtain ⟨hhead, htail⟩ := append_cons_inj_of_not_mem_left htc huc h
        rw [heq hhead, ih (fun v hv => hl v (List.mem_cons_of_mem t hv))
          (fun v hv => hm v (List.mem_cons_of_mem u hv)) (List.cons_ne_nil t' l)
          (List.cons_ne_nil u' m) (List.cons.inj htail).2]

/-- The constraints as they are shown; where there are none, one that is true. -/
def shown : List Term → List Term
  | [] => [.atom "true"]
  | t :: l => t :: l

theorem shown_ne_nil (l : List Term) : shown l ≠ [] := by
  cases l <;> exact List.cons_ne_nil _ _

theorem legible_of_mem_shown (hl : ∀ t ∈ l, t.Legible marks) : ∀ t ∈ shown l, t.Legible marks := by
  cases l with
  | nil =>
    intro t ht
    obtain rfl := List.mem_singleton.1 ht
    decide
  | cons u l => exact hl

theorem shown_inj (hl : l ≠ [.atom "true"]) (hm : m ≠ [.atom "true"]) (h : shown l = shown m) :
    l = m := by
  cases l with
  | nil =>
    cases m with
    | nil => rfl
    | cons u m => exact absurd h.symm hm
  | cons t l =>
    cases m with
    | nil => exact absurd h hl
    | cons u m => exact h

theorem toList_render (q : Qualified) :
    q.render.toList = listed (shown q.constraints.toList) ++ [' '] ++ '=' :: '>' :: ' ' ::
      q.term.render.toList := by
  rw [render]
  cases q.constraints.toList with
  | nil => simp [shown, Term.render]
  | cons t l => simp [shown, listed, String.toList_intercalate, Function.comp_def]

/-- The text of a type is cut at the arrow. -/
theorem Legible.render_inj (hp : p.Legible) (hq : q.Legible)
    (h : p.render.toList = q.render.toList) :
    shown p.constraints.toList = shown q.constraints.toList ∧ p.term = q.term := by
  have hpc : ∀ t ∈ shown p.constraints.toList, t.Legible marks :=
    legible_of_mem_shown fun t ht => hp t (by simp [terms, ht])
  have hqc : ∀ t ∈ shown q.constraints.toList, t.Legible marks :=
    legible_of_mem_shown fun t ht => hq t (by simp [terms, ht])
  have hpt : p.term.Legible ['(', ')'] := (hp p.term (by simp [terms])).mono (by decide)
  have hqt : q.term.Legible ['(', ')'] := (hq q.term (by simp [terms])).mono (by decide)
  rw [toList_render, toList_render] at h
  obtain ⟨hc, ht⟩ := append_cons_inj_of_not_mem_left (by simp [equals_not_mem_listed hpc])
    (by simp [equals_not_mem_listed hqc]) h
  constructor
  · exact listed_inj hpc hqc (shown_ne_nil _) (shown_ne_nil _) (List.append_cancel_right hc)
  · exact hpt.eq_of_render_eq hqt (List.cons.inj (List.cons.inj ht).2).2

end Qualified

/-- Terms have the same text only if they are equal, provided that no name has a parenthesis and no
atom begins with an at sign. So have types, provided that no name has a comma or an equals sign
either and that neither type has the single constraint `true`. -/
theorem render_eq_iff :
    (∀ t u : Term, t.Legible ['(', ')'] → u.Legible ['(', ')'] → (t.render = u.render ↔ t = u)) ∧
    ∀ p q : Qualified, p.Legible → q.Legible →
      p.constraints.toList ≠ [.atom "true"] → q.constraints.toList ≠ [.atom "true"] →
      (p.render = q.render ↔ p = q) := by
  constructor
  · intro t u ht hu
    refine ⟨fun h => ht.eq_of_render_eq hu (congrArg String.toList h), congrArg Term.render⟩
  · intro p q hp hq hp₁ hq₁
    refine ⟨fun h => ?_, congrArg Qualified.render⟩
    obtain ⟨hc, ht⟩ := hp.render_inj hq (congrArg String.toList h)
    have hl := Qualified.shown_inj hp₁ hq₁ hc
    obtain ⟨⟨l, hasc⟩, t⟩ := p
    obtain ⟨⟨m, hasc'⟩, u⟩ := q
    subst hl ht
    rfl

/-- Two arguments look different from one that is an application, and a constraint `true` beside
another one shows. -/
theorem render_eq_iff_nested :
    let t := Term.app (.app (.atom "F") (.atom "A")) (.var "b c")
    let u := Term.app (.atom "F") (.app (.atom "A") (.var "b c"))
    let q := Qualified.of [.atom "true", t] u
    t.Legible ['(', ')'] ∧ u.Legible ['(', ')'] ∧ t.render ≠ u.render ∧
      q.Legible ∧ (Qualified.plain u).Legible ∧ q.render ≠ (Qualified.plain u).render := by
  intro t u q
  have ht : t.Legible ['(', ')'] := by decide
  have hu : u.Legible ['(', ')'] := by decide
  have hq : q.Legible := by decide +kernel
  have hp : (Qualified.plain u).Legible := by decide
  refine ⟨ht, hu, fun h => ?_, hq, hp, fun h => ?_⟩
  · exact absurd ((render_eq_iff.1 t u ht hu).1 h) (by decide)
  · have he := (render_eq_iff.2 q _ hq hp (by decide +kernel) (by decide)).1 h
    exact absurd (congrArg (fun q => q.constraints.size) he) (by decide +kernel)

example (t : Term) : (Qualified.of [.atom "true"] t).render = (Qualified.plain t).render := rfl

end TypeClues
