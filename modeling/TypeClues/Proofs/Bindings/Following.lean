import TypeClues.Proofs.Bindings.Solutions

/-!
# Following bindings without a bound

What it means to follow bindings with no limit on the number of steps, as rules: a result has a
derivation only if the recursion ends. On acyclic bindings every term has exactly one result, and it
is the answer of the function that stops after as many steps as there are bindings.
-/
namespace TypeClues.Bindings

/-- Bound variables at the head of a term are followed. -/
inductive HeadsTo (B : Bindings) : Term → Term → Prop
  | atom (a : String) : HeadsTo B (.atom a) (.atom a)
  | app (f x : Term) : HeadsTo B (.app f x) (.app f x)
  | free {v : String} (hv : B.get? v = none) : HeadsTo B (.var v) (.var v)
  | bound {v : String} {t u : Term} (hv : B.get? v = some t) (ht : HeadsTo B t u) :
      HeadsTo B (.var v) u

/-- Bound variables are replaced wherever they stand. -/
inductive SubstitutesTo (B : Bindings) : Term → Term → Prop
  | atom (a : String) : SubstitutesTo B (.atom a) (.atom a)
  | app {f x f' x' : Term} (hf : SubstitutesTo B f f') (hx : SubstitutesTo B x x') :
      SubstitutesTo B (.app f x) (.app f' x')
  | free {v : String} (hv : B.get? v = none) : SubstitutesTo B (.var v) (.var v)
  | bound {v : String} {t u : Term} (hv : B.get? v = some t) (ht : SubstitutesTo B t u) :
      SubstitutesTo B (.var v) u

/-- The variable `v` is looked for from left to right, behind bindings too. The first occurrence
ends the search with `here`, which `behind` takes past each binding on the way back. -/
inductive Search {α : Type} (B : Bindings) (v : String) (here : α)
    (behind : String → Term → α → α) : Term → Option α → Prop
  | atom (a : String) : Search B v here behind (.atom a) none
  | here : Search B v here behind (.var v) (some here)
  | free {w : String} (hw : w ≠ v) (hn : B.get? w = none) : Search B v here behind (.var w) none
  | bound {w : String} {u : Term} {r : Option α} (hw : w ≠ v) (hu : B.get? w = some u)
      (hr : Search B v here behind u r) : Search B v here behind (.var w) (r.map (behind w u))
  | function {f : Term} {a : α} (hf : Search B v here behind f (some a)) (x : Term) :
      Search B v here behind (.app f x) (some a)
  | argument {f x : Term} {r : Option α} (hf : Search B v here behind f none)
      (hx : Search B v here behind x r) : Search B v here behind (.app f x) r

abbrev SearchStory (B : Bindings) (v : String) : Term → Option (List Step) → Prop :=
  B.Search v [.occurrence] fun w u story => story ++ [.behind w u]

abbrev SearchAny (B : Bindings) (v : String) : Term → Option Unit → Prop :=
  B.Search v () fun _ _ _ => ()

variable {B : Bindings}

/-- Induction along terms and bindings: what holds of the term that a variable is bound to may be
used for the variable. -/
theorem Acyclic.induct (hB : B.Acyclic) {motive : Term → Prop} (atom : ∀ a, motive (.atom a))
    (app : ∀ f x, motive f → motive x → motive (.app f x))
    (free : ∀ v, B.get? v = none → motive (.var v))
    (bound : ∀ v u, B.get? v = some u → motive u → motive (.var v)) (t : Term) : motive t := by
  obtain ⟨r, hr⟩ := hB
  have ofVars (t : Term) (ht : ∀ v ∈ t.vars, motive (.var v)) : motive t := by
    induction t with
    | atom a => exact atom a
    | var v => exact ht v (by simp)
    | app f x hf hx =>
      apply app
      · exact hf fun v hv => ht v (by simp [hv])
      · exact hx fun v hv => ht v (by simp [hv])
  have ofRank (n : Nat) : ∀ v, r v < n → motive (.var v) := by
    induction n with
    | zero => omega
    | succ n ih =>
      intro v hv
      cases hu : B.get? v with
      | none => exact free v hu
      | some u =>
        apply bound v u hu
        apply ofVars
        intro w hw
        have hlt := hr v w ⟨u, hu, hw⟩
        exact ih w (by omega)
  exact ofVars t fun v _ => ofRank (r v + 1) v (by omega)

/-! ## Heads -/

@[simp] theorem head_atom (B : Bindings) (a : String) : B.head (.atom a) = .atom a := by
  simp [head, headWithin]

@[simp] theorem head_app (B : Bindings) (f x : Term) : B.head (.app f x) = .app f x := by
  simp [head, headWithin]

theorem head_of_free {v : String} (hv : B.get? v = none) : B.head (.var v) = .var v := by
  rw [head]
  cases B.length with
  | zero => rfl
  | succ n => rw [headWithin, hv]

private theorem headWithin_succ {r : String → Nat} (h : B.Ranks r) {n : Nat} {t : Term}
    (hn : ∀ v ∈ t.vars, B.level r v ≤ n) : B.headWithin (n + 1) t = B.headWithin n t := by
  induction n generalizing t with
  | zero =>
    cases t with
    | atom a => rfl
    | app f x => rfl
    | var v =>
      rw [headWithin, get?_eq_none_of_level (hn v (by simp))]
      rfl
  | succ n ih =>
    cases t with
    | atom a => rfl
    | app f x => rfl
    | var v =>
      rw [headWithin, headWithin]
      cases hu : B.get? v with
      | none => rfl
      | some u => exact ih (h.level_le_of_get? hu (hn v (by simp)))

theorem head_of_bound (hB : B.Acyclic) {v : String} {u : Term} (hv : B.get? v = some u) :
    B.head (.var v) = B.head u := by
  obtain ⟨r, hr⟩ := hB
  rw [head, head, ← headWithin_succ hr fun w _ => level_le_length B r w, headWithin, hv]

theorem headsTo_iff (hB : B.Acyclic) {t u : Term} : B.HeadsTo t u ↔ u = B.head t := by
  constructor
  · intro h
    induction h with
    | atom a => simp
    | app f x => simp
    | free hv => rw [head_of_free hv]
    | bound hv _ ih => rw [head_of_bound hB hv, ih]
  · rintro rfl
    induction t using hB.induct with
    | atom a => simpa using .atom a
    | app f x => simpa using .app f x
    | free v hv =>
      rw [head_of_free hv]
      exact .free hv
    | bound v u hv ih =>
      rw [head_of_bound hB hv]
      exact .bound hv ih

/-! ## Replacement -/

theorem substitute_atom (hB : B.Acyclic) (a : String) : B.substitute (.atom a) = .atom a := by
  rw [← subst_solution hB, Term.subst_atom]

theorem substitute_app (hB : B.Acyclic) (f x : Term) :
    B.substitute (.app f x) = .app (B.substitute f) (B.substitute x) := by
  rw [← subst_solution hB, Term.subst_app, subst_solution hB, subst_solution hB]

theorem substitute_of_free (hB : B.Acyclic) {v : String} (hv : B.get? v = none) :
    B.substitute (.var v) = .var v := solution_of_free hB hv

theorem substitute_of_bound (hB : B.Acyclic) {v : String} {u : Term} (hv : B.get? v = some u) :
    B.substitute (.var v) = B.substitute u := solution_of_get? hB hv

theorem substitutesTo_iff (hB : B.Acyclic) {t u : Term} :
    B.SubstitutesTo t u ↔ u = B.substitute t := by
  constructor
  · intro h
    induction h with
    | atom a => rw [substitute_atom hB]
    | app _ _ hf hx => rw [substitute_app hB, hf, hx]
    | free hv => rw [substitute_of_free hB hv]
    | bound hv _ ih => rw [substitute_of_bound hB hv, ih]
  · rintro rfl
    induction t using hB.induct with
    | atom a =>
      rw [substitute_atom hB]
      exact .atom a
    | app f x hf hx =>
      rw [substitute_app hB]
      exact .app hf hx
    | free v hv =>
      rw [substitute_of_free hB hv]
      exact .free hv
    | bound v u hv ih =>
      rw [substitute_of_bound hB hv]
      exact .bound hv ih

/-! ## Searches -/

/-- A function that goes on as the rules say computes the result of the search. -/
theorem search_iff {α : Type} {v : String} {here : α} {behind : String → Term → α → α}
    (hB : B.Acyclic) (find : Term → Option α) (hatom : ∀ a, find (.atom a) = none)
    (happ : ∀ f x, find (.app f x) = (find f).or (find x)) (hhere : find (.var v) = some here)
    (hfree : ∀ w, w ≠ v → B.get? w = none → find (.var w) = none)
    (hbound : ∀ w u, w ≠ v → B.get? w = some u → find (.var w) = (find u).map (behind w u))
    {t : Term} {r : Option α} : B.Search v here behind t r ↔ r = find t := by
  constructor
  · intro h
    induction h with
    | atom a => rw [hatom]
    | here => rw [hhere]
    | free hw hn => rw [hfree _ hw hn]
    | bound hw hu _ ih => rw [hbound _ _ hw hu, ih]
    | function _ x ih => rw [happ, ← ih, Option.some_or]
    | argument _ _ hf hx => rw [happ, ← hf, Option.none_or, hx]
  · rintro rfl
    induction t using hB.induct with
    | atom a =>
      rw [hatom]
      exact .atom a
    | app f x hf hx =>
      rw [happ]
      cases h : find f with
      | none =>
        rw [h] at hf
        exact .argument hf hx
      | some a =>
        rw [h] at hf
        exact .function hf x
    | free w hn =>
      by_cases hw : w = v
      · subst hw
        rw [hhere]
        exact .here
      · rw [hfree w hw hn]
        exact .free hw hn
    | bound w u hu ih =>
      by_cases hw : w = v
      · subst hw
        rw [hhere]
        exact .here
      · rw [hbound w u hw hu]
        exact .bound hw hu ih

private theorem findSome?_congr_mem {α β : Type} {f g : α → Option β} {l : List α}
    (h : ∀ a ∈ l, f a = g a) : l.findSome? f = l.findSome? g := by
  induction l with
  | nil => rfl
  | cons a l ih =>
    rw [List.findSome?_cons, List.findSome?_cons, h a (by simp), ih fun b hb => h b (by simp [hb])]

private theorem occurrenceWithin?_succ {r : String → Nat} (h : B.Ranks r) {x : String} {n : Nat}
    {t : Term} (hn : ∀ v ∈ t.vars, B.level r v ≤ n) :
    B.occurrenceWithin? x (n + 1) t = B.occurrenceWithin? x n t := by
  induction n generalizing t with
  | zero =>
    apply findSome?_congr_mem
    intro v hv
    rw [get?_eq_none_of_level (hn v hv)]
  | succ n ih =>
    apply findSome?_congr_mem
    intro v hv
    cases hu : B.get? v with
    | none => rfl
    | some u =>
      have hi : B.occurrenceWithin? x (n + 1) u = B.occurrenceWithin? x n u :=
        ih (h.level_le_of_get? hu (hn v hv))
      simp only [hi]

@[simp] theorem occurrence?_atom (B : Bindings) (v a : String) :
    B.occurrence? v (.atom a) = none := by
  rw [occurrence?]
  cases B.length with
  | zero => rfl
  | succ n => rfl

theorem occurrence?_app (B : Bindings) (v : String) (f x : Term) :
    B.occurrence? v (.app f x) = (B.occurrence? v f).or (B.occurrence? v x) := by
  rw [occurrence?, occurrence?, occurrence?]
  cases B.length with
  | zero => exact List.findSome?_append
  | succ n => exact List.findSome?_append

theorem occurrence?_self (B : Bindings) (v : String) :
    B.occurrence? v (.var v) = some [.occurrence] := by
  rw [occurrence?]
  cases B.length with
  | zero => simp [occurrenceWithin?]
  | succ n => simp [occurrenceWithin?]

theorem occurrence?_of_free {v w : String} (hw : w ≠ v) (hn : B.get? w = none) :
    B.occurrence? v (.var w) = none := by
  rw [occurrence?]
  cases B.length with
  | zero => simp [occurrenceWithin?, hw]
  | succ n => simp [occurrenceWithin?, hw, hn]

theorem occurrence?_of_bound (hB : B.Acyclic) {v w : String} {u : Term} (hw : w ≠ v)
    (hu : B.get? w = some u) :
    B.occurrence? v (.var w) = (B.occurrence? v u).map (· ++ [.behind w u]) := by
  obtain ⟨r, hr⟩ := hB
  rw [occurrence?, ← occurrenceWithin?_succ hr fun w _ => level_le_length B r w]
  simp [occurrenceWithin?, occurrence?, hw, hu]

theorem searchStory_iff (hB : B.Acyclic) {v : String} {t : Term} {r : Option (List Step)} :
    B.SearchStory v t r ↔ r = B.occurrence? v t :=
  search_iff hB (B.occurrence? v) (B.occurrence?_atom v) (B.occurrence?_app v)
    (B.occurrence?_self v) (fun _ => occurrence?_of_free) fun _ _ => occurrence?_of_bound hB

theorem searchAny_iff (hB : B.Acyclic) {v : String} {t : Term} {r : Option Unit} :
    B.SearchAny v t r ↔ r.isSome = B.occurs v t := by
  have hs : B.SearchAny v t r ↔ r = (B.occurrence? v t).map fun _ => () := by
    apply search_iff hB fun t => (B.occurrence? v t).map fun _ => ()
    · simp
    · simp [occurrence?_app, Option.map_or]
    · simp [occurrence?_self]
    · intro w hw hn
      simp [occurrence?_of_free hw hn]
    · intro w u hw hu
      rw [occurrence?_of_bound hB hw hu, Option.map_map, Option.map_map]
      rfl
  have ho : (B.occurrence? v t).isSome = B.occurs v t := isSome_occurrenceWithin? B v _ t
  rw [hs, ← ho]
  cases r <;> cases B.occurrence? v t <;> simp

end TypeClues.Bindings
