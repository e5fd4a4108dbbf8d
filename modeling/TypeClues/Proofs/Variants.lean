import Mathlib.Data.Set.Function
import TypeClues.Proofs.Canonical

/-!
# Equal up to names

Two terms that are instances of each other differ in the names of their variables only, and these
terms are the ones with equal canonical forms. A type under other names is a variant of it. The
canonical form of a type is a variant, so equivalent types are variants; the converse holds where
the term has all variables of the constraints, since there the term alone decides the numbers. Under
other names a constraint shares variables with the term as before.
-/
namespace TypeClues

theorem distinct_map {f : String → String} {l : List String} (hf : Set.InjOn f {v | v ∈ l}) :
    distinct (l.map f) = (distinct l).map f := by
  induction l with
  | nil => rfl
  | cons v l ih =>
    have hl := ih (hf.mono fun w hw => List.mem_cons_of_mem v hw)
    rw [List.map_cons, distinct, distinct, hl, List.map_cons, List.filter_map]
    congr 2
    apply List.filter_congr
    intro w hw
    have hv : f w = f v ↔ w = v :=
      hf.eq_iff (List.mem_cons_of_mem v (mem_distinct.1 hw)) List.mem_cons_self
    simp [hv]

theorem distinct_append (l m : List String) :
    distinct (l ++ m) = distinct l ++ (distinct m).filter (· ∉ l) := by
  induction l with
  | nil => simp [distinct]
  | cons v l ih =>
    rw [List.cons_append, distinct, ih, distinct, List.filter_append, List.filter_filter,
      List.cons_append]
    congr 3
    funext w
    simp

theorem distinct_append_of_subset {l m : List String} (h : ∀ v ∈ m, v ∈ l) :
    distinct (l ++ m) = distinct l := by
  rw [distinct_append, List.filter_eq_nil_iff.2, List.append_nil]
  intro v hv
  simpa using h v (mem_distinct.1 hv)

theorem bijOn_of_mem_iff {α β : Type} {f : α → β} {s : Set α} {t : Set β} (hf : Set.InjOn f s)
    (h : ∀ b, b ∈ t ↔ ∃ a ∈ s, f a = b) : Set.BijOn f s t := by
  have himage : t = f '' s := Set.ext h
  rw [himage]
  exact hf.bijOn_image

theorem injOn_numbered (l : List String) : Set.InjOn (numbered l) {v | v ∈ l} :=
  fun _ hv _ _ h => (numbered_inj hv).1 h

namespace Term
variable {t u : Term} {f : String → String}

theorem subst_eq_subst_iff {θ φ : Substitution} :
    t.subst θ = t.subst φ ↔ ∀ v ∈ t.vars, θ v = φ v := by
  constructor
  · intro h
    induction t with
    | atom a => simp
    | var v => simpa using h
    | app g x hg hx =>
      obtain ⟨hg', hx'⟩ := app.inj h
      intro v hv
      rcases List.mem_append.1 hv with hv | hv
      · exact hg hg' v hv
      · exact hx hx' v hv
  · exact subst_congr

theorem exists_var_of_subst {θ : Substitution} {v : String} (h : t.subst θ = .var v) :
    ∃ w, t = .var w ∧ θ w = .var v := by
  cases t with
  | atom a => cases h
  | app g x => cases h
  | var w => exact ⟨w, rfl, h⟩

theorem vars_rename (t : Term) (f : String → String) : (t.rename f).vars = t.vars.map f := by
  induction t with
  | atom a => rfl
  | var v => rfl
  | app g x hg hx =>
    change (g.rename f).vars ++ (x.rename f).vars = _
    rw [hg, hx, vars_app, List.map_append]

theorem rename_invFunOn {s : Set String} (hf : Set.InjOn f s) (h : ∀ v ∈ t.vars, v ∈ s) :
    (t.rename f).rename (Function.invFunOn f s) = t := by
  rw [rename, subst_rename]
  refine Eq.trans ?_ (subst_id t)
  apply subst_congr
  intro v hv
  exact congrArg var (hf.leftInvOn_invFunOn (h v hv))

theorem rename_inj {s : Set String} (hf : Set.InjOn f s) (ht : ∀ v ∈ t.vars, v ∈ s)
    (hu : ∀ v ∈ u.vars, v ∈ s) : t.rename f = u.rename f ↔ t = u := by
  constructor
  · intro h
    rw [← rename_invFunOn hf ht, h, rename_invFunOn hf hu]
  · exact congrArg (rename f)

theorem canonical_rename (hf : Set.InjOn f {v | v ∈ t.vars}) :
    (t.rename f).canonical = t.canonical := by
  rw [canonical, canonical, vars_rename, distinct_map hf, rename, subst_rename]
  apply subst_congr
  intro v hv
  rw [numbered_map]
  intro w hw
  exact hf (mem_distinct.1 hw) hv

theorem covers_canonical (t : Term) : t.Covers t.canonical := ⟨_, rfl⟩

theorem canonical_covers (t : Term) : t.canonical.Covers t :=
  ⟨_, (rename_invFunOn (injOn_numbered (distinct t.vars)) fun _ => mem_distinct.2).symm⟩

theorem exists_names {s : Set String} {θ φ : Substitution}
    (h : ∀ v ∈ s, (θ v).subst φ = .var v) :
    ∃ f, Set.InjOn f s ∧ ∀ v ∈ s, θ v = .var (f v) := by
  have hvar : ∀ v, ∃ w, v ∈ s → θ v = .var w ∧ φ w = .var v := by
    intro v
    by_cases hv : v ∈ s
    · obtain ⟨w, hw⟩ := exists_var_of_subst (h v hv)
      exact ⟨w, fun _ => hw⟩
    · exact ⟨v, fun hv' => absurd hv' hv⟩
  choose f hf using hvar
  refine ⟨f, ?_, fun v hv => (hf v hv).1⟩
  intro v hv w hw he
  have hvw : Term.var v = .var w := by rw [← (hf v hv).2, he, (hf w hw).2]
  exact var.inj hvw

/-- Instances of each other are equal up to the names of variables. -/
theorem exists_rename_of_covers (h : t.Covers u) (h' : u.Covers t) :
    ∃ f, Set.InjOn f {v | v ∈ t.vars} ∧ u = t.rename f := by
  obtain ⟨θ, rfl⟩ := h
  obtain ⟨φ, hφ⟩ := h'
  have hback : ∀ v ∈ t.vars, (θ v).subst φ = .var v := by
    apply subst_eq_subst_iff.1
    rw [← subst_subst, ← hφ, subst_id]
  obtain ⟨f, hinj, hf⟩ := exists_names (s := {v | v ∈ t.vars}) hback
  exact ⟨f, hinj, subst_congr hf⟩

/-- Terms have the same canonical form exactly if they are instances of each other. -/
theorem equivalent_iff_covers : t.Equivalent u ↔ t.Covers u ∧ u.Covers t := by
  constructor
  · intro h
    have hcov {t u : Term} (h : t.canonical = u.canonical) : t.Covers u :=
      t.covers_canonical.trans (h ▸ u.canonical_covers)
    exact ⟨hcov h, hcov h.symm⟩
  · rintro ⟨h, h'⟩
    obtain ⟨f, hf, rfl⟩ := exists_rename_of_covers h h'
    exact (canonical_rename hf).symm

/-- Terms have the same canonical form exactly if one is the other under names that keep its
variables apart. -/
theorem equivalent_iff_exists_rename :
    t.Equivalent u ↔ ∃ f, Set.BijOn f {v | v ∈ t.vars} {v | v ∈ u.vars} ∧ u = t.rename f := by
  constructor
  · intro h
    obtain ⟨hcov, hcov'⟩ := equivalent_iff_covers.1 h
    obtain ⟨f, hf, rfl⟩ := exists_rename_of_covers hcov hcov'
    refine ⟨f, bijOn_of_mem_iff hf ?_, rfl⟩
    intro v
    simp [vars_rename]
  · rintro ⟨f, hf, rfl⟩
    exact (canonical_rename hf.injOn).symm

end Term

namespace Qualified
variable {p q r : Qualified} {f : String → String}

@[simp] theorem rename_id (q : Qualified) : q.rename id = q := by
  ext c
  · rw [mem_constraints_rename]
    constructor
    · rintro ⟨d, hd, rfl⟩
      rwa [Term.rename, show (fun v => Term.var (id v)) = Term.var from rfl, Term.subst_id]
    · intro hc
      exact ⟨c, hc, Term.subst_id c⟩
  · exact Term.subst_id q.term

theorem mem_names_of_mem {c : Term} (hc : c ∈ q.constraints) {v : String} (hv : v ∈ c.vars) :
    v ∈ q.names := mem_names.2 (.inr ⟨c, hc, hv⟩)

theorem bijOn_constraints_rename (hf : Set.InjOn f {v | v ∈ q.names}) :
    Set.BijOn (Term.rename f) {c | c ∈ q.constraints} {c | c ∈ (q.rename f).constraints} := by
  refine bijOn_of_mem_iff ?_ fun _ => mem_constraints_rename
  intro c hc d hd
  exact (Term.rename_inj hf (fun v => mem_names_of_mem hc) fun v => mem_names_of_mem hd).1

theorem size_constraints_rename (hf : Set.InjOn f {v | v ∈ q.names}) :
    (q.rename f).constraints.size = q.constraints.size := by
  have hinj : ∀ c ∈ q.constraints.toList, ∀ d ∈ q.constraints.toList,
      c.rename f = d.rename f → c = d := (bijOn_constraints_rename hf).injOn
  have hperm : (q.rename f).constraints.toList.Perm (q.constraints.toList.map (Term.rename f)) := by
    apply (List.perm_ext_iff_of_nodup (OrderedSet.nodup_toList _)
      (q.constraints.nodup_toList.map_on hinj)).2
    intro c
    rw [← OrderedSet.mem_def, mem_constraints_rename, List.mem_map]
    rfl
  rw [OrderedSet.size, hperm.length_eq, List.length_map, OrderedSet.size]

/-- The second type is the first one under other names. -/
def Variant (p q : Qualified) : Prop := ∃ f, Set.InjOn f {v | v ∈ p.names} ∧ q = p.rename f

theorem Variant.refl (q : Qualified) : q.Variant q := ⟨id, Set.injOn_id _, (rename_id q).symm⟩

theorem Variant.symm (h : p.Variant q) : q.Variant p := by
  obtain ⟨f, hf, rfl⟩ := h
  have hinv := hf.leftInvOn_invFunOn
  refine ⟨Function.invFunOn f {v | v ∈ p.names}, ?_, ?_⟩
  · intro v hv w hw he
    obtain ⟨x, hx, rfl⟩ := mem_names_rename.1 hv
    obtain ⟨y, hy, rfl⟩ := mem_names_rename.1 hw
    rw [hinv hx, hinv hy] at he
    rw [he]
  · have hid : p.rename (fun v => Function.invFunOn f {v | v ∈ p.names} (f v)) = p.rename id :=
      rename_congr fun v hv => hinv hv
    rw [rename_rename, hid, rename_id]

theorem Variant.trans (h : p.Variant q) (h' : q.Variant r) : p.Variant r := by
  obtain ⟨f, hf, rfl⟩ := h
  obtain ⟨g, hg, rfl⟩ := h'
  refine ⟨fun v => g (f v), ?_, rename_rename p f g⟩
  intro v hv w hw he
  exact hf hv hw (hg (mem_names_rename.2 ⟨v, hv, rfl⟩) (mem_names_rename.2 ⟨w, hw, rfl⟩) he)

theorem Variant.length_names (h : p.Variant q) : q.names.length = p.names.length := by
  obtain ⟨f, hf, rfl⟩ := h
  have hperm := names_rename_perm fun v hv w hw => hf hv hw
  rw [hperm.length_eq, List.length_map]

theorem Variant.size_constraints (h : p.Variant q) : q.constraints.size = p.constraints.size := by
  obtain ⟨f, hf, rfl⟩ := h
  exact size_constraints_rename hf

theorem variant_renumber (q : Qualified) : q.Variant q.renumber := ⟨_, injOn_numbered q.names, rfl⟩

theorem variant_iterate_renumber (q : Qualified) (k : Nat) : q.Variant (renumber^[k] q) := by
  induction k with
  | zero => exact .refl q
  | succ k ih =>
    rw [Function.iterate_succ_apply']
    exact ih.trans (variant_renumber _)

theorem variant_canonical (q : Qualified) : q.Variant q.canonical := by
  obtain ⟨k, hk⟩ := q.canonical_recurs.1.1
  rw [← hk]
  exact variant_iterate_renumber q (k + 1)

/-- Equivalence is never wrong about types that differ in more than names. -/
theorem Equivalent.variant (h : p.Equivalent q) : p.Variant q :=
  p.variant_canonical.trans (h ▸ q.variant_canonical.symm)

/-- Every variable of a constraint stands in the term. -/
def Tied (q : Qualified) : Prop := ∀ c ∈ q.constraints, ∀ v ∈ c.vars, v ∈ q.term.vars

instance (q : Qualified) : Decidable q.Tied :=
  inferInstanceAs (Decidable (∀ c ∈ q.constraints.toList, ∀ v ∈ c.vars, v ∈ q.term.vars))

theorem Tied.rename (h : q.Tied) (f : String → String) : (q.rename f).Tied := by
  intro c hc v hv
  obtain ⟨d, hd, rfl⟩ := mem_constraints_rename.1 hc
  rw [Term.vars_rename] at hv
  rw [term_rename, Term.vars_rename]
  obtain ⟨w, hw, rfl⟩ := List.mem_map.1 hv
  exact List.mem_map_of_mem (h d hd w hw)

theorem Tied.names (h : q.Tied) : q.names = distinct q.term.vars := by
  apply distinct_append_of_subset
  intro v hv
  obtain ⟨c, hc, hv⟩ := List.mem_flatMap.1 hv
  exact h c hc v hv

theorem Tied.renumber_rename (h : q.Tied) (hf : Set.InjOn f {v | v ∈ q.names}) :
    (q.rename f).renumber = q.renumber := by
  have ht : Set.InjOn f {v | v ∈ q.term.vars} := hf.mono fun v hv => mem_names.2 (.inl hv)
  have hn : (q.rename f).names = q.names.map f := by
    rw [(h.rename f).names, h.names, term_rename, Term.vars_rename, distinct_map ht]
  rw [renumber, renumber, rename_rename, hn]
  apply rename_congr
  intro v hv
  rw [numbered_map]
  intro w hw
  exact hf hw hv

theorem canonical_of_renumber (h : q.renumber.renumber = q.renumber) : q.canonical = q.renumber := by
  obtain ⟨k, hk⟩ := q.canonical_recurs.1.1
  rw [← hk]
  exact Function.iterate_fixed h k

/-- The term decides all numbers, so one pass is enough. -/
theorem Tied.canonical (h : q.Tied) : q.canonical = q.renumber := by
  apply canonical_of_renumber
  apply h.renumber_rename
  exact injOn_numbered q.names

/-- Equivalence is right about variants whose constraints are tied to the term. -/
theorem Variant.equivalent (h : p.Variant q) (hp : p.Tied) : p.Equivalent q := by
  obtain ⟨f, hf, rfl⟩ := h
  rw [Equivalent, hp.canonical, (hp.rename f).canonical, hp.renumber_rename hf]

theorem Variant.tied (h : p.Variant q) (hp : p.Tied) : q.Tied := by
  obtain ⟨f, -, rfl⟩ := h
  exact hp.rename f

/-- Every constraint shares a variable with the term. -/
def Salient (q : Qualified) : Prop := ∀ c ∈ q.constraints, ∃ v ∈ c.vars, v ∈ q.term.vars

theorem salient_plain (t : Term) : (plain t).Salient :=
  fun c hc => absurd hc (OrderedSet.not_mem_empty c)

theorem Salient.rename (h : q.Salient) (f : String → String) : (q.rename f).Salient := by
  intro c hc
  obtain ⟨d, hd, rfl⟩ := mem_constraints_rename.1 hc
  obtain ⟨v, hv, ht⟩ := h d hd
  refine ⟨f v, ?_, ?_⟩
  · rw [Term.vars_rename]
    exact List.mem_map_of_mem hv
  · rw [term_rename, Term.vars_rename]
    exact List.mem_map_of_mem ht

theorem Variant.salient (h : p.Variant q) (hp : p.Salient) : q.Salient := by
  obtain ⟨f, -, rfl⟩ := h
  exact hp.rename f

theorem Salient.constraints_eq_empty (h : q.Salient) (ht : q.term.vars = []) :
    q.constraints = ∅ := by
  ext c
  refine iff_of_false ?_ (OrderedSet.not_mem_empty c)
  intro hc
  obtain ⟨v, -, hv⟩ := h c hc
  rw [ht] at hv
  exact absurd hv List.not_mem_nil

theorem tied_plain (t : Term) : (plain t).Tied := fun _ hc => absurd hc (OrderedSet.not_mem_empty _)

theorem rename_plain (t : Term) (f : String → String) :
    (plain t).rename f = plain (t.rename f) := rfl

theorem equivalent_plain {t u : Term} : (plain t).Equivalent (plain u) ↔ t.Equivalent u := by
  have hc (t : Term) : (plain t).canonical = plain t.canonical := by
    rw [(tied_plain t).canonical, renumber, (tied_plain t).names, rename_plain]
    rfl
  rw [Equivalent, hc, hc, Term.Equivalent]
  exact ⟨congrArg term, congrArg plain⟩

/-- The map is one-to-one between the variables of two types, and takes term to term and constraints
to constraints. -/
structure Corresponds (f : String → String) (p q : Qualified) : Prop where
  names : Set.BijOn f {v | v ∈ p.names} {v | v ∈ q.names}
  term : q.term = p.term.rename f
  constraints : ∀ d, d ∈ q.constraints ↔ ∃ c ∈ p.constraints, c.rename f = d

theorem corresponds_rename (hf : Set.InjOn f {v | v ∈ q.names}) : Corresponds f q (q.rename f) :=
  ⟨bijOn_of_mem_iff hf fun _ => mem_names_rename, rfl, fun _ => mem_constraints_rename⟩

theorem exists_corresponds_iff : (∃ f, Corresponds f p q) ↔ p.Variant q := by
  constructor
  · rintro ⟨f, h⟩
    refine ⟨f, h.names.injOn, ?_⟩
    ext d
    · rw [h.constraints, mem_constraints_rename]
    · exact h.term
  · rintro ⟨f, hf, rfl⟩
    exact ⟨f, corresponds_rename hf⟩

end Qualified

/-- Equivalence is about names only: equivalent types correspond by a renaming that keeps variables
apart, and so do equivalent terms. It finds every such renaming between terms, and between types
whose constraints have no variables of their own. -/
theorem equivalent_iff_renamed :
    (∀ a b : Qualified, a.Equivalent b → ∃ f, Qualified.Corresponds f a b) ∧
    (∀ a b : Qualified, a.Tied → (∃ f, Qualified.Corresponds f a b) → a.Equivalent b) ∧
    ∀ t u : Term, t.Equivalent u ↔
      ∃ f, Set.BijOn f {v | v ∈ t.vars} {v | v ∈ u.vars} ∧ u = t.rename f := by
  refine ⟨?_, ?_, ?_⟩
  · intro a b h
    exact Qualified.exists_corresponds_iff.2 h.variant
  · intro a b ha h
    exact (Qualified.exists_corresponds_iff.1 h).equivalent ha
  · intro t u
    exact Term.equivalent_iff_exists_rename

/-- The constraints are the same in both types. The term of the second one has the variables the
other way round, so they change places. -/
theorem equivalent_iff_renamed_swapped :
    let pair := fun t u : Term => Term.app (.app (.atom "Pair") t) u
    let cs := [Term.app (.atom "C") (.var "x"), .app (.atom "C") (.var "y")]
    let a := Qualified.of cs (pair (.var "x") (.var "y"))
    let b := Qualified.of cs (pair (.var "y") (.var "x"))
    a.Tied ∧ (∃ f, Qualified.Corresponds f a b) ∧ a.Equivalent b := by
  intro pair cs a b
  have ha : a.Tied := by
    intro c hc v hv
    have hc := Qualified.mem_constraints_of.1 hc
    simp only [cs, List.mem_cons, List.not_mem_nil, or_false] at hc
    rcases hc with rfl | rfl
    · exact List.mem_cons.2 (.inl (List.mem_singleton.1 hv))
    · exact List.mem_cons_of_mem _ hv
  have hab : ∃ f, Qualified.Corresponds f a b := by
    rw [Qualified.exists_corresponds_iff]
    exact ⟨Equiv.swap "x" "y", (Equiv.injective _).injOn, by decide⟩
  exact ⟨ha, hab, equivalent_iff_renamed.2.1 a b ha hab⟩

end TypeClues
