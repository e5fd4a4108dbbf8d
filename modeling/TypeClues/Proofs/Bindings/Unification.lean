import Mathlib.Data.Finset.Card
import TypeClues.Proofs.Bindings.Solutions
import TypeClues.Store.Unify

/-!
# Unification is most general

Unification on acyclic bindings either ends with bindings whose solutions are exactly the old
solutions that make the terms equal, or with a clash, and then there is no such solution. Both ways
it keeps the old bindings and stays acyclic. The nesting of its steps is bounded: on the way down
each side passes each variable at most once, since a variable that comes up again would depend on
itself, and between two variables it goes through one of the terms in play.
-/
namespace TypeClues.Bindings

def Extends (B B' : Bindings) : Prop := ∀ v t, B.get? v = some t → B'.get? v = some t

theorem Extends.refl (B : Bindings) : B.Extends B := fun _ _ h => h

theorem Extends.trans {A B C : Bindings} (h : A.Extends B) (h' : B.Extends C) : A.Extends C :=
  fun v t ht => h' v t (h v t ht)

theorem Extends.solves {B B' : Bindings} (h : B.Extends B') {θ : Substitution}
    (hθ : Solves θ B') : Solves θ B := fun v t ht => hθ v t (h v t ht)

theorem extends_bind {B : Bindings} {v : String} (hv : B.get? v = none) (t : Term) :
    B.Extends (B.bind v t) := by
  intro w u hu
  rw [get?_bind, if_neg, hu]
  intro hw
  rw [hw, hv] at hu
  cases hu

/-- A term over the variables `V` that is no larger than `m`. -/
def InPlay (V : Finset String) (m : Nat) (t : Term) : Prop := (∀ v ∈ t.vars, v ∈ V) ∧ t.size ≤ m

def AllInPlay (V : Finset String) (m : Nat) (B : Bindings) : Prop :=
  ∀ v t, B.get? v = some t → InPlay V m t

section InPlay
variable {V : Finset String} {m : Nat}

theorem InPlay.function {f x : Term} (h : InPlay V m (.app f x)) : InPlay V m f := by
  have hs := h.2
  simp only [Term.size] at hs
  exact ⟨fun v hv => h.1 v (by simp [hv]), by omega⟩

theorem InPlay.argument {f x : Term} (h : InPlay V m (.app f x)) : InPlay V m x := by
  have hs := h.2
  simp only [Term.size] at hs
  exact ⟨fun v hv => h.1 v (by simp [hv]), by omega⟩

theorem AllInPlay.head {B : Bindings} (h : AllInPlay V m B) {t : Term} (ht : InPlay V m t) :
    InPlay V m (B.head t) := by
  rw [Bindings.head]
  generalize B.length = n
  induction n generalizing t with
  | zero => exact ht
  | succ n ih =>
    cases t with
    | atom a => exact ht
    | app f x => exact ht
    | var v =>
      rw [headWithin]
      cases hu : B.get? v with
      | none => exact ht
      | some u => exact ih (h v u hu)

theorem AllInPlay.bind {B : Bindings} (h : AllInPlay V m B) {v : String} {t : Term}
    (ht : InPlay V m t) : AllInPlay V m (B.bind v t) := by
  intro w u hu
  rw [get?_bind] at hu
  split at hu
  · cases hu
    exact ht
  · exact h w u hu

end InPlay

/-- What unification leaves behind, whether it succeeds or not. -/
structure Grows (B : Bindings) (t u : Term) (B' : Bindings) : Prop where
  acyclic : B'.Acyclic
  keeps : B.Extends B'
  inPlay : ∀ V m, AllInPlay V m B → InPlay V m t → InPlay V m u → AllInPlay V m B'

/-- The result of a unification is right: the solutions that remain are those that make the terms
equal, and after a clash there are none. -/
def Correct (B : Bindings) (t u : Term) : Except Clash Bindings → Prop
  | .ok B' => Grows B t u B' ∧ ∀ θ, Solves θ B' ↔ Solves θ B ∧ t.subst θ = u.subst θ
  | .error c => Grows B t u c.reached ∧ ∀ θ, Solves θ B → t.subst θ ≠ u.subst θ

variable {B : Bindings}

theorem Grows.refl (hB : B.Acyclic) (t u : Term) : Grows B t u B :=
  ⟨hB, .refl B, fun _ _ h _ _ => h⟩

theorem Grows.symm {t u : Term} {B' : Bindings} (h : Grows B t u B') : Grows B u t B' :=
  ⟨h.acyclic, h.keeps, fun V m hB hu ht => h.inPlay V m hB ht hu⟩

theorem Correct.symm {t u : Term} {r : Except Clash Bindings} (h : Correct B t u r) :
    Correct B u t r := by
  cases r with
  | ok B' =>
    refine ⟨h.1.symm, fun θ => ?_⟩
    rw [h.2 θ, eq_comm]
  | error c => exact ⟨h.1.symm, fun θ hθ he => h.2 θ hθ he.symm⟩

theorem Correct.within {t u : Term} {r : Except Clash Bindings} (h : Correct B t u r)
    (step : Step) : Correct B t u (r.mapError (Clash.within step)) := by
  cases r with
  | ok B' => exact h
  | error c => exact h

theorem assign_correct (hB : B.Acyclic) {v : String} (hv : B.get? v = none) (t : Term) :
    Correct B (.var v) t (B.assign v t) := by
  rw [assign]
  by_cases ht : B.head t = .var v
  · rw [if_pos ht]
    refine ⟨.refl hB _ _, fun θ => ⟨fun hθ => ⟨hθ, ?_⟩, fun h => h.1⟩⟩
    rw [← hθ.subst_head t, ht]
  rw [if_neg ht]
  cases ho : B.occurrence? v (B.head t) with
  | some story =>
    refine ⟨.refl hB _ _, fun θ hθ he => ?_⟩
    have hr : ∃ w ∈ (B.head t).vars, B.Reaches w v := by
      by_contra hn
      simp only [not_exists, not_and] at hn
      rw [(occurrence?_eq_none_iff hB).2 hn] at ho
      cases ho
    obtain ⟨w, hw, hr⟩ := hr
    rw [← hθ.subst_head t] at he
    -- a variable at the head is free, so it is reached only by itself
    cases hh : B.head t with
    | atom a => simp [hh] at hw
    | app f x =>
      rw [hh] at hw he
      exact hθ.ne_of_reaches hw hr he
    | var x =>
      have hx := get?_head hB hh
      obtain rfl : w = x := by simpa [hh] using hw
      rw [reaches_iff_of_get?, hx] at hr
      simp only [reduceCtorEq, false_and, exists_false, or_false] at hr
      exact ht (hr ▸ hh)
  | none =>
    have hr := (occurrence?_eq_none_iff hB).1 ho
    refine ⟨⟨hB.bind hr, extends_bind hv _, fun V m hV _ h => hV.bind (hV.head h)⟩, fun θ => ?_⟩
    rw [solves_bind hv]
    refine and_congr_right fun hθ => ?_
    rw [hθ.subst_head t, Term.subst_var]

theorem unifyVar_correct (hB : B.Acyclic) {v : String} {t : Term}
    {unify : Term → Term → Option (Except Clash Bindings)} {r : Except Clash Bindings}
    (hu : ∀ u r, unify u t = some r → Correct B u t r) (h : B.unifyVar v t unify = some r) :
    Correct B (.var v) t r := by
  rw [unifyVar] at h
  cases hv : B.get? v with
  | none =>
    rw [hv] at h
    cases h
    exact assign_correct hB hv t
  | some u =>
    rw [hv] at h
    obtain ⟨r, hr, rfl⟩ := Option.map_eq_some_iff.1 h
    have hc : Correct B (.var v) t r := by
      have hc := hu u r hr
      cases r with
      | ok B' =>
        refine ⟨⟨hc.1.acyclic, hc.1.keeps, fun V m hV _ ht => hc.1.inPlay V m hV (hV v u hv) ht⟩,
          fun θ => (hc.2 θ).trans (and_congr_right fun hθ => ?_)⟩
        rw [Term.subst_var, hθ v u hv]
      | error c =>
        refine ⟨⟨hc.1.acyclic, hc.1.keeps, fun V m hV _ ht => hc.1.inPlay V m hV (hV v u hv) ht⟩,
          fun θ hθ => ?_⟩
        rw [Term.subst_var, hθ v u hv]
        exact hc.2 θ hθ
    exact hc.within _

theorem Correct.app_error {f g : Term} {c : Clash} (h : Correct B f g (.error c)) (x y : Term) :
    Correct B (.app f x) (.app g y) (.error c) := by
  refine ⟨⟨h.1.acyclic, h.1.keeps, fun V m hV ht hu => ?_⟩, fun θ hθ he => ?_⟩
  · exact h.1.inPlay V m hV ht.function hu.function
  · exact h.2 θ hθ (Term.app.inj he).1

theorem Correct.app {f g x y : Term} {B' : Bindings} (h : Correct B f g (.ok B'))
    {r : Except Clash Bindings} (hr : Correct B' x y r) : Correct B (.app f x) (.app g y) r := by
  have grows {B'' : Bindings} (hg : Grows B' x y B'') : Grows B (.app f x) (.app g y) B'' :=
    ⟨hg.acyclic, h.1.keeps.trans hg.keeps, fun V m hV ht hu =>
      hg.inPlay V m (h.1.inPlay V m hV ht.function hu.function) ht.argument hu.argument⟩
  cases r with
  | ok B'' =>
    refine ⟨grows hr.1, fun θ => ?_⟩
    rw [hr.2 θ, h.2 θ, and_assoc]
    simp only [Term.subst_app, Term.app.injEq]
  | error c =>
    refine ⟨grows hr.1, fun θ hθ he => ?_⟩
    obtain ⟨hf, hx⟩ := Term.app.inj he
    exact hr.2 θ ((h.2 θ).2 ⟨hθ, hf⟩) hx

theorem unifyWithin_correct {n : Nat} {t u : Term} {r : Except Clash Bindings} (hB : B.Acyclic)
    (h : unifyWithin n B t u = some r) : Correct B t u r := by
  induction n generalizing B t u r with
  | zero => cases h
  | succ n ih =>
    cases t with
    | var v => exact unifyVar_correct hB (fun w r hr => ih hB hr) h
    | atom a =>
      cases u with
      | var v => exact (unifyVar_correct hB (fun w r hr => ih hB hr) h).symm
      | atom b =>
        cases h
        by_cases hab : a = b
        · subst hab
          rw [if_pos rfl]
          exact ⟨.refl hB _ _, fun θ => by simp⟩
        · rw [if_neg hab]
          exact ⟨.refl hB _ _, fun θ _ => by simpa using hab⟩
      | app g y =>
        cases h
        exact ⟨.refl hB _ _, fun θ _ => by simp⟩
    | app f x =>
      cases u with
      | var v => exact (unifyVar_correct hB (fun w r hr => ih hB hr) h).symm
      | atom b =>
        cases h
        exact ⟨.refl hB _ _, fun θ _ => by simp⟩
      | app g y =>
        rw [unifyWithin] at h
        cases hf : unifyWithin n B f g with
        | none =>
          rw [hf] at h
          cases h
        | some rf =>
          rw [hf] at h
          cases rf with
          | error c =>
            cases h
            exact ((ih hB hf).app_error x y).within _
          | ok B' =>
            obtain ⟨rx, hx, rfl⟩ := Option.map_eq_some_iff.1 h
            have hc := ih hB hf
            exact (hc.app (ih hc.1.acyclic hx)).within _

/-! ## The nesting of steps is bounded -/

/-- Every variable in `P` leads to every variable of the term, through one binding or more. -/
def Passed (B : Bindings) (P : Finset String) (t : Term) : Prop :=
  ∀ v ∈ P, ∀ w ∈ t.vars, Relation.TransGen B.Mentions v w

theorem Passed.function {P : Finset String} {f x : Term} (h : B.Passed P (.app f x)) :
    B.Passed P f := fun v hv w hw => h v hv w (by simp [hw])

theorem Passed.argument {P : Finset String} {f x : Term} (h : B.Passed P (.app f x)) :
    B.Passed P x := fun v hv w hw => h v hv w (by simp [hw])

theorem Passed.follow {P : Finset String} {v : String} {t : Term} (h : B.Passed P (.var v))
    (ht : B.get? v = some t) : B.Passed (insert v P) t := by
  intro p hp w hw
  have hm : B.Mentions v w := ⟨t, ht, hw⟩
  rcases Finset.mem_insert.1 hp with rfl | hp
  · exact .single hm
  · exact (h p hp v (by simp)).tail hm

theorem Passed.extend {P : Finset String} {t : Term} (h : B.Passed P t) {B' : Bindings}
    (he : B.Extends B') : B'.Passed P t := by
  have hm : ∀ x y, B.Mentions x y → B'.Mentions x y :=
    fun x y ⟨u, hu, hy⟩ => ⟨u, he x u hu, hy⟩
  exact fun p hp w hw => Relation.TransGen.mono hm p w (h p hp w hw)

theorem Acyclic.not_transGen (hB : B.Acyclic) (v : String) :
    ¬ Relation.TransGen B.Mentions v v := by
  obtain ⟨r, hr⟩ := hB
  have hlt : ∀ {x y}, Relation.TransGen B.Mentions x y → r y < r x := by
    intro x y h
    induction h with
    | single hm => exact hr _ _ hm
    | tail _ hm ih => exact (hr _ _ hm).trans ih
  exact fun h => lt_irrefl _ (hlt h)

theorem Passed.not_mem (hB : B.Acyclic) {P : Finset String} {v : String}
    (h : B.Passed P (.var v)) : v ∉ P := fun hv => hB.not_transGen v (h v hv v (by simp))

/-- How much one side can still go through: its term, and a term of size `m` behind each of the
variables that it has not passed. -/
def budget (V : Finset String) (m : Nat) (P : Finset String) (t : Term) : Nat :=
  t.size + (m + 1) * (V \ P).card

theorem budget_follow {V P : Finset String} {m : Nat} {v : String} {t : Term} (hV : v ∈ V)
    (hP : v ∉ P) (ht : t.size ≤ m) : budget V m (insert v P) t < budget V m P (.var v) := by
  have hv : v ∈ V \ P := Finset.mem_sdiff.2 ⟨hV, hP⟩
  have hc : (V \ P).card = (V \ insert v P).card + 1 := by
    rw [Finset.sdiff_insert, Finset.card_erase_add_one hv]
  rw [budget, budget, hc, Nat.mul_add_one]
  omega

theorem isSome_unifyVar {v : String} {t : Term}
    {unify : Term → Term → Option (Except Clash Bindings)}
    (h : ∀ u, B.get? v = some u → (unify u t).isSome) : (B.unifyVar v t unify).isSome := by
  rw [unifyVar]
  cases hv : B.get? v with
  | none => rfl
  | some u =>
    rw [Option.isSome_map]
    exact h u hv

theorem isSome_unifyWithin {V P Q : Finset String} {m n : Nat} {t u : Term} (hB : B.Acyclic)
    (hV : AllInPlay V m B) (ht : InPlay V m t) (hu : InPlay V m u) (hP : B.Passed P t)
    (hQ : B.Passed Q u) (hn : budget V m P t + budget V m Q u < n) :
    (unifyWithin n B t u).isSome := by
  induction n generalizing B t u P Q with
  | zero => omega
  | succ n ih =>
    -- a bound variable on either side is followed, and the side has passed it
    have follow {v : String} {t : Term} {P Q : Finset String} (hv : InPlay V m (.var v))
        (ht : InPlay V m t) (hP : B.Passed P (.var v)) (hQ : B.Passed Q t)
        (hn : budget V m P (.var v) + budget V m Q t < n + 1) :
        (B.unifyVar v t (unifyWithin n B)).isSome := by
      apply isSome_unifyVar
      intro w hw
      have hb := budget_follow (hv.1 v (by simp)) (hP.not_mem hB) (hV v w hw).2
      exact ih hB hV (hV v w hw) ht (hP.follow hw) hQ (by omega)
    cases t with
    | var v => exact follow ht hu hP hQ hn
    | atom a =>
      cases u with
      | var v => exact follow hu ht hQ hP (by omega)
      | atom b => rfl
      | app g y => rfl
    | app f x =>
      cases u with
      | var v => exact follow hu ht hQ hP (by omega)
      | atom b => rfl
      | app g y =>
        simp only [budget, Term.size] at hn
        have hf : (unifyWithin n B f g).isSome :=
          ih hB hV ht.function hu.function hP.function hQ.function (by simp only [budget]; omega)
        obtain ⟨r, hr⟩ := Option.isSome_iff_exists.1 hf
        have hc := unifyWithin_correct hB hr
        rw [unifyWithin, hr]
        cases r with
        | error c => rfl
        | ok B' =>
          rw [Option.isSome_map]
          have hV' := hc.1.inPlay V m hV ht.function hu.function
          exact ih hc.1.acyclic hV' ht.argument hu.argument (hP.argument.extend hc.1.keeps)
            (hQ.argument.extend hc.1.keeps) (by simp only [budget]; omega)

def variablesInPlay (B : Bindings) (t u : Term) : List String :=
  t.vars ++ u.vars ++ B.flatMap fun b => b.2.vars

theorem length_variablesInPlay (B : Bindings) (t u : Term) :
    (B.variablesInPlay t u).length ≤ B.weight + t.size + u.size := by
  have hb : (B.flatMap fun b => b.2.vars).length ≤ B.weight := by
    induction B with
    | nil => simp [weight]
    | cons b B ih =>
      have := b.2.length_vars_le_size
      simp only [List.flatMap_cons, List.length_append, weight]
      omega
  have := t.length_vars_le_size
  have := u.length_vars_le_size
  simp only [variablesInPlay, List.length_append]
  omega

theorem size_le_weight {b : String × Term} (h : b ∈ B) : b.2.size ≤ B.weight := by
  induction B with
  | nil => simp at h
  | cons c B ih =>
    simp only [weight]
    rcases List.mem_cons.1 h with rfl | h
    · omega
    · have := ih h
      omega

/-- The depth given to unification is enough on acyclic bindings. -/
theorem isSome_unifyWithin_depth (hB : B.Acyclic) (t u : Term) :
    (unifyWithin (B.depth t u) B t u).isSome := by
  let V := (B.variablesInPlay t u).toFinset
  let m := B.weight + t.size + u.size
  have hV : AllInPlay V m B := by
    intro v s hs
    have hmem := mem_of_get? hs
    refine ⟨fun w hw => ?_, (size_le_weight hmem).trans (by omega)⟩
    rw [List.mem_toFinset, variablesInPlay, List.mem_append, List.mem_flatMap]
    exact .inr ⟨_, hmem, hw⟩
  have ht : InPlay V m t := ⟨fun w hw => by simp [V, variablesInPlay, hw], by omega⟩
  have hu : InPlay V m u := ⟨fun w hw => by simp [V, variablesInPlay, hw], by omega⟩
  have hcard : V.card ≤ m := (List.toFinset_card_le _).trans (B.length_variablesInPlay t u)
  have hmul : (m + 1) * V.card ≤ m * (m + 1) := by
    rw [Nat.mul_comm]
    exact Nat.mul_le_mul_right _ hcard
  refine isSome_unifyWithin (P := ∅) (Q := ∅) hB hV ht hu (by simp [Passed]) (by simp [Passed]) ?_
  have hd : B.depth t u = 2 * m * (m + 1) + m + 1 := rfl
  rw [hd, budget, budget, Finset.sdiff_empty, Nat.mul_assoc]
  omega

theorem unify_correct (hB : B.Acyclic) (t u : Term) : Correct B t u (B.unify t u) := by
  obtain ⟨r, hr⟩ := Option.isSome_iff_exists.1 (isSome_unifyWithin_depth hB t u)
  rw [unify, hr]
  exact unifyWithin_correct hB hr

end TypeClues.Bindings
