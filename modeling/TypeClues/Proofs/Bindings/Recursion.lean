import TypeClues.Proofs.Bindings.Following
import TypeClues.Proofs.Bindings.Unification

/-!
# Unification without a bound

What it means to unify two terms with no limit on the nesting of steps, as rules. A variable that is
bound leads to the term behind it, which may be larger than anything in sight, and two applications
lead to their functions and then, under more bindings, to their arguments. A result has a derivation
only if all of this ends. On acyclic bindings any two terms have exactly one result, the one of the
unification that counts its steps.
-/
namespace TypeClues.Bindings

/-- What becomes of a free variable against a term: they are the same behind all bindings, or the
variable stands in what the term leads to, or it gets bound. -/
inductive AssignsTo (B : Bindings) (v : String) (t : Term) : Except Clash Bindings → Prop
  | itself (ht : B.HeadsTo t (.var v)) : AssignsTo B v t (.ok B)
  | inside {u : Term} {story : List Step} (ht : B.HeadsTo t u) (hu : u ≠ .var v)
      (hs : B.SearchStory v u (some story)) :
      AssignsTo B v t (.error ⟨B, story ++ [.occursIn v u, .unifyingTerms (.var v) u]⟩)
  | bound {u : Term} (ht : B.HeadsTo t u) (hu : u ≠ .var v) (hs : B.SearchStory v u none) :
      AssignsTo B v t (.ok (B.bind v u))

/-- Two terms are unified, from left to right. A variable on the right waits until the left term is
none. -/
inductive UnifiesTo : Bindings → Term → Term → Except Clash Bindings → Prop
  | freeLeft {B : Bindings} {v : String} {u : Term} {r : Except Clash Bindings}
      (hv : B.get? v = none) (h : B.AssignsTo v u r) : UnifiesTo B (.var v) u r
  | boundLeft {B : Bindings} {v : String} {t u : Term} {r : Except Clash Bindings}
      (hv : B.get? v = some t) (h : UnifiesTo B t u r) :
      UnifiesTo B (.var v) u (r.mapError (Clash.within (.unifyingTerms (.var v) u)))
  | freeRight {B : Bindings} {v : String} {t : Term} {r : Except Clash Bindings}
      (ht : t.isVar = false) (hv : B.get? v = none) (h : B.AssignsTo v t r) :
      UnifiesTo B t (.var v) r
  | boundRight {B : Bindings} {v : String} {t u : Term} {r : Except Clash Bindings}
      (ht : t.isVar = false) (hv : B.get? v = some u) (h : UnifiesTo B u t r) :
      UnifiesTo B t (.var v) (r.mapError (Clash.within (.unifyingTerms (.var v) t)))
  | sameAtom (B : Bindings) (a : String) : UnifiesTo B (.atom a) (.atom a) (.ok B)
  | atomsDiffer (B : Bindings) {a b : String} (hab : a ≠ b) :
      UnifiesTo B (.atom a) (.atom b) (.error ⟨B, [.atomsDiffer a b]⟩)
  | atomMeetsApp (B : Bindings) (a : String) (g y : Term) :
      UnifiesTo B (.atom a) (.app g y) (.error ⟨B, [.atomMeetsApp a (.app g y)]⟩)
  | appMeetsAtom (B : Bindings) (f x : Term) (b : String) :
      UnifiesTo B (.app f x) (.atom b) (.error ⟨B, [.appMeetsAtom (.app f x) b]⟩)
  | functions {B : Bindings} {f g : Term} {c : Clash} (hf : UnifiesTo B f g (.error c))
      (x y : Term) :
      UnifiesTo B (.app f x) (.app g y)
        (.error (c.within (.unifyingTerms (.app f x) (.app g y))))
  | arguments {B B' : Bindings} {f g x y : Term} {r : Except Clash Bindings}
      (hf : UnifiesTo B f g (.ok B')) (hx : UnifiesTo B' x y r) :
      UnifiesTo B (.app f x) (.app g y)
        (r.mapError (Clash.within (.unifyingTerms (.app f x) (.app g y))))

variable {B : Bindings}

theorem assignsTo_iff (hB : B.Acyclic) {v : String} {t : Term} {r : Except Clash Bindings} :
    B.AssignsTo v t r ↔ r = B.assign v t := by
  rw [assign]
  constructor
  · intro h
    cases h with
    | itself ht =>
      rw [← (headsTo_iff hB).1 ht]
      simp
    | inside ht hu hs =>
      rw [← (headsTo_iff hB).1 ht]
      simp only [hu, if_false, ← (searchStory_iff hB).1 hs]
    | bound ht hu hs =>
      rw [← (headsTo_iff hB).1 ht]
      simp only [hu, if_false, ← (searchStory_iff hB).1 hs]
  · rintro rfl
    have ht : B.HeadsTo t (B.head t) := (headsTo_iff hB).2 rfl
    have hs : B.SearchStory v (B.head t) (B.occurrence? v (B.head t)) :=
      (searchStory_iff hB).2 rfl
    by_cases hh : B.head t = .var v
    · rw [hh] at ht
      simp only [hh, if_true]
      exact .itself ht
    · simp only [hh, if_false]
      cases ho : B.occurrence? v (B.head t) with
      | some story =>
        rw [ho] at hs
        exact .inside ht hh hs
      | none =>
        rw [ho] at hs
        exact .bound ht hh hs

/-! ## The rules and the counted steps -/

theorem unifyVar_eq_some_iff {v : String} {t : Term}
    {unify : Term → Term → Option (Except Clash Bindings)} {r : Except Clash Bindings} :
    B.unifyVar v t unify = some r ↔ (B.get? v = none ∧ r = B.assign v t) ∨
      ∃ u r', B.get? v = some u ∧ unify u t = some r' ∧
        r = r'.mapError (Clash.within (.unifyingTerms (.var v) t)) := by
  rw [unifyVar]
  cases hv : B.get? v with
  | none => simp [eq_comm]
  | some u => simp [eq_comm]

theorem unifyWithin_right (n : Nat) {t : Term} (ht : t.isVar = false) (v : String) :
    unifyWithin (n + 1) B t (.var v) = B.unifyVar v t (unifyWithin n B) := by
  cases t with
  | var w => cases ht
  | atom a => rfl
  | app f x => rfl

theorem unifyWithin_app_eq_some_iff {n : Nat} {f x g y : Term} {r : Except Clash Bindings} :
    unifyWithin (n + 1) B (.app f x) (.app g y) = some r ↔
      (∃ c, unifyWithin n B f g = some (.error c) ∧
        r = .error (c.within (.unifyingTerms (.app f x) (.app g y)))) ∨
      ∃ B' r', unifyWithin n B f g = some (.ok B') ∧ unifyWithin n B' x y = some r' ∧
        r = r'.mapError (Clash.within (.unifyingTerms (.app f x) (.app g y))) := by
  rw [unifyWithin]
  cases hf : unifyWithin n B f g with
  | none => simp
  | some rf =>
    cases rf with
    | error c => simp [Except.mapError, eq_comm]
    | ok B' => simp [eq_comm]

theorem unifyWithin_succ {n : Nat} {t u : Term} {r : Except Clash Bindings}
    (h : unifyWithin n B t u = some r) : unifyWithin (n + 1) B t u = some r := by
  induction n generalizing B t u r with
  | zero => cases h
  | succ n ih =>
    have follow {v : String} {t : Term} {r : Except Clash Bindings}
        (h : B.unifyVar v t (unifyWithin n B) = some r) :
        B.unifyVar v t (unifyWithin (n + 1) B) = some r := by
      rw [unifyVar_eq_some_iff] at h ⊢
      rcases h with h | ⟨w, r', hw, hr', rfl⟩
      · exact .inl h
      · exact .inr ⟨w, r', hw, ih hr', rfl⟩
    cases t with
    | var v => exact follow h
    | atom a =>
      cases u with
      | var v => exact follow h
      | atom b => exact h
      | app g y => exact h
    | app f x =>
      cases u with
      | var v => exact follow h
      | atom b => exact h
      | app g y =>
        rw [unifyWithin_app_eq_some_iff] at h ⊢
        rcases h with ⟨c, hf, rfl⟩ | ⟨B', r', hf, hx, rfl⟩
        · exact .inl ⟨c, ih hf, rfl⟩
        · exact .inr ⟨B', r', ih hf, ih hx, rfl⟩

theorem unifyWithin_mono {m n : Nat} (hmn : m ≤ n) {t u : Term} {r : Except Clash Bindings}
    (h : unifyWithin m B t u = some r) : unifyWithin n B t u = some r := by
  induction hmn with
  | refl => exact h
  | step _ ih => exact unifyWithin_succ ih

theorem UnifiesTo.exists_within {t u : Term} {r : Except Clash Bindings}
    (h : UnifiesTo B t u r) (hB : B.Acyclic) : ∃ n, unifyWithin n B t u = some r := by
  induction h with
  | freeLeft hv h =>
    exact ⟨1, unifyVar_eq_some_iff.2 (.inl ⟨hv, (assignsTo_iff hB).1 h⟩)⟩
  | boundLeft hv _ ih =>
    obtain ⟨n, hn⟩ := ih hB
    exact ⟨n + 1, unifyVar_eq_some_iff.2 (.inr ⟨_, _, hv, hn, rfl⟩)⟩
  | freeRight ht hv h =>
    refine ⟨1, ?_⟩
    rw [unifyWithin_right 0 ht, unifyVar_eq_some_iff]
    exact .inl ⟨hv, (assignsTo_iff hB).1 h⟩
  | boundRight ht hv _ ih =>
    obtain ⟨n, hn⟩ := ih hB
    refine ⟨n + 1, ?_⟩
    rw [unifyWithin_right n ht, unifyVar_eq_some_iff]
    exact .inr ⟨_, _, hv, hn, rfl⟩
  | sameAtom B a => exact ⟨1, by simp [unifyWithin]⟩
  | atomsDiffer B hab => exact ⟨1, by simp [unifyWithin, hab]⟩
  | atomMeetsApp B a g y => exact ⟨1, rfl⟩
  | appMeetsAtom B f x b => exact ⟨1, rfl⟩
  | functions _ x y ih =>
    obtain ⟨n, hn⟩ := ih hB
    exact ⟨n + 1, unifyWithin_app_eq_some_iff.2 (.inl ⟨_, hn, rfl⟩)⟩
  | arguments _ _ ihf ihx =>
    obtain ⟨m, hm⟩ := ihf hB
    obtain ⟨n, hn⟩ := ihx (unifyWithin_correct hB hm).1.acyclic
    have hf := unifyWithin_mono (Nat.le_max_left m n) hm
    have hx := unifyWithin_mono (Nat.le_max_right m n) hn
    exact ⟨max m n + 1, unifyWithin_app_eq_some_iff.2 (.inr ⟨_, _, hf, hx, rfl⟩)⟩

theorem unifiesTo_of_within {n : Nat} {t u : Term} {r : Except Clash Bindings} (hB : B.Acyclic)
    (h : unifyWithin n B t u = some r) : UnifiesTo B t u r := by
  induction n generalizing B t u r with
  | zero => cases h
  | succ n ih =>
    have right {v : String} {t : Term} (ht : t.isVar = false)
        (h : B.unifyVar v t (unifyWithin n B) = some r) : UnifiesTo B t (.var v) r := by
      rcases unifyVar_eq_some_iff.1 h with ⟨hv, rfl⟩ | ⟨w, r', hw, hr', rfl⟩
      · exact .freeRight ht hv ((assignsTo_iff hB).2 rfl)
      · exact .boundRight ht hw (ih hB hr')
    cases t with
    | var v =>
      rcases unifyVar_eq_some_iff.1 h with ⟨hv, rfl⟩ | ⟨w, r', hw, hr', rfl⟩
      · exact .freeLeft hv ((assignsTo_iff hB).2 rfl)
      · exact .boundLeft hw (ih hB hr')
    | atom a =>
      cases u with
      | var v => exact right rfl h
      | atom b =>
        cases h
        by_cases hab : a = b
        · subst hab
          rw [if_pos rfl]
          exact .sameAtom B a
        · rw [if_neg hab]
          exact .atomsDiffer B hab
      | app g y =>
        cases h
        exact .atomMeetsApp B a g y
    | app f x =>
      cases u with
      | var v => exact right rfl h
      | atom b =>
        cases h
        exact .appMeetsAtom B f x b
      | app g y =>
        rcases unifyWithin_app_eq_some_iff.1 h with ⟨c, hf, rfl⟩ | ⟨B', r', hf, hx, rfl⟩
        · exact .functions (ih hB hf) x y
        · exact .arguments (ih hB hf) (ih (unifyWithin_correct hB hf).1.acyclic hx)

/-- On acyclic bindings unification ends, with one result. -/
theorem unifiesTo_iff (hB : B.Acyclic) {t u : Term} {r : Except Clash Bindings} :
    UnifiesTo B t u r ↔ r = B.unify t u := by
  obtain ⟨r₀, hr₀⟩ := Option.isSome_iff_exists.1 (isSome_unifyWithin_depth hB t u)
  rw [unify, hr₀, Option.getD_some]
  constructor
  · intro h
    obtain ⟨n, hn⟩ := h.exists_within hB
    have hm := unifyWithin_mono (Nat.le_max_left n (B.depth t u)) hn
    rw [unifyWithin_mono (Nat.le_max_right n (B.depth t u)) hr₀] at hm
    exact (Option.some.inj hm).symm
  · rintro rfl
    exact unifiesTo_of_within hB hr₀

end TypeClues.Bindings
