import TypeClues.Proofs.Bindings.Following
import TypeClues.Proofs.Bindings.Recursion
import TypeClues.Proofs.Store.Reachable

/-!
# Following the bindings of a store ends

The bindings of every store that changes lead to can be ranked, whether the last of these changes
failed or not. So whatever follows them ends, however far it goes: on each term with one result, the
one that the bounded function gives. Unification, which adds bindings while it follows them, ends
too.
-/
namespace TypeClues.Store

/-- Bindings descend along a ranking, so the recursions that follow them have results on every
term. -/
theorem following_ends {p : Policy} {s : Store} (hs : s.Reachable p) :
    (∃ rank : String → Nat, ∀ v t, s.bindings.get? v = some t → ∀ w ∈ t.vars, rank w < rank v) ∧
    (∀ t u, s.bindings.HeadsTo t u ↔ u = s.bindings.head t) ∧
    (∀ t u, s.bindings.SubstitutesTo t u ↔ u = s.bindings.substitute t) ∧
    (∀ v t r, s.bindings.SearchStory v t r ↔ r = s.bindings.occurrence? v t) ∧
    (∀ v t r, s.bindings.SearchAny v t r ↔ r.isSome = s.occurs v t) := by
  have hB := hs.acyclic
  have hrank : ∃ rank : String → Nat, ∀ v t, s.bindings.get? v = some t →
      ∀ w ∈ t.vars, rank w < rank v := by
    obtain ⟨rank, hr⟩ := hB
    exact ⟨rank, fun v t hv w hw => hr v w ⟨t, hv, hw⟩⟩
  refine ⟨hrank, ?_, ?_, ?_, ?_⟩
  · exact fun t u => Bindings.headsTo_iff hB
  · exact fun t u => Bindings.substitutesTo_iff hB
  · exact fun v t r => Bindings.searchStory_iff hB
  · exact fun v t r => Bindings.searchAny_iff hB

/-- The unification fails at its second argument and leaves the binding of `a` behind. The
recursions still end there, also for the variable that did not get bound. -/
theorem following_ends_half_unified :
    let pair := fun t u : Term => Term.app (.app (.atom "Pair") t) u
    let list := Term.app (.atom "List")
    let s := (({} : Store).unifyTerms (pair (.var "a") (.var "b"))
      (pair (list (.var "b")) (list (.var "a")))).2
    s.Reachable {} ∧ s.failed = true ∧ s.bindings.get? "a" = some (list (.var "b")) ∧
      (∃ rank : String → Nat, rank "b" < rank "a") ∧
      s.bindings.SubstitutesTo (list (.var "a")) (list (list (.var "b"))) ∧
      s.bindings.SearchAny "b" (list (.var "a")) (some ()) := by
  intro pair list s
  have hs : s.Reachable {} := .unifyTerms .empty _ _
  have ha : s.bindings.get? "a" = some (list (.var "b")) := by decide
  obtain ⟨⟨rank, hr⟩, -, hsub, -, hany⟩ := following_ends hs
  refine ⟨hs, by decide, ha, ⟨rank, hr "a" _ ha "b" (by decide)⟩, ?_, ?_⟩
  · exact (hsub _ _).2 (by decide)
  · exact (hany _ _ _).2 (by decide)

/-- Unification without a bound has exactly one result on any two terms, and a store that has not
failed takes it over. -/
theorem unification_ends {p : Policy} {s : Store} (hs : s.Reachable p) (t u : Term) :
    ∃ r, (∀ r', s.bindings.UnifiesTo t u r' ↔ r' = r) ∧
      s.unifyTerms t u = s.guarded (match r with
        | .ok B => (.ok (), { s with bindings := B })
        | .error c => (.error .mismatch, { s with bindings := c.reached, story := c.story })) :=
  ⟨s.bindings.unify t u, fun _ => Bindings.unifiesTo_iff hs.acyclic, rfl⟩

/-- Behind `a` stand four copies of `c`, and on the way `d` gets bound to two of them. Then `c`
meets a list of `d`, and is found in it. -/
theorem unification_ends_behind_new_binding :
    let pair := fun t u : Term => Term.app (.app (.atom "Pair") t) u
    let list := Term.app (.atom "List")
    let two := fun v : String => pair (.var v) (.var v)
    let s := ((({} : Store).unifyTerms (.var "a") (two "b")).2.unifyTerms (.var "b") (two "c")).2
    let t := pair (.var "a") (.var "c")
    let u := pair (two "d") (list (.var "d"))
    s.Reachable {} ∧ (∃ r, ∀ r', s.bindings.UnifiesTo t u r' ↔ r' = r) ∧
      (s.unifyTerms t u).1 = .error .mismatch ∧
      (s.unifyTerms t u).2.bindings.get? "d" = some (two "c") := by
  intro pair list two s t u
  have hs : s.Reachable {} := .unifyTerms (.unifyTerms .empty _ _) _ _
  obtain ⟨r, hr, -⟩ := unification_ends hs t u
  exact ⟨hs, ⟨r, hr⟩, by decide, by decide⟩

end TypeClues.Store
