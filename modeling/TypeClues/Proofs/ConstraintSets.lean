import Mathlib.Data.List.Destutter
import TypeClues.Naming.Scope
import TypeClues.Proofs.Numbering
import TypeClues.Store.Basic

/-!
# Constraints as sets

An ordered set built from a list is the list in ascending order without the repetitions, which then
stand side by side. The order of terms is total and tells different terms apart, so lists with the
same members come out as the same list. Whatever builds a type arranges its constraints in this way:
they are the terms that were given, each of them once.
-/
namespace TypeClues
namespace OrderedSet
variable {α : Type} [Ord α]

def atMost (a b : α) : Bool := (compare a b).isLE

/-- The list in ascending order, without the repetitions of a neighbour. -/
def arrange [DecidableEq α] (l : List α) : List α := (l.mergeSort atMost).destutter (· ≠ ·)

variable [Std.TransOrd α]

theorem pairwise_mergeSort_atMost (l : List α) :
    (l.mergeSort atMost).Pairwise fun a b => atMost a b = true := by
  apply List.pairwise_mergeSort
  · exact fun a b c => Std.TransCmp.isLE_trans
  · intro a b
    rw [atMost, atMost, Std.OrientedOrd.eq_swap (a := b)]
    cases compare a b <;> rfl

variable [Std.LawfulEqOrd α]

private instance antisymm_atMost : Std.Antisymm fun a b : α => atMost a b = true :=
  ⟨fun _ _ h h' => Std.LawfulEqOrd.eq_of_compare (Std.OrientedCmp.isLE_antisymm h h')⟩

variable [DecidableEq α]

/-- In a list in order all repetitions are side by side. -/
theorem arrange_eq_dedup (l : List α) : arrange l = (l.mergeSort atMost).dedup :=
  (pairwise_mergeSort_atMost l).destutter_eq_dedup

theorem mem_arrange {l : List α} {a : α} : a ∈ arrange l ↔ a ∈ l := by
  rw [arrange_eq_dedup, List.mem_dedup, List.mem_mergeSort]

theorem ascending_arrange (l : List α) :
    (arrange l).Pairwise fun a b => compare a b = .lt := by
  rw [arrange_eq_dedup]
  have hle := (pairwise_mergeSort_atMost l).sublist (List.dedup_sublist _)
  have hne := List.nodup_dedup (l.mergeSort atMost)
  refine (hle.and hne).imp ?_
  rintro a b ⟨hab, h⟩
  have heq : compare a b ≠ .eq := fun he => h (Std.LawfulEqOrd.eq_of_compare he)
  rw [atMost, Ordering.isLE_iff_eq_lt_or_eq_eq] at hab
  exact hab.resolve_right heq

/-- Putting the members in one by one comes to the same as arranging them. -/
theorem toList_ofList (l : List α) : (ofList l).toList = arrange l := by
  have h : ofList l = ⟨arrange l, ascending_arrange l⟩ := by
    ext a
    rw [mem_ofList, mem_def, mem_arrange]
  rw [h]

end OrderedSet

namespace Qualified

theorem of_eq_of_iff {cs cs' : List Term} {t t' : Term} :
    of cs t = of cs' t' ↔ t = t' ∧ ∀ c, c ∈ cs ↔ c ∈ cs' := by
  constructor
  · intro h
    refine ⟨congrArg term h, fun c => ?_⟩
    rw [← mem_constraints_of (t := t), h, mem_constraints_of]
  · rintro ⟨rfl, h⟩
    have hset : OrderedSet.ofList cs = OrderedSet.ofList cs' := by
      ext c
      rw [OrderedSet.mem_ofList, OrderedSet.mem_ofList, h]
    rw [of, of, hset]

theorem toList_constraints_of (cs : List Term) (t : Term) :
    (of cs t).constraints.toList = OrderedSet.arrange cs := OrderedSet.toList_ofList cs

theorem toList_constraints_mapTerms (f : Term → Term) (q : Qualified) :
    (q.mapTerms f).constraints.toList = OrderedSet.arrange (q.constraints.toList.map f) :=
  toList_constraints_of _ _

theorem toList_constraints_mapTermsM {S : Type} (f : Term → StateM S Term) (q : Qualified) (s : S) :
    (q.mapTermsM f s).1.constraints.toList =
      OrderedSet.arrange (q.constraints.toList.mapM f s).1 :=
  toList_constraints_of _ _

theorem exists_toList_constraints_canonical (q : Qualified) :
    ∃ f, q.Numbering f ∧ q.canonical.term = q.term.rename f ∧
      q.canonical.constraints.toList =
        OrderedSet.arrange (q.constraints.toList.map (Term.rename f)) := by
  obtain ⟨p, hp, hpass⟩ := q.exists_canonical_eq_renumber
  obtain ⟨f, hf, hr⟩ := hp.exists_numbering
  refine ⟨f, hf, ?_, ?_⟩
  · rw [hpass, hr]
    rfl
  · rw [hpass, hr]
    exact toList_constraints_mapTerms _ q

end Qualified

theorem Scope.toList_constraints_resolve (sc : Scope) (supply : Supply) (q : Qualified) :
    (sc.resolve q supply).1.constraints.toList =
      OrderedSet.arrange
        (q.constraints.toList.map (Term.rename (sc.resolve q supply).2.1.resolved)) :=
  Qualified.toList_constraints_mapTerms _ q

/-- What the store knows of a type: the constraints that come into question, in full, and of these
the ones that share a variable with the term. -/
theorem Store.exists_instantiate_eq {s : Store} (h : s.failed = false) (q : Qualified) :
    ∃ r, s.instantiate q = .ok r ∧ r.term = s.bindings.substitute q.term ∧
      r.constraints.toList = OrderedSet.arrange
        (((s.constraints ++ q.constraints.toList).map s.bindings.substitute).filter
          fun c => c.vars.any (· ∈ r.term.vars)) := by
  refine ⟨qualified ((s.constraints ++ q.constraints.toList).map s.bindings.substitute)
    (s.bindings.substitute q.term), ?_, rfl, Qualified.toList_constraints_of _ _⟩
  rw [instantiate, answer, h]
  rfl

/-- The order of terms is total, with equality for equal terms only. So types are equal if their
terms are and their constraints have the same members. The constraints are in strictly ascending
order and are those given, be it to a new type or by a change of all terms, by canonical or by
resolved names, or by a store. -/
theorem constraints_form_sets :
    (∀ t u : Term, compare t u = .eq ↔ t = u) ∧
    (∀ t u : Term, compare u t = (compare t u).swap) ∧
    (∀ t u w : Term, (compare t u).isLE → (compare u w).isLE → (compare t w).isLE) ∧
    (∀ (cs cs' : List Term) (t t' : Term),
      Qualified.of cs t = .of cs' t' ↔ t = t' ∧ ∀ c, c ∈ cs ↔ c ∈ cs') ∧
    (∀ cs : List Term, (OrderedSet.arrange cs).Pairwise (fun c d => compare c d = .lt) ∧
      ∀ c, c ∈ OrderedSet.arrange cs ↔ c ∈ cs) ∧
    (∀ (cs : List Term) (t : Term),
      (Qualified.of cs t).constraints.toList = OrderedSet.arrange cs) ∧
    ∀ q : Qualified,
      (∀ f : Term → Term,
        (q.mapTerms f).constraints.toList = OrderedSet.arrange (q.constraints.toList.map f)) ∧
      (∀ (S : Type) (f : Term → StateM S Term) (s : S),
        (q.mapTermsM f s).1.constraints.toList =
          OrderedSet.arrange (q.constraints.toList.mapM f s).1) ∧
      (∃ f, q.Numbering f ∧ q.canonical.term = q.term.rename f ∧
        q.canonical.constraints.toList =
          OrderedSet.arrange (q.constraints.toList.map (Term.rename f))) ∧
      (∀ (sc : Scope) (supply : Supply),
        let r := sc.resolve q supply
        r.1.constraints.toList =
          OrderedSet.arrange (q.constraints.toList.map (Term.rename r.2.1.resolved))) ∧
      ∀ s : Store, s.failed = false →
        ∃ r, s.instantiate q = .ok r ∧ r.term = s.bindings.substitute q.term ∧
          r.constraints.toList = OrderedSet.arrange
            (((s.constraints ++ q.constraints.toList).map s.bindings.substitute).filter
              fun c => c.vars.any (· ∈ r.term.vars)) := by
  refine ⟨fun t u => Std.LawfulEqOrd.compare_eq_iff_eq, fun t u => Std.OrientedOrd.eq_swap,
    fun t u w => Std.TransCmp.isLE_trans, fun cs cs' t t' => Qualified.of_eq_of_iff, ?_,
    Qualified.toList_constraints_of, ?_⟩
  · exact fun cs => ⟨OrderedSet.ascending_arrange cs, fun c => OrderedSet.mem_arrange⟩
  · intro q
    exact ⟨fun f => Qualified.toList_constraints_mapTerms f q,
      fun S f s => Qualified.toList_constraints_mapTermsM f q s,
      Qualified.exists_toList_constraints_canonical q,
      fun sc supply => sc.toList_constraints_resolve supply q,
      fun s hs => Store.exists_instantiate_eq hs q⟩

/-- The store makes `a` and `b` one, and with them two of the three constraints; the third is about
another variable. -/
theorem constraints_form_sets_merged :
    let d := fun v : String => Term.app (.atom "D") (.var v)
    let s : Store := { bindings := [("a", .var "b")], constraints := [d "b"] }
    let q := Qualified.of [d "c", d "a", .atom "E", d "c"] (.var "a")
    q = .of [.atom "E", d "a", d "c"] (.var "a") ∧
      q.constraints.toList = [.atom "E", d "a", d "c"] ∧ s.failed = false ∧
      (compare (.atom "E") (d "a")).isLE ∧ (compare (d "a") (d "c")).isLE ∧
      (compare (.atom "E") (d "c")).isLE ∧
      ∃ r, s.instantiate q = .ok r ∧ r.constraints.toList = [d "b"] := by
  intro d s q
  obtain ⟨-, -, htrans, heq, -, -, hall⟩ := constraints_form_sets
  have hmem : ∀ c, c ∈ [d "c", d "a", .atom "E", d "c"] ↔ c ∈ [.atom "E", d "a", d "c"] := by
    intro c
    simp only [List.mem_cons, List.not_mem_nil, or_false]
    tauto
  have hq : q.constraints.toList = [.atom "E", d "a", d "c"] := by decide +kernel
  have h₁ : (compare (.atom "E") (d "a")).isLE := by decide
  have h₂ : (compare (d "a") (d "c")).isLE := by decide
  obtain ⟨r, hr, ht, hc⟩ := (hall q).2.2.2.2 s rfl
  refine ⟨(heq _ _ _ _).2 ⟨rfl, hmem⟩, hq, rfl, h₁, h₂, htrans _ _ _ h₁ h₂, r, hr, ?_⟩
  rw [hc, ht, ← OrderedSet.toList_ofList]
  decide +kernel

end TypeClues
