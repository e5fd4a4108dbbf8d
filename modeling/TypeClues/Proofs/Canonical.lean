import Mathlib.Data.List.Permutation
import TypeClues.Canonical
import TypeClues.Proofs.Naming.Hygiene
import TypeClues.Proofs.Orbit
import TypeClues.Proofs.OrderedSet

/-!
# Canonical forms

Numbering the variables of a type in any order of its names gives the type under other names, and
numbering them once more gives such a type again. There are as many of these types as orders, so the
passes of numbering fall into a cycle in time. All types of the cycle lead to the same least one,
which is therefore its own canonical form.
-/
namespace TypeClues

@[simp] theorem mem_distinct {v : String} {l : List String} : v ∈ distinct l ↔ v ∈ l := by
  induction l with
  | nil => rfl
  | cons w l ih =>
    by_cases h : v = w
    · simp [distinct, h]
    · simp [distinct, h, ih]

theorem nodup_distinct (l : List String) : (distinct l).Nodup := by
  induction l with
  | nil => exact List.nodup_nil
  | cons w l ih =>
    rw [distinct, List.nodup_cons]
    exact ⟨by simp, ih.filter _⟩

theorem canonicalName_eq (n : Nat) : canonicalName n = Allocation.name ⟨"var", n, 0⟩ := by
  rw [canonicalName, Allocation.name]
  rfl

theorem canonicalName_inj {m n : Nat} : canonicalName m = canonicalName n ↔ m = n := by
  rw [canonicalName_eq, canonicalName_eq, Allocation.name_inj]
  simp

theorem numbered_inj {names : List String} {v w : String} (hv : v ∈ names) :
    numbered names v = numbered names w ↔ v = w := by
  rw [numbered, numbered, canonicalName_inj, Nat.add_right_cancel_iff, List.idxOf_inj hv]

theorem numbered_map {names : List String} {f : String → String} {v : String}
    (hf : ∀ w ∈ names, f w = f v → w = v) : numbered (names.map f) (f v) = numbered names v := by
  have hi : (names.map f).idxOf (f v) = names.idxOf v := by
    induction names with
    | nil => rfl
    | cons w names ih =>
      have hw : f w = f v ↔ w = v := ⟨hf w List.mem_cons_self, congrArg f⟩
      have ht := ih fun u hu => hf u (List.mem_cons_of_mem w hu)
      simp only [List.map_cons, List.idxOf_cons, beq_eq_decide, hw, ht]
  rw [numbered, numbered, hi]

theorem exists_perm_of_perm_map {f : String → String} {l m : List String}
    (h : m.Perm (l.map f)) : ∃ l' : List String, l'.Perm l ∧ m = l'.map f := by
  have hl : List.Forall₂ (fun w v => w = f v) (l.map f) l :=
    List.forall₂_map_left_iff.2 (List.forall₂_same.2 fun _ _ => rfl)
  obtain ⟨l', hm, hperm⟩ := List.perm_comp_forall₂ h hl
  rw [← List.forall₂_map_right_iff, List.forall₂_eq_eq_eq] at hm
  exact ⟨l', hperm, hm⟩

theorem Term.mem_vars_subst {θ : Substitution} {t : Term} {v : String} :
    v ∈ (t.subst θ).vars ↔ ∃ w ∈ t.vars, v ∈ (θ w).vars := by
  induction t with
  | atom a => simp
  | var w => simp
  | app f x hf hx => simp [hf, hx, or_and_right, exists_or]

namespace Qualified

@[ext] theorem ext_of_mem {p q : Qualified} (hc : ∀ t, t ∈ p.constraints ↔ t ∈ q.constraints)
    (ht : p.term = q.term) : p = q := by
  obtain ⟨ps, s⟩ := p
  obtain ⟨qs, t⟩ := q
  obtain rfl : ps = qs := OrderedSet.ext hc
  obtain rfl : s = t := ht
  rfl

theorem mem_names {q : Qualified} {v : String} :
    v ∈ q.names ↔ v ∈ q.term.vars ∨ ∃ c ∈ q.constraints, v ∈ c.vars := by
  simp [names, OrderedSet.mem_def]

theorem nodup_names (q : Qualified) : q.names.Nodup := nodup_distinct _

theorem mem_constraints_rename {q : Qualified} {f : String → String} {c : Term} :
    c ∈ (q.rename f).constraints ↔ ∃ d ∈ q.constraints, d.rename f = c := by
  rw [rename, mapTerms, mem_constraints_of, List.mem_map]
  rfl

theorem term_rename (q : Qualified) (f : String → String) :
    (q.rename f).term = q.term.rename f := rfl

theorem rename_rename (q : Qualified) (f g : String → String) :
    (q.rename f).rename g = q.rename fun v => g (f v) := by
  have ht : ∀ t : Term, (t.rename f).rename g = t.rename fun v => g (f v) :=
    fun t => Term.subst_rename f _ t
  ext c
  · simp only [mem_constraints_rename, exists_exists_and_eq_and, ht]
  · exact ht q.term

theorem rename_congr {q : Qualified} {f g : String → String} (h : ∀ v ∈ q.names, f v = g v) :
    q.rename f = q.rename g := by
  have ht : ∀ t : Term, (∀ v ∈ t.vars, v ∈ q.names) → t.rename f = t.rename g := by
    intro t hv
    apply Term.subst_congr
    intro v hm
    rw [h v (hv v hm)]
  ext c
  · rw [mem_constraints_rename, mem_constraints_rename]
    refine exists_congr fun d => and_congr_right fun hd => ?_
    rw [ht d fun v hv => mem_names.2 (.inr ⟨d, hd, hv⟩)]
  · exact ht q.term fun v hv => mem_names.2 (.inl hv)

theorem mem_names_rename {q : Qualified} {f : String → String} {v : String} :
    v ∈ (q.rename f).names ↔ ∃ w ∈ q.names, f w = v := by
  have ht : ∀ t : Term, v ∈ (t.rename f).vars ↔ ∃ w ∈ t.vars, f w = v := by
    intro t
    simp [Term.rename, Term.mem_vars_subst, eq_comm]
  simp only [mem_names, mem_constraints_rename, exists_exists_and_eq_and, term_rename, ht]
  constructor
  · rintro (⟨w, hw, rfl⟩ | ⟨d, hd, w, hw, rfl⟩)
    · exact ⟨w, .inl hw, rfl⟩
    · exact ⟨w, .inr ⟨d, hd, hw⟩, rfl⟩
  · rintro ⟨w, hw | ⟨d, hd, hw⟩, rfl⟩
    · exact .inl ⟨w, hw, rfl⟩
    · exact .inr ⟨d, hd, w, hw, rfl⟩

theorem names_rename_perm {q : Qualified} {f : String → String}
    (hf : ∀ v ∈ q.names, ∀ w ∈ q.names, f v = f w → v = w) :
    (q.rename f).names.Perm (q.names.map f) := by
  have hn : (q.names.map f).Nodup := (nodup_distinct _).map_on hf
  apply (List.perm_ext_iff_of_nodup (nodup_distinct _) hn).2
  intro v
  rw [← names, mem_names_rename, List.mem_map]

/-- The type with its variables numbered in an order of its names. -/
def inOrder (q : Qualified) (l : List String) : Qualified := q.rename (numbered l)

/-- Numbering the variables again only changes the order. -/
theorem exists_renumber_inOrder {q : Qualified} {l : List String} (hl : l.Perm q.names) :
    ∃ l' : List String, l'.Perm q.names ∧ (q.inOrder l).renumber = q.inOrder l' := by
  have hf : ∀ v ∈ q.names, ∀ w ∈ q.names, numbered l v = numbered l w → v = w :=
    fun v hv w _ h => (numbered_inj (hl.mem_iff.2 hv)).1 h
  obtain ⟨l', hl', hn⟩ := exists_perm_of_perm_map (names_rename_perm hf)
  refine ⟨l', hl', ?_⟩
  have hr : (q.inOrder l).renumber =
      q.rename fun v => numbered (q.inOrder l).names (numbered l v) := rename_rename q _ _
  rw [hr, inOrder, inOrder, hn]
  apply rename_congr
  intro v hv
  apply numbered_map
  intro w hw
  exact hf w (hl'.mem_iff.1 hw) v hv

theorem orders_eq_factorial (n : Nat) : orders n = n.factorial := by
  induction n with
  | zero => rfl
  | succ n ih => rw [orders, ih, Nat.factorial_succ]

/-- The type with its variables numbered in every order. -/
def inOrders (q : Qualified) : Finset Qualified := q.names.permutations.toFinset.image q.inOrder

theorem mem_inOrders {p q : Qualified} :
    p ∈ q.inOrders ↔ ∃ l : List String, l.Perm q.names ∧ q.inOrder l = p := by
  simp [inOrders]

theorem card_inOrders_le (q : Qualified) : q.inOrders.card ≤ orders q.names.length := by
  calc q.inOrders.card ≤ q.names.permutations.toFinset.card := Finset.card_image_le
    _ ≤ q.names.permutations.length := List.toFinset_card_le _
    _ = orders q.names.length := by rw [List.length_permutations, orders_eq_factorial]

theorem renumber_mem_inOrders {p q : Qualified} (h : p ∈ q.inOrders) : p.renumber ∈ q.inOrders := by
  obtain ⟨l, hl, rfl⟩ := mem_inOrders.1 h
  obtain ⟨l', hl', he⟩ := exists_renumber_inOrder hl
  exact mem_inOrders.2 ⟨l', hl', he.symm⟩

instance : Std.LawfulEqOrd Qualified where
  eq_of_compare {p q} h := by
    change (compare p.constraints.toList q.constraints.toList).then (compare p.term q.term) = .eq
      at h
    rw [Ordering.then_eq_eq, Std.LawfulEqOrd.compare_eq_iff_eq,
      Std.LawfulEqOrd.compare_eq_iff_eq] at h
    ext c
    · rw [OrderedSet.mem_def, OrderedSet.mem_def, h.1]
    · exact h.2

theorem lesser_le (p q : Qualified) :
    (compare (lesser p q) p).isLE ∧ (compare (lesser p q) q).isLE := by
  rw [lesser]
  by_cases h : compare q p = .lt
  · simp [h]
  · have hle : (compare p q).isLE := by
      rw [← Ordering.ne_gt_iff_isLE, Std.OrientedCmp.gt_iff_lt]
      exact h
    simp [h, hle]

theorem foldl_lesser (qs : List Qualified) (q : Qualified) :
    qs.foldl lesser q ∈ q :: qs ∧ ∀ p ∈ q :: qs, (compare (qs.foldl lesser q) p).isLE := by
  induction qs generalizing q with
  | nil => simp
  | cons r qs ih =>
    obtain ⟨hmem, hle⟩ := ih (lesser q r)
    obtain ⟨hq, hr⟩ := lesser_le q r
    have hhead := hle (lesser q r) List.mem_cons_self
    constructor
    · rcases List.mem_cons.1 hmem with he | hmem
      · rw [List.foldl_cons, he, lesser]
        split <;> simp
      · simp [hmem]
    · intro p hp
      simp only [List.mem_cons] at hp
      rcases hp with rfl | rfl | hp
      · exact Std.TransCmp.isLE_trans hhead hq
      · exact Std.TransCmp.isLE_trans hhead hr
      · exact hle p (List.mem_cons_of_mem _ hp)

/-- The passes over a type fall into a cycle in time. -/
theorem exists_cycle_renumber (q : Qualified) :
    ∃ l, Orbit.cycle? renumber (orders q.names.length) q.renumber = some l :=
  Orbit.exists_cycle? (fun _ h => renumber_mem_inOrders h) (card_inOrders_le q)
    (mem_inOrders.2 ⟨q.names, .refl _, rfl⟩)

/-- The cycle that is found has a least type, and that is the canonical form. -/
theorem least?_of_cycle? {q : Qualified} {l : List Qualified}
    (hl : Orbit.cycle? renumber (orders q.names.length) q.renumber = some l) :
    least? l = some q.canonical := by
  cases l with
  | nil => exact absurd rfl (Orbit.cycle?_ne_nil hl)
  | cons p l => simp only [canonical, hl, Option.bind_some, least?, Option.getD_some]

/-- The canonical form recurs, and is the least of the types that do. -/
theorem canonical_recurs (q : Qualified) : Orbit.Recurs renumber q.renumber q.canonical ∧
    ∀ p, Orbit.Recurs renumber q.renumber p → (compare q.canonical p).isLE := by
  obtain ⟨l, hl⟩ := q.exists_cycle_renumber
  have hc := least?_of_cycle? hl
  cases l with
  | nil => cases hc
  | cons p l =>
    obtain ⟨hmem, hle⟩ := foldl_lesser l p
    rw [← Option.some.inj hc]
    exact ⟨(Orbit.mem_cycle? hl).1 hmem, fun r hr => hle r ((Orbit.mem_cycle? hl).2 hr)⟩

theorem canonical_canonical (q : Qualified) : q.canonical.canonical = q.canonical := by
  obtain ⟨hr, hle⟩ := q.canonical_recurs
  obtain ⟨hr', hle'⟩ := q.canonical.canonical_recurs
  have hsame : ∀ p,
      Orbit.Recurs renumber q.canonical.renumber p ↔ Orbit.Recurs renumber q.renumber p :=
    fun p => hr.recurs_iff 1
  apply Std.LawfulEqOrd.eq_of_compare
  apply Std.OrientedCmp.isLE_antisymm
  · exact hle' _ ((hsame _).2 hr)
  · exact hle _ ((hsame _).1 hr')

end Qualified
end TypeClues
