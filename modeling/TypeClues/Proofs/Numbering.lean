import TypeClues.Proofs.Variants

/-!
# Passes of numbering

A pass of numbering gives the variables of a type the first canonical names, as many as there are
variables, and makes no two variables and no two constraints one. So all passes stay among finitely
many types, and the search for a type that comes up again ends. The first pass settles the numbers
of the variables in the term. Those of the other variables may change with every pass, without end;
the canonical form is the least of the types that recur, and as such the outcome of a pass too.
-/
namespace TypeClues

theorem numbered_append {l m : List String} {v : String} (hv : v ∈ l) :
    numbered (l ++ m) v = numbered l v := by
  rw [numbered, numbered, List.idxOf_append_of_mem hv]

theorem bijOn_numbered {l : List String} (hl : l.Nodup) :
    Set.BijOn (numbered l) {v | v ∈ l} (canonicalName '' Set.Icc 1 l.length) := by
  apply bijOn_of_mem_iff (injOn_numbered l)
  intro name
  constructor
  · rintro ⟨k, hk, rfl⟩
    obtain ⟨hpos, hle⟩ := Set.mem_Icc.1 hk
    have hlt : k - 1 < l.length := by omega
    refine ⟨l[k - 1], List.getElem_mem hlt, ?_⟩
    rw [numbered, hl.idxOf_getElem, Nat.sub_add_cancel hpos]
  · rintro ⟨v, hv, rfl⟩
    have hlt : l.idxOf v < l.length := List.idxOf_lt_length_iff.2 hv
    exact ⟨l.idxOf v + 1, Set.mem_Icc.2 (by omega), rfl⟩

namespace Qualified
variable {p q : Qualified} {f : String → String}

theorem exists_names_rename (hf : Set.InjOn f {v | v ∈ q.names}) :
    ∃ rest, (q.rename f).names = (distinct q.term.vars).map f ++ rest := by
  have ht : Set.InjOn f {v | v ∈ q.term.vars} := hf.mono fun v hv => mem_names.2 (.inl hv)
  rw [names, term_rename, Term.vars_rename, distinct_append, distinct_map ht]
  exact ⟨_, rfl⟩

/-- The map gives the variables of a type the first canonical names, and those of its term in the
order in which they first occur there. -/
structure Numbering (q : Qualified) (f : String → String) : Prop where
  names : Set.BijOn f {v | v ∈ q.names} (canonicalName '' Set.Icc 1 q.names.length)
  term : ∀ v ∈ q.term.vars, f v = canonicalName ((distinct q.term.vars).idxOf v + 1)

theorem Variant.exists_numbering (h : q.Variant p) :
    ∃ f, q.Numbering f ∧ p.renumber = q.rename f := by
  have hlength := h.length_names
  obtain ⟨g, hg, rfl⟩ := h
  have hvariant := (corresponds_rename hg).names
  have hpass := bijOn_numbered (q.rename g).nodup_names
  rw [hlength] at hpass
  refine ⟨numbered (q.rename g).names ∘ g, ⟨hpass.comp hvariant, ?_⟩, rename_rename q g _⟩
  -- in the variant, too, the term comes first, so its variables have the numbers they have alone
  intro v hv
  obtain ⟨rest, hn⟩ := exists_names_rename hg
  have hmem : g v ∈ (distinct q.term.vars).map g := List.mem_map_of_mem (mem_distinct.2 hv)
  have hapart : ∀ w ∈ distinct q.term.vars, g w = g v → w = v := by
    intro w hw he
    exact hg (mem_names.2 (.inl (mem_distinct.1 hw))) (mem_names.2 (.inl hv)) he
  calc numbered (q.rename g).names (g v)
      = numbered ((distinct q.term.vars).map g) (g v) := by rw [hn, numbered_append hmem]
    _ = numbered (distinct q.term.vars) v := numbered_map hapart

theorem exists_canonical_eq_renumber (q : Qualified) :
    ∃ p, q.Variant p ∧ q.canonical = p.renumber := by
  obtain ⟨-, m, hm, hback⟩ := q.canonical_recurs.1
  cases m with
  | zero => omega
  | succ m =>
    rw [Function.iterate_succ_apply'] at hback
    exact ⟨_, q.variant_canonical.trans (variant_iterate_renumber _ m), hback.symm⟩

/-- The canonical form is the type under the first canonical names, in one of the orders that begin
with the variables of the term; the constraints stay apart. It is its own canonical form. -/
theorem canonical_numbering (q : Qualified) :
    q.canonical.canonical = q.canonical ∧
    ∃ f, q.Numbering f ∧ q.canonical.term = q.term.rename f ∧
      Set.BijOn (Term.rename f) {c | c ∈ q.constraints} {c | c ∈ q.canonical.constraints} := by
  refine ⟨q.canonical_canonical, ?_⟩
  obtain ⟨p, hp, hpass⟩ := q.exists_canonical_eq_renumber
  obtain ⟨f, hf, hr⟩ := hp.exists_numbering
  rw [hpass, hr]
  exact ⟨f, hf, rfl, bijOn_constraints_rename hf.names.injOn⟩

/-- Eight variables in the term leave the ninth and the tenth name to `x` and `y`. The tenth comes
first in the order of texts, so every pass exchanges them. -/
theorem canonical_numbering_exchanged :
    let t := Term.apply (.atom "T")
      [.var "a", .var "b", .var "c", .var "d", .var "e", .var "f", .var "g", .var "h"]
    let q := of [.app (.atom "D") (.var "x"), .app (.atom "D") (.var "y"),
      .app (.atom "E") (.var "x")] t
    q.renumber.renumber ≠ q.renumber ∧ q.renumber.renumber.renumber = q.renumber ∧
      q.canonical.canonical = q.canonical ∧
      ∃ f, Set.BijOn f {v | v ∈ q.names} (canonicalName '' Set.Icc 1 10) ∧ f "h" = "var_8" ∧
        q.canonical.term = t.rename f := by
  intro t q
  obtain ⟨hc, f, hf, ht, -⟩ := canonical_numbering q
  have hn : q.names.length = 10 := by decide +kernel
  have hh : f "h" = "var_8" := (hf.term "h" (by decide +kernel)).trans (by decide +kernel)
  exact ⟨by decide +kernel, by decide +kernel, hc, f, hn ▸ hf.names, hh, ht⟩

/-- The search for a type that comes up again ends, in one way only, with no limit on the number of
passes. The type is found among those met, from there on there is a least one, and the limit that
the canonical form sets is never in the way. All types met have the same number of variables and of
constraints. -/
theorem passes_end (q : Qualified) :
    ∃ met again start,
      (∀ met' again', Orbit.Finds renumber [] q.renumber met' again' ↔
        met' = met ∧ again' = again) ∧
      met.findIdx? (· = again) = some start ∧
      least? (met.drop start) = some q.canonical ∧
      Orbit.cycle? renumber (orders q.names.length) q.renumber = some (met.drop start) ∧
      ∀ p ∈ met, p.names.length = q.names.length ∧ p.constraints.size = q.constraints.size := by
  obtain ⟨l, hl⟩ := q.exists_cycle_renumber
  obtain ⟨met, again, hf, rfl⟩ := Orbit.exists_finds_of_cycleAfter? hl
  obtain ⟨start, hs, -, hd⟩ := Orbit.dropWhile_ne_eq_drop hf.mem
  rw [hd] at hl
  refine ⟨met, again, start, ?_, hs, least?_of_cycle? hl, hl, ?_⟩
  · intro met' again'
    constructor
    · exact hf.unique
    · rintro ⟨rfl, rfl⟩
      exact hf
  · intro p hp
    obtain ⟨n, rfl, -⟩ := Orbit.Finds.eq_iterates (n := 0) hf
    obtain ⟨k, -, rfl⟩ := List.mem_map.1 hp
    have hv : q.Variant (renumber^[k] q.renumber) := variant_iterate_renumber q (k + 1)
    exact ⟨hv.length_names, hv.size_constraints⟩

end Qualified
end TypeClues
