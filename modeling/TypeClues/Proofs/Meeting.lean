import Mathlib.Logic.Function.Basic
import TypeClues.Proofs.Variants
import TypeClues.Store.Basic

/-!
# Where two types meet

Two types, renamed apart, meet in the most general instance of both terms, under the constraints of
both that concern it. A type that has met another one meets it again in itself, up to names: the
terms determine each other, and with them every constraint that has no variables but those of the
term. A constraint with a variable of its own is different. That variable is a new one each time, so
the constraint comes in once more and nothing shows that it is the same.
-/
namespace TypeClues

namespace Term
variable {t u : Term} {θ : Substitution} {z : String}

theorem subst_update (h : z ∉ t.vars) (s : Term) :
    t.subst (Function.update θ z s) = t.subst θ := by
  apply subst_congr
  intro v hv
  apply Function.update_of_ne
  rintro rfl
  exact h hv

/-- The substitution makes the terms equal, and all others that do so factor through it. -/
structure MostGeneral (β : Substitution) (t u : Term) : Prop where
  unifies : t.subst β = u.subst β
  general : ∀ θ, t.subst θ = u.subst θ → ∀ v, (β v).subst θ = θ v

namespace MostGeneral
variable {β : Substitution} (h : MostGeneral β t u)
include h

theorem idempotent (v : String) : (β v).subst β = β v := h.general β h.unifies v

theorem general_update (ht : z ∉ t.vars) (hu : z ∉ u.vars) (s : Term) (v : String) :
    (β v).subst (Function.update β z s) = Function.update β z s v := by
  apply h.general
  rw [subst_update ht, subst_update hu, h.unifies]

theorem eq_var_of_absent (ht : z ∉ t.vars) (hu : z ∉ u.vars) : β z = .var z := by
  have hz := h.general_update ht hu (.var z) z
  rw [Function.update_self] at hz
  obtain ⟨w, hw, he⟩ := exists_var_of_subst hz
  by_cases hwz : w = z
  · rw [hw, hwz]
  · rw [Function.update_of_ne hwz] at he
    rw [← h.idempotent z, hw, subst_var, he]

theorem not_mem_of_absent (ht : z ∉ t.vars) (hu : z ∉ u.vars) {v : String} (hv : v ≠ z) :
    z ∉ (β v).vars := by
  intro hz
  have hg := h.general_update ht hu (.atom "") v
  rw [Function.update_of_ne hv] at hg
  have hagree := subst_eq_subst_iff.1 (hg.trans (h.idempotent v).symm) z hz
  rw [Function.update_self, h.eq_var_of_absent ht hu] at hagree
  cases hagree

end MostGeneral
end Term

namespace Qualified
variable {t s x T : Qualified} {f g : String → String} {β σ : Substitution}

/-- The types keep all their variables apart under these names. -/
structure RenamedApart (f g : String → String) (t s : Qualified) : Prop where
  left : Set.InjOn f {v | v ∈ t.names}
  right : Set.InjOn g {v | v ∈ s.names}
  ne : ∀ v ∈ t.names, ∀ w ∈ s.names, f v ≠ g w

theorem RenamedApart.exists_joint (h : RenamedApart f g t s) (φ ψ : Substitution) :
    ∃ θ : Substitution, (∀ v ∈ t.names, θ (f v) = φ v) ∧ ∀ w ∈ s.names, θ (g w) = ψ w := by
  classical
  refine ⟨fun z => if ∃ v ∈ t.names, f v = z then φ (Function.invFunOn f {v | v ∈ t.names} z)
    else ψ (Function.invFunOn g {v | v ∈ s.names} z), ?_, ?_⟩
  · intro v hv
    have hpos : ∃ u ∈ t.names, f u = f v := ⟨v, hv, rfl⟩
    exact (if_pos hpos).trans (congrArg φ (h.left.leftInvOn_invFunOn hv))
  · intro w hw
    have hneg : ¬ ∃ v ∈ t.names, f v = g w := fun ⟨v, hv, he⟩ => h.ne v hv w hw he
    exact (if_neg hneg).trans (congrArg ψ (h.right.leftInvOn_invFunOn hw))

theorem RenamedApart.absent (h : RenamedApart f g t s) {b : String} (hb : b ∈ t.names)
    (hn : b ∉ t.term.vars) : f b ∉ (t.term.rename f).vars ∧ f b ∉ (s.term.rename g).vars := by
  rw [Term.vars_rename, Term.vars_rename, List.mem_map, List.mem_map]
  constructor
  · rintro ⟨v, hv, he⟩
    exact hn (h.left (mem_names.2 (.inl hv)) hb he ▸ hv)
  · rintro ⟨w, hw, he⟩
    exact h.ne b hb w (mem_names.2 (.inl hw)) he.symm

/-- The meeting point under a substitution that makes the terms equal. -/
def meet (β : Substitution) (t s : Qualified) : Qualified :=
  Store.qualified ((t.constraints.toList ++ s.constraints.toList).map (Term.subst β))
    (s.term.subst β)

theorem mem_constraints_meet {c : Term} :
    c ∈ (meet β t s).constraints ↔
      (∃ d, (d ∈ t.constraints ∨ d ∈ s.constraints) ∧ d.subst β = c) ∧
        ∃ v ∈ c.vars, v ∈ (s.term.subst β).vars := by
  rw [meet, Store.qualified, mem_constraints_of, List.mem_filter, List.mem_map, List.any_eq_true]
  simp only [List.mem_append, OrderedSet.mem_def, decide_eq_true_eq]

theorem mem_meet_of_mem {c : Term} (hc : c ∈ T.constraints) {z : String}
    (hz : z ∈ (c.subst fun v => β (f v)).vars) (ht : z ∈ ((s.rename g).term.subst β).vars) :
    (c.subst fun v => β (f v)) ∈ (meet β (T.rename f) (s.rename g)).constraints := by
  refine mem_constraints_meet.2 ⟨⟨c.rename f, .inl ?_, Term.subst_rename f β c⟩, z, hz, ht⟩
  exact mem_constraints_rename.2 ⟨c, hc, rfl⟩

/-- The second type has met the first: its term is an instance, and the constraints that have no
variables but those of the term are there as far as they concern it. -/
structure Met (T : Qualified) (σ : Substitution) (x : Qualified) : Prop where
  term : x.term = T.term.subst σ
  salient : x.Salient
  constraints : ∀ c ∈ T.constraints, (∀ v ∈ c.vars, v ∈ T.term.vars) → (c.subst σ).vars ≠ [] →
    c.subst σ ∈ x.constraints

theorem Met.rename (h : Met T σ x) (f : String → String) :
    Met T (fun v => (σ v).rename f) (x.rename f) where
  term := by rw [term_rename, h.term, Term.rename, Term.subst_subst]; rfl
  salient := h.salient.rename f
  constraints c hc ht hv := by
    have hs : c.subst (fun v => (σ v).rename f) = (c.subst σ).rename f :=
      (Term.subst_subst σ _ c).symm
    rw [hs, Term.vars_rename] at hv
    rw [hs]
    exact mem_constraints_rename.2
      ⟨_, h.constraints c hc ht (mt List.map_eq_nil_iff.2 hv), rfl⟩

/-- Some constraint of the type has a variable of its own, and another one that the term leaves
open. -/
def Renews (T : Qualified) (t : Term) : Prop :=
  ∃ σ : Substitution, t = T.term.subst σ ∧ ∃ c ∈ T.constraints,
    (∃ v ∈ c.vars, v ∈ T.term.vars ∧ (σ v).vars ≠ []) ∧ ∃ v ∈ c.vars, v ∉ T.term.vars

theorem renews_iff {t : Term} (h : t = T.term.subst σ) :
    T.Renews t ↔ ∃ c ∈ T.constraints, (∃ v ∈ c.vars, v ∈ T.term.vars ∧ (σ v).vars ≠ []) ∧
      ∃ v ∈ c.vars, v ∉ T.term.vars := by
  constructor
  · rintro ⟨σ', h', c, hc, ⟨v, hv, hm, hn⟩, hb⟩
    have hagree := Term.subst_eq_subst_iff.1 (h.symm.trans h') v hm
    exact ⟨c, hc, ⟨v, hv, hm, hagree ▸ hn⟩, hb⟩
  · intro hc
    exact ⟨σ, h, hc⟩

theorem renews_rename {t : Term} (h : t = T.term.subst σ) (f : String → String) :
    T.Renews (t.rename f) ↔ T.Renews t := by
  have hf : t.rename f = T.term.subst fun v => (σ v).rename f := by
    rw [h]
    exact Term.subst_subst σ _ T.term
  simp only [renews_iff h, renews_iff hf, Term.vars_rename, ne_eq, List.map_eq_nil_iff]

section First
variable (hfg : RenamedApart f g T s)
  (hβ : Term.MostGeneral β (T.term.rename f) (s.term.rename g))
include hβ

theorem term_meet : (meet β (T.rename f) (s.rename g)).term = T.term.subst fun v => β (f v) := by
  rw [← Term.subst_rename, hβ.unifies]
  rfl

theorem met_meet : Met T (fun v => β (f v)) (meet β (T.rename f) (s.rename g)) where
  term := term_meet hβ
  salient := fun c hc => (mem_constraints_meet.1 hc).2
  constraints c hc ht hv := by
    have hterm : (s.rename g).term.subst β = T.term.subst fun v => β (f v) := term_meet hβ
    obtain ⟨z, hz⟩ := List.exists_mem_of_ne_nil _ hv
    obtain ⟨v, hv, hzv⟩ := Term.mem_vars_subst.1 hz
    apply mem_meet_of_mem hc hz
    rw [hterm]
    exact Term.mem_vars_subst.2 ⟨v, ht v hv, hzv⟩

include hfg

theorem not_renews_of_tied (h : (meet β (T.rename f) (s.rename g)).Tied) :
    ¬ T.Renews (meet β (T.rename f) (s.rename g)).term := by
  rw [renews_iff (term_meet hβ)]
  rintro ⟨c, hc, ⟨v, hv, hm, hopen⟩, b, hb, hn⟩
  obtain ⟨z, hz⟩ := List.exists_mem_of_ne_nil _ hopen
  have hzt : z ∈ (meet β (T.rename f) (s.rename g)).term.vars := by
    rw [term_meet hβ]
    exact Term.mem_vars_subst.2 ⟨v, hm, hz⟩
  have hmem := mem_meet_of_mem hc (Term.mem_vars_subst.2 ⟨v, hv, hz⟩) hzt
  obtain ⟨hT, hs⟩ := hfg.absent (mem_names_of_mem hc hb) hn
  have hself := hβ.eq_var_of_absent hT hs
  -- the variable of its own is in the constraint but not in the term
  have hbc : f b ∈ (c.subst fun v => β (f v)).vars :=
    Term.mem_vars_subst.2 ⟨b, hb, by simp [hself]⟩
  have hbt := h _ hmem _ hbc
  rw [term_meet hβ] at hbt
  obtain ⟨u, hu, hbu⟩ := Term.mem_vars_subst.1 hbt
  refine hβ.not_mem_of_absent hT hs ?_ hbu
  intro he
  exact hn (hfg.left (mem_names.2 (.inl hu)) (mem_names_of_mem hc hb) he ▸ hu)

end First

section Second
variable (hx : Met T σ x) (hfg : RenamedApart f g T x)
  (hβ : Term.MostGeneral β (T.term.rename f) (x.term.rename g))
include hx hfg

/-- A type can always meet again what it has met. -/
theorem Met.exists_unifier : ∃ θ : Substitution, (∀ w ∈ x.names, θ (g w) = .var w) ∧
    (T.term.rename f).subst θ = (x.term.rename g).subst θ := by
  obtain ⟨θ, hT, hg⟩ := hfg.exists_joint σ .var
  refine ⟨θ, hg, ?_⟩
  rw [Term.subst_rename, Term.subst_rename]
  calc T.term.subst (fun v => θ (f v))
      = T.term.subst σ := Term.subst_congr fun v hv => hT v (mem_names.2 (.inl hv))
    _ = x.term.subst .var := by rw [Term.subst_id, hx.term]
    _ = x.term.subst fun w => θ (g w) :=
      Term.subst_congr fun w hw => (hg w (mem_names.2 (.inl hw))).symm

include hβ

theorem Met.exists_names : ∃ k : String → String, Set.InjOn k {v | v ∈ x.names} ∧
    ∀ w ∈ x.names, β (g w) = .var (k w) := by
  obtain ⟨θ, hθ, hu⟩ := hx.exists_unifier hfg
  apply Term.exists_names (θ := fun w => β (g w)) (φ := θ)
  intro w hw
  rw [hβ.general θ hu (g w), hθ w hw]

end Second

/-- What a second meeting makes of variables: those of the type get the names `k`, those of the
first type's term stand for what they stood for, and the others are new. -/
structure Remeets (β : Substitution) (f g k : String → String) (σ : Substitution)
    (T x : Qualified) : Prop where
  injOn : Set.InjOn k {v | v ∈ x.names}
  stored : ∀ w ∈ x.names, β (g w) = .var (k w)
  shared : ∀ v ∈ T.term.vars, β (f v) = (σ v).rename k
  own : ∀ b ∈ T.names, b ∉ T.term.vars → β (f b) = .var (f b) ∧ ∀ w ∈ x.names, k w ≠ f b

theorem Met.exists_remeets (hx : Met T σ x) (hfg : RenamedApart f g T x)
    (hβ : Term.MostGeneral β (T.term.rename f) (x.term.rename g)) :
    ∃ k, Remeets β f g k σ T x := by
  obtain ⟨k, hinj, hk⟩ := hx.exists_names hfg hβ
  refine ⟨k, hinj, hk, ?_, ?_⟩
  · apply Term.subst_eq_subst_iff.1
    calc T.term.subst (fun v => β (f v))
        = (x.term.rename g).subst β := by rw [← hβ.unifies, Term.subst_rename]
      _ = x.term.subst fun w => β (g w) := Term.subst_rename g β x.term
      _ = x.term.rename k := Term.subst_congr fun w hw => hk w (mem_names.2 (.inl hw))
      _ = T.term.subst fun v => (σ v).rename k := by rw [hx.term, Term.rename, Term.subst_subst]; rfl
  · intro b hb hn
    obtain ⟨hT, hs⟩ := hfg.absent hb hn
    refine ⟨hβ.eq_var_of_absent hT hs, ?_⟩
    intro w hw he
    apply hβ.not_mem_of_absent hT hs (hfg.ne b hb w hw).symm
    rw [hk w hw, he]
    exact List.mem_singleton_self _

namespace Remeets
variable {k : String → String} (h : Remeets β f g k σ T x)
include h

theorem subst_stored {u : Term} (hu : ∀ w ∈ u.vars, w ∈ x.names) :
    (u.rename g).subst β = u.rename k := by
  rw [Term.subst_rename]
  exact Term.subst_congr fun w hw => h.stored w (hu w hw)

theorem subst_term : (x.rename g).term.subst β = x.term.rename k :=
  h.subst_stored fun _ hw => mem_names.2 (.inl hw)

theorem mem_of_stored (hs : x.Salient) {c : Term} (hc : c ∈ (x.rename k).constraints) :
    c ∈ (meet β (T.rename f) (x.rename g)).constraints := by
  have hsalient := hs.rename k c hc
  obtain ⟨d, hd, rfl⟩ := mem_constraints_rename.1 hc
  refine mem_constraints_meet.2 ⟨⟨d.rename g, .inr (mem_constraints_rename.2 ⟨d, hd, rfl⟩), ?_⟩, ?_⟩
  · exact h.subst_stored fun w => mem_names_of_mem hd
  · rw [h.subst_term]
    exact hsalient

theorem renews_of_new (hx : Met T σ x) {c : Term}
    (hc : c ∈ (meet β (T.rename f) (x.rename g)).constraints)
    (hn : c ∉ (x.rename k).constraints) : T.Renews x.term := by
  obtain ⟨⟨e, he | he, rfl⟩, z, hz, hzt⟩ := mem_constraints_meet.1 hc
  · obtain ⟨d, hd, rfl⟩ := mem_constraints_rename.1 he
    rw [Term.subst_rename] at hz hn
    obtain ⟨v, hv, hzv⟩ := Term.mem_vars_subst.1 hz
    rw [h.subst_term, Term.vars_rename] at hzt
    obtain ⟨w, hw, rfl⟩ := List.mem_map.1 hzt
    -- what it has in common with the term comes from a variable of the first type's term
    have hvt : v ∈ T.term.vars := by
      by_contra hvt
      obtain ⟨hself, hne⟩ := h.own v (mem_names_of_mem hd hv) hvt
      rw [hself] at hzv
      exact hne w (mem_names.2 (.inl hw)) (List.mem_singleton.1 hzv)
    have hopen : (σ v).vars ≠ [] := by
      intro hnil
      rw [h.shared v hvt, Term.vars_rename, hnil] at hzv
      exact absurd hzv List.not_mem_nil
    refine (renews_iff hx.term).2 ⟨d, hd, ⟨v, hv, hvt, hopen⟩, ?_⟩
    by_contra htied
    push Not at htied
    have hsubst : (d.subst fun v => β (f v)) = (d.subst σ).rename k := by
      rw [Term.rename, Term.subst_subst]
      exact Term.subst_congr fun v hv => h.shared v (htied v hv)
    have hvars : (d.subst σ).vars ≠ [] := by
      obtain ⟨y, hy⟩ := List.exists_mem_of_ne_nil _ hopen
      exact List.ne_nil_of_mem (Term.mem_vars_subst.2 ⟨v, hv, hy⟩)
    apply hn
    rw [hsubst]
    exact mem_constraints_rename.2 ⟨_, hx.constraints d hd htied hvars, rfl⟩
  · obtain ⟨d, hd, rfl⟩ := mem_constraints_rename.1 he
    rw [h.subst_stored fun w => mem_names_of_mem hd] at hn
    exact absurd (mem_constraints_rename.2 ⟨d, hd, rfl⟩) hn

theorem exists_new_of_renews (hx : Met T σ x) (hr : T.Renews x.term) :
    ∃ c ∈ (meet β (T.rename f) (x.rename g)).constraints, c ∉ (x.rename k).constraints := by
  obtain ⟨c, hc, ⟨v, hv, hvt, hopen⟩, b, hb, hbt⟩ := (renews_iff hx.term).1 hr
  obtain ⟨z, hz⟩ := List.exists_mem_of_ne_nil _ hopen
  have hkz : k z ∈ (c.subst fun v => β (f v)).vars := by
    refine Term.mem_vars_subst.2 ⟨v, hv, ?_⟩
    rw [h.shared v hvt, Term.vars_rename]
    exact List.mem_map_of_mem hz
  have hkt : k z ∈ ((x.rename g).term.subst β).vars := by
    rw [h.subst_term, Term.vars_rename, hx.term]
    exact List.mem_map_of_mem (Term.mem_vars_subst.2 ⟨v, hvt, hz⟩)
  refine ⟨c.subst fun v => β (f v), mem_meet_of_mem hc hkz hkt, ?_⟩
  intro hm
  obtain ⟨d, hd, he⟩ := mem_constraints_rename.1 hm
  obtain ⟨hself, hne⟩ := h.own b (mem_names_of_mem hc hb) hbt
  have hbd : f b ∈ (d.rename k).vars := by
    rw [he]
    exact Term.mem_vars_subst.2 ⟨b, hb, by simp [hself]⟩
  rw [Term.vars_rename] at hbd
  obtain ⟨w, hw, hkw⟩ := List.mem_map.1 hbd
  exact hne w (mem_names_of_mem hd hw) hkw

end Remeets

/-- A type that has met another one meets it again in itself, up to names, exactly if no constraint
has a variable of its own and still concerns the term; otherwise constraints are added. -/
theorem Met.meet_again (hx : Met T σ x) (hfg : RenamedApart f g T x)
    (hβ : Term.MostGeneral β (T.term.rename f) (x.term.rename g)) :
    (¬ T.Renews x.term → x.Variant (meet β (T.rename f) (x.rename g))) ∧
      (T.Renews x.term →
        x.constraints.size < (meet β (T.rename f) (x.rename g)).constraints.size) := by
  obtain ⟨k, hk⟩ := hx.exists_remeets hfg hβ
  constructor
  · intro hr
    refine ⟨k, hk.injOn, ?_⟩
    ext c
    · constructor
      · intro hc
        by_contra hn
        exact hr (hk.renews_of_new hx hc hn)
      · exact hk.mem_of_stored hx.salient
    · exact hk.subst_term
  · intro hr
    obtain ⟨c, hc, hn⟩ := hk.exists_new_of_renews hx hr
    rw [← size_constraints_rename hk.injOn]
    exact OrderedSet.size_lt_size (fun d hd => hk.mem_of_stored hx.salient hd) hc hn

end Qualified
end TypeClues
