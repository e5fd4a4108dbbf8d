import Mathlib.Logic.Function.Basic
import TypeClues.Naming.Scope
import TypeClues.Proofs.Substitution
import TypeClues.Proofs.Texts

/-!
# Hygiene of scopes

Scopes that draw from one supply never give two variables the same name. The text of a numbered
name determines its word and its number, and a supply numbers each word anew at every request. What
a scope has once resolved it resolves in the same way ever after. So a substitution for each scope,
chosen independently, is one substitution of the resolved names.
-/
namespace TypeClues

namespace Allocation

/-- The last mark that is no digit divides the word from the number. -/
theorem marked_inj {mark : String} {x : Char} (hm : mark.toList = [x]) (hx : x.isDigit = false)
    {v w : String} {m n : Nat} :
    v ++ mark ++ toString m = w ++ mark ++ toString n ↔ v = w ∧ m = n := by
  constructor
  · intro h
    have hdigit : ∀ k, x ∉ Nat.toDigits 10 k := by
      intro k hk
      have hd := Nat.isDigit_of_mem_toDigits (by decide) (by decide) hk
      rw [hx] at hd
      cases hd
    have hl := congrArg String.toList h
    simp only [String.toList_append, hm, Nat.toString_eq_repr, Nat.toList_repr,
      List.append_assoc] at hl
    obtain ⟨hw, hn⟩ := append_cons_inj_of_not_mem_right (hdigit m) (hdigit n) hl
    have hd := congrArg (fun ds => Nat.ofDigitChars 10 ds 0) hn
    exact ⟨String.toList_inj.1 hw, by simpa using hd⟩
  · rintro ⟨hw, hn⟩
    rw [hw, hn]

theorem name_inj {a b : Allocation} : a.name = b.name ↔ a.word = b.word ∧ a.number = b.number :=
  marked_inj rfl rfl

end Allocation

namespace Scope

def Extends (s s' : Scope) : Prop := ∀ v a, s.find? v = some a → s'.find? v = some a

/-- All variables of the term have allocations. -/
def Covers (s : Scope) (t : Term) : Prop := ∀ v ∈ t.vars, (s.find? v).isSome

theorem Extends.refl (s : Scope) : s.Extends s := fun _ _ h => h

theorem Extends.trans {s s' s'' : Scope} (h : s.Extends s') (h' : s'.Extends s'') :
    s.Extends s'' := fun v a ha => h' v a (h v a ha)

theorem Covers.extend {s s' : Scope} {t : Term} (h : s.Covers t) (he : s.Extends s') :
    s'.Covers t := by
  intro v hv
  obtain ⟨a, ha⟩ := Option.isSome_iff_exists.1 (h v hv)
  rw [he v a ha]
  rfl

theorem word_of_find? {s : Scope} {v : String} {a : Allocation} (h : s.find? v = some a) :
    a.word = v := by simpa using List.find?_some h

theorem mem_of_find? {s : Scope} {v : String} {a : Allocation} (h : s.find? v = some a) :
    a ∈ s.assigned := List.mem_of_find?_eq_some h

theorem resolved_of_find? {s : Scope} {v : String} {a : Allocation} (h : s.find? v = some a) :
    s.resolved v = a.name := by rw [resolved, h]

theorem Covers.rename_eq {s s' : Scope} {t : Term} (h : s.Covers t) (he : s.Extends s') :
    t.rename s'.resolved = t.rename s.resolved := by
  apply Term.subst_congr
  intro v hv
  obtain ⟨a, ha⟩ := Option.isSome_iff_exists.1 (h v hv)
  rw [resolved_of_find? ha, resolved_of_find? (he v a ha)]

theorem find?_cons (a : Allocation) (s : Scope) (v : String) :
    (Scope.mk (a :: s.assigned)).find? v = if a.word = v then some a else s.find? v := by
  simp only [find?, List.find?_cons]
  by_cases h : a.word = v
  · simp [h]
  · simp [h]

theorem extends_allocate (name : String) (s : Scope) (supply : Supply) :
    s.Extends (s.allocate name supply).2.1 := by
  intro v a ha
  rw [allocate]
  cases hn : s.find? name with
  | some b => exact ha
  | none =>
    have hv : name ≠ v := by
      rintro rfl
      rw [hn] at ha
      cases ha
    exact (find?_cons _ s v).trans ((if_neg hv).trans ha)

theorem find?_allocate (name : String) (s : Scope) (supply : Supply) :
    (s.allocate name supply).2.1.find? name = some (s.allocate name supply).1 := by
  rw [allocate]
  cases hn : s.find? name with
  | some b => exact hn
  | none => exact (find?_cons _ s name).trans (if_pos rfl)

theorem extends_reserve (names : List String) (s : Scope) (supply : Supply) :
    s.Extends (s.reserve names supply).1 := by
  induction names generalizing s supply with
  | nil => exact .refl s
  | cons name names ih => exact (extends_allocate name s supply).trans (ih _ _)

theorem isSome_find?_reserve {names : List String} {v : String} (hv : v ∈ names) (s : Scope)
    (supply : Supply) : ((s.reserve names supply).1.find? v).isSome := by
  induction names generalizing s supply with
  | nil => simp at hv
  | cons name names ih =>
    rcases List.mem_cons.1 hv with rfl | hv
    · rw [reserve, extends_reserve names _ _ _ _ (find?_allocate v s supply)]
      rfl
    · exact ih hv _ _

def CoversType (s : Scope) (q : Qualified) : Prop := ∀ t ∈ q.terms, s.Covers t

theorem CoversType.term {s : Scope} {q : Qualified} (h : s.CoversType q) : s.Covers q.term :=
  h _ (by simp [Qualified.terms])

theorem CoversType.extend {s s' : Scope} {q : Qualified} (h : s.CoversType q)
    (he : s.Extends s') : s'.CoversType q := fun t ht => (h t ht).extend he

theorem CoversType.rename_eq {s s' : Scope} {q : Qualified} (h : s.CoversType q)
    (he : s.Extends s') : q.rename s'.resolved = q.rename s.resolved := by
  have hc : q.constraints.toList.map (Term.rename s'.resolved) =
      q.constraints.toList.map (Term.rename s.resolved) :=
    List.map_congr_left fun t ht => (h t (by simp [Qualified.terms, ht])).rename_eq he
  simp only [Qualified.rename, Qualified.mapTerms, hc, h.term.rename_eq he]

theorem coversType_resolve (q : Qualified) (s : Scope) (supply : Supply) :
    (s.resolve q supply).2.1.CoversType q := by
  intro t ht v hv
  apply isSome_find?_reserve
  exact List.mem_flatMap.2 ⟨t, ht, hv⟩

end Scope

/-- Scopes of one supply whose names are apart: all their numbers have been issued, and one name
belongs to one scope. -/
structure Hygienic {ι : Type} (supply : Supply) (scope : ι → Scope) : Prop where
  issued : ∀ k, ∀ a ∈ (scope k).assigned, a.number ≤ supply.issued.count a.word
  apart : ∀ k l, ∀ a ∈ (scope k).assigned, ∀ b ∈ (scope l).assigned, a.name = b.name → k = l

namespace Hygienic
variable {ι : Type} {supply : Supply} {scope : ι → Scope}

theorem of_empty (supply : Supply) : Hygienic supply fun _ : ι => ({} : Scope) :=
  ⟨fun _ a ha => by simp at ha, fun _ _ a ha => by simp at ha⟩

theorem allocate [DecidableEq ι] (h : Hygienic supply scope) (k : ι) (name : String) :
    Hygienic ((scope k).allocate name supply).2.2
      (Function.update scope k ((scope k).allocate name supply).2.1) := by
  rw [Scope.allocate]
  cases hn : (scope k).find? name with
  | some a =>
    rw [Function.update_eq_self]
    exact h
  | none =>
    let fresh : Allocation := ⟨name, supply.issued.count name + 1, supply.allocated + 1⟩
    -- an allocation is the new one, in its scope, or an old one
    have old {l : ι} {a : Allocation}
        (ha : a ∈ (Function.update scope k ⟨fresh :: (scope k).assigned⟩ l).assigned) :
        (l = k ∧ a = fresh) ∨ a ∈ (scope l).assigned := by
      by_cases hl : l = k
      · subst hl
        rw [Function.update_self] at ha
        exact (List.mem_cons.1 ha).imp (fun ha => ⟨rfl, ha⟩) id
      · rw [Function.update_of_ne hl] at ha
        exact .inr ha
    -- no old allocation has the name of the new one
    have new {l : ι} {a : Allocation} (ha : a ∈ (scope l).assigned) : a.name ≠ fresh.name := by
      intro he
      obtain ⟨hw, hc⟩ := Allocation.name_inj.1 he
      have hi := h.issued l a ha
      rw [hw, hc] at hi
      exact absurd hi (by simp [fresh])
    refine ⟨fun l a ha => ?_, fun l m a ha b hb he => ?_⟩
    · rcases old ha with ⟨-, rfl⟩ | ha
      · simp [Supply.allocate, fresh]
      · exact Nat.le_trans (h.issued l a ha) List.count_le_count_cons
    · rcases old ha with ⟨hl, rfl⟩ | hal
      · rcases old hb with ⟨hm, -⟩ | hbm
        · exact hl.trans hm.symm
        · exact absurd he.symm (new hbm)
      · rcases old hb with ⟨-, rfl⟩ | hbm
        · exact absurd he (new hal)
        · exact h.apart l m a hal b hbm he

theorem reserve [DecidableEq ι] (h : Hygienic supply scope) (k : ι) (names : List String) :
    Hygienic ((scope k).reserve names supply).2
      (Function.update scope k ((scope k).reserve names supply).1) := by
  induction names generalizing supply scope with
  | nil =>
    simp only [Scope.reserve, Function.update_eq_self]
    exact h
  | cons name names ih =>
    have hi := ih (h.allocate k name)
    rw [Function.update_self, Function.update_idem] at hi
    exact hi

theorem resolved_inj (h : Hygienic supply scope) {k l : ι} {v w : String} {a b : Allocation}
    (ha : (scope k).find? v = some a) (hb : (scope l).find? w = some b) (he : a.name = b.name) :
    k = l ∧ v = w := by
  refine ⟨h.apart k l a (Scope.mem_of_find? ha) b (Scope.mem_of_find? hb) he, ?_⟩
  rw [← Scope.word_of_find? ha, ← Scope.word_of_find? hb, (Allocation.name_inj.1 he).1]

/-- Substitutions chosen for each scope by itself are one substitution of resolved names. -/
theorem exists_joint (h : Hygienic supply scope) (φ : ι → Substitution) :
    ∃ θ : Substitution, ∀ k t, (scope k).Covers t →
      (t.rename (scope k).resolved).subst θ = t.subst (φ k) := by
  classical
  let Source (name : String) (s : ι × String) : Prop :=
    ∃ a, (scope s.1).find? s.2 = some a ∧ a.name = name
  refine ⟨fun name => if hs : ∃ s, Source name s then φ hs.choose.1 hs.choose.2 else .var name,
    fun k t ht => ?_⟩
  rw [Term.subst_rename]
  apply Term.subst_congr
  intro v hv
  obtain ⟨a, ha⟩ := Option.isSome_iff_exists.1 (ht v hv)
  have hs : ∃ s, Source ((scope k).resolved v) s :=
    ⟨(k, v), a, ha, (Scope.resolved_of_find? ha).symm⟩
  obtain ⟨b, hb, he⟩ := hs.choose_spec
  rw [Scope.resolved_of_find? ha] at he
  obtain ⟨hk, hw⟩ := h.resolved_inj hb ha he
  rw [dif_pos hs, hk, hw]

end Hygienic
end TypeClues
